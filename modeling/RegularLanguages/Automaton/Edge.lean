import RegularLanguages.CharRange.Normal
import RegularLanguages.Distinct
import RegularLanguages.StateSet

set_option autoImplicit false

/-! # Labelled edges

An edge carries a range of characters and leads to a state. Several edges of one state may say
the same thing: `mergeEdges` brings the edges to each target into normal form and sorts the
whole, so its result depends on nothing but which character leads where. -/

namespace RegularLanguages

/-- An edge to `target` that reads any one character of `label`. -/
structure Edge where
  label : CharRange
  target : StateId
  deriving DecidableEq

namespace Edge

/-- The edge to the state with another number. -/
def retarget (f : StateId → StateId) (e : Edge) : Edge := ⟨e.label, f e.target⟩

/-! ## Order

Edges are ordered by their label and then by their target. -/

instance : LT Edge := ⟨fun d e => d.label < e.label ∨ d.label = e.label ∧ d.target < e.target⟩

theorem lt_def {d e : Edge} :
    d < e ↔ d.label < e.label ∨ d.label = e.label ∧ d.target < e.target :=
  Iff.rfl

instance : DecidableLT Edge := fun d e =>
  inferInstanceAs (Decidable (d.label < e.label ∨ d.label = e.label ∧ d.target < e.target))

instance : Std.Irrefl (α := Edge) (· < ·) where
  irrefl e h := by
    rcases lt_def.1 h with h | ⟨_, h⟩
    · exact Std.Irrefl.irrefl (r := (· < · : CharRange → CharRange → Prop)) _ h
    · exact Nat.lt_irrefl _ h

instance : Trans (α := Edge) (· < ·) (· < ·) (· < ·) where
  trans {a b c} h k := by
    rcases lt_def.1 h with h | ⟨h1, h2⟩ <;> rcases lt_def.1 k with k | ⟨k1, k2⟩
    · exact Or.inl (Trans.trans h k)
    · exact Or.inl (k1 ▸ h)
    · exact Or.inl (h1 ▸ k)
    · exact Or.inr ⟨h1.trans k1, Nat.lt_trans h2 k2⟩

instance : Std.Trichotomous (α := Edge) (· < ·) where
  trichotomous a b h k := by
    have hl : a.label = b.label := by
      apply Std.Trichotomous.trichotomous (r := (· < · : CharRange → CharRange → Prop))
      · exact fun hl => h (Or.inl hl)
      · exact fun hl => k (Or.inl hl)
    have ht : a.target = b.target :=
      Nat.le_antisymm (Nat.le_of_not_lt fun ht => k (Or.inr ⟨hl.symm, ht⟩))
        (Nat.le_of_not_lt fun ht => h (Or.inr ⟨hl, ht⟩))
    cases a; cases b
    simp only at hl ht
    subst hl ht
    rfl

end Edge

/-- The labels of the edges that lead to `target`, in stored order. -/
def labelsTo (target : StateId) (edges : List Edge) : List CharRange :=
  edges.filterMap fun e => if e.target = target then some e.label else none

/-- The edges with the same moves in which the labels to each target are in normal form, in
    ascending order. -/
def mergeEdges (edges : List Edge) : List Edge :=
  Ascending.ofList <| (novel [] (edges.map Edge.target)).flatMap fun target =>
    (CharRange.normalize (labelsTo target edges)).map fun label => ⟨label, target⟩

end RegularLanguages
