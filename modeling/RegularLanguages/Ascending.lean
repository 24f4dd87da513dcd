set_option autoImplicit false

/-! # Strictly ascending lists

Several parts of the library show a finite set to the outside as a list in ascending order:
the members of a state set, the boundary points of a family of ranges, the edges of a state.
This file keeps such lists by insertion. `insert` puts an element at its place and repeats
nothing, `ofList` sorts a whole list.

The order is any decidable `<`; the laws ask it to be transitive and trichotomous. The main
statements are `mem_ofList` (nothing is lost or added), `pairwise_ofList` (the result ascends)
and `eq_of_mem_iff` (an ascending list is determined by its members). -/

namespace RegularLanguages.Ascending

variable {α : Type} [LT α] [DecidableLT α]

/-- Puts `x` at its place in an ascending list; an element that is already there is not
    repeated. -/
def insert (x : α) : List α → List α
  | [] => [x]
  | y :: ys => if x < y then x :: y :: ys else if y < x then y :: insert x ys else y :: ys

/-- The elements of a list, each once, in ascending order. -/
def ofList (xs : List α) : List α := xs.foldr insert []

@[simp] theorem ofList_nil : ofList ([] : List α) = [] := rfl

@[simp] theorem ofList_cons (x : α) (xs : List α) : ofList (x :: xs) = insert x (ofList xs) := rfl

/-! ## Members -/

section Members

variable [Std.Trichotomous (α := α) (· < ·)]

@[simp] theorem mem_insert (x y : α) (xs : List α) : x ∈ insert y xs ↔ x = y ∨ x ∈ xs := by
  induction xs with
  | nil => simp [insert]
  | cons z zs ih =>
    unfold insert
    split
    · simp
    · split
      · simp only [List.mem_cons, ih]
        constructor <;> (rintro (h | h | h) <;> simp [h])
      · rename_i hyz hzy
        have : y = z := Std.Trichotomous.trichotomous (r := (· < ·)) y z hyz hzy
        subst this
        simp

@[simp] theorem mem_ofList (x : α) (xs : List α) : x ∈ ofList xs ↔ x ∈ xs := by
  induction xs with
  | nil => simp
  | cons y ys ih => simp [ih]

end Members

/-! ## Order -/

section Order

variable [Std.Trichotomous (α := α) (· < ·)] [Trans (α := α) (· < ·) (· < ·) (· < ·)]

theorem pairwise_insert (x : α) {xs : List α} (h : xs.Pairwise (· < ·)) :
    (insert x xs).Pairwise (· < ·) := by
  induction xs with
  | nil => simp [insert]
  | cons y ys ih =>
    obtain ⟨hy, hys⟩ := List.pairwise_cons.1 h
    unfold insert
    split
    · rename_i hxy
      refine List.pairwise_cons.2 ⟨fun z hz => ?_, h⟩
      rcases List.mem_cons.1 hz with rfl | hz
      · exact hxy
      · exact Trans.trans hxy (hy z hz)
    · split
      · rename_i hyx
        refine List.pairwise_cons.2 ⟨fun z hz => ?_, ih hys⟩
        rcases (mem_insert z x ys).1 hz with rfl | hz
        · exact hyx
        · exact hy z hz
      · exact h

theorem pairwise_ofList (xs : List α) : (ofList xs).Pairwise (· < ·) := by
  induction xs with
  | nil => exact List.Pairwise.nil
  | cons x xs ih => exact pairwise_insert x ih

end Order

/-! ## Uniqueness -/

omit [DecidableLT α] in
/-- Two ascending lists with the same members are equal. -/
theorem eq_of_mem_iff [Trans (α := α) (· < ·) (· < ·) (· < ·)] [Std.Irrefl (α := α) (· < ·)]
    {xs ys : List α}
    (hx : xs.Pairwise (· < ·)) (hy : ys.Pairwise (· < ·)) (h : ∀ a, a ∈ xs ↔ a ∈ ys) :
    xs = ys := by
  induction xs generalizing ys with
  | nil =>
    cases ys with
    | nil => rfl
    | cons y ys => exact absurd ((h y).2 List.mem_cons_self) List.not_mem_nil
  | cons x xs ih =>
    cases ys with
    | nil => exact absurd ((h x).1 List.mem_cons_self) List.not_mem_nil
    | cons y ys =>
      obtain ⟨hx1, hx2⟩ := List.pairwise_cons.1 hx
      obtain ⟨hy1, hy2⟩ := List.pairwise_cons.1 hy
      have irrefl (a : α) : ¬ a < a := Std.Irrefl.irrefl (r := (· < ·)) a
      have hxy : x = y := by
        rcases List.mem_cons.1 ((h x).1 List.mem_cons_self) with e | hxy
        · exact e
        · rcases List.mem_cons.1 ((h y).2 List.mem_cons_self) with e | hyx
          · exact e.symm
          · exact absurd (Trans.trans (hy1 x hxy) (hx1 y hyx)) (irrefl y)
      subst hxy
      refine congrArg (x :: ·) (ih hx2 hy2 fun a => ⟨fun ha => ?_, fun ha => ?_⟩)
      · rcases List.mem_cons.1 ((h a).1 (List.mem_cons_of_mem _ ha)) with rfl | hay
        · exact absurd (hx1 a ha) (irrefl a)
        · exact hay
      · rcases List.mem_cons.1 ((h a).2 (List.mem_cons_of_mem _ ha)) with rfl | hax
        · exact absurd (hy1 a ha) (irrefl a)
        · exact hax

/-- An ascending list stays as it is. -/
theorem ofList_eq_self [Std.Trichotomous (α := α) (· < ·)] [Std.Irrefl (α := α) (· < ·)]
    [Trans (α := α) (· < ·) (· < ·) (· < ·)] {xs : List α} (h : xs.Pairwise (· < ·)) :
    ofList xs = xs :=
  eq_of_mem_iff (pairwise_ofList xs) h fun x => mem_ofList x xs

end RegularLanguages.Ascending
