import RegularLanguages.Ascending
import RegularLanguages.Numbering

set_option autoImplicit false

/-! # States and sets of states

A state is known by its number. A set of states is the ascending list of its members, so two
sets are equal exactly when they have the same members. Sets are compared by these lists; the
order has no meaning of its own and serves to find a set among others. -/

namespace RegularLanguages

/-- The number of a state. -/
abbrev StateId := Nat

/-- A finite set of states. -/
structure StateSet where
  /-- The members in ascending order. -/
  toList : List StateId
  ascending : toList.Pairwise (· < ·)
  deriving DecidableEq

namespace StateSet

def empty : StateSet := ⟨[], List.Pairwise.nil⟩

instance : Inhabited StateSet := ⟨empty⟩

/-- The set of the states that have a number. -/
def ofNumbering (states : Numbering StateId) : StateSet :=
  ⟨states.sorted, states.pairwise_sorted.imp Nat.compare_eq_lt.1⟩

/-- The set of the listed states. -/
def ofList (states : List StateId) : StateSet := ofNumbering (.ofList states)

def singleton (state : StateId) : StateSet := ⟨[state], List.pairwise_singleton _ _⟩

def insert (s : StateSet) (state : StateId) : StateSet :=
  ⟨Ascending.insert state s.toList, Ascending.pairwise_insert state s.ascending⟩

def insertAll (s : StateSet) (states : List StateId) : StateSet := states.foldl insert s

instance : Membership StateId StateSet := ⟨fun s state => state ∈ s.toList⟩

instance (state : StateId) (s : StateSet) : Decidable (state ∈ s) :=
  inferInstanceAs (Decidable (state ∈ s.toList))

def isEmpty (s : StateSet) : Bool := s.toList.isEmpty

def size (s : StateSet) : Nat := s.toList.length

@[simp] theorem mem_toList {state : StateId} {s : StateSet} : state ∈ s.toList ↔ state ∈ s :=
  Iff.rfl

@[simp] theorem not_mem_empty (state : StateId) : state ∉ empty := List.not_mem_nil

@[simp] theorem mem_singleton {state other : StateId} : state ∈ singleton other ↔ state = other :=
  List.mem_singleton

@[simp] theorem mem_ofNumbering {state : StateId} {states : Numbering StateId} :
    state ∈ ofNumbering states ↔ state ∈ states :=
  Numbering.mem_sorted

@[simp] theorem mem_ofList {state : StateId} {states : List StateId} :
    state ∈ ofList states ↔ state ∈ states :=
  mem_ofNumbering.trans Numbering.mem_ofList

@[simp] theorem mem_insert {state other : StateId} {s : StateSet} :
    state ∈ s.insert other ↔ state = other ∨ state ∈ s :=
  Ascending.mem_insert state other s.toList

/-- Sets with the same members are equal. -/
theorem ext {s t : StateSet} (h : ∀ state, state ∈ s ↔ state ∈ t) : s = t := by
  have := Ascending.eq_of_mem_iff s.ascending t.ascending h
  cases s; cases t
  simp only at this
  subst this
  rfl

instance : Ord StateSet := ⟨compareOn toList⟩

instance : Std.TransOrd StateSet := inferInstanceAs (Std.TransCmp (compareOn toList))

instance : Std.LawfulEqOrd StateSet where
  eq_of_compare {s t} h := by
    have : s.toList = t.toList := Std.LawfulEqOrd.eq_of_compare (α := List StateId) h
    exact ext fun state => by rw [← mem_toList, ← mem_toList, this]

/-- The members between braces, as in `{1, 5}`. -/
def render (s : StateSet) : String :=
  "\x7b" ++ ", ".intercalate (s.toList.map toString) ++ "\x7d"

end StateSet

end RegularLanguages
