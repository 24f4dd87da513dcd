import RegularLanguages.Alphabet
import RegularLanguages.Automaton.Edge

set_option autoImplicit false

/-! # Finite automata

An automaton is a row of states and the number of the initial one. A state says whether it
accepts, and holds its labelled edges and the targets of its epsilon edges, both in the order
in which they were added; that order can be seen from outside and is kept.

The same type serves for nondeterministic and deterministic automata. `IsDeterministic` asks
for no epsilon edges and for disjoint labels in every state. `Valid` asks that the initial
state and all targets exist. Graphs are built by the operations of this library, which keep
`Valid`; the type itself does not ask for it, and every function is total. -/

namespace RegularLanguages

/-- A state of an automaton. -/
structure State where
  accepting : Bool := false
  /-- The edges that read a character. -/
  edges : List Edge := []
  /-- The targets of the edges that read nothing. -/
  epsilons : List StateId := []
  deriving DecidableEq, Inhabited

namespace State

/-- Where one edge of either kind leads: labelled edges first. -/
def targets (s : State) : List StateId := s.edges.map Edge.target ++ s.epsilons

/-- The state with every target renumbered. -/
def retarget (f : StateId → StateId) (s : State) : State :=
  { s with edges := s.edges.map (Edge.retarget f), epsilons := s.epsilons.map f }

/-- No epsilon edges, and no character on two edges. -/
def IsDeterministic (s : State) : Prop :=
  s.epsilons = [] ∧ s.edges.Pairwise fun d e => d.label.Disjoint e.label

instance (s : State) : Decidable s.IsDeterministic :=
  inferInstanceAs (Decidable (s.epsilons = [] ∧ s.edges.Pairwise fun d e =>
    d.label.Disjoint e.label))

end State

/-- A finite automaton over characters. -/
structure Automaton where
  /-- The states; the place of a state is its number. -/
  states : Array State
  initial : StateId
  deriving DecidableEq

namespace Automaton

/-- The automaton with the listed states, the first of which is the initial one. -/
def ofList (states : List State) : Automaton := { states := states.toArray, initial := 0 }

/-! ## Looking -/

/-- The number of states. -/
def size (g : Automaton) : Nat := g.states.size

/-- The states in the order of their numbers. -/
def toList (g : Automaton) : List State := g.states.toList

/-- The state with a given number; a number that is not in use stands for a state without
    edges. -/
def state (g : Automaton) (id : StateId) : State := g.states[id]?.getD {}

/-- The numbers of the states that satisfy `p`, in ascending order. -/
def statesWhere (g : Automaton) (p : State → Bool) : List StateId :=
  g.toList.zipIdx.filterMap fun (s, id) => if p s then some id else none

def isAccepting (g : Automaton) (id : StateId) : Bool := (g.state id).accepting

/-- The accepting states in ascending order. -/
def acceptingStates (g : Automaton) : List StateId := g.statesWhere State.accepting

/-- The number of labelled edges. -/
def edgeCount (g : Automaton) : Nat := g.toList.foldr (fun s count => s.edges.length + count) 0

/-- The number of epsilon edges. -/
def epsilonCount (g : Automaton) : Nat :=
  g.toList.foldr (fun s count => s.epsilons.length + count) 0

def hasEpsilons (g : Automaton) : Bool := g.toList.any fun s => !s.epsilons.isEmpty

/-- Every label of the automaton, state by state. -/
def labels (g : Automaton) : List CharRange := g.toList.flatMap fun s => s.edges.map Edge.label

/-- The characters that some edge reads. -/
def symbols (g : Automaton) : Alphabet := Alphabet.ofRanges g.labels

theorem mem_statesWhere {g : Automaton} {p : State → Bool} {id : StateId} :
    id ∈ g.statesWhere p ↔ ∃ s, g.states[id]? = some s ∧ p s = true := by
  unfold statesWhere toList
  rw [List.mem_filterMap]
  constructor
  · rintro ⟨⟨s, i⟩, h, hi⟩
    rw [List.mem_zipIdx_iff_getElem?, Array.getElem?_toList] at h
    simp only [Option.ite_none_right_eq_some, Option.some.injEq] at hi
    obtain ⟨hp, rfl⟩ := hi
    exact ⟨s, h, hp⟩
  · rintro ⟨s, h, hp⟩
    exact ⟨(s, id), List.mem_zipIdx_iff_getElem?.2 (by simpa using h), by simp [hp]⟩

/-! ## Determinism -/

/-- Every state is deterministic. -/
def IsDeterministic (g : Automaton) : Prop := ∀ s ∈ g.toList, s.IsDeterministic

instance (g : Automaton) : Decidable g.IsDeterministic :=
  inferInstanceAs (Decidable (∀ s ∈ g.toList, s.IsDeterministic))

/-! ## Validity -/

/-- The initial state and every target exist. -/
def Valid (g : Automaton) : Prop :=
  g.initial < g.size ∧ ∀ s ∈ g.toList, ∀ target ∈ s.targets, target < g.size

instance (g : Automaton) : Decidable g.Valid :=
  inferInstanceAs (Decidable (g.initial < g.size ∧
    ∀ s ∈ g.toList, ∀ target ∈ s.targets, target < g.size))

/-- The first edge to a state that does not exist, as source and target. -/
def danglingEdge? (g : Automaton) : Option (StateId × StateId) :=
  g.toList.zipIdx.findSome? fun (s, id) =>
    (s.targets.find? fun target => g.size ≤ target).map fun target => (id, target)

/-- Refuses an automaton that is not valid and names the first fault. -/
def validate (g : Automaton) : Except InvariantViolation Unit :=
  if g.size ≤ g.initial then .error (.missingInitial g.initial g.size)
  else
    match g.danglingEdge? with
    | some (source, target) => .error (.danglingEdge source target)
    | none => .ok ()

/-! ## Changing all states -/

/-- Changes every state on its own. -/
def mapStates (f : State → State) (g : Automaton) : Automaton :=
  { g with states := g.states.map f }

@[simp] theorem toList_ofList (states : List State) : (ofList states).toList = states := rfl

@[simp] theorem toList_mapStates (f : State → State) (g : Automaton) :
    (g.mapStates f).toList = g.toList.map f := by
  simp [mapStates, toList]

end Automaton

end RegularLanguages
