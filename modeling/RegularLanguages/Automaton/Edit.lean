import RegularLanguages.Automaton.Basic

set_option autoImplicit false

/-! # Building automata by hand

The smallest changes to an automaton: a new state, another initial state, another acceptance
flag, one more edge. Each change names states, and each refuses a number that is not in use
before it changes anything. -/

namespace RegularLanguages.Automaton

/-- One state, which does not accept: the empty language. -/
def empty : Automaton := ofList [{}]

/-- The automaton with one more state; its number is the old size. -/
def addState (g : Automaton) (accepting : Bool) : Automaton :=
  { g with states := g.states.push { accepting } }

/-- Refuses a number that no state has. -/
def requireState (g : Automaton) (id : StateId) : Except InvariantViolation Unit :=
  if id < g.size then .ok () else .error (.missingState id g.size)

/-- Changes one state. -/
def modifyState (g : Automaton) (id : StateId) (f : State → State) : Automaton :=
  { g with states := g.states.modify id f }

def setInitial (g : Automaton) (id : StateId) : Except InvariantViolation Automaton := do
  g.requireState id
  return { g with initial := id }

def setAccepting (g : Automaton) (id : StateId) (accepting : Bool) :
    Except InvariantViolation Automaton := do
  g.requireState id
  return g.modifyState id fun s => { s with accepting }

/-- Adds an edge after the other edges of its source. -/
def addEdge (g : Automaton) (source : StateId) (label : CharRange) (target : StateId) :
    Except InvariantViolation Automaton := do
  g.requireState source
  g.requireState target
  return g.modifyState source fun s => { s with edges := s.edges ++ [⟨label, target⟩] }

/-- Adds an epsilon edge after the other epsilon edges of its source. -/
def addEpsilon (g : Automaton) (source target : StateId) :
    Except InvariantViolation Automaton := do
  g.requireState source
  g.requireState target
  return g.modifyState source fun s => { s with epsilons := s.epsilons ++ [target] }

end RegularLanguages.Automaton
