import Mathlib.Data.List.Forall2
import RegularLanguages.Proofs.Automaton.Path

set_option autoImplicit false

/-! # Walks

A path says that a word leads from one state to another. A walk says by which edges: it is the
list of the edges taken, labelled ones and epsilon edges, in order. The words that it spells have
one character from each of its labels, in order, and nothing for an epsilon edge.

A word leads along a path if and only if some walk between the same states spells it
(`path_iff_exists_walk`), so an automaton accepts what walks to accepting states spell. -/

namespace RegularLanguages

/-- An edge of either kind. -/
inductive Arc where
  | labelled (edge : Edge)
  | epsilon (target : StateId)
  deriving DecidableEq

namespace Arc

def target : Arc → StateId
  | labelled e => e.target
  | epsilon target => target

/-- The range that the edge reads a character of. An epsilon edge reads nothing. -/
def label? : Arc → Option CharRange
  | labelled e => some e.label
  | epsilon _ => none

end Arc

/-- The edges of both kinds that leave a state. -/
def State.arcs (s : State) : List Arc := s.edges.map .labelled ++ s.epsilons.map .epsilon

theorem State.labelled_mem_arcs {s : State} {e : Edge} : .labelled e ∈ s.arcs ↔ e ∈ s.edges := by
  simp [State.arcs]

theorem State.epsilon_mem_arcs {s : State} {target : StateId} :
    .epsilon target ∈ s.arcs ↔ target ∈ s.epsilons := by
  simp [State.arcs]

/-- The word has one character from each label of the edges, in order. -/
def Spells (arcs : List Arc) (w : List Char) : Prop :=
  List.Forall₂ (fun c label => c ∈ label) w (arcs.filterMap Arc.label?)

theorem spells_nil : Spells [] [] := List.Forall₂.nil

theorem spells_epsilon_cons {target : StateId} {arcs : List Arc} {w : List Char} :
    Spells (.epsilon target :: arcs) w ↔ Spells arcs w :=
  Iff.rfl

theorem spells_labelled_cons {e : Edge} {arcs : List Arc} {w : List Char} :
    Spells (.labelled e :: arcs) w ↔ ∃ c v, w = c :: v ∧ c ∈ e.label ∧ Spells arcs v := by
  show List.Forall₂ _ w (e.label :: arcs.filterMap Arc.label?) ↔ _
  rw [List.forall₂_cons_right_iff]
  constructor
  · intro h
    obtain ⟨c, v, hc, hv, rfl⟩ := h
    exact ⟨c, v, rfl, hc, hv⟩
  · intro h
    obtain ⟨c, v, rfl, hc, hv⟩ := h
    exact ⟨c, v, hc, hv, rfl⟩

namespace Automaton

variable {g : Automaton} {p q : StateId} {w : List Char}

/-- Each of the edges leaves the state that the one before it leads to. -/
inductive Walk (g : Automaton) : StateId → List Arc → StateId → Prop where
  | nil (p : StateId) : Walk g p [] p
  | cons {p q : StateId} {arc : Arc} {arcs : List Arc} :
      arc ∈ (g.state p).arcs → Walk g arc.target arcs q → Walk g p (arc :: arcs) q

theorem Path.exists_walk (h : g.Path p w q) : ∃ arcs, g.Walk p arcs q ∧ Spells arcs w := by
  induction h with
  | nil p => exact ⟨[], Walk.nil p, spells_nil⟩
  | epsilon hs _ ih =>
    obtain ⟨arcs, hwalk, hspells⟩ := ih
    exact ⟨_, Walk.cons (State.epsilon_mem_arcs.2 hs) hwalk, spells_epsilon_cons.2 hspells⟩
  | read hs _ ih =>
    obtain ⟨arcs, hwalk, hspells⟩ := ih
    obtain ⟨e, he, hc, rfl⟩ := hs
    exact ⟨_, Walk.cons (State.labelled_mem_arcs.2 he) hwalk,
      spells_labelled_cons.2 ⟨_, _, rfl, hc, hspells⟩⟩

theorem Walk.path {arcs : List Arc} (h : g.Walk p arcs q) (hw : Spells arcs w) : g.Path p w q := by
  induction h generalizing w with
  | nil p =>
    rw [List.forall₂_nil_right_iff.1 hw]
    exact Path.nil p
  | @cons _ _ arc _ harc _ ih =>
    cases arc with
    | labelled e =>
      obtain ⟨c, v, rfl, hc, hv⟩ := spells_labelled_cons.1 hw
      exact Path.read (Leads.of_mem (State.labelled_mem_arcs.1 harc) hc) (ih hv)
    | epsilon target =>
      exact Path.epsilon (State.epsilon_mem_arcs.1 harc) (ih (spells_epsilon_cons.1 hw))

theorem path_iff_exists_walk : g.Path p w q ↔ ∃ arcs, g.Walk p arcs q ∧ Spells arcs w := by
  constructor
  · exact Path.exists_walk
  · intro h
    obtain ⟨arcs, hwalk, hspells⟩ := h
    exact hwalk.path hspells

/-- A valid automaton accepts exactly the words that are spelled by a walk from the initial state
    to an accepting one. -/
theorem accepts_iff_exists_walk (hg : g.Valid) (w : List Char) :
    g.accepts w = true ↔
      ∃ arcs q, g.Walk g.initial arcs q ∧ g.isAccepting q = true ∧ Spells arcs w := by
  rw [accepts_iff_mem_language hg]
  constructor
  · intro h
    obtain ⟨q, hpath, hacc⟩ := h
    obtain ⟨arcs, hwalk, hspells⟩ := path_iff_exists_walk.1 hpath
    exact ⟨arcs, q, hwalk, hacc, hspells⟩
  · intro h
    obtain ⟨arcs, q, hwalk, hacc, hspells⟩ := h
    exact ⟨q, path_iff_exists_walk.2 ⟨arcs, hwalk, hspells⟩, hacc⟩

/-- A cycle of epsilon edges, with one labelled edge that leaves it. -/
theorem accepts_iff_exists_walk_cycle :
    let g := ofList [{ epsilons := [1, 1] }, { edges := [⟨.single 'a', 2⟩], epsilons := [0] },
      { accepting := true, epsilons := [0] }]
    g.Valid ∧ ∀ w, g.accepts w = true ↔
      ∃ arcs q, g.Walk g.initial arcs q ∧ g.isAccepting q = true ∧ Spells arcs w :=
  ⟨by decide, accepts_iff_exists_walk (by decide)⟩

end Automaton

end RegularLanguages
