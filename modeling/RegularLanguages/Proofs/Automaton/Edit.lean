import RegularLanguages.Automaton.Edit
import RegularLanguages.Proofs.Automaton.Path

set_option autoImplicit false

/-! # Changes made one after the other

An automaton that is built by hand is changed in place: a call checks the states that it is given
and then writes. `Edit.perform` follows such a call step by step on an automaton that it can read
and write, and what it has written by the time it is refused stays written. Since all checks come
first, a refused call has written nothing (`Edit.run_eq`), so the calls are the functions that
return the changed automaton or the reason for the refusal. A call is refused exactly if it names
a state that does not exist (`Edit.exists_error_iff`), and otherwise keeps a valid automaton valid
(`Edit.valid_of_apply_eq_ok`). -/

namespace RegularLanguages

/-- A change to an automaton, with its arguments. -/
inductive Edit where
  | addState (accepting : Bool)
  | setInitial (id : StateId)
  | setAccepting (id : StateId) (accepting : Bool)
  | addEdge (source : StateId) (label : CharRange) (target : StateId)
  | addEpsilon (source target : StateId)
  deriving DecidableEq

/-- A computation that reads and writes an automaton and may be refused on the way. -/
abbrev InPlace (α : Type) := ExceptT InvariantViolation (StateM Automaton) α

namespace Edit

/-- The states that the change names. -/
def named : Edit → List StateId
  | addState _ => []
  | setInitial id => [id]
  | setAccepting id _ => [id]
  | addEdge source _ target => [source, target]
  | addEpsilon source target => [source, target]

/-- The changed automaton, or the reason for the refusal. -/
def apply (g : Automaton) : Edit → Except InvariantViolation Automaton
  | addState accepting => .ok (g.addState accepting)
  | setInitial id => g.setInitial id
  | setAccepting id accepting => g.setAccepting id accepting
  | addEdge source label target => g.addEdge source label target
  | addEpsilon source target => g.addEpsilon source target

/-- Refuses the call if the automaton has no such state. -/
def require (id : StateId) : InPlace Unit := do
  let g ← get
  liftExcept (g.requireState id)

/-- The change as a call that works in place. -/
def perform : Edit → InPlace Unit
  | addState accepting => modify fun g => g.addState accepting
  | setInitial id => do
    require id
    modify fun g => { g with initial := id }
  | setAccepting id accepting => do
    require id
    modify fun g => g.modifyState id fun s => { s with accepting }
  | addEdge source label target => do
    require source
    require target
    modify fun g => g.modifyState source fun s => { s with edges := s.edges ++ [⟨label, target⟩] }
  | addEpsilon source target => do
    require source
    require target
    modify fun g => g.modifyState source fun s => { s with epsilons := s.epsilons ++ [target] }

/-- The outcome of the call, and the automaton that it leaves behind. -/
def run (e : Edit) (g : Automaton) : Except InvariantViolation Unit × Automaton :=
  e.perform.run g

end Edit

/-! ## The check of a state -/

namespace Automaton

variable {g h : Automaton} {id : StateId} {k : Except InvariantViolation Automaton}

theorem requireState_bind_eq_ok_iff :
    (do g.requireState id; k) = .ok h ↔ id < g.size ∧ k = .ok h := by
  unfold requireState
  by_cases hid : id < g.size
  · rw [if_pos hid, and_iff_right hid]
    rfl
  · rw [if_neg hid]
    exact ⟨nofun, fun h => absurd h.1 hid⟩

theorem exists_requireState_bind_eq_error_iff :
    (∃ v, (do g.requireState id; k) = .error v) ↔ g.size ≤ id ∨ ∃ v, k = .error v := by
  unfold requireState
  by_cases hid : id < g.size
  · rw [if_pos hid, or_iff_right (Nat.not_le.2 hid)]
    rfl
  · rw [if_neg hid]
    exact iff_of_true ⟨_, rfl⟩ (Or.inl (Nat.not_lt.1 hid))

/-! ## Written states -/

theorem size_modifyState (g : Automaton) (id : StateId) (f : State → State) :
    (g.modifyState id f).size = g.size :=
  Array.size_modify

theorem state_modifyState {f : State → State} {p : StateId} (hp : p < g.size) :
    (g.modifyState id f).state p = if id = p then f (g.state p) else g.state p := by
  apply state_of_getElem?
  show (g.states.modify id f)[p]? = _
  rw [Array.getElem?_modify, getElem?_states hp]
  split <;> rfl

theorem state_modifyState_of_lt (h : id < g.size) (f : State → State) (p : StateId) :
    (g.modifyState id f).state p = if id = p then f (g.state p) else g.state p := by
  by_cases hp : p < g.size
  · exact state_modifyState hp
  · have hle : g.size ≤ p := Nat.le_of_not_lt hp
    have hmodify : (g.modifyState id f).size ≤ p := by
      rw [size_modifyState]
      exact hle
    rw [if_neg fun heq : id = p => hp (heq ▸ h), state_of_size_le hle, state_of_size_le hmodify]

theorem size_addState (g : Automaton) (accepting : Bool) :
    (g.addState accepting).size = g.size + 1 :=
  Array.size_push _

theorem state_addState {accepting : Bool} {p : StateId} (hp : p < g.size + 1) :
    (g.addState accepting).state p = if p = g.size then { accepting } else g.state p := by
  apply state_of_getElem?
  show (g.states.push { accepting })[p]? = _
  rw [Array.getElem?_push]
  show (if p = g.size then some _ else g.states[p]?) = _
  by_cases heq : p = g.size
  · rw [if_pos heq, if_pos heq]
  · rw [if_neg heq, if_neg heq]
    exact getElem?_states (Nat.lt_of_le_of_ne (Nat.le_of_lt_succ hp) heq)

/-- A state that does not accept and has no edges is what an unused number stands for. -/
theorem state_addState_false (g : Automaton) (p : StateId) :
    (g.addState false).state p = g.state p := by
  by_cases hp : p < g.size + 1
  · rw [state_addState hp]
    split
    · rename_i heq
      rw [heq, state_of_size_le (Nat.le_refl _)]
    · rfl
  · have hadd : (g.addState false).size ≤ p := by
      rw [size_addState]
      exact Nat.le_of_not_lt hp
    rw [state_of_size_le hadd, state_of_size_le (Nat.le_of_succ_le (Nat.le_of_not_lt hp))]

theorem valid_addState (hg : g.Valid) (accepting : Bool) : (g.addState accepting).Valid := by
  rw [valid_iff, size_addState]
  refine ⟨Nat.lt_succ_of_lt hg.1, fun p hp target ht => ?_⟩
  rw [state_addState hp] at ht
  split at ht
  · exact absurd ht List.not_mem_nil
  · exact Nat.lt_succ_of_lt (hg.target_lt ht)

/-- A state may be rewritten if all targets that it gets exist. -/
theorem valid_modifyState (hg : g.Valid) {f : State → State}
    (hf : ∀ s : State, ∀ target ∈ (f s).targets, target ∈ s.targets ∨ target < g.size) :
    (g.modifyState id f).Valid := by
  rw [valid_iff, size_modifyState]
  refine ⟨hg.1, fun p hp target ht => ?_⟩
  rw [state_modifyState hp] at ht
  split at ht
  · rcases hf _ target ht with hold | hlt
    · exact hg.target_lt hold
    · exact hlt
  · exact hg.target_lt ht

theorem valid_of_setInitial_eq_ok (hg : g.Valid) (h' : g.setInitial id = .ok h) : h.Valid := by
  obtain ⟨hid, hh⟩ := requireState_bind_eq_ok_iff.1 h'
  rw [← Except.ok.inj hh]
  exact ⟨hid, hg.2⟩

theorem valid_of_setAccepting_eq_ok (hg : g.Valid) {accepting : Bool}
    (h' : g.setAccepting id accepting = .ok h) : h.Valid := by
  obtain ⟨_, hh⟩ := requireState_bind_eq_ok_iff.1 h'
  rw [← Except.ok.inj hh]
  exact valid_modifyState hg fun s target ht => Or.inl ht

theorem valid_of_addEdge_eq_ok (hg : g.Valid) {source target : StateId} {label : CharRange}
    (h' : g.addEdge source label target = .ok h) : h.Valid := by
  obtain ⟨_, hrest⟩ := requireState_bind_eq_ok_iff.1 h'
  obtain ⟨htarget, hh⟩ := requireState_bind_eq_ok_iff.1 hrest
  rw [← Except.ok.inj hh]
  refine valid_modifyState hg fun s t ht => ?_
  simp only [State.targets, List.map_append, List.mem_append, List.map_singleton,
    List.mem_singleton] at ht ⊢
  rcases ht with (ht | rfl) | ht
  · exact Or.inl (Or.inl ht)
  · exact Or.inr htarget
  · exact Or.inl (Or.inr ht)

theorem valid_of_addEpsilon_eq_ok (hg : g.Valid) {source target : StateId}
    (h' : g.addEpsilon source target = .ok h) : h.Valid := by
  obtain ⟨_, hrest⟩ := requireState_bind_eq_ok_iff.1 h'
  obtain ⟨htarget, hh⟩ := requireState_bind_eq_ok_iff.1 hrest
  rw [← Except.ok.inj hh]
  refine valid_modifyState hg fun s t ht => ?_
  simp only [State.targets, List.mem_append, List.mem_singleton] at ht ⊢
  rcases ht with ht | ht | rfl
  · exact Or.inl (Or.inl ht)
  · exact Or.inl (Or.inr ht)
  · exact Or.inr htarget

end Automaton

/-! ## Calls -/

namespace Edit

variable {g h : Automaton}

/-- A check reads the automaton, and leaves it alone whatever it finds. -/
theorem run_require_bind (id : StateId) (k : InPlace Unit) (g : Automaton) :
    (do require id; k : InPlace Unit).run g = match g.requireState id with
      | .ok () => k.run g
      | .error v => (.error v, g) := by
  show (do liftExcept (g.requireState id); k : InPlace Unit).run g = _
  cases g.requireState id <;> rfl

/-- The outcome of a call that either returns a changed automaton or refuses. -/
def outcome (g : Automaton) :
    Except InvariantViolation Automaton → Except InvariantViolation Unit × Automaton
  | .ok h => (.ok (), h)
  | .error v => (.error v, g)

theorem run_modify (f : Automaton → Automaton) (g : Automaton) :
    (modify f : InPlace Unit).run g = outcome g (.ok (f g)) :=
  rfl

/-- A check in front of a call that has not written anything when it is refused. -/
theorem run_require_bind_eq_outcome {id : StateId} {k : InPlace Unit}
    {result : Except InvariantViolation Automaton} (hk : k.run g = outcome g result) :
    (do require id; k : InPlace Unit).run g = outcome g (do g.requireState id; result) := by
  rw [run_require_bind, hk]
  cases g.requireState id <;> rfl

/-- A call in place leaves the changed automaton behind, or refuses and leaves the automaton as it
    was. -/
theorem run_eq (e : Edit) (g : Automaton) : e.run g = outcome g (e.apply g) := by
  cases e with
  | addState accepting => exact run_modify _ g
  | setInitial id => exact run_require_bind_eq_outcome (run_modify _ g)
  | setAccepting id accepting => exact run_require_bind_eq_outcome (run_modify _ g)
  | addEdge source label target =>
    exact run_require_bind_eq_outcome (run_require_bind_eq_outcome (run_modify _ g))
  | addEpsilon source target =>
    exact run_require_bind_eq_outcome (run_require_bind_eq_outcome (run_modify _ g))

/-- A call is refused exactly if it names a state that does not exist. -/
theorem exists_apply_eq_error_iff (e : Edit) (g : Automaton) :
    (∃ v, e.apply g = .error v) ↔ ∃ id ∈ e.named, g.size ≤ id := by
  -- Behind the checks nothing is refused.
  have hwritten : ∀ h : Automaton, (∃ v : InvariantViolation, pure h = Except.error v) ↔ False :=
    fun _ => iff_of_false (fun ⟨_, hv⟩ => nomatch hv) not_false
  cases e with
  | addState accepting =>
    refine (hwritten (g.addState accepting)).trans ?_
    simp [named]
  | setInitial id =>
    refine Automaton.exists_requireState_bind_eq_error_iff.trans ?_
    simp [named, hwritten]
  | setAccepting id accepting =>
    refine Automaton.exists_requireState_bind_eq_error_iff.trans ?_
    simp [named, hwritten]
  | addEdge source label target =>
    refine Automaton.exists_requireState_bind_eq_error_iff.trans ?_
    rw [Automaton.exists_requireState_bind_eq_error_iff]
    simp [named, hwritten]
  | addEpsilon source target =>
    refine Automaton.exists_requireState_bind_eq_error_iff.trans ?_
    rw [Automaton.exists_requireState_bind_eq_error_iff]
    simp [named, hwritten]

theorem exists_error_iff (e : Edit) (g : Automaton) :
    (∃ v, (e.run g).1 = .error v) ↔ ∃ id ∈ e.named, g.size ≤ id := by
  rw [← exists_apply_eq_error_iff, run_eq]
  cases e.apply g <;> simp [outcome]

/-- A refused call has not written anything. -/
theorem snd_run_of_error {e : Edit} {v : InvariantViolation} (h : (e.run g).1 = .error v) :
    (e.run g).2 = g := by
  rw [run_eq] at h ⊢
  cases hcall : e.apply g with
  | error v => rfl
  | ok h' =>
    rw [hcall] at h
    cases h

/-! ## Validity -/

theorem valid_of_apply_eq_ok (hg : g.Valid) {e : Edit} (h' : e.apply g = .ok h) : h.Valid := by
  cases e with
  | addState accepting =>
    rw [← Except.ok.inj h']
    exact Automaton.valid_addState hg accepting
  | setInitial id => exact Automaton.valid_of_setInitial_eq_ok hg h'
  | setAccepting id accepting => exact Automaton.valid_of_setAccepting_eq_ok hg h'
  | addEdge source label target => exact Automaton.valid_of_addEdge_eq_ok hg h'
  | addEpsilon source target => exact Automaton.valid_of_addEpsilon_eq_ok hg h'

/-- Whether a call is refused or not, it leaves a valid automaton behind. -/
theorem valid_run (hg : g.Valid) (e : Edit) : (e.run g).2.Valid := by
  rw [run_eq]
  cases hcall : e.apply g with
  | error v => exact hg
  | ok h => exact valid_of_apply_eq_ok hg hcall

end Edit

end RegularLanguages
