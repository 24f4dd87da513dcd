import RegularLanguages.Automaton.Rational
import RegularLanguages.Proofs.Automaton.Path

set_option autoImplicit false

/-! # Copies inside an automaton

Every rational operation makes an automaton that contains copies of its operands. A copy moves
as the original does, with the numbers moved up; only its accepting states may differ, which may
have epsilon edges that lead on and may stop to accept. `Holds` says so.

A word accepted from a state of the copy is therefore a word of the original followed by what is
accepted after it. `Holds.mem_languageFrom` and `Holds.mem_mul` are the two halves of this, stated
so that the way on may lead back into the copy, as it does in a repetition. -/

namespace RegularLanguages.Automaton

variable {g b : Automaton} {offset : Nat} {keep : Bool} {exits : List StateId}

/-- From `offset` on `g` holds the states of `b`. Those that accept in `b` have epsilon edges to
    `exits` besides, and accept in `g` only if `keep` says so. -/
structure Holds (g b : Automaton) (offset : Nat) (keep : Bool) (exits : List StateId) :
    Prop where
  isAccepting_iff : ∀ p < b.size,
    g.isAccepting (p + offset) = true ↔ b.isAccepting p = true ∧ keep = true
  moves_iff : ∀ p < b.size, ∀ c y,
    g.Moves (p + offset) c y ↔ ∃ q, b.Moves p c q ∧ q + offset = y
  mem_epsilons_iff : ∀ p < b.size, ∀ y, y ∈ (g.state (p + offset)).epsilons ↔
    (∃ q ∈ (b.state p).epsilons, q + offset = y) ∨ b.isAccepting p = true ∧ y ∈ exits

/-! ## Copies by construction -/

/-- States that differ in their numbers only make a copy without exits. -/
theorem holds_of_retarget
    (h : ∀ p < b.size, g.state (p + offset) = (b.state p).retarget (· + offset)) :
    Holds g b offset true [] where
  isAccepting_iff p hp := by
    unfold isAccepting
    rw [h p hp]
    simp [State.retarget]
  moves_iff p hp c y := by
    unfold Moves
    rw [h p hp]
    exact leads_map_retarget
  mem_epsilons_iff p hp y := by
    rw [h p hp]
    show y ∈ (b.state p).epsilons.map (· + offset) ↔ _
    simp [List.mem_map]

/-- Linked states make a copy with one exit. -/
theorem holds_of_link {target : StateId}
    (h : ∀ p < b.size, g.state p = if (b.state p).accepting then
      { b.state p with accepting := keep, epsilons := (b.state p).epsilons ++ [target] }
      else b.state p) :
    Holds g b 0 keep [target] where
  isAccepting_iff p hp := by
    unfold isAccepting
    rw [Nat.add_zero, h p hp]
    split
    · rename_i hacc
      exact ⟨fun hkeep => ⟨hacc, hkeep⟩, fun hboth => hboth.2⟩
    · rename_i hacc
      exact ⟨fun hb => absurd hb hacc, fun hboth => absurd hboth.1 hacc⟩
  moves_iff p hp c y := by
    have hedges : (g.state p).edges = (b.state p).edges := by
      rw [h p hp]
      split <;> rfl
    unfold Moves
    rw [Nat.add_zero, hedges]
    simp
  mem_epsilons_iff p hp y := by
    unfold isAccepting
    rw [Nat.add_zero, h p hp]
    split
    · rename_i hacc
      simp [hacc]
    · rename_i hacc
      simp [hacc]

/-! ## Languages of copies -/

theorem Holds.path (h : Holds g b offset keep exits) (hb : b.Valid) {p q : StateId}
    {w : List Char} (hp : p < b.size) (hpath : b.Path p w q) :
    g.Path (p + offset) w (q + offset) := by
  have hsimulates : Simulates (fun p x => p < b.size ∧ p + offset = x) b g := by
    constructor
    · intro p _ q hpx hq
      obtain ⟨hp, rfl⟩ := hpx
      have hlt := hb.target_lt (mem_targets_of_mem_epsilons hq)
      exact ⟨_, (h.mem_epsilons_iff p hp _).2 (Or.inl ⟨q, hq, rfl⟩), hlt, rfl⟩
    · intro p _ c q hpx hq
      obtain ⟨hp, rfl⟩ := hpx
      have hlt := hb.target_lt hq.mem_targets
      exact ⟨_, (h.moves_iff p hp c _).2 ⟨q, hq, rfl⟩, hlt, rfl⟩
  obtain ⟨_, hpath, _, rfl⟩ := hsimulates.exists_path hpath ⟨hp, rfl⟩
  exact hpath

/-- A word of the original and then a word that may follow. -/
theorem Holds.mem_languageFrom (h : Holds g b offset keep exits) (hb : b.Valid)
    {K : Language Char}
    (hK : ∀ v ∈ K, keep = true ∧ v = [] ∨ ∃ x ∈ exits, v ∈ g.languageFrom x) {p : StateId}
    (hp : p < b.size) {w : List Char} (hw : w ∈ b.languageFrom p * K) :
    w ∈ g.languageFrom (p + offset) := by
  obtain ⟨u, ⟨q, hq, hacc⟩, v, hv, rfl⟩ := Language.mem_mul.1 hw
  have hlt := hq.lt_size hb hp
  refine (h.path hb hp hq).languageFrom_mem ?_
  rcases hK v hv with ⟨hkeep, rfl⟩ | ⟨x, hx, hvx⟩
  · exact nil_mem_languageFrom ((h.isAccepting_iff q hlt).2 ⟨hacc, hkeep⟩)
  · have hexit := (h.mem_epsilons_iff q hlt x).2 (Or.inr ⟨hacc, hx⟩)
    exact (Path.epsilon hexit (Path.nil x)).languageFrom_mem hvx

/-- Nothing else is accepted. Of a word that is accepted from an exit it may be assumed, if the
    exit is a state of the copy, that it is of the form in question. -/
theorem Holds.mem_mul (h : Holds g b offset keep exits) (hb : b.Valid) {K : Language Char}
    (hkeep : keep = true → [] ∈ K)
    (hexits : ∀ x ∈ exits, ∀ w ∈ g.languageFrom x,
      (∀ q < b.size, q + offset = x → w ∈ b.languageFrom q * K) → w ∈ K)
    {p : StateId} (hp : p < b.size) {w : List Char} (hw : w ∈ g.languageFrom (p + offset)) :
    w ∈ b.languageFrom p * K := by
  -- The family says nothing of the states outside the copy.
  let L : StateId → Language Char := fun x =>
    {w | ∀ q < b.size, q + offset = x → w ∈ b.languageFrom q * K}
  refine languageFrom_le (L := L) ?_ ?_ ?_ hw p hp rfl
  · rintro _ hacc q hq rfl
    obtain ⟨hqacc, hk⟩ := (h.isAccepting_iff q hq).1 hacc
    exact Language.append_mem_mul (nil_mem_languageFrom hqacc) (hkeep hk)
  · rintro _ y hy w hwy ih q hq rfl
    rcases (h.mem_epsilons_iff q hq y).1 hy with ⟨r, hr, rfl⟩ | ⟨hqacc, hexit⟩
    · have hlt := hb.target_lt (mem_targets_of_mem_epsilons hr)
      obtain ⟨u, hu, v, hv, rfl⟩ := Language.mem_mul.1 (ih r hlt rfl)
      exact Language.append_mem_mul ((Path.epsilon hr (Path.nil r)).languageFrom_mem hu) hv
    · exact Language.append_mem_mul (nil_mem_languageFrom hqacc) (hexits y hexit w hwy ih)
  · rintro _ c y hy w _ ih q hq rfl
    obtain ⟨r, hr, rfl⟩ := (h.moves_iff q hq c y).1 hy
    have hlt := hb.target_lt hr.mem_targets
    obtain ⟨u, hu, v, hv, rfl⟩ := Language.mem_mul.1 (ih r hlt rfl)
    exact Language.append_mem_mul (hr.path.languageFrom_mem hu) hv

/-- A copy without exits has the languages of the original. -/
theorem Holds.languageFrom_eq (h : Holds g b offset true []) (hb : b.Valid) {p : StateId}
    (hp : p < b.size) : g.languageFrom (p + offset) = b.languageFrom p := by
  rw [← mul_one (b.languageFrom p)]
  ext w
  constructor
  · exact h.mem_mul hb (fun _ => Language.nil_mem_one) (fun x hx => absurd hx List.not_mem_nil) hp
  · exact h.mem_languageFrom hb (fun v hv => Or.inl ⟨rfl, hv⟩) hp

end RegularLanguages.Automaton
