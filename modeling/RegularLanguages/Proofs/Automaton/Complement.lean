import RegularLanguages.Automaton.Boolean
import RegularLanguages.Proofs.Alphabet
import RegularLanguages.Proofs.Automaton.Subset

set_option autoImplicit false

/-! # Complement

A state of the complement has one move on each symbol of the alphabet and none on other
characters: the move that the state had, if it had one, and a move into the sink otherwise
(`leads_complemented`). Such a state never gets stuck on a word over the alphabet, so what it
accepts after swapping are the words over the alphabet that it did not accept
(`mem_languageFrom_complementOver`).

Nothing is asked of the automaton but that it is valid and deterministic: unreachable states, and
labels that are spread over several edges, do no harm. -/

namespace RegularLanguages

/-! ## One state -/

namespace State

variable {alphabet : Alphabet} {sink q : StateId} {s : State} {c : Char}

/-- The edges of a state, cut down to the alphabet. -/
def clippedEdges (alphabet : Alphabet) (s : State) : List Edge :=
  s.edges.flatMap fun e => (alphabet.clip e.label).map fun label => ⟨label, e.target⟩

theorem edges_complemented (alphabet : Alphabet) (sink : StateId) (s : State) :
    (s.complemented alphabet sink).edges = s.clippedEdges alphabet ++
      (alphabet.uncovered ((s.clippedEdges alphabet).map Edge.label)).map fun label =>
        ⟨label, sink⟩ :=
  rfl

theorem leads_clippedEdges :
    Leads (s.clippedEdges alphabet) c q ↔ c ∈ alphabet ∧ Leads s.edges c q := by
  unfold clippedEdges
  constructor
  · intro h
    obtain ⟨d, hd, hc, rfl⟩ := h
    obtain ⟨e, he, hde⟩ := List.mem_flatMap.1 hd
    obtain ⟨label, hlabel, rfl⟩ := List.mem_map.1 hde
    obtain ⟨ha, hce⟩ := Alphabet.exists_mem_clip_iff.1 ⟨label, hlabel, hc⟩
    exact ⟨ha, Leads.of_mem he hce⟩
  · intro h
    obtain ⟨ha, e, he, hce, rfl⟩ := h
    obtain ⟨label, hlabel, hc⟩ := Alphabet.exists_mem_clip_iff.2 ⟨ha, hce⟩
    refine ⟨⟨label, e.target⟩, List.mem_flatMap.2 ⟨e, he, ?_⟩, hc, rfl⟩
    exact List.mem_map.2 ⟨label, hlabel, rfl⟩

/-- What the clipped edges leave of the alphabet are the symbols without a move. -/
theorem exists_mem_missing_iff :
    (∃ label ∈ alphabet.uncovered ((s.clippedEdges alphabet).map Edge.label), c ∈ label) ↔
      c ∈ alphabet ∧ ∀ t, ¬ Leads s.edges c t := by
  rw [Alphabet.exists_mem_uncovered_iff]
  refine and_congr_right fun ha => ?_
  rw [← not_exists, ← not_iff_not, not_not]
  have hleads : (∃ t, Leads s.edges c t) ↔ ∃ t, Leads (s.clippedEdges alphabet) c t := by
    simp only [leads_clippedEdges, ha, true_and]
  rw [hleads, exists_leads_iff]
  simp

/-- On a symbol of the alphabet the move that the state had, or else a move into the sink. -/
theorem leads_complemented :
    Leads (s.complemented alphabet sink).edges c q ↔
      c ∈ alphabet ∧ (Leads s.edges c q ∨ q = sink ∧ ∀ t, ¬ Leads s.edges c t) := by
  rw [edges_complemented, leads_append, leads_clippedEdges, leads_map_mk, exists_mem_missing_iff]
  tauto

theorem pairwise_disjoint_clippedEdges (h : s.IsDeterministic) (alphabet : Alphabet) :
    (s.clippedEdges alphabet).Pairwise fun d e => d.label.Disjoint e.label := by
  refine List.pairwise_flatMap.2 ⟨fun e _ => ?_, h.2.imp fun {d e} hde x hx y hy => ?_⟩
  · exact List.pairwise_map.2 (alphabet.inOrder_clip e.label).pairwise_disjoint
  · obtain ⟨label, hlabel, rfl⟩ := List.mem_map.1 hx
    obtain ⟨label', hlabel', rfl⟩ := List.mem_map.1 hy
    exact hde.mono (fun _ => Alphabet.mem_of_mem_clip hlabel)
      fun _ => Alphabet.mem_of_mem_clip hlabel'

theorem IsDeterministic.complemented (h : s.IsDeterministic) (alphabet : Alphabet)
    (sink : StateId) : (s.complemented alphabet sink).IsDeterministic := by
  refine ⟨rfl, ?_⟩
  rw [edges_complemented]
  refine List.pairwise_append.2 ⟨pairwise_disjoint_clippedEdges h alphabet, ?_, ?_⟩
  · exact List.pairwise_map.2 (alphabet.inOrder_uncovered _).pairwise_disjoint
  · intro d hd e he
    obtain ⟨label, hlabel, rfl⟩ := List.mem_map.1 he
    refine CharRange.disjoint_iff.2 fun c hcd hce => ?_
    have hmissing := (Alphabet.exists_mem_uncovered_iff.1 ⟨label, hlabel, hce⟩).2
    exact hmissing d.label (List.mem_map.2 ⟨d, hd, rfl⟩) hcd

end State

namespace Automaton

variable {g d : Automaton} {alphabet : Alphabet} {p q : StateId} {c : Char} {w : List Char}

/-! ## The complement of a deterministic automaton -/

/-- The state from which nothing but the end of a word over the alphabet is to come. -/
def sinkState (alphabet : Alphabet) (sink : StateId) : State :=
  { accepting := true, edges := alphabet.ranges.map fun label => ⟨label, sink⟩ }

/-- The complemented states, with the sink behind them. -/
def complementOver (d : Automaton) (alphabet : Alphabet) : Automaton :=
  let sink := sinkState alphabet d.size
  { d with states := (d.states.map (State.complemented alphabet d.size)).push sink }

theorem complement_eq_error (g : Automaton) (h : ∀ c, c ∉ alphabet) :
    g.complement alphabet = .error .undeclared := by
  unfold complement
  rw [Alphabet.requireDeclared_eq_error h]
  rfl

theorem complement_eq_ok (g : Automaton) (h : ∃ c, c ∈ alphabet) :
    g.complement alphabet = .ok (g.determinized.complementOver alphabet) := by
  unfold complement
  rw [Alphabet.requireDeclared_eq_ok h]
  rfl

theorem size_complementOver (d : Automaton) (alphabet : Alphabet) :
    (d.complementOver alphabet).size = d.size + 1 := by
  simp [complementOver, size]

theorem state_complementOver (hp : p < d.size) :
    (d.complementOver alphabet).state p = (d.state p).complemented alphabet d.size := by
  apply state_of_getElem?
  show ((d.states.map _).push _)[p]? = _
  have hne : p ≠ d.states.size := Nat.ne_of_lt hp
  rw [Array.getElem?_push, Array.size_map, if_neg hne, Array.getElem?_map, getElem?_states hp]
  rfl

theorem state_complementOver_sink (d : Automaton) (alphabet : Alphabet) :
    (d.complementOver alphabet).state d.size = sinkState alphabet d.size := by
  apply state_of_getElem?
  show ((d.states.map _).push _)[d.size]? = _
  rw [Array.getElem?_push, Array.size_map]
  exact if_pos rfl

theorem lt_size_complementOver (hp : p < (d.complementOver alphabet).size) :
    p < d.size ∨ p = d.size := by
  rw [size_complementOver] at hp
  exact Nat.lt_succ_iff_lt_or_eq.1 hp

theorem isDeterministic_complementOver (hd : d.IsDeterministic) (alphabet : Alphabet) :
    (d.complementOver alphabet).IsDeterministic := by
  refine isDeterministic_of_forall_lt fun p hp => ?_
  rcases lt_size_complementOver hp with hlt | rfl
  · rw [state_complementOver hlt]
    exact (isDeterministic_iff.1 hd p).complemented alphabet d.size
  · rw [state_complementOver_sink]
    exact ⟨rfl, List.pairwise_map.2 alphabet.inOrder_ranges.pairwise_disjoint⟩

/-! ## Moves of the complement -/

theorem moves_complementOver (hp : p < d.size) :
    (d.complementOver alphabet).Moves p c q ↔
      c ∈ alphabet ∧ (d.Moves p c q ∨ q = d.size ∧ ∀ r, ¬ d.Moves p c r) := by
  rw [Moves, state_complementOver hp]
  exact State.leads_complemented

theorem moves_complementOver_sink :
    (d.complementOver alphabet).Moves d.size c q ↔ c ∈ alphabet ∧ q = d.size := by
  rw [Moves, state_complementOver_sink]
  exact leads_map_mk

/-- Every state moves on the symbols of the alphabet and on nothing else. -/
theorem exists_moves_complementOver_iff (hp : p < (d.complementOver alphabet).size) :
    (∃ q, (d.complementOver alphabet).Moves p c q) ↔ c ∈ alphabet := by
  rcases lt_size_complementOver hp with hlt | rfl
  · simp only [moves_complementOver hlt]
    constructor
    · intro h
      obtain ⟨_, hc, _⟩ := h
      exact hc
    · intro hc
      by_cases hmoves : ∃ q, d.Moves p c q
      · obtain ⟨q, hq⟩ := hmoves
        exact ⟨q, hc, Or.inl hq⟩
      · exact ⟨d.size, hc, Or.inr ⟨rfl, not_exists.1 hmoves⟩⟩
  · simp only [moves_complementOver_sink, exists_and_left, exists_eq, and_true]

theorem valid_complementOver (hg : d.Valid) (hd : d.IsDeterministic) (alphabet : Alphabet) :
    (d.complementOver alphabet).Valid := by
  have hsize := size_complementOver d alphabet
  refine (isDeterministic_complementOver hd alphabet).epsilonFree.valid ?_ fun p hp c q hmoves => ?_
  · rw [hsize]
    exact Nat.lt_succ_of_lt hg.1
  · rw [hsize] at hp ⊢
    rcases Nat.lt_succ_iff_lt_or_eq.1 hp with hlt | rfl
    · rcases ((moves_complementOver hlt).1 hmoves).2 with hmoves | ⟨rfl, _⟩
      · exact Nat.lt_succ_of_lt (hg.target_lt hmoves.mem_targets)
      · exact Nat.lt_succ_self d.size
    · rw [(moves_complementOver_sink.1 hmoves).2]
      exact Nat.lt_succ_self d.size

/-! ## Languages of the complement -/

theorem mem_languageFrom_complementOver_sink (hd : d.IsDeterministic) :
    w ∈ (d.complementOver alphabet).languageFrom d.size ↔ ∀ c ∈ w, c ∈ alphabet := by
  have hfree := (isDeterministic_complementOver hd alphabet).epsilonFree
  induction w with
  | nil =>
    rw [hfree.nil_mem_languageFrom_iff, isAccepting, state_complementOver_sink]
    exact iff_of_true rfl fun c hc => absurd hc List.not_mem_nil
  | cons c w ih =>
    rw [hfree.cons_mem_languageFrom_iff, List.forall_mem_cons]
    simp only [moves_complementOver_sink]
    constructor
    · intro h
      obtain ⟨_, ⟨hc, rfl⟩, hw⟩ := h
      exact ⟨hc, ih.1 hw⟩
    · intro h
      exact ⟨d.size, ⟨h.1, rfl⟩, ih.2 h.2⟩

/-- A complemented state accepts the words over the alphabet that the state did not accept. -/
theorem mem_languageFrom_complementOver (hg : d.Valid) (hd : d.IsDeterministic)
    (hp : p < d.size) : w ∈ (d.complementOver alphabet).languageFrom p ↔
      (∀ c ∈ w, c ∈ alphabet) ∧ w ∉ d.languageFrom p := by
  have hcomplement := isDeterministic_complementOver hd alphabet
  induction w generalizing p with
  | nil =>
    rw [hcomplement.epsilonFree.nil_mem_languageFrom_iff, hd.epsilonFree.nil_mem_languageFrom_iff,
      isAccepting, state_complementOver hp]
    show (!(d.state p).accepting) = true ↔ _
    simp [isAccepting]
  | cons c w ih =>
    rw [List.forall_mem_cons]
    by_cases hc : c ∈ alphabet
    · by_cases hmoves : ∃ q, d.Moves p c q
      · -- The move that the state has is the only one on both sides.
        obtain ⟨q, hq⟩ := hmoves
        have hq' : (d.complementOver alphabet).Moves p c q :=
          (moves_complementOver hp).2 ⟨hc, Or.inl hq⟩
        rw [hq'.cons_mem_languageFrom_iff hcomplement, hq.cons_mem_languageFrom_iff hd,
          and_iff_right hc]
        exact ih (hg.target_lt hq.mem_targets)
      · have hsink : (d.complementOver alphabet).Moves p c d.size :=
          (moves_complementOver hp).2 ⟨hc, Or.inr ⟨rfl, not_exists.1 hmoves⟩⟩
        have hnot : c :: w ∉ d.languageFrom p := by
          rw [hd.epsilonFree.cons_mem_languageFrom_iff]
          intro h
          obtain ⟨q, hq, _⟩ := h
          exact hmoves ⟨q, hq⟩
        rw [hsink.cons_mem_languageFrom_iff hcomplement, mem_languageFrom_complementOver_sink hd,
          and_iff_right hc, and_iff_left hnot]
    · rw [hcomplement.epsilonFree.cons_mem_languageFrom_iff]
      refine iff_of_false (fun h => ?_) fun h => hc h.1.1
      obtain ⟨q, hq, _⟩ := h
      exact hc ((moves_complementOver hp).1 hq).1

theorem valid_complementOver_determinized (hg : g.Valid) (alphabet : Alphabet) :
    (g.determinized.complementOver alphabet).Valid :=
  valid_complementOver (valid_determinized hg) (isDeterministic_determinized hg) alphabet

theorem mem_language_complementOver_determinized (hg : g.Valid) :
    w ∈ (g.determinized.complementOver alphabet).language ↔
      (∀ c ∈ w, c ∈ alphabet) ∧ w ∉ g.language := by
  rw [← language_determinized hg]
  exact mem_languageFrom_complementOver (valid_determinized hg) (isDeterministic_determinized hg)
    (valid_determinized hg).1

/-! ## The complement -/

/-- The complement is refused for the alphabet without symbols and for no other. Otherwise it is
    deterministic, every state moves on exactly the symbols of the alphabet, and it accepts the
    words over the alphabet that `g` does not accept. -/
theorem complement_accepts_iff (hg : g.Valid) (alphabet : Alphabet) :
    (∀ e, g.complement alphabet = .error e ↔ e = .undeclared ∧ ∀ c, c ∉ alphabet) ∧
      ((∃ c, c ∈ alphabet) → ∃ m, g.complement alphabet = .ok m ∧ m.IsDeterministic ∧
        (∀ p < m.size, ∀ c, (∃ e ∈ (m.state p).edges, c ∈ e.label) ↔ c ∈ alphabet) ∧
        ∀ w, m.accepts w = true ↔ (∀ c ∈ w, c ∈ alphabet) ∧ g.accepts w = false) := by
  constructor
  · intro e
    by_cases hsymbol : ∃ c, c ∈ alphabet
    · rw [complement_eq_ok g hsymbol]
      exact ⟨nofun, fun h => absurd hsymbol (not_exists.2 h.2)⟩
    · rw [complement_eq_error g (not_exists.1 hsymbol)]
      exact ⟨fun h => ⟨(Except.error.inj h).symm, not_exists.1 hsymbol⟩, fun h => by rw [h.1]⟩
  · intro hsymbol
    refine ⟨_, complement_eq_ok g hsymbol,
      isDeterministic_complementOver (isDeterministic_determinized hg) alphabet,
      fun p hp c => ?_, fun w => ?_⟩
    · rw [← exists_leads_iff]
      exact exists_moves_complementOver_iff hp
    · rw [accepts_iff_mem_language (valid_complementOver_determinized hg alphabet),
        mem_language_complementOver_determinized hg, ← Bool.not_eq_true,
        accepts_iff_mem_language hg]

/-- An alphabet without one of the characters that are read. -/
theorem complement_accepts_iff_union_char :
    ((char 'a').union (char 'b')).Valid ∧
      let g := (char 'a').union (char 'b')
      let alphabet := Alphabet.ofChars ['a', 'c']
      (∀ e, g.complement alphabet = .error e ↔ e = .undeclared ∧ ∀ c, c ∉ alphabet) ∧
        ((∃ c, c ∈ alphabet) → ∃ m, g.complement alphabet = .ok m ∧ m.IsDeterministic ∧
          (∀ p < m.size, ∀ c, (∃ e ∈ (m.state p).edges, c ∈ e.label) ↔ c ∈ alphabet) ∧
          ∀ w, m.accepts w = true ↔ (∀ c ∈ w, c ∈ alphabet) ∧ g.accepts w = false) :=
  ⟨by decide, complement_accepts_iff (by decide) _⟩

end Automaton

end RegularLanguages
