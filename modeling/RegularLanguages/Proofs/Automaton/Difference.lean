import RegularLanguages.Proofs.Automaton.Complement
import RegularLanguages.Proofs.Automaton.Product

set_option autoImplicit false

/-! # Difference

What `a` accepts and `b` does not is the intersection of `a` with the complement of `b`. The
complement knows words over the alphabet only, so a word of `a` with another character would be
lost. The check before it rules such words out: every character on an accepted word is on an edge
of a reachable state (`Path.forall_mem`), and these edges are all covered. `b` is not checked, for
its words with other characters are no words of `a`.

The check stops at the first edge that is not covered; `FirstOutside` says which edge that is and
which of its characters is named. -/

namespace RegularLanguages

/-- A member before which all members satisfy `P`, told by places or by order. -/
theorem StateSet.exists_split_iff {s : StateSet} {P Q : StateId → Prop} :
    (∃ before p after, s.toList = before ++ p :: after ∧ (∀ q ∈ before, P q) ∧ Q p) ↔
      ∃ p ∈ s, (∀ q ∈ s, q < p → P q) ∧ Q p := by
  constructor
  · intro h
    obtain ⟨before, p, after, heq, hbefore, hp⟩ := h
    have hascending := s.ascending
    rw [heq] at hascending
    obtain ⟨_, hafter, _⟩ := List.pairwise_append.1 hascending
    have hmem : p ∈ s := by
      rw [← mem_toList, heq]
      simp
    refine ⟨p, hmem, fun q hq hlt => hbefore q ?_, hp⟩
    rw [← mem_toList, heq] at hq
    rcases List.mem_append.1 hq with hq | hq
    · exact hq
    · -- From `p` on the list holds no smaller members.
      rcases List.mem_cons.1 hq with rfl | hq
      · exact absurd hlt (Nat.lt_irrefl q)
      · exact absurd hlt (Nat.lt_asymm ((List.pairwise_cons.1 hafter).1 q hq))
  · intro h
    obtain ⟨p, hmem, hbefore, hp⟩ := h
    obtain ⟨before, after, heq⟩ := List.append_of_mem (mem_toList.2 hmem)
    refine ⟨before, p, after, heq, fun q hq => hbefore q ?_ ?_, hp⟩
    · rw [← mem_toList, heq]
      exact List.mem_append_left _ hq
    · have hascending := s.ascending
      rw [heq] at hascending
      exact (List.pairwise_append.1 hascending).2.2 q hq p List.mem_cons_self

namespace Automaton

variable {a b g : Automaton} {alphabet : Alphabet} {c : Char} {p q : StateId} {w : List Char}

/-! ## Covered edges -/

/-- Every character on an edge of a reachable state is a symbol. -/
def CoveredBy (g : Automaton) (alphabet : Alphabet) : Prop :=
  ∀ p, g.Reachable p → ∀ e ∈ (g.state p).edges, alphabet.Covers e.label

theorem coveredBy_of_forall_labels (h : ∀ r ∈ g.labels, alphabet.Covers r) :
    g.CoveredBy alphabet := by
  intro p hp e he
  refine h e.label (List.mem_flatMap.2 ⟨g.state p, ?_, List.mem_map.2 ⟨e, he, rfl⟩⟩)
  by_cases hlt : p < g.size
  · exact mem_toList_iff.2 ⟨p, hlt, rfl⟩
  · rw [state_of_size_le (Nat.not_lt.1 hlt)] at he
    exact absurd he List.not_mem_nil

/-- A path through covered edges spells a word over the alphabet. -/
theorem Path.forall_mem (hcovered : g.CoveredBy alphabet) (h : g.Path p w q)
    (hp : g.Reachable p) : ∀ c ∈ w, c ∈ alphabet := by
  induction h with
  | nil p => exact nofun
  | epsilon hs _ ih => exact ih (hp.path (Path.epsilon hs (Path.nil _)))
  | read hs _ ih =>
    have hrest := ih (hp.path hs.path)
    obtain ⟨e, he, hc, _⟩ := hs
    exact List.forall_mem_cons.2 ⟨hcovered _ hp e he _ hc, hrest⟩

theorem forall_mem_of_mem_language (hcovered : g.CoveredBy alphabet) (h : w ∈ g.language) :
    ∀ c ∈ w, c ∈ alphabet := by
  obtain ⟨q, hpath, _⟩ := h
  exact hpath.forall_mem hcovered (reachable_initial g)

/-! ## The check of the edges -/

/-- The labels on the edges of the reachable states, in the order of the states and, for one state,
    as they are stored. -/
def reachableLabels (g : Automaton) : List CharRange :=
  g.reachable.toList.flatMap fun p => (g.state p).edges.map Edge.label

theorem checkRanges_reachableLabels_eq_ok_iff (hg : g.Valid) :
    alphabet.checkRanges g.reachableLabels = .ok () ↔ g.CoveredBy alphabet := by
  rw [Alphabet.checkRanges_eq_ok_iff]
  unfold reachableLabels CoveredBy
  simp only [List.forall_mem_flatMap, List.forall_mem_map, StateSet.mem_toList, mem_reachable hg]

/-- The least character outside the alphabet on the first edge with such a character. -/
def FirstOutside (g : Automaton) (alphabet : Alphabet) (c : Char) : Prop :=
  ∃ p, g.Reachable p ∧
    (∀ q, g.Reachable q → q < p → ∀ d ∈ (g.state q).edges, alphabet.Covers d.label) ∧
    ∃ before e after, (g.state p).edges = before ++ e :: after ∧
      (∀ d ∈ before, alphabet.Covers d.label) ∧ IsLeast {c | c ∈ e.label ∧ c ∉ alphabet} c

theorem checkRanges_edges_eq_error_iff {edges : List Edge} {error : AlphabetError} :
    alphabet.checkRanges (edges.map Edge.label) = .error error ↔
      ∃ before e after, edges = before ++ e :: after ∧ (∀ d ∈ before, alphabet.Covers d.label) ∧
        ∃ c, error = .symbolOutside c ∧ IsLeast {c | c ∈ e.label ∧ c ∉ alphabet} c := by
  rw [Alphabet.checkRanges_eq_error_iff]
  simp only [Alphabet.checkRange_eq_error_iff]
  constructor
  · intro h
    obtain ⟨before, r, after, heq, hbefore, hr⟩ := h
    obtain ⟨xs, ys, hedges, rfl, hys⟩ := List.map_eq_append_iff.1 heq
    obtain ⟨e, zs, rfl, rfl, rfl⟩ := List.map_eq_cons_iff.1 hys
    exact ⟨xs, e, zs, hedges, List.forall_mem_map.1 hbefore, hr⟩
  · intro h
    obtain ⟨before, e, after, rfl, hbefore, hr⟩ := h
    exact ⟨before.map Edge.label, e.label, after.map Edge.label, List.map_append,
      List.forall_mem_map.2 hbefore, hr⟩

theorem checkRanges_reachableLabels_eq_error_iff (hg : g.Valid) {error : AlphabetError} :
    alphabet.checkRanges g.reachableLabels = .error error ↔
      ∃ c, error = .symbolOutside c ∧ g.FirstOutside alphabet c := by
  unfold reachableLabels
  rw [Alphabet.checkRanges_flatMap_eq_error_iff, StateSet.exists_split_iff]
  simp only [List.forall_mem_map, mem_reachable hg, checkRanges_edges_eq_error_iff]
  constructor
  · intro h
    obtain ⟨p, hp, hbelow, before, e, after, heq, hbefore, c, rfl, hc⟩ := h
    exact ⟨c, rfl, p, hp, hbelow, before, e, after, heq, hbefore, hc⟩
  · intro h
    obtain ⟨c, rfl, p, hp, hbelow, before, e, after, heq, hbefore, hc⟩ := h
    exact ⟨p, hp, hbelow, before, e, after, heq, hbefore, c, rfl, hc⟩

/-! ## Difference -/

theorem difference_eq_undeclared (a b : Automaton) (h : ∀ c, c ∉ alphabet) :
    a.difference b alphabet = .error .undeclared := by
  unfold difference
  rw [Alphabet.requireDeclared_eq_error h]
  rfl

/-- With symbols the check of the edges decides. -/
theorem difference_eq_bind (a b : Automaton) (h : ∃ c, c ∈ alphabet) :
    a.difference b alphabet = (alphabet.checkRanges a.reachableLabels).bind fun _ =>
      .ok (a.intersection (b.determinized.complementOver alphabet)) := by
  unfold difference
  rw [Alphabet.requireDeclared_eq_ok h, complement_eq_ok b h]
  rfl

theorem difference_eq_ok_iff (ha : a.Valid) {m : Automaton} : a.difference b alphabet = .ok m ↔
    (∃ c, c ∈ alphabet) ∧ a.CoveredBy alphabet ∧
      m = a.intersection (b.determinized.complementOver alphabet) := by
  rw [← checkRanges_reachableLabels_eq_ok_iff ha]
  by_cases hsymbol : ∃ c, c ∈ alphabet
  · rw [difference_eq_bind a b hsymbol, and_iff_right hsymbol]
    cases alphabet.checkRanges a.reachableLabels with
    | error _ => exact ⟨nofun, fun h => nomatch h.1⟩
    | ok _ => exact ⟨fun h => ⟨rfl, (Except.ok.inj h).symm⟩, fun h => by rw [h.2]; rfl⟩
  · rw [difference_eq_undeclared a b (not_exists.1 hsymbol)]
    exact ⟨nofun, fun h => absurd h.1 hsymbol⟩

theorem difference_eq_error_iff (ha : a.Valid) {error : AlphabetError} :
    a.difference b alphabet = .error error ↔
      (error = .undeclared ∧ ∀ c, c ∉ alphabet) ∨
        (∃ c, c ∈ alphabet) ∧ ∃ c, error = .symbolOutside c ∧ a.FirstOutside alphabet c := by
  rw [← checkRanges_reachableLabels_eq_error_iff ha]
  by_cases hsymbol : ∃ c, c ∈ alphabet
  · rw [difference_eq_bind a b hsymbol, and_iff_right hsymbol,
      or_iff_right fun h => absurd hsymbol (not_exists.2 h.2)]
    cases alphabet.checkRanges a.reachableLabels with
    | error e =>
      show (Except.error e : Except AlphabetError Automaton) = _ ↔ _
      rw [Except.error.injEq, Except.error.injEq]
    | ok _ => exact ⟨nofun, nofun⟩
  · have hnone := not_exists.1 hsymbol
    rw [difference_eq_undeclared a b hnone, or_iff_left fun h => hsymbol h.1, and_iff_left hnone,
      Except.error.injEq, eq_comm]

theorem mem_language_intersection_complementOver (ha : a.Valid) (hb : b.Valid)
    (hcovered : a.CoveredBy alphabet) :
    w ∈ (a.intersection (b.determinized.complementOver alphabet)).language ↔
      w ∈ a.language ∧ w ∉ b.language := by
  rw [mem_language_intersection ha (valid_complementOver_determinized hb alphabet),
    mem_language_complementOver_determinized hb]
  refine and_congr_right fun hw => and_iff_right ?_
  exact forall_mem_of_mem_language hcovered hw

/-- The difference is defined for an alphabet that has symbols and covers every edge of `a` that
    can be reached, and it then accepts the words of `a` that `b` does not accept, with symbols
    of the alphabet or without. For an alphabet that does not cover the edges the error names the
    least character outside on the first edge that is not covered. -/
theorem difference_accepts_iff (ha : a.Valid) (hb : b.Valid) (alphabet : Alphabet) :
    ((∃ m, a.difference b alphabet = .ok m) ↔ (∃ c, c ∈ alphabet) ∧
        ∀ p, a.Reachable p → ∀ e ∈ (a.state p).edges, ∀ c ∈ e.label, c ∈ alphabet) ∧
      (∀ m, a.difference b alphabet = .ok m →
        ∀ w, m.accepts w = true ↔ a.accepts w = true ∧ b.accepts w = false) ∧
      ∀ error, a.difference b alphabet = .error error ↔
        (error = .undeclared ∧ ∀ c, c ∉ alphabet) ∨
          (∃ c, c ∈ alphabet) ∧ ∃ c, error = .symbolOutside c ∧ a.FirstOutside alphabet c := by
  refine ⟨?_, fun m h w => ?_, fun error => difference_eq_error_iff ha⟩
  · simp only [difference_eq_ok_iff ha, exists_and_left, exists_eq, and_true]
    exact Iff.rfl
  · obtain ⟨_, hcovered, rfl⟩ := (difference_eq_ok_iff ha).1 h
    rw [accepts_iff_mem_language (valid_intersection _ _),
      mem_language_intersection_complementOver ha hb hcovered, ← Bool.not_eq_true,
      accepts_iff_mem_language ha, accepts_iff_mem_language hb]

/-- The second automaton reads a character that is no symbol. -/
theorem difference_accepts_iff_union_char :
    ((char 'a').Valid ∧ ((char 'a').union (char 'b')).Valid) ∧
      let a := char 'a'
      let b := (char 'a').union (char 'b')
      let alphabet := Alphabet.ofChars ['a', 'c']
      ((∃ m, a.difference b alphabet = .ok m) ↔ (∃ c, c ∈ alphabet) ∧
          ∀ p, a.Reachable p → ∀ e ∈ (a.state p).edges, ∀ c ∈ e.label, c ∈ alphabet) ∧
        (∀ m, a.difference b alphabet = .ok m →
          ∀ w, m.accepts w = true ↔ a.accepts w = true ∧ b.accepts w = false) ∧
        ∀ error, a.difference b alphabet = .error error ↔
          (error = .undeclared ∧ ∀ c, c ∉ alphabet) ∨
            (∃ c, c ∈ alphabet) ∧ ∃ c, error = .symbolOutside c ∧ a.FirstOutside alphabet c :=
  ⟨⟨by decide, by decide⟩, difference_accepts_iff (by decide) (by decide) _⟩

/-- The edge stored first decides, although the other one has a smaller character. -/
example : (ofList [{ edges := [⟨.single 'z', 0⟩, ⟨.single 'b', 0⟩] }]).difference (char 'a')
    (.ofChars ['a']) = .error (.symbolOutside 'z') := by
  decide

end Automaton

end RegularLanguages
