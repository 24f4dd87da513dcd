import Mathlib.Data.Set.Card
import RegularLanguages.Proofs.Automaton.Reduced
import RegularLanguages.Proofs.Automaton.TrieGrowth

set_option autoImplicit false

/-! # The words of a trie

A state of a trie stands for a beginning of the words, and a move adds a character to it
(`moves_words`). So a word leads from one beginning to another if it completes the one to the other
(`path_words`), and from the root to itself. A trie accepts the words that it was made from
(`mem_language_words`); no two of its states stand for one beginning, and no state for two
(`words_accepts_iff`). -/

namespace RegularLanguages.Automaton

variable {ws : List (List Char)} {u v w : List Char} {c : Char} {p q : StateId}

/-! ## Beginnings -/

theorem mem_beginnings : v ∈ beginnings ws ↔ v = [] ∨ ∃ w ∈ ws, v <+: w := by
  rw [beginnings, Numbering.mem_ofList, List.mem_cons, List.mem_flatMap]
  simp only [List.mem_inits]

theorem mem_beginnings_of_append (h : u ++ v ∈ beginnings ws) : u ∈ beginnings ws := by
  rcases mem_beginnings.1 h with hnil | ⟨w, hw, hprefix⟩
  · exact mem_beginnings.2 (Or.inl (List.append_eq_nil_iff.1 hnil).1)
  · exact mem_beginnings.2 (Or.inr ⟨w, hw, (List.prefix_append u v).trans hprefix⟩)

theorem rank?_beginnings_nil (ws : List (List Char)) : (beginnings ws).rank? [] = some 0 :=
  (Trie.grown_words ws).rank?_nil

/-! ## States and moves -/

theorem initial_words (ws : List (List Char)) : (words ws).initial = 0 :=
  (Trie.grown_words ws).initial_eq

theorem size_words (ws : List (List Char)) : (words ws).size = (beginnings ws).toList.length :=
  (Trie.grown_words ws).size_eq

theorem isNode_words (h : (beginnings ws).rank? u = some p) :
    Trie.IsNode (beginnings ws) ws u ((words ws).state p) :=
  (Trie.grown_words ws).isNode u p h

theorem exists_rank?_beginnings (hp : p < (words ws).size) :
    ∃ u, (beginnings ws).rank? u = some p := by
  rw [size_words] at hp
  exact Numbering.exists_rank?_of_lt_length hp

theorem isAccepting_words (h : (beginnings ws).rank? u = some p) :
    (words ws).isAccepting p = true ↔ u ∈ ws :=
  (isNode_words h).accepting_iff

theorem epsilonFree_words (ws : List (List Char)) : (words ws).EpsilonFree := by
  refine epsilonFree_of_forall_lt fun p hp => ?_
  obtain ⟨u, hu⟩ := exists_rank?_beginnings hp
  exact (isNode_words hu).epsilons_eq

/-- A move adds a character to the beginning that a state stands for. -/
theorem moves_words (hp : (beginnings ws).rank? u = some p) :
    (words ws).Moves p c q ↔ (beginnings ws).rank? (u ++ [c]) = some q := by
  have hedges := (isNode_words hp).mem_edges_iff
  constructor
  · intro h
    obtain ⟨e, he, hc, rfl⟩ := h
    obtain ⟨d, q, hq, rfl⟩ := (hedges e).1 he
    rw [CharRange.mem_single.1 hc]
    exact hq
  · intro hq
    exact ⟨⟨CharRange.single c, q⟩, (hedges _).2 ⟨c, q, hq, rfl⟩, CharRange.mem_single.2 rfl, rfl⟩

theorem isDeterministic_words (ws : List (List Char)) : (words ws).IsDeterministic := by
  refine isDeterministic_of_forall_lt fun p hp => ⟨epsilonFree_words ws p, ?_⟩
  obtain ⟨u, hu⟩ := exists_rank?_beginnings hp
  exact (isNode_words hu).disjoint

theorem valid_words (ws : List (List Char)) : (words ws).Valid := by
  have hpos : 0 < (words ws).size := by
    rw [size_words]
    exact Numbering.rank?_lt_length (rank?_beginnings_nil ws)
  refine (epsilonFree_words ws).valid (initial_words ws ▸ hpos) fun p hp c q hq => ?_
  obtain ⟨u, hu⟩ := exists_rank?_beginnings hp
  rw [size_words]
  exact Numbering.rank?_lt_length ((moves_words hu).1 hq)

/-! ## Words -/

/-- A word leads from one beginning to another if it completes the one to the other. -/
theorem path_words (hp : (beginnings ws).rank? u = some p) :
    (words ws).Path p v q ↔ (beginnings ws).rank? (u ++ v) = some q := by
  induction v generalizing u p with
  | nil =>
    rw [List.append_nil, hp, Option.some.injEq]
    constructor
    · intro h
      exact ((epsilonFree_words ws).eq_of_path_nil h).symm
    · rintro rfl
      exact Path.nil p
  | cons c v ih =>
    rw [List.append_cons]
    constructor
    · intro h
      obtain ⟨r, s, hr, hmoves, hrest⟩ := h.exists_moves
      rw [(epsilonFree_words ws).eq_of_path_nil hr] at hmoves
      exact (ih ((moves_words hp).1 hmoves)).1 hrest
    · intro h
      -- What leads to a beginning is a beginning, so that the trie has a state for it.
      have hmem : u ++ [c] ∈ beginnings ws := mem_beginnings_of_append (Numbering.mem_of_rank? h)
      obtain ⟨s, hs⟩ := Numbering.mem_iff_exists_rank?.1 hmem
      exact Path.read ((moves_words hp).2 hs) ((ih hs).2 h)

/-- From the state of a beginning the words are accepted that complete it. -/
theorem mem_languageFrom_words (hp : (beginnings ws).rank? u = some p) :
    v ∈ (words ws).languageFrom p ↔ u ++ v ∈ ws := by
  rw [mem_languageFrom]
  simp only [path_words hp]
  constructor
  · intro h
    obtain ⟨q, hq, hacc⟩ := h
    exact (isAccepting_words hq).1 hacc
  · intro h
    have hmem : u ++ v ∈ beginnings ws := mem_beginnings.2 (Or.inr ⟨_, h, List.prefix_rfl⟩)
    obtain ⟨q, hq⟩ := Numbering.mem_iff_exists_rank?.1 hmem
    exact ⟨q, hq, (isAccepting_words hq).2 h⟩

/-- A trie accepts the words that it was made from. -/
theorem mem_language_words : w ∈ (words ws).language ↔ w ∈ ws := by
  rw [language, initial_words]
  exact mem_languageFrom_words (rank?_beginnings_nil ws)

/-! ## States and beginnings -/

theorem path_initial_words :
    (words ws).Path (words ws).initial u p ↔ (beginnings ws).rank? u = some p := by
  rw [initial_words]
  exact path_words (rank?_beginnings_nil ws)

/-- The root, and a state for each beginning that is not empty. -/
theorem size_words_eq (ws : List (List Char)) :
    (words ws).size = 1 + {u | u ≠ [] ∧ ∃ w ∈ ws, u <+: w}.ncard := by
  have hnodes : (beginnings ws).toList = [] :: novel [[]] (ws.flatMap List.inits) := by
    rw [beginnings, Numbering.toList_ofList, novel_cons_of_not_mem List.not_mem_nil]
  have hset : {u | u ≠ [] ∧ ∃ w ∈ ws, u <+: w} =
      ↑(novel [[]] (ws.flatMap List.inits)).toFinset := by
    ext u
    simp [and_comm]
  rw [size_words, hnodes, hset, Set.ncard_coe_finset,
    List.toFinset_card_of_nodup (nodup_novel _ _), List.length_cons, Nat.add_comm]

/-- A trie is deterministic and accepts the words that it was made from. The words that lead
    anywhere in it are the beginnings of these words, each state is where exactly one of them leads,
    and so there is the root and one state for each beginning that is not empty. -/
theorem words_accepts_iff (ws : List (List Char)) :
    (words ws).IsDeterministic ∧
      (∀ w, (words ws).accepts w = true ↔ w ∈ ws) ∧
      (words ws).size = 1 + {u | u ≠ [] ∧ ∃ w ∈ ws, u <+: w}.ncard ∧
      (∀ u, (∃ p, (words ws).Path (words ws).initial u p) ↔ u = [] ∨ ∃ w ∈ ws, u <+: w) ∧
      ∀ p < (words ws).size, ∃! u, (words ws).Path (words ws).initial u p := by
  refine ⟨isDeterministic_words ws, fun w => ?_, size_words_eq ws, fun u => ?_, fun p hp => ?_⟩
  · exact (accepts_iff_mem_language (valid_words ws)).trans mem_language_words
  · simp only [path_initial_words]
    exact Numbering.mem_iff_exists_rank?.symm.trans mem_beginnings
  · obtain ⟨u, hu⟩ := exists_rank?_beginnings hp
    refine ⟨u, path_initial_words.2 hu, fun v hv => ?_⟩
    exact Numbering.rank?_inj (path_initial_words.1 hv) hu

example : (words [['i', 'f'], ['i', 'n'], ['l', 'e', 't'], ['i', 'n']]).size = 7 := by cbv

end RegularLanguages.Automaton
