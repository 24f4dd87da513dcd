import Mathlib.Data.List.Infix
import RegularLanguages.Proofs.Automaton.Edit
import RegularLanguages.Proofs.Automaton.Primitive

set_option autoImplicit false

/-! # How a trie grows

A trie under way has two sides, the edges of its automaton and the places where it looks up where a
character leads. What both stand for is a numbering of beginnings: the state of a beginning leads
by `c` to the state of the beginning that is longer by `c`, as soon as that one has a number
(`Grown`).

Going along one character numbers one beginning, if it is new (`Grown.descend`); so going along a
word numbers its beginnings (`Grown.walk`), and adding a word after another numbers the beginnings
of all of them in the order of their first appearance (`grown_words`). -/

namespace RegularLanguages.Automaton

/-- The beginnings of some words, the empty one first, in the order of their first appearance. -/
def beginnings (ws : List (List Char)) : Numbering (List Char) :=
  .ofList ([] :: ws.flatMap List.inits)

namespace Trie

variable {t : Trie} {nodes : Numbering (List Char)} {added : List (List Char)} {u w : List Char}
  {c : Char} {p : StateId}

/-- The state of the beginning `u`: it accepts if `u` is one of the words, and for each beginning
    that is longer by one character it has an edge to the state of that one. -/
structure IsNode (nodes : Numbering (List Char)) (added : List (List Char)) (u : List Char)
    (s : State) : Prop where
  accepting_iff : s.accepting = true ↔ u ∈ added
  epsilons_eq : s.epsilons = []
  mem_edges_iff : ∀ e, e ∈ s.edges ↔
    ∃ c q, nodes.rank? (u ++ [c]) = some q ∧ e = ⟨CharRange.single c, q⟩
  disjoint : s.edges.Pairwise fun d e => d.label.Disjoint e.label

/-- The trie of the numbered beginnings, in which the words `added` are accepted. -/
structure Grown (t : Trie) (nodes : Numbering (List Char)) (added : List (List Char)) : Prop where
  initial_eq : t.automaton.initial = 0
  size_eq : t.automaton.size = nodes.toList.length
  size_children : t.children.size = nodes.toList.length
  rank?_nil : nodes.rank? [] = some 0
  mem_of_added : ∀ w ∈ added, w ∈ nodes
  /-- What leads to a beginning is a beginning. -/
  closed : ∀ u c, u ++ [c] ∈ nodes → u ∈ nodes
  isNode : ∀ u p, nodes.rank? u = some p → IsNode nodes added u (t.automaton.state p)
  child?_eq : ∀ u p, nodes.rank? u = some p → ∀ c, t.child? p c = nodes.rank? (u ++ [c])

theorem grown_root : root.Grown (.ofList [[]]) [] := by
  have hrank : ∀ u : List Char, (Numbering.ofList [[]]).rank? u = if [] = u then some 0 else none :=
    Numbering.rank?_add_of_not_mem (n := .empty) (by decide)
  have hnone : ∀ (u : List Char) (c : Char),
      (Numbering.ofList [([] : List Char)]).rank? (u ++ [c]) = none := by
    intro u c
    rw [hrank, if_neg (List.append_ne_nil_of_right_ne_nil u (List.cons_ne_nil c [])).symm]
  have hroot : ∀ u p, (Numbering.ofList [([] : List Char)]).rank? u = some p → u = [] ∧ p = 0 := by
    intro u p h
    rw [hrank] at h
    split at h
    · rename_i heq
      exact ⟨heq.symm, (Option.some.inj h).symm⟩
    · cases h
  constructor
  case initial_eq => rfl
  case size_eq => rfl
  case size_children => rfl
  case rank?_nil => exact hrank []
  case mem_of_added => exact nofun
  case closed =>
    intro u c h
    obtain ⟨i, hi⟩ := Numbering.mem_iff_exists_rank?.1 h
    cases (hnone u c).symm.trans hi
  case isNode =>
    intro u p h
    obtain ⟨rfl, rfl⟩ := hroot u p h
    refine ⟨iff_of_false nofun List.not_mem_nil, rfl, fun e => ?_, List.Pairwise.nil⟩
    refine iff_of_false List.not_mem_nil fun ⟨c, q, hq, _⟩ => ?_
    cases (hnone [] c).symm.trans hq
  case child?_eq =>
    intro u p h c
    obtain ⟨rfl, rfl⟩ := hroot u p h
    rw [hnone]
    exact Std.TreeMap.getElem?_emptyc

/-! ## One character -/

/-- Where the numbered beginnings lead when `u` with `c` behind it gets the next number. -/
theorem rank?_add_concat (hnew : u ++ [c] ∉ nodes) (v : List Char) (d : Char) :
    (nodes.add (u ++ [c])).rank? (v ++ [d]) =
      if u = v ∧ c = d then some nodes.toList.length else nodes.rank? (v ++ [d]) := by
  rw [Numbering.rank?_add_of_not_mem hnew]
  simp only [List.append_singleton_inj]

/-- A node gets an edge to the beginning that is numbered next. -/
theorem IsNode.push {s : State} (h : IsNode nodes added u s) (hnew : u ++ [c] ∉ nodes) :
    IsNode (nodes.add (u ++ [c])) added u
      { s with edges := s.edges ++ [⟨CharRange.single c, nodes.toList.length⟩] } where
  accepting_iff := h.accepting_iff
  epsilons_eq := h.epsilons_eq
  mem_edges_iff e := by
    rw [List.mem_append, List.mem_singleton, h.mem_edges_iff]
    simp only [rank?_add_concat hnew, true_and]
    constructor
    · rintro (⟨d, q, hq, rfl⟩ | rfl)
      · have hne : c ≠ d := fun heq => hnew (heq ▸ Numbering.mem_of_rank? hq)
        exact ⟨d, q, by rw [if_neg hne, hq], rfl⟩
      · exact ⟨c, _, if_pos rfl, rfl⟩
    · rintro ⟨d, q, hq, rfl⟩
      split at hq
      · rename_i heq
        rw [← heq, ← Option.some.inj hq]
        exact Or.inr rfl
      · exact Or.inl ⟨d, q, hq, rfl⟩
  disjoint := by
    refine List.pairwise_append.2 ⟨h.disjoint, List.pairwise_singleton _ _, fun d hd e he => ?_⟩
    obtain ⟨b, q, hq, rfl⟩ := (h.mem_edges_iff d).1 hd
    rw [List.mem_singleton.1 he]
    refine CharRange.disjoint_iff.2 fun a ha ha' => hnew ?_
    rw [← CharRange.mem_single.1 ha', CharRange.mem_single.1 ha]
    exact Numbering.mem_of_rank? hq

/-- Other nodes do not notice. -/
theorem IsNode.add {s : State} (h : IsNode nodes added u s) {v : List Char}
    (hnew : v ++ [c] ∉ nodes) (hne : u ≠ v) : IsNode (nodes.add (v ++ [c])) added u s where
  accepting_iff := h.accepting_iff
  epsilons_eq := h.epsilons_eq
  mem_edges_iff e := by
    have hsame : ∀ d, (nodes.add (v ++ [c])).rank? (u ++ [d]) = nodes.rank? (u ++ [d]) := by
      intro d
      rw [rank?_add_concat hnew, if_neg fun heq => hne heq.1.symm]
    simp only [hsame, h.mem_edges_iff]
  disjoint := h.disjoint

/-- The node that is numbered next has no edges. -/
theorem isNode_new (hclosed : ∀ u c, u ++ [c] ∈ nodes → u ∈ nodes)
    (hadded : ∀ w ∈ added, w ∈ nodes) {v : List Char} (hnew : v ∉ nodes) :
    IsNode (nodes.add v) added v {} where
  accepting_iff := iff_of_false nofun fun hv => hnew (hadded v hv)
  epsilons_eq := rfl
  mem_edges_iff e := by
    refine iff_of_false List.not_mem_nil fun ⟨c, q, hq, _⟩ => ?_
    rw [Numbering.rank?_add_of_not_mem hnew, if_neg (by simp)] at hq
    exact hnew (hclosed v c (Numbering.mem_of_rank? hq))
  disjoint := List.Pairwise.nil

section Descend

variable (hnone : t.child? p c = none)

include hnone

theorem descend_of_child?_eq_none : t.descend p c =
    ({ automaton := (t.automaton.addState false).modifyState p fun s =>
          { s with edges := s.edges ++ [⟨CharRange.single c, t.automaton.size⟩] }
       children := (t.children.push ∅).modify p fun known => known.insert c t.automaton.size },
      t.automaton.size) := by
  rw [descend, hnone]

theorem state_descend (hp : p < t.automaton.size) (q : StateId) :
    (t.descend p c).1.automaton.state q =
      if p = q then
        { t.automaton.state q with
          edges := (t.automaton.state q).edges ++ [⟨CharRange.single c, t.automaton.size⟩] }
      else t.automaton.state q := by
  have hlt : p < (t.automaton.addState false).size := by
    rw [size_addState]
    exact Nat.lt_succ_of_lt hp
  rw [descend_of_child?_eq_none hnone, state_modifyState_of_lt hlt, state_addState_false]

theorem child?_descend (hp : p < t.children.size) (q : StateId) (d : Char) :
    (t.descend p c).1.child? q d =
      if p = q ∧ c = d then some t.automaton.size else t.child? q d := by
  rw [descend_of_child?_eq_none hnone]
  unfold child?
  rw [Array.getElem?_modify, Array.getElem?_push]
  by_cases hpq : p = q
  · subst hpq
    rw [if_pos rfl, if_neg (Nat.ne_of_lt hp), Array.getElem?_eq_getElem hp]
    simp only [Option.map_some, Option.bind_some, Std.TreeMap.getElem?_insert,
      Std.LawfulEqOrd.compare_eq_iff_eq, true_and]
  · rw [if_neg hpq, if_neg fun h : p = q ∧ c = d => hpq h.1]
    split
    · rename_i hq
      rw [hq, Array.getElem?_eq_none (Nat.le_refl _)]
      exact Std.TreeMap.getElem?_emptyc
    · rfl

end Descend

section Grow

variable (h : t.Grown nodes added) (hp : nodes.rank? u = some p) (hnew : u ++ [c] ∉ nodes)

include h hp hnew

theorem Grown.child?_eq_none : t.child? p c = none := by
  rw [h.child?_eq u p hp]
  exact Numbering.rank?_eq_none_iff.2 hnew

theorem Grown.size_descend :
    (t.descend p c).1.automaton.size = (nodes.add (u ++ [c])).toList.length := by
  rw [descend_of_child?_eq_none (h.child?_eq_none hp hnew), size_modifyState, size_addState,
    Numbering.toList_add, if_neg hnew, List.length_append, h.size_eq, List.length_singleton]

theorem Grown.size_children_descend :
    (t.descend p c).1.children.size = (nodes.add (u ++ [c])).toList.length := by
  rw [descend_of_child?_eq_none (h.child?_eq_none hp hnew), Numbering.toList_add, if_neg hnew,
    List.length_append, List.length_singleton, ← h.size_children]
  exact Array.size_modify.trans (Array.size_push _)

/-- The state that is added is a node without edges, `p` gets an edge to it, and the others stay. -/
theorem Grown.isNode_descend {v : List Char} {q : StateId}
    (hv : (nodes.add (u ++ [c])).rank? v = some q) :
    IsNode (nodes.add (u ++ [c])) added v ((t.descend p c).1.automaton.state q) := by
  have hnone := h.child?_eq_none hp hnew
  have hlt : p < nodes.toList.length := Numbering.rank?_lt_length hp
  rw [state_descend hnone (h.size_eq ▸ hlt)]
  rw [Numbering.rank?_add_of_not_mem hnew] at hv
  split at hv
  · rename_i heq
    obtain rfl := Option.some.inj hv
    rw [if_neg (Nat.ne_of_lt hlt), state_of_size_le (Nat.le_of_eq h.size_eq), ← heq]
    exact isNode_new h.closed h.mem_of_added hnew
  · by_cases hvu : v = u
    · subst hvu
      obtain rfl := Option.some.inj (hp.symm.trans hv)
      rw [if_pos rfl, h.size_eq]
      exact (h.isNode v p hp).push hnew
    · rw [if_neg fun heq : p = q => hvu (Numbering.rank?_inj hv (heq ▸ hp))]
      exact (h.isNode v q hv).add hnew hvu

theorem Grown.child?_descend_eq {v : List Char} {q : StateId}
    (hv : (nodes.add (u ++ [c])).rank? v = some q) (d : Char) :
    (t.descend p c).1.child? q d = (nodes.add (u ++ [c])).rank? (v ++ [d]) := by
  have hlt : p < nodes.toList.length := Numbering.rank?_lt_length hp
  rw [child?_descend (h.child?_eq_none hp hnew) (h.size_children ▸ hlt), rank?_add_concat hnew,
    h.size_eq]
  rw [Numbering.rank?_add_of_not_mem hnew] at hv
  split at hv
  · -- What is longer than the new beginning has no number, as what leads to a beginning is one.
    rename_i heq
    obtain rfl := Option.some.inj hv
    have hvnew : v ∉ nodes := heq ▸ hnew
    have hnowhere : t.child? nodes.toList.length d = none := by
      rw [child?, Array.getElem?_eq_none (Nat.le_of_eq h.size_children)]
      rfl
    rw [if_neg fun heq => Nat.ne_of_lt hlt heq.1, hnowhere,
      if_neg fun heq : u = v ∧ c = d => hvnew (heq.1 ▸ Numbering.mem_of_rank? hp), eq_comm,
      Numbering.rank?_eq_none_iff]
    exact fun hmem => hvnew (h.closed v d hmem)
  · have hsame : p = q ↔ u = v :=
      ⟨fun heq => Numbering.rank?_inj hp (heq ▸ hv), fun heq =>
        Option.some.inj (hp.symm.trans (heq ▸ hv))⟩
    rw [h.child?_eq v q hv]
    simp only [hsame]

theorem Grown.descend_of_not_mem :
    (t.descend p c).1.Grown (nodes.add (u ++ [c])) added where
  initial_eq := by
    rw [descend_of_child?_eq_none (h.child?_eq_none hp hnew)]
    exact h.initial_eq
  size_eq := h.size_descend hp hnew
  size_children := h.size_children_descend hp hnew
  rank?_nil := by
    rw [Numbering.rank?_add_of_not_mem hnew, if_neg (by simp)]
    exact h.rank?_nil
  mem_of_added w hw := Numbering.mem_add.2 (Or.inl (h.mem_of_added w hw))
  closed v d hv := by
    refine Numbering.mem_add.2 (Or.inl ?_)
    rcases Numbering.mem_add.1 hv with hv | hv
    · exact h.closed v d hv
    · rw [List.append_inj_left' hv rfl]
      exact Numbering.mem_of_rank? hp
  isNode v q hv := h.isNode_descend hp hnew hv
  child?_eq v q hv := h.child?_descend_eq hp hnew hv

end Grow

/-- Going along a character numbers the beginning that is longer by it, unless it has a number. -/
theorem Grown.descend (h : t.Grown nodes added) (hp : nodes.rank? u = some p) (c : Char) :
    (t.descend p c).1.Grown (nodes.add (u ++ [c])) added ∧
      (nodes.add (u ++ [c])).rank? (u ++ [c]) = some (t.descend p c).2 := by
  by_cases hmem : u ++ [c] ∈ nodes
  · obtain ⟨q, hq⟩ := Numbering.mem_iff_exists_rank?.1 hmem
    have hdescend : t.descend p c = (t, q) := by
      rw [Trie.descend, h.child?_eq u p hp, hq]
    rw [Numbering.add_of_mem hmem, hdescend]
    exact ⟨h, hq⟩
  · refine ⟨h.descend_of_not_mem hp hmem, ?_⟩
    rw [Numbering.rank?_add_of_not_mem hmem, if_pos rfl,
      descend_of_child?_eq_none (h.child?_eq_none hp hmem), h.size_eq]

/-! ## A word -/

/-- The beginnings of a word are its first character and the beginnings of the rest behind it. -/
theorem addAll_inits_cons (hu : u ∈ nodes) (c : Char) (w : List Char) :
    nodes.addAll ((c :: w).inits.map (u ++ ·)) =
      (nodes.add (u ++ [c])).addAll (w.inits.map (u ++ [c] ++ ·)) := by
  obtain ⟨rest, hrest⟩ : ∃ rest, w.inits = [] :: rest := by
    cases w with
    | nil => exact ⟨_, rfl⟩
    | cons d w => exact ⟨_, List.inits_cons d w⟩
  have hu' : nodes.add u = nodes := Numbering.add_of_mem hu
  have hc : (nodes.add (u ++ [c])).add (u ++ [c]) = nodes.add (u ++ [c]) :=
    Numbering.add_of_mem (Numbering.mem_add.2 (Or.inr rfl))
  simp [hrest, Numbering.addAll, hu', hc, Function.comp_def]

/-- Going along a word numbers what has no number yet of the beginnings on the way. -/
theorem Grown.walk (h : t.Grown nodes added) (hp : nodes.rank? u = some p) (w : List Char) :
    (t.walk p w).1.Grown (nodes.addAll (w.inits.map (u ++ ·))) added ∧
      (nodes.addAll (w.inits.map (u ++ ·))).rank? (u ++ w) = some (t.walk p w).2 := by
  induction w generalizing t nodes u p with
  | nil =>
    have hsame : nodes.addAll (List.inits [] |>.map (u ++ ·)) = nodes := by
      show nodes.add (u ++ []) = nodes
      rw [List.append_nil]
      exact Numbering.add_of_mem (Numbering.mem_of_rank? hp)
    rw [hsame, List.append_nil]
    exact ⟨h, hp⟩
  | cons c w ih =>
    obtain ⟨hdescend, hnext⟩ := h.descend hp c
    have hword : u ++ c :: w = u ++ [c] ++ w := List.append_cons u c w
    rw [addAll_inits_cons (Numbering.mem_of_rank? hp), hword]
    exact ih hdescend hnext

/-- The state of a word accepts once the word is added. -/
theorem IsNode.accept {s : State} (h : IsNode nodes added u s) :
    IsNode nodes (added ++ [u]) u { s with accepting := true } where
  accepting_iff := iff_of_true rfl (List.mem_append_right _ List.mem_cons_self)
  epsilons_eq := h.epsilons_eq
  mem_edges_iff := h.mem_edges_iff
  disjoint := h.disjoint

/-- The states of other beginnings do not notice. -/
theorem IsNode.accept_other {s : State} (h : IsNode nodes added u s) (hne : u ≠ w) :
    IsNode nodes (added ++ [w]) u s where
  accepting_iff := by
    rw [h.accepting_iff, List.mem_append, List.mem_singleton, or_iff_left hne]
  epsilons_eq := h.epsilons_eq
  mem_edges_iff := h.mem_edges_iff
  disjoint := h.disjoint

/-- Adding a word numbers its beginnings, and the word is accepted besides those before it. -/
theorem Grown.addWord (h : t.Grown nodes added) (w : List Char) :
    (t.addWord w).Grown (nodes.addAll w.inits) (added ++ [w]) := by
  have hinitial : nodes.rank? [] = some t.automaton.initial := by
    rw [h.initial_eq]
    exact h.rank?_nil
  obtain ⟨hwalk, hlast⟩ := h.walk hinitial w
  have hinits : w.inits.map ([] ++ ·) = w.inits := List.map_id _
  rw [hinits] at hwalk hlast
  rw [List.nil_append] at hlast
  have hlt : (t.walk t.automaton.initial w).2 <
      (t.walk t.automaton.initial w).1.automaton.size := by
    rw [hwalk.size_eq]
    exact Numbering.rank?_lt_length hlast
  constructor
  case initial_eq => exact hwalk.initial_eq
  case size_eq => exact (size_modifyState ..).trans hwalk.size_eq
  case size_children => exact hwalk.size_children
  case rank?_nil => exact hwalk.rank?_nil
  case mem_of_added =>
    intro v hv
    rcases List.mem_append.1 hv with hv | hv
    · exact hwalk.mem_of_added v hv
    · rw [List.mem_singleton.1 hv]
      exact Numbering.mem_of_rank? hlast
  case closed => exact hwalk.closed
  case isNode =>
    intro v q hv
    show IsNode _ _ v ((Automaton.modifyState _ _ _).state q)
    rw [state_modifyState_of_lt hlt]
    by_cases hvw : v = w
    · subst hvw
      rw [if_pos (Option.some.inj (hlast.symm.trans hv))]
      exact (hwalk.isNode v q hv).accept
    · rw [if_neg fun heq : _ = q => hvw (Numbering.rank?_inj hv (heq ▸ hlast))]
      exact (hwalk.isNode v q hv).accept_other hvw
  case child?_eq => exact hwalk.child?_eq

/-! ## Words -/

theorem Grown.foldl_addWord (h : t.Grown nodes added) (ws : List (List Char)) :
    (ws.foldl Trie.addWord t).Grown (nodes.addAll (ws.flatMap List.inits)) (added ++ ws) := by
  induction ws generalizing t nodes added with
  | nil =>
    rw [List.append_nil]
    exact h
  | cons w ws ih =>
    have hnodes : nodes.addAll ((w :: ws).flatMap List.inits) =
        (nodes.addAll w.inits).addAll (ws.flatMap List.inits) := List.foldl_append
    rw [hnodes, List.append_cons]
    exact ih (h.addWord w)

/-- Added to the root, words number their beginnings. -/
theorem grown_words (ws : List (List Char)) :
    (ws.foldl Trie.addWord root).Grown (beginnings ws) ws :=
  grown_root.foldl_addWord ws

end Trie
end RegularLanguages.Automaton
