import Mathlib.Data.Finset.Prod
import RegularLanguages.Automaton.Boolean
import RegularLanguages.Automaton.Primitive
import RegularLanguages.Automaton.Rational
import RegularLanguages.Proofs.Automaton.EpsilonFree
import RegularLanguages.Proofs.CharRange.Parts

set_option autoImplicit false

/-! # Running two automata in step

The labels of two edges that meet read exactly the characters on which both edges can be taken, so
a pair moves on a character wherever both of its states move (`moves_product`). The search finds
every pair that such moves lead to, and a pair accepts what both of its states accept
(`mem_languageFrom_product`). Epsilon edges are removed first, for a pair has none.

The pairs that the search finds are those that words lead to (`reachable_product`), and each of
them is met under one number, so the product has no more states than there are pairs
(`size_product_le`). -/

namespace RegularLanguages

/-- There are at most `m * n` pairs of a number below `m` and a number below `n`. -/
theorem length_le_mul {m n : Nat} {pairs : List StatePair} (h : pairs.Nodup)
    (hlt : ∀ pair ∈ pairs, pair.left < m ∧ pair.right < n) : pairs.length ≤ m * n := by
  have hmaps : ∀ pair ∈ pairs.toFinset,
      (pair.left, pair.right) ∈ Finset.range m ×ˢ Finset.range n := by
    intro pair hpair
    obtain ⟨hl, hr⟩ := hlt pair (List.mem_toFinset.1 hpair)
    exact Finset.mem_product.2 ⟨Finset.mem_range.2 hl, Finset.mem_range.2 hr⟩
  have hinj : Set.InjOn (fun pair : StatePair => (pair.left, pair.right)) pairs.toFinset := by
    intro x _ y _ hxy
    obtain ⟨hl, hr⟩ := Prod.mk.inj hxy
    cases x
    cases y
    simp only at hl hr
    rw [hl, hr]
  have hcard := Finset.card_le_card_of_injOn _ hmaps hinj
  rwa [List.toFinset_card_of_nodup h, Finset.card_product, Finset.card_range,
    Finset.card_range] at hcard

namespace Automaton

variable {a b : Automaton} {pair next : StatePair} {i j : StateId} {c : Char} {w : List Char}

/-! ## Moves of a pair -/

theorem mem_jointMoves {label : CharRange} : (label, next) ∈ a.jointMoves b pair ↔
    ∃ d ∈ (a.state pair.left).edges, ∃ e ∈ (b.state pair.right).edges,
      d.label.intersect? e.label = some label ∧ next = ⟨d.target, e.target⟩ := by
  unfold jointMoves
  rw [List.mem_flatMap]
  refine exists_congr fun d => and_congr_right fun _ => ?_
  rw [List.mem_filterMap]
  refine exists_congr fun e => and_congr_right fun _ => ?_
  rw [Option.map_eq_some_iff]
  constructor
  · intro h
    obtain ⟨r, hr, heq⟩ := h
    obtain ⟨rfl, rfl⟩ := Prod.mk.inj heq
    exact ⟨hr, rfl⟩
  · intro h
    obtain ⟨hr, rfl⟩ := h
    exact ⟨label, hr, rfl⟩

/-- A pair moves on a character wherever both states move. -/
theorem exists_mem_jointMoves_iff :
    (∃ label, (label, next) ∈ a.jointMoves b pair ∧ c ∈ label) ↔
      a.Moves pair.left c next.left ∧ b.Moves pair.right c next.right := by
  simp only [mem_jointMoves]
  constructor
  · intro h
    obtain ⟨label, ⟨d, hd, e, he, hlabel, rfl⟩, hc⟩ := h
    obtain ⟨hcd, hce⟩ := (CharRange.mem_of_intersect?_eq_some hlabel).1 hc
    exact ⟨Leads.of_mem hd hcd, Leads.of_mem he hce⟩
  · intro h
    obtain ⟨⟨d, hd, hcd, hleft⟩, e, he, hce, hright⟩ := h
    obtain ⟨label, hlabel, hc⟩ := CharRange.exists_mem_intersect?_iff.2 ⟨hcd, hce⟩
    exact ⟨label, ⟨d, hd, e, he, hlabel, by rw [hleft, hright]⟩, hc⟩

/-! ## The pairs found -/

/-- The pair of the initial states leads to `pair` in some number of joint moves. -/
def JointlyReached (a b : Automaton) (pair : StatePair) : Prop :=
  Reached (fun pair => (a.jointMoves b pair).map Prod.snd) [⟨a.initial, b.initial⟩] pair

theorem JointlyReached.move (h : a.JointlyReached b pair)
    (ha : a.Moves pair.left c next.left) (hb : b.Moves pair.right c next.right) :
    a.JointlyReached b next := by
  obtain ⟨label, hmem, _⟩ := exists_mem_jointMoves_iff.2 ⟨ha, hb⟩
  exact Reached.next h (List.mem_map.2 ⟨(label, next), hmem, rfl⟩)

theorem JointlyReached.lt_size (ha : a.Valid) (hb : b.Valid) (h : a.JointlyReached b pair) :
    pair.left < a.size ∧ pair.right < b.size := by
  cases h with
  | start h =>
    rw [List.mem_singleton.1 h]
    exact ⟨ha.1, hb.1⟩
  | next _ h =>
    obtain ⟨⟨label, _⟩, hmem, rfl⟩ := List.mem_map.1 h
    obtain ⟨hleft, hright⟩ := exists_mem_jointMoves_iff.1 ⟨label, hmem, label.lo_mem⟩
    exact ⟨ha.target_lt hleft.mem_targets, hb.target_lt hright.mem_targets⟩

/-- The search finds every pair, for its budget covers all pairs of states. -/
theorem mem_jointPairs (ha : a.Valid) (hb : b.Valid) :
    pair ∈ a.jointPairs b ↔ a.JointlyReached b pair := by
  refine mem_explore_iff fun pairs hnodup hpairs => length_le_mul hnodup fun x hx => ?_
  exact JointlyReached.lt_size ha hb (hpairs x hx)

theorem rank?_jointPairs_initial (a b : Automaton) :
    (a.jointPairs b).rank? ⟨a.initial, b.initial⟩ = some 0 :=
  rank?_explore_cons _ _ _ _ _

/-! ## The product -/

theorem size_product (a b : Automaton) : (a.product b).size = (a.jointPairs b).toList.length := by
  rw [product, size_ofList_map]

theorem state_product (h : (a.jointPairs b).rank? pair = some i) :
    (a.product b).state i =
      { accepting := a.isAccepting pair.left && b.isAccepting pair.right
        edges := (a.jointMoves b pair).filterMap fun (label, next) =>
          ((a.jointPairs b).rank? next).map fun target => ⟨label, target⟩ } :=
  state_ofList_map h

theorem exists_rank?_jointPairs (hi : i < (a.product b).size) :
    ∃ pair, (a.jointPairs b).rank? pair = some i := by
  rw [size_product] at hi
  exact Numbering.exists_rank?_of_lt_length hi

theorem isAccepting_product (h : (a.jointPairs b).rank? pair = some i) :
    (a.product b).isAccepting i = true ↔
      a.isAccepting pair.left = true ∧ b.isAccepting pair.right = true := by
  rw [isAccepting, state_product h]
  exact Bool.and_eq_true_iff

theorem moves_product (h : (a.jointPairs b).rank? pair = some i) :
    (a.product b).Moves i c j ↔ ∃ next, (a.Moves pair.left c next.left ∧
      b.Moves pair.right c next.right) ∧ (a.jointPairs b).rank? next = some j := by
  rw [Moves, state_product h, leads_filterMap_rank?]
  simp only [exists_mem_jointMoves_iff]

theorem epsilonFree_product (a b : Automaton) : (a.product b).EpsilonFree := by
  refine epsilonFree_of_forall_lt fun i hi => ?_
  obtain ⟨pair, hpair⟩ := exists_rank?_jointPairs hi
  rw [state_product hpair]

theorem valid_product (a b : Automaton) : (a.product b).Valid := by
  have hlt : ∀ {pair i}, (a.jointPairs b).rank? pair = some i → i < (a.product b).size := by
    intro pair i h
    rw [size_product]
    exact Numbering.rank?_lt_length h
  refine (epsilonFree_product a b).valid (hlt (rank?_jointPairs_initial a b)) fun i hi c j hj => ?_
  obtain ⟨pair, hpair⟩ := exists_rank?_jointPairs hi
  obtain ⟨next, _, hnext⟩ := (moves_product hpair).1 hj
  exact hlt hnext

/-- A pair accepts the words that both of its states accept. -/
theorem mem_languageFrom_product (ha : a.Valid) (hb : b.Valid) (hfa : a.EpsilonFree)
    (hfb : b.EpsilonFree) (h : (a.jointPairs b).rank? pair = some i) :
    w ∈ (a.product b).languageFrom i ↔
      w ∈ a.languageFrom pair.left ∧ w ∈ b.languageFrom pair.right := by
  have hfree := epsilonFree_product a b
  induction w generalizing pair i with
  | nil =>
    rw [hfree.nil_mem_languageFrom_iff, hfa.nil_mem_languageFrom_iff,
      hfb.nil_mem_languageFrom_iff, isAccepting_product h]
  | cons c w ih =>
    rw [hfree.cons_mem_languageFrom_iff, hfa.cons_mem_languageFrom_iff,
      hfb.cons_mem_languageFrom_iff]
    simp only [moves_product h]
    constructor
    · intro hword
      obtain ⟨j, ⟨next, ⟨hleft, hright⟩, hj⟩, hw⟩ := hword
      obtain ⟨hwa, hwb⟩ := (ih hj).1 hw
      exact ⟨⟨next.left, hleft, hwa⟩, next.right, hright, hwb⟩
    · intro hwords
      obtain ⟨⟨p, hleft, hwa⟩, q, hright, hwb⟩ := hwords
      have hreached := (mem_jointPairs ha hb).1 (Numbering.mem_of_rank? h)
      -- The pair of the two targets was found, so it has a number.
      have hfound : (⟨p, q⟩ : StatePair) ∈ a.jointPairs b :=
        (mem_jointPairs ha hb).2 (hreached.move hleft hright)
      obtain ⟨j, hj⟩ := Numbering.mem_iff_exists_rank?.1 hfound
      exact ⟨j, ⟨⟨p, q⟩, ⟨hleft, hright⟩, hj⟩, (ih hj).2 ⟨hwa, hwb⟩⟩

theorem mem_language_product (ha : a.Valid) (hb : b.Valid) (hfa : a.EpsilonFree)
    (hfb : b.EpsilonFree) :
    w ∈ (a.product b).language ↔ w ∈ a.language ∧ w ∈ b.language :=
  mem_languageFrom_product ha hb hfa hfb (rank?_jointPairs_initial a b)

/-! ## States of the product -/

/-- A move of a pair is an edge of the product. -/
theorem reachable_product_next (ha : a.Valid) (hb : b.Valid)
    (h : (a.jointPairs b).rank? pair = some i) (hi : (a.product b).Reachable i)
    (hnext : next ∈ (a.jointMoves b pair).map Prod.snd) :
    ∃ j, (a.jointPairs b).rank? next = some j ∧ (a.product b).Reachable j := by
  obtain ⟨⟨label, _⟩, hmem, rfl⟩ := List.mem_map.1 hnext
  have hmoves := exists_mem_jointMoves_iff.1 ⟨label, hmem, label.lo_mem⟩
  have hreached := (mem_jointPairs ha hb).1 (Numbering.mem_of_rank? h)
  have hfound := (mem_jointPairs ha hb).2 (hreached.move hmoves.1 hmoves.2)
  obtain ⟨j, hj⟩ := Numbering.mem_iff_exists_rank?.1 hfound
  exact ⟨j, hj, hi.path (Moves.path ((moves_product h).2 ⟨_, hmoves, hj⟩))⟩

/-- Some word leads to every state of the product. -/
theorem reachable_product (ha : a.Valid) (hb : b.Valid) (hi : i < (a.product b).size) :
    (a.product b).Reachable i := by
  have hall : ∀ pair, a.JointlyReached b pair →
      ∃ j, (a.jointPairs b).rank? pair = some j ∧ (a.product b).Reachable j := by
    intro pair hpair
    induction hpair with
    | start h =>
      rw [List.mem_singleton.1 h]
      exact ⟨0, rank?_jointPairs_initial a b, reachable_initial _⟩
    | next _ hnext ih =>
      obtain ⟨j, hj, hreachable⟩ := ih
      exact reachable_product_next ha hb hj hreachable hnext
  obtain ⟨pair, hpair⟩ := exists_rank?_jointPairs hi
  obtain ⟨j, hj, hreachable⟩ := hall pair ((mem_jointPairs ha hb).1 (Numbering.mem_of_rank? hpair))
  rwa [Option.some.inj (hpair.symm.trans hj)]

theorem lt_size_of_rank?_jointPairs (ha : a.Valid) (hb : b.Valid)
    (h : (a.jointPairs b).rank? pair = some i) : pair.left < a.size ∧ pair.right < b.size :=
  ((mem_jointPairs ha hb).1 (Numbering.mem_of_rank? h)).lt_size ha hb

theorem size_product_le (ha : a.Valid) (hb : b.Valid) :
    (a.product b).size ≤ a.size * b.size := by
  rw [size_product]
  refine length_le_mul (Numbering.nodup_toList _) fun pair hpair => ?_
  obtain ⟨i, hi⟩ := Numbering.mem_iff_exists_rank?.1 (Numbering.mem_toList.1 hpair)
  exact lt_size_of_rank?_jointPairs ha hb hi

/-- The pair that a state of the product stands for. -/
def pairOf (a b : Automaton) (i : StateId) : StatePair :=
  (a.jointPairs b).toList[i]?.getD ⟨a.initial, b.initial⟩

theorem rank?_pairOf (hi : i < (a.product b).size) :
    (a.jointPairs b).rank? (a.pairOf b i) = some i := by
  obtain ⟨pair, hpair⟩ := exists_rank?_jointPairs hi
  have hget := Numbering.rank?_eq_some_iff.1 hpair
  rwa [pairOf, hget]

/-- Different states stand for different pairs. -/
theorem pairOf_inj (hi : i < (a.product b).size) (hj : j < (a.product b).size)
    (h : a.pairOf b i = a.pairOf b j) : i = j := by
  have hrank := rank?_pairOf hi
  rw [h, rank?_pairOf hj] at hrank
  exact (Option.some.inj hrank).symm

/-! ## Determinism -/

/-- The labels of a pair's moves are parts of labels of its left and of its right state. Two moves
    that differ on one side therefore share no character. -/
theorem pairwise_disjoint_jointMoves
    (ha : (a.state pair.left).edges.Pairwise fun d e => d.label.Disjoint e.label)
    (hb : (b.state pair.right).edges.Pairwise fun d e => d.label.Disjoint e.label) :
    (a.jointMoves b pair).Pairwise fun x y => x.1.Disjoint y.1 := by
  have hpart : ∀ {d : Edge} {x : CharRange × StatePair},
      x ∈ (b.state pair.right).edges.filterMap (fun e =>
        (d.label.intersect? e.label).map fun label => (label, (⟨d.target, e.target⟩ : StatePair))) →
      ∀ c ∈ x.1, c ∈ d.label := by
    intro d x hx c hc
    obtain ⟨e, _, he⟩ := List.mem_filterMap.1 hx
    obtain ⟨label, hlabel, rfl⟩ := Option.map_eq_some_iff.1 he
    exact ((CharRange.mem_of_intersect?_eq_some hlabel).1 hc).1
  refine List.pairwise_flatMap.2 ⟨fun d _ => ?_, ha.imp fun {d e} hde x hx y hy => ?_⟩
  · refine List.pairwise_filterMap.2 (hb.imp fun {e f} hef x hx y hy => ?_)
    obtain ⟨r, hr, rfl⟩ := Option.map_eq_some_iff.1 hx
    obtain ⟨s, hs, rfl⟩ := Option.map_eq_some_iff.1 hy
    rw [CharRange.disjoint_iff] at hef ⊢
    intro c hcr hcs
    exact hef c ((CharRange.mem_of_intersect?_eq_some hr).1 hcr).2
      ((CharRange.mem_of_intersect?_eq_some hs).1 hcs).2
  · rw [CharRange.disjoint_iff] at hde ⊢
    exact fun c hcx hcy => hde c (hpart hx c hcx) (hpart hy c hcy)

theorem isDeterministic_product (ha : a.IsDeterministic) (hb : b.IsDeterministic) :
    (a.product b).IsDeterministic := by
  refine isDeterministic_of_forall_lt fun i hi => ⟨epsilonFree_product a b i, ?_⟩
  obtain ⟨pair, hpair⟩ := exists_rank?_jointPairs hi
  rw [state_product hpair]
  have hmoves := pairwise_disjoint_jointMoves (isDeterministic_iff.1 ha pair.left).2
    (isDeterministic_iff.1 hb pair.right).2
  refine List.pairwise_filterMap.2 (hmoves.imp fun {x y} hxy d hd e he => ?_)
  obtain ⟨_, _, rfl⟩ := Option.map_eq_some_iff.1 hd
  obtain ⟨_, _, rfl⟩ := Option.map_eq_some_iff.1 he
  exact hxy

/-! ## Intersection -/

theorem valid_intersection (a b : Automaton) : (a.intersection b).Valid := valid_product _ _

theorem mem_language_intersection (ha : a.Valid) (hb : b.Valid) :
    w ∈ (a.intersection b).language ↔ w ∈ a.language ∧ w ∈ b.language := by
  rw [intersection, mem_language_product (valid_withoutEpsilons ha) (valid_withoutEpsilons hb)
    (epsilonFree_withoutEpsilons a) (epsilonFree_withoutEpsilons b),
    language_withoutEpsilons ha, language_withoutEpsilons hb]

theorem isDeterministic_intersection (ha : a.IsDeterministic) (hb : b.IsDeterministic) :
    (a.intersection b).IsDeterministic := by
  rw [intersection, ha.epsilonFree.withoutEpsilons_eq_self, hb.epsilonFree.withoutEpsilons_eq_self]
  exact isDeterministic_product ha hb

/-- The intersection accepts the words that both automata accept. It has no epsilon edges, and
    every state is reachable. Different states stand for different pairs of states of the automata
    without epsilon edges, a pair accepts what both of its states accept, and there are no more
    states than pairs. If both automata are deterministic, so is the intersection. -/
theorem intersection_accepts_iff (ha : a.Valid) (hb : b.Valid) :
    (∀ w, (a.intersection b).accepts w = true ↔ a.accepts w = true ∧ b.accepts w = true) ∧
      (a.intersection b).hasEpsilons = false ∧
      (∀ i < (a.intersection b).size, (a.intersection b).Reachable i) ∧
      (∃ f : StateId → StatePair, Set.InjOn f {i | i < (a.intersection b).size} ∧
        ∀ i < (a.intersection b).size,
          (f i).left < a.withoutEpsilons.size ∧ (f i).right < b.withoutEpsilons.size ∧
          ∀ w, w ∈ (a.intersection b).languageFrom i ↔
            w ∈ a.withoutEpsilons.languageFrom (f i).left ∧
              w ∈ b.withoutEpsilons.languageFrom (f i).right) ∧
      (a.intersection b).size ≤ a.withoutEpsilons.size * b.withoutEpsilons.size ∧
      (a.IsDeterministic → b.IsDeterministic → (a.intersection b).IsDeterministic) := by
  have ha' := valid_withoutEpsilons ha
  have hb' := valid_withoutEpsilons hb
  refine ⟨fun w => ?_, hasEpsilons_eq_false_iff.2 (epsilonFree_product _ _),
    fun i hi => reachable_product ha' hb' hi,
    ⟨pairOf a.withoutEpsilons b.withoutEpsilons, fun i hi j hj h => pairOf_inj hi hj h,
      fun i hi => ?_⟩, size_product_le ha' hb', isDeterministic_intersection⟩
  · rw [accepts_iff_mem_language (valid_intersection a b), accepts_iff_mem_language ha,
      accepts_iff_mem_language hb, mem_language_intersection ha hb]
  · obtain ⟨hleft, hright⟩ := lt_size_of_rank?_jointPairs ha' hb' (rank?_pairOf hi)
    refine ⟨hleft, hright, fun w => ?_⟩
    exact mem_languageFrom_product ha' hb' (epsilonFree_withoutEpsilons a)
      (epsilonFree_withoutEpsilons b) (rank?_pairOf hi)

/-- An automaton with epsilon edges and a deterministic one. -/
theorem intersection_accepts_iff_union_char :
    (((char 'a').union (char 'b')).Valid ∧ anyWord.Valid) ∧
      let a := (char 'a').union (char 'b')
      let b := anyWord
      (∀ w, (a.intersection b).accepts w = true ↔ a.accepts w = true ∧ b.accepts w = true) ∧
        (a.intersection b).hasEpsilons = false ∧
        (∀ i < (a.intersection b).size, (a.intersection b).Reachable i) ∧
        (∃ f : StateId → StatePair, Set.InjOn f {i | i < (a.intersection b).size} ∧
          ∀ i < (a.intersection b).size,
            (f i).left < a.withoutEpsilons.size ∧ (f i).right < b.withoutEpsilons.size ∧
            ∀ w, w ∈ (a.intersection b).languageFrom i ↔
              w ∈ a.withoutEpsilons.languageFrom (f i).left ∧
                w ∈ b.withoutEpsilons.languageFrom (f i).right) ∧
        (a.intersection b).size ≤ a.withoutEpsilons.size * b.withoutEpsilons.size ∧
        (a.IsDeterministic → b.IsDeterministic → (a.intersection b).IsDeterministic) :=
  ⟨⟨by decide, by decide⟩, intersection_accepts_iff (by decide) (by decide)⟩

end Automaton

end RegularLanguages
