import RegularLanguages.Proofs.Automaton.Copy
import RegularLanguages.Proofs.Automaton.Primitive
import RegularLanguages.Proofs.Language

set_option autoImplicit false

/-! # Languages of rational operations

Concatenation, union and repetition of valid automata are valid, and their languages are what the
operations are named for. The two joins carry the proof: behind `followedBy` stands a product
(`language_followedBy`), behind `fork` a sum (`language_fork`). Everything else is a chain or a
fork, but for `plus`, whose exits lead back to its start (`language_plus`).

A union accepts a word if one of its parts does, wherever the part begins and however its states
are joined, for no edge leads from one copy into another (`unionAll_accepts_iff`). -/

namespace RegularLanguages.Automaton

open Computability

variable {g a b : Automaton} {offset : Nat}

/-! ## Copied states -/

theorem getElem?_toList {p : StateId} (hp : p < g.size) : g.toList[p]? = some (g.state p) := by
  rw [toList, Array.getElem?_toList]
  exact getElem?_states hp

theorem length_toList (g : Automaton) : g.toList.length = g.size := rfl

theorem length_shifted (g : Automaton) (offset : Nat) : (g.shifted offset).length = g.size := by
  rw [shifted, List.length_map, length_toList]

theorem getElem?_shifted {p : StateId} (hp : p < g.size) :
    (g.shifted offset)[p]? = some ((g.state p).retarget (· + offset)) := by
  rw [shifted, List.getElem?_map, getElem?_toList hp]
  rfl

theorem lt_of_mem_shifted (hg : g.Valid) {s : State} (hs : s ∈ g.shifted offset) {target : StateId}
    (ht : target ∈ s.targets) : target < g.size + offset := by
  obtain ⟨s, hmem, rfl⟩ := List.mem_map.1 hs
  rw [State.targets_retarget] at ht
  obtain ⟨t, hts, rfl⟩ := List.mem_map.1 ht
  exact Nat.add_lt_add_right (hg.2 s hmem t hts) offset

theorem length_linkAccepting (g : Automaton) (keep : Bool) (target : StateId) :
    (g.linkAccepting keep target).length = g.size := by
  rw [linkAccepting, List.length_map, length_toList]

theorem getElem?_linkAccepting {keep : Bool} {target p : StateId} (hp : p < g.size) :
    (g.linkAccepting keep target)[p]? = some (if (g.state p).accepting then
      { g.state p with accepting := keep, epsilons := (g.state p).epsilons ++ [target] }
      else g.state p) := by
  rw [linkAccepting, List.getElem?_map, getElem?_toList hp]
  rfl

theorem lt_or_eq_of_mem_linkAccepting (hg : g.Valid) {keep : Bool} {exit : StateId} {s : State}
    (hs : s ∈ g.linkAccepting keep exit) {target : StateId} (ht : target ∈ s.targets) :
    target < g.size ∨ target = exit := by
  obtain ⟨s, hmem, rfl⟩ := List.mem_map.1 hs
  split at ht
  · rcases List.mem_append.1 ht with ht | ht
    · exact Or.inl (hg.2 s hmem target (List.mem_append_left _ ht))
    · rcases List.mem_append.1 ht with ht | ht
      · exact Or.inl (hg.2 s hmem target (List.mem_append_right _ ht))
      · exact Or.inr (List.mem_singleton.1 ht)
  · exact Or.inl (hg.2 s hmem target ht)

/-! ## One after the other -/

theorem size_followedBy (a : Automaton) (optional : Bool) (b : Automaton) :
    (a.followedBy optional b).size = a.size + b.size := by
  rw [size, followedBy, List.size_toArray, List.length_append, length_linkAccepting,
    length_shifted]

theorem holds_followedBy_left (a : Automaton) (optional : Bool) (b : Automaton) :
    Holds (a.followedBy optional b) a 0 optional [b.initial + a.size] := by
  refine holds_of_link fun p hp => state_of_getElem? ?_
  rw [followedBy, List.getElem?_toArray,
    List.getElem?_append_left (by rwa [length_linkAccepting]), getElem?_linkAccepting hp]

theorem holds_followedBy_right (a : Automaton) (optional : Bool) (b : Automaton) :
    Holds (a.followedBy optional b) b a.size true [] := by
  refine holds_of_retarget fun p hp => state_of_getElem? ?_
  rw [followedBy, List.getElem?_toArray, List.getElem?_append_right, length_linkAccepting,
    Nat.add_sub_cancel, getElem?_shifted hp]
  rw [length_linkAccepting]
  exact Nat.le_add_left _ _

theorem valid_followedBy (ha : a.Valid) (hb : b.Valid) (optional : Bool) :
    (a.followedBy optional b).Valid := by
  unfold Valid
  rw [size_followedBy]
  refine ⟨Nat.lt_add_right _ ha.1, fun s hs target ht => ?_⟩
  rcases List.mem_append.1 hs with hs | hs
  · rcases lt_or_eq_of_mem_linkAccepting ha hs ht with hlt | heq
    · exact Nat.lt_add_right _ hlt
    · rw [heq, Nat.add_comm]
      exact Nat.add_lt_add_left hb.1 _
  · rw [Nat.add_comm]
    exact lt_of_mem_shifted hb hs ht

theorem language_followedBy (ha : a.Valid) (hb : b.Valid) (optional : Bool) :
    (a.followedBy optional b).language
      = a.language * (emptyWordIf optional + b.language) := by
  have hleft := holds_followedBy_left a optional b
  have hexit : (a.followedBy optional b).languageFrom (b.initial + a.size) = b.language :=
    (holds_followedBy_right a optional b).languageFrom_eq hb hb.1
  ext w
  constructor
  · refine hleft.mem_mul ha (fun hkeep => ?_) (fun x hx v hv _ => ?_) ha.1
    · exact Or.inl (mem_emptyWordIf.2 ⟨hkeep, rfl⟩)
    · rw [List.mem_singleton.1 hx, hexit] at hv
      exact Or.inr hv
  · refine hleft.mem_languageFrom ha (fun v hv => ?_) ha.1
    rcases hv with hv | hv
    · exact Or.inl (mem_emptyWordIf.1 hv)
    · refine Or.inr ⟨_, List.mem_singleton.2 rfl, ?_⟩
      rw [hexit]
      exact hv

/-- The concatenation of two languages. -/
theorem valid_concat (ha : a.Valid) (hb : b.Valid) : (a.concat b).Valid :=
  valid_followedBy ha hb false

theorem language_concat (ha : a.Valid) (hb : b.Valid) :
    (a.concat b).language = a.language * b.language := by
  rw [concat, language_followedBy ha hb]
  exact congrArg _ (zero_add _)

/-- What may follow the first automaton of a chain. -/
def continuation : List (Bool × Automaton) → Language Char
  | [] => 1
  | (optional, b) :: rest => emptyWordIf optional + b.language * continuation rest

theorem valid_chain {parts : List (Bool × Automaton)} (ha : a.Valid)
    (hparts : ∀ part ∈ parts, part.2.Valid) : (chain a parts).Valid := by
  induction parts generalizing a with
  | nil => exact ha
  | cons part rest ih =>
    obtain ⟨hpart, hrest⟩ := List.forall_mem_cons.1 hparts
    exact valid_followedBy ha (ih hpart hrest) part.1

theorem language_chain {parts : List (Bool × Automaton)} (ha : a.Valid)
    (hparts : ∀ part ∈ parts, part.2.Valid) :
    (chain a parts).language = a.language * continuation parts := by
  induction parts generalizing a with
  | nil => exact (mul_one _).symm
  | cons part rest ih =>
    obtain ⟨hpart, hrest⟩ := List.forall_mem_cons.1 hparts
    show (a.followedBy part.1 (chain part.2 rest)).language = _
    rw [language_followedBy ha (valid_chain hpart hrest), ih hpart hrest]
    rfl

theorem valid_concatAll {parts : List Automaton} (hparts : ∀ a ∈ parts, a.Valid) :
    (concatAll parts).Valid :=
  valid_chain valid_epsilon (by simpa using hparts)

theorem continuation_map_false (parts : List Automaton) :
    continuation (parts.map fun a => (false, a)) = (parts.map language).prod := by
  induction parts with
  | nil => rfl
  | cons a rest ih =>
    show 0 + a.language * continuation _ = _
    rw [ih, zero_add, List.map_cons, List.prod_cons]

/-- The concatenation of some languages, in order. -/
theorem language_concatAll {parts : List Automaton} (hparts : ∀ a ∈ parts, a.Valid) :
    (concatAll parts).language = (parts.map language).prod := by
  rw [concatAll, language_chain valid_epsilon (by simpa using hparts), language_epsilon, one_mul,
    continuation_map_false]

/-! ## One of several -/

/-- From `offset` on the states of `g` are copies of the automata, side by side. -/
def HoldsAll (g : Automaton) (offset : Nat) (parts : List Automaton) : Prop :=
  ∀ p, g.states[p + offset]? = (sideBySide offset parts)[p]?

/-- The first copy takes the numbers from `offset` on. -/
theorem HoldsAll.head {rest : List Automaton} (h : HoldsAll g offset (a :: rest)) :
    Holds g a offset true [] := by
  refine holds_of_retarget fun p hp => state_of_getElem? ?_
  rw [h p, sideBySide, List.getElem?_append_left (by rwa [length_shifted]), getElem?_shifted hp]

/-- The others follow behind it. -/
theorem HoldsAll.tail {rest : List Automaton} (h : HoldsAll g offset (a :: rest)) :
    HoldsAll g (offset + a.size) rest := by
  intro p
  have hget := h (p + a.size)
  rw [Nat.add_assoc, Nat.add_comm a.size] at hget
  rw [hget, sideBySide, List.getElem?_append_right (by rw [length_shifted]; omega),
    length_shifted, Nat.add_sub_cancel]

/-- The copies that stand side by side are entered at their initial states. -/
theorem HoldsAll.exists_mem_entries_iff {parts : List Automaton} (h : HoldsAll g offset parts)
    (hparts : ∀ a ∈ parts, a.Valid) {w : List Char} :
    (∃ x ∈ entries offset parts, w ∈ g.languageFrom x) ↔ ∃ a ∈ parts, w ∈ a.language := by
  induction parts generalizing offset with
  | nil => simp [entries]
  | cons a rest ih =>
    obtain ⟨ha, hrest⟩ := List.forall_mem_cons.1 hparts
    unfold entries
    rw [List.exists_mem_cons_iff, List.exists_mem_cons_iff, h.head.languageFrom_eq ha ha.1,
      ih h.tail hrest]
    rfl

theorem lt_of_mem_sideBySide {parts : List Automaton} (hparts : ∀ a ∈ parts, a.Valid) {s : State}
    (hs : s ∈ sideBySide offset parts) {target : StateId} (ht : target ∈ s.targets) :
    target < (sideBySide offset parts).length + offset := by
  induction parts generalizing offset with
  | nil => exact absurd hs List.not_mem_nil
  | cons a rest ih =>
    obtain ⟨ha, hrest⟩ := List.forall_mem_cons.1 hparts
    unfold sideBySide at hs ⊢
    rw [List.length_append, length_shifted]
    rcases List.mem_append.1 hs with hs | hs
    · have := lt_of_mem_shifted ha hs ht
      exact Nat.lt_of_lt_of_le this (by omega)
    · have := ih hrest hs
      exact Nat.lt_of_lt_of_le this (by omega)

theorem lt_of_mem_entries {parts : List Automaton} (hparts : ∀ a ∈ parts, a.Valid) {x : StateId}
    (hx : x ∈ entries offset parts) : x < (sideBySide offset parts).length + offset := by
  induction parts generalizing offset with
  | nil => exact absurd hx List.not_mem_nil
  | cons a rest ih =>
    obtain ⟨ha, hrest⟩ := List.forall_mem_cons.1 hparts
    unfold sideBySide
    rw [List.length_append, length_shifted]
    rcases List.mem_cons.1 hx with rfl | hx
    · exact Nat.lt_of_lt_of_le (Nat.add_lt_add_right ha.1 offset) (by omega)
    · exact Nat.lt_of_lt_of_le (ih hrest hx) (by omega)

theorem size_fork (accepting : Bool) (parts : List Automaton) :
    (fork accepting parts).size = (sideBySide 1 parts).length + 1 := by
  rw [fork, size_ofList, List.length_cons]

theorem valid_fork {parts : List Automaton} (hparts : ∀ a ∈ parts, a.Valid) (accepting : Bool) :
    (fork accepting parts).Valid := by
  unfold Valid
  rw [size_fork]
  refine ⟨Nat.succ_pos _, fun s hs target ht => ?_⟩
  rcases List.mem_cons.1 hs with rfl | hs
  · exact lt_of_mem_entries hparts ht
  · exact lt_of_mem_sideBySide hparts hs ht

theorem holdsAll_fork (accepting : Bool) (parts : List Automaton) :
    HoldsAll (fork accepting parts) 1 parts := by
  intro p
  rw [fork, ofList, List.getElem?_toArray, List.getElem?_cons_succ]

theorem language_fork {parts : List Automaton} (hparts : ∀ a ∈ parts, a.Valid)
    (accepting : Bool) : (fork accepting parts).language
      = emptyWordIf accepting + (parts.map language).sum := by
  have hstate : (fork accepting parts).state 0 = { accepting, epsilons := entries 1 parts } :=
    state_ofList rfl
  ext w
  show w ∈ (fork accepting parts).languageFrom 0 ↔ _
  rw [mem_languageFrom_of_edges_eq_nil (by rw [hstate]), isAccepting, hstate,
    (holdsAll_fork accepting parts).exists_mem_entries_iff hparts, Language.mem_add,
    mem_emptyWordIf, mem_sum]
  simp

theorem valid_unionAll {parts : List Automaton} (hparts : ∀ a ∈ parts, a.Valid) :
    (unionAll parts).Valid :=
  valid_fork hparts false

/-- The union of some languages. -/
theorem language_unionAll {parts : List Automaton} (hparts : ∀ a ∈ parts, a.Valid) :
    (unionAll parts).language = (parts.map language).sum := by
  rw [unionAll, language_fork hparts]
  exact zero_add _

theorem valid_pair (ha : a.Valid) (hb : b.Valid) : ∀ part ∈ [a, b], part.Valid := by
  simp [ha, hb]

theorem valid_union (ha : a.Valid) (hb : b.Valid) : (a.union b).Valid :=
  valid_unionAll (valid_pair ha hb)

theorem language_union (ha : a.Valid) (hb : b.Valid) :
    (a.union b).language = a.language + b.language := by
  rw [union, language_unionAll (valid_pair ha hb)]
  simp

theorem valid_optional (ha : a.Valid) : a.optional.Valid := valid_union ha valid_epsilon

theorem language_optional (ha : a.Valid) : a.optional.language = a.language + 1 := by
  rw [optional, language_union ha valid_epsilon, language_epsilon]

/-- A word is accepted by the union of some automata if one of them accepts it, hence none by the
    union of none. A union of two accepts what either accepts, and with `optional` the empty word
    is accepted besides. -/
theorem unionAll_accepts_iff :
    (∀ parts : List Automaton, (∀ a ∈ parts, a.Valid) → ∀ w,
      ((unionAll parts).accepts w = true ↔ ∃ a ∈ parts, a.accepts w = true)) ∧
      (∀ w, (unionAll []).accepts w = false) ∧
      (∀ a b : Automaton, a.Valid → b.Valid → ∀ w,
        ((a.union b).accepts w = true ↔ a.accepts w = true ∨ b.accepts w = true)) ∧
      ∀ a : Automaton, a.Valid → ∀ w,
        (a.optional.accepts w = true ↔ w = [] ∨ a.accepts w = true) := by
  have hall : ∀ parts : List Automaton, (∀ a ∈ parts, a.Valid) → ∀ w,
      ((unionAll parts).accepts w = true ↔ ∃ a ∈ parts, a.accepts w = true) := by
    intro parts hparts w
    rw [accepts_iff_mem_language (valid_unionAll hparts), language_unionAll hparts, mem_sum]
    simp only [List.mem_map, exists_exists_and_eq_and]
    exact exists_congr fun a =>
      and_congr_right fun ha => (accepts_iff_mem_language (hparts a ha)).symm
  refine ⟨hall, fun w => ?_, fun a b ha hb w => ?_, fun a ha w => ?_⟩
  · rw [Bool.eq_false_iff, Ne, hall [] (List.forall_mem_nil _)]
    simp
  · rw [union, hall _ (valid_pair ha hb)]
    simp
  · rw [accepts_iff_mem_language (valid_optional ha), language_optional ha, Language.mem_add,
      Language.mem_one, accepts_iff_mem_language ha, or_comm]

/-- Automata side by side of which one accepts nothing, one has its initial state at the end and
    one leads back to its initial state. -/
theorem unionAll_accepts_iff_mixed :
    let a := empty
    let b : Automaton := { states := #[{ accepting := true }, { edges := [⟨.single 'b', 0⟩] }],
                           initial := 1 }
    let c := anyWord
    (∀ part ∈ [a, b, c], part.Valid) ∧
      (∀ w, (unionAll [a, b, c]).accepts w = true ↔
        ∃ part ∈ [a, b, c], part.accepts w = true) ∧
      (∀ w, (a.union b).accepts w = true ↔ a.accepts w = true ∨ b.accepts w = true) ∧
      ∀ w, b.optional.accepts w = true ↔ w = [] ∨ b.accepts w = true := by
  intro a b c
  have hvalid : ∀ part ∈ [a, b, c], part.Valid := by decide
  exact ⟨hvalid, unionAll_accepts_iff.1 _ hvalid,
    unionAll_accepts_iff.2.2.1 a b (by decide) (by decide),
    unionAll_accepts_iff.2.2.2 b (by decide)⟩

/-! ## Repetition -/

theorem size_plus (a : Automaton) : a.plus.size = a.size := by
  rw [size, plus, List.size_toArray, length_linkAccepting]

theorem valid_plus (ha : a.Valid) : a.plus.Valid := by
  unfold Valid
  rw [size_plus]
  refine ⟨ha.1, fun s hs target ht => ?_⟩
  rcases lt_or_eq_of_mem_linkAccepting ha hs ht with hlt | heq
  · exact hlt
  · rw [heq]
    exact ha.1

theorem holds_plus (a : Automaton) : Holds a.plus a 0 true [a.initial] := by
  refine holds_of_link fun p hp => state_of_getElem? ?_
  rw [plus, List.getElem?_toArray, getElem?_linkAccepting hp]

/-- Each further word takes the way back to the start once more. -/
theorem mem_language_plus_of_mem_mul_pow (ha : a.Valid) {n : ℕ} {w : List Char}
    (hw : w ∈ a.language * a.language ^ n) : w ∈ a.plus.language := by
  have hcopy := holds_plus a
  induction n generalizing w with
  | zero => exact hcopy.mem_languageFrom ha (fun v hv => Or.inl ⟨rfl, hv⟩) ha.1 hw
  | succ n ih =>
    rw [pow_succ'] at hw
    refine hcopy.mem_languageFrom ha (fun v hv => Or.inr ?_) ha.1 hw
    exact ⟨a.initial, List.mem_singleton.2 rfl, ih hv⟩

/-- A run that takes the way back ends a word of the operand there, whichever other edges lead to
    the start. -/
theorem mem_mul_kstar_of_mem_language_plus (ha : a.Valid) {w : List Char}
    (hw : w ∈ a.plus.language) : w ∈ a.language * a.language∗ := by
  refine (holds_plus a).mem_mul ha (fun _ => Language.nil_mem_kstar _) (fun x hx v _ hv => ?_)
    ha.1 hw
  -- The only exit leads back to the start, from where one more word is accepted.
  have hagain : v ∈ a.language * a.language∗ := hv a.initial ha.1 (List.mem_singleton.1 hx).symm
  rw [← Language.one_add_self_mul_kstar_eq_kstar]
  exact Or.inr hagain

/-- One or more words. -/
theorem language_plus (ha : a.Valid) : a.plus.language = a.language * a.language∗ := by
  ext w
  refine ⟨mem_mul_kstar_of_mem_language_plus ha, fun hw => ?_⟩
  rw [Language.kstar_eq_iSup_pow, Language.mul_iSup, Language.mem_iSup] at hw
  obtain ⟨n, hn⟩ := hw
  exact mem_language_plus_of_mem_mul_pow ha hn

theorem valid_star (ha : a.Valid) : a.star.Valid :=
  valid_fork (List.forall_mem_singleton.2 (valid_plus ha)) true

/-- Any number of words. -/
theorem language_star (ha : a.Valid) : a.star.language = a.language∗ := by
  rw [star, language_fork (List.forall_mem_singleton.2 (valid_plus ha))]
  show 1 + ([a.plus.language] : List (Language Char)).sum = _
  rw [List.sum_singleton, language_plus ha, Language.one_add_self_mul_kstar_eq_kstar]

theorem continuation_replicate_false (a : Automaton) (n : ℕ) (rest : List (Bool × Automaton)) :
    continuation (List.replicate n (false, a) ++ rest) = a.language ^ n * continuation rest := by
  induction n with
  | zero => exact (one_mul _).symm
  | succ n ih =>
    rw [List.replicate_succ, List.cons_append, pow_succ', mul_assoc, ← ih]
    exact zero_add _

theorem continuation_replicate_true (a : Automaton) (n : ℕ) :
    continuation (List.replicate n (true, a)) = powersUpTo a.language n := by
  induction n with
  | zero => exact (powersUpTo_zero _).symm
  | succ n ih =>
    rw [powersUpTo_succ, ← ih]
    rfl

theorem valid_of_mem_replicate (ha : a.Valid) {n : ℕ} {optional : Bool} :
    ∀ part ∈ List.replicate n (optional, a), part.2.Valid := by
  intro part hpart
  rw [(List.mem_replicate.1 hpart).2]
  exact ha

theorem valid_of_mem_replicate_star (ha : a.Valid) {n : ℕ} :
    ∀ part ∈ List.replicate n (false, a) ++ [(false, a.star)], part.2.Valid :=
  List.forall_mem_append.2
    ⟨valid_of_mem_replicate ha, List.forall_mem_singleton.2 (valid_star ha)⟩

theorem valid_of_mem_replicate_append (ha : a.Valid) {n m : ℕ} :
    ∀ part ∈ List.replicate n (false, a) ++ List.replicate m (true, a), part.2.Valid :=
  List.forall_mem_append.2 ⟨valid_of_mem_replicate ha, valid_of_mem_replicate ha⟩

theorem valid_repeated (ha : a.Valid) (min : Nat) (max : Option Nat) :
    (a.repeated min max).Valid := by
  unfold repeated
  split
  · exact valid_chain valid_epsilon (valid_of_mem_replicate_star ha)
  · split
    · exact valid_empty
    · exact valid_chain valid_epsilon (valid_of_mem_replicate_append ha)

theorem language_repeated (ha : a.Valid) (min : Nat) (max : Option Nat) :
    (a.repeated min max).language = powersBetween a.language min max := by
  cases max with
  | none =>
    show (chain epsilon (List.replicate min (false, a) ++ [(false, a.star)])).language = _
    rw [powersBetween_none, language_chain valid_epsilon (valid_of_mem_replicate_star ha),
      language_epsilon, one_mul, continuation_replicate_false]
    show a.language ^ min * (0 + a.star.language * 1) = _
    rw [zero_add, mul_one, language_star ha]
  | some bound =>
    by_cases hlt : bound < min
    · rw [powersBetween_of_lt hlt, ← language_empty]
      exact congrArg language (if_pos hlt)
    · have hrepeated : a.repeated min (some bound) = chain epsilon
          (List.replicate min (false, a) ++ List.replicate (bound - min) (true, a)) :=
        if_neg hlt
      rw [powersBetween_some (Nat.le_of_not_lt hlt), hrepeated,
        language_chain valid_epsilon (valid_of_mem_replicate_append ha), language_epsilon, one_mul,
        continuation_replicate_false, continuation_replicate_true]

end RegularLanguages.Automaton
