import Mathlib.Algebra.GroupWithZero.Nat
import RegularLanguages.Proofs.Automaton.Rational

set_option autoImplicit false

/-! # Cutting words into factors

What concatenation, counted repetition and stars accept, said of single words: a word is accepted
if it can be cut into factors, one for each operand or as many as the bounds allow, that are
accepted themselves. The operands may accept the empty word, accept nothing, or lead back to their
initial states; all that is asked of them is that they are valid.

A chain holds one copy of each of its parts and nothing else, so the sizes add up (`size_chain`).
A repetition with an upper bound is one chain that may be left early, and not a union over the
numbers of factors; this is why its size grows with the bound and not with the square of it. -/

namespace RegularLanguages.Automaton

variable {a : Automaton}

/-! ## Sizes -/

theorem size_chain (a : Automaton) (parts : List (Bool × Automaton)) :
    (chain a parts).size = a.size + (parts.map fun part => part.2.size).sum := by
  induction parts generalizing a with
  | nil => rfl
  | cons part rest ih =>
    show (a.followedBy part.1 (chain part.2 rest)).size = _
    rw [size_followedBy, ih, List.map_cons, List.sum_cons]

theorem length_sideBySide (offset : Nat) (parts : List Automaton) :
    (sideBySide offset parts).length = (parts.map size).sum := by
  induction parts generalizing offset with
  | nil => rfl
  | cons a rest ih =>
    rw [sideBySide, List.length_append, length_shifted, ih, List.map_cons, List.sum_cons]

/-- A star adds one state to its operand. -/
theorem size_star (a : Automaton) : a.star.size = a.size + 1 := by
  rw [star, size_fork, length_sideBySide, List.map_singleton, List.sum_singleton, size_plus]

theorem sum_size_replicate (a : Automaton) (optional : Bool) (n : Nat) :
    ((List.replicate n (optional, a)).map fun part => part.2.size).sum = n * a.size := by
  rw [List.map_replicate, List.sum_replicate_nat]

theorem size_epsilon : epsilon.size = 1 := rfl

/-- Without an upper bound a star stands behind the mandatory copies. -/
theorem size_repeated_none (a : Automaton) (min : Nat) :
    (a.repeated min none).size = 2 + (min + 1) * a.size := by
  show (chain epsilon (List.replicate min (false, a) ++ [(false, a.star)])).size = _
  rw [size_chain, size_epsilon, List.map_append, List.sum_append, sum_size_replicate,
    List.map_singleton, List.sum_singleton, size_star, Nat.succ_mul]
  omega

/-- The mandatory and the optional copies are as many as the upper bound says. -/
theorem size_repeated_some (a : Automaton) {min bound : Nat} (h : min ≤ bound) :
    (a.repeated min (some bound)).size = 1 + bound * a.size := by
  have hrepeated : a.repeated min (some bound) = chain epsilon
      (List.replicate min (false, a) ++ List.replicate (bound - min) (true, a)) :=
    if_neg (Nat.not_lt.2 h)
  rw [hrepeated, size_chain, size_epsilon, List.map_append, List.sum_append, sum_size_replicate,
    sum_size_replicate, ← Nat.add_mul, Nat.add_sub_cancel' h]

/-! ## Concatenation -/

theorem forall₂_accepts_iff {parts : List Automaton} (hparts : ∀ a ∈ parts, a.Valid)
    {factors : List (List Char)} :
    List.Forall₂ (fun a v => a.accepts v = true) parts factors ↔
      List.Forall₂ (fun a v => v ∈ a.language) parts factors := by
  induction parts generalizing factors with
  | nil => simp only [List.forall₂_nil_left_iff]
  | cons a rest ih =>
    obtain ⟨ha, hrest⟩ := List.forall_mem_cons.1 hparts
    cases factors with
    | nil => simp only [List.forall₂_nil_right_iff]
    | cons v factors =>
      rw [List.forall₂_cons, List.forall₂_cons, accepts_iff_mem_language ha, ih hrest]

/-- A word is accepted by the concatenation of some automata if it can be cut into consecutive
    factors, one for each automaton in order, that these accept; the concatenation of none accepts
    the empty word alone. Two automata may as well be concatenated directly. -/
theorem concatAll_accepts_iff :
    (∀ parts : List Automaton, (∀ a ∈ parts, a.Valid) → ∀ w,
      ((concatAll parts).accepts w = true ↔
        ∃ factors, List.Forall₂ (fun a v => a.accepts v = true) parts factors ∧
          w = factors.flatten)) ∧
      (∀ w, (concatAll []).accepts w = true ↔ w = []) ∧
      ∀ a b : Automaton, a.Valid → b.Valid → ∀ w,
        (a.concat b).accepts w = (concatAll [a, b]).accepts w := by
  refine ⟨fun parts hparts w => ?_, fun w => ?_, fun a b ha hb => ?_⟩
  · simp only [forall₂_accepts_iff hparts]
    rw [accepts_iff_mem_language (valid_concatAll hparts), language_concatAll hparts, mem_prod]
    simp only [List.forall₂_map_left_iff]
  · show epsilon.accepts w = true ↔ w = []
    rw [accepts_iff_mem_language valid_epsilon, language_epsilon, Language.mem_one]
  · have hpair := valid_pair ha hb
    rw [accepts_eq_accepts_iff (valid_concatAll hpair) (valid_concat ha hb),
      language_concat ha hb, language_concatAll hpair]
    simp

/-- An automaton that leads back to its initial state, one that accepts the empty word and one
    that accepts a character; and the same without the last. -/
theorem concatAll_accepts_iff_star :
    let a := (char 'a').star
    let b := (char 'b').optional
    (∀ part ∈ [a, b, char 'c'], part.Valid) ∧
      (∀ w, (concatAll [a, b, char 'c']).accepts w = true ↔
        ∃ factors, List.Forall₂ (fun a v => a.accepts v = true) [a, b, char 'c'] factors ∧
          w = factors.flatten) ∧
      ∀ w, (a.concat b).accepts w = (concatAll [a, b]).accepts w := by
  intro a b
  have hvalid : ∀ part ∈ [a, b, char 'c'], part.Valid := by decide
  exact ⟨hvalid, concatAll_accepts_iff.1 _ hvalid,
    concatAll_accepts_iff.2.2 a b (by decide) (by decide)⟩

/-! ## Repetition -/

/-- A word is accepted by a repetition if it can be cut into accepted factors as many as the
    bounds allow, hence no word if the bounds are in the wrong order. The size grows with the upper
    bound, or with the lower one if there is no upper bound. -/
theorem repeated_accepts_iff (ha : a.Valid) (min : Nat) (max : Option Nat) :
    (∀ w, (a.repeated min max).accepts w = true ↔
      ∃ factors : List (List Char), min ≤ factors.length ∧
        (∀ bound, max = some bound → factors.length ≤ bound) ∧
        (∀ v ∈ factors, a.accepts v = true) ∧ w = factors.flatten) ∧
      (∀ bound, max = some bound → bound < min → ∀ w, (a.repeated min max).accepts w = false) ∧
      (∀ bound, max = some bound → min ≤ bound →
        (a.repeated min max).size = 1 + bound * a.size) ∧
      (max = none → (a.repeated min max).size = 2 + (min + 1) * a.size) := by
  have haccepts : ∀ w, (a.repeated min max).accepts w = true ↔
      w ∈ powersBetween a.language min max := by
    intro w
    rw [accepts_iff_mem_language (valid_repeated ha min max), language_repeated ha]
  refine ⟨fun w => ?_, fun bound hmax hlt w => ?_, fun bound hmax hle => ?_, fun hmax => ?_⟩
  · simp only [accepts_iff_mem_language ha]
    rw [haccepts, mem_powersBetween]
  · rw [Bool.eq_false_iff, Ne, haccepts, hmax, powersBetween_of_lt hlt]
    exact Language.notMem_zero w
  · rw [hmax, size_repeated_some a hle]
  · rw [hmax, size_repeated_none]

/-- An automaton that accepts the empty word, repeated once or twice. -/
theorem repeated_accepts_iff_star :
    let a := (char 'a').star
    a.Valid ∧
      (∀ w, (a.repeated 1 (some 2)).accepts w = true ↔
        ∃ factors : List (List Char), 1 ≤ factors.length ∧
          (∀ bound, some 2 = some bound → factors.length ≤ bound) ∧
          (∀ v ∈ factors, a.accepts v = true) ∧ w = factors.flatten) ∧
      (a.repeated 1 (some 2)).size = 1 + 2 * a.size ∧
      (∀ w, (a.repeated 2 (some 1)).accepts w = false) ∧
      (a.repeated 1 none).size = 2 + (1 + 1) * a.size := by
  intro a
  have ha : a.Valid := by decide
  exact ⟨ha, (repeated_accepts_iff ha 1 (some 2)).1,
    (repeated_accepts_iff ha 1 (some 2)).2.2.1 2 rfl (by decide),
    (repeated_accepts_iff ha 2 (some 1)).2.1 1 rfl (by decide),
    (repeated_accepts_iff ha 1 none).2.2.2 rfl⟩

/-! ## Stars -/

/-- A word is accepted by a star if it can be cut into accepted factors, however many, and by
    `plus` if it can be cut into one or more. Edges that lead back to the initial state of the
    operand make no difference, nor does it matter whether the operand accepts the empty word. -/
theorem star_plus_accepts_iff (ha : a.Valid) (w : List Char) :
    (a.star.accepts w = true ↔
      ∃ factors : List (List Char), (∀ v ∈ factors, a.accepts v = true) ∧ w = factors.flatten) ∧
    (a.plus.accepts w = true ↔
      ∃ factors : List (List Char), factors ≠ [] ∧ (∀ v ∈ factors, a.accepts v = true) ∧
        w = factors.flatten) := by
  simp only [accepts_iff_mem_language ha]
  refine ⟨?_, ?_⟩
  · rw [accepts_iff_mem_language (valid_star ha), language_star ha, Language.mem_kstar]
    exact exists_congr fun _ => and_comm
  · rw [accepts_iff_mem_language (valid_plus ha), language_plus ha, mem_mul_kstar]

/-- An automaton for `a(ba)*`, which comes back to its initial state without accepting there. -/
theorem star_plus_accepts_iff_back :
    let a := ofList [{ edges := [⟨.single 'a', 1⟩] },
      { accepting := true, edges := [⟨.single 'b', 0⟩] }]
    a.Valid ∧
      (∀ w, (a.star.accepts w = true ↔ ∃ factors : List (List Char),
          (∀ v ∈ factors, a.accepts v = true) ∧ w = factors.flatten) ∧
        (a.plus.accepts w = true ↔ ∃ factors : List (List Char),
          factors ≠ [] ∧ (∀ v ∈ factors, a.accepts v = true) ∧ w = factors.flatten)) ∧
      a.star.accepts ['a', 'b'] = false ∧ a.plus.accepts [] = false := by
  intro a
  exact ⟨by decide, star_plus_accepts_iff (by decide), by decide, by decide⟩

end RegularLanguages.Automaton
