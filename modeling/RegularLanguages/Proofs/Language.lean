import Mathlib.Computability.Language

set_option autoImplicit false

/-! # Powers and sums of languages

The languages behind the operators of patterns, as far as they are not there already: a sum of
several languages, an optional empty word, and the words made of a bounded number of words of a
language. Two laws say what a star means for characters and for parts with a separator, two more
how the words of products and powers are cut into factors, and the last ones which of these
languages have the empty word. -/

namespace RegularLanguages

open Computability

/-- The empty word, or no word. -/
def emptyWordIf (condition : Bool) : Language Char := if condition then 1 else 0

theorem mem_emptyWordIf {condition : Bool} {w : List Char} :
    w ∈ emptyWordIf condition ↔ condition = true ∧ w = [] := by
  cases condition with
  | false =>
    refine iff_of_false (Language.notMem_zero w) ?_
    rintro ⟨hcondition, _⟩
    exact Bool.false_ne_true hcondition
  | true => exact ⟨fun h => ⟨rfl, h⟩, fun h => h.2⟩

/-- A word of a sum is a word of one of its parts. -/
theorem mem_sum {parts : List (Language Char)} {w : List Char} :
    w ∈ parts.sum ↔ ∃ l ∈ parts, w ∈ l := by
  induction parts with
  | nil => simp [Language.notMem_zero]
  | cons l rest ih => rw [List.sum_cons, Language.mem_add, ih, List.exists_mem_cons_iff]

/-- A word of a product is cut into factors, one for each of the languages in order. -/
theorem mem_prod {parts : List (Language Char)} {w : List Char} :
    w ∈ parts.prod ↔
      ∃ factors, List.Forall₂ (fun l v => v ∈ l) parts factors ∧ w = factors.flatten := by
  induction parts generalizing w with
  | nil => simp [Language.mem_one]
  | cons l rest ih =>
    rw [List.prod_cons, Language.mem_mul]
    refine ⟨fun h => ?_, fun h => ?_⟩
    · obtain ⟨v, hv, u, hu, rfl⟩ := h
      obtain ⟨factors, hfactors, rfl⟩ := ih.1 hu
      exact ⟨v :: factors, .cons hv hfactors, rfl⟩
    · obtain ⟨_, hfactors, rfl⟩ := h
      cases hfactors with
      | cons hv hrest => exact ⟨_, hv, _, ih.2 ⟨_, hrest, rfl⟩, rfl⟩

/-! ## Characters and separators -/

/-- The words of one character with a property. -/
def oneChar (P : Char → Prop) : Language Char := {w | ∃ c, w = [c] ∧ P c}

theorem mem_kstar_oneChar {P : Char → Prop} {w : List Char} :
    w ∈ (oneChar P)∗ ↔ ∀ c ∈ w, P c := by
  rw [Language.mem_kstar]
  constructor
  · intro h
    obtain ⟨parts, rfl, hparts⟩ := h
    intro c hc
    obtain ⟨part, hpart, hmem⟩ := List.mem_flatten.1 hc
    obtain ⟨d, rfl, hd⟩ := hparts part hpart
    rwa [List.mem_singleton.1 hmem]
  · intro h
    refine ⟨w.map fun c => [c], ?_, List.forall_mem_map.2 fun c hc => ⟨c, rfl, h c hc⟩⟩
    rw [← List.flatMap_def, List.flatMap_singleton']

/-- Parts with a separator between them. -/
theorem mem_kstar_mul_iff_intercalate {l : Language Char} {s : Char} {w : List Char} :
    w ∈ (l * {[s]})∗ * l ↔
      ∃ parts, parts ≠ [] ∧ (∀ p ∈ parts, p ∈ l) ∧ w = [s].intercalate parts := by
  constructor
  · intro h
    obtain ⟨u, hu, last, hlast, rfl⟩ := Language.mem_mul.1 h
    obtain ⟨parts, rfl, hparts⟩ := Language.mem_kstar.1 hu
    clear hu h
    induction parts with
    | nil => exact ⟨[last], List.cons_ne_nil _ _, List.forall_mem_singleton.2 hlast, by simp⟩
    | cons part parts ih =>
      obtain ⟨hpart, hrest⟩ := List.forall_mem_cons.1 hparts
      obtain ⟨p, hp, _, rfl, rfl⟩ := Language.mem_mul.1 hpart
      obtain ⟨others, hne, hothers, heq⟩ := ih hrest
      refine ⟨p :: others, List.cons_ne_nil _ _, List.forall_mem_cons.2 ⟨hp, hothers⟩, ?_⟩
      rw [List.intercalate_cons_of_ne_nil hne, ← heq]
      simp
  · intro h
    obtain ⟨parts, hne, hparts, rfl⟩ := h
    induction parts with
    | nil => exact absurd rfl hne
    | cons p others ih =>
      obtain ⟨hp, hothers⟩ := List.forall_mem_cons.1 hparts
      cases others with
      | nil =>
        rw [List.intercalate_singleton]
        exact Language.append_mem_mul (Language.nil_mem_kstar _) hp
      | cons q rest =>
        rw [List.intercalate_cons_cons]
        obtain ⟨u, hu, v, hv, heq⟩ := Language.mem_mul.1 (ih (List.cons_ne_nil _ _) hothers)
        rw [← heq, ← List.append_assoc]
        have hpart : p ++ [s] ∈ l * {[s]} := Language.append_mem_mul hp (Set.mem_singleton [s])
        have hle : l * {[s]} * (l * {[s]})∗ ≤ (l * {[s]})∗ := mul_kstar_le_kstar
        exact Language.append_mem_mul (hle (Language.append_mem_mul hpart hu)) hv

/-! ## Bounded powers -/

/-- The words made of up to `n` words of the language. -/
def powersUpTo (l : Language Char) (n : Nat) : Language Char := {w | ∃ k ≤ n, w ∈ l ^ k}

theorem powersUpTo_zero (l : Language Char) : powersUpTo l 0 = 1 := by
  ext w
  constructor
  · rintro ⟨k, hk, hw⟩
    rwa [Nat.le_zero.1 hk] at hw
  · intro hw
    exact ⟨0, Nat.le_refl 0, hw⟩

theorem powersUpTo_succ (l : Language Char) (n : Nat) :
    powersUpTo l (n + 1) = 1 + l * powersUpTo l n := by
  ext w
  rw [Language.mem_add]
  constructor
  · rintro ⟨k, hk, hw⟩
    cases k with
    | zero => exact Or.inl hw
    | succ k =>
      rw [pow_succ'] at hw
      obtain ⟨u, hu, v, hv, rfl⟩ := Language.mem_mul.1 hw
      exact Or.inr (Language.append_mem_mul hu ⟨k, Nat.le_of_succ_le_succ hk, hv⟩)
  · rintro (hw | hw)
    · exact ⟨0, Nat.zero_le _, hw⟩
    · obtain ⟨u, hu, v, ⟨k, hk, hv⟩, rfl⟩ := Language.mem_mul.1 hw
      refine ⟨k + 1, Nat.succ_le_succ hk, ?_⟩
      rw [pow_succ']
      exact Language.append_mem_mul hu hv

/-- The words made of at least `min` words of the language, and of at most `max` if there is such
    a bound. -/
def powersBetween (l : Language Char) (min : Nat) (max : Option Nat) : Language Char :=
  {w | ∃ k, min ≤ k ∧ (∀ bound, max = some bound → k ≤ bound) ∧ w ∈ l ^ k}

/-- The bounds are about the number of factors. -/
theorem mem_powersBetween {l : Language Char} {min : Nat} {max : Option Nat} {w : List Char} :
    w ∈ powersBetween l min max ↔
      ∃ factors : List (List Char), min ≤ factors.length ∧
        (∀ bound, max = some bound → factors.length ≤ bound) ∧
        (∀ v ∈ factors, v ∈ l) ∧ w = factors.flatten := by
  show (∃ k, min ≤ k ∧ (∀ bound, max = some bound → k ≤ bound) ∧ w ∈ l ^ k) ↔ _
  simp only [Language.mem_pow]
  refine ⟨fun h => ?_, fun h => ?_⟩
  · obtain ⟨_, hmin, hmax, factors, hw, rfl, hfactors⟩ := h
    exact ⟨factors, hmin, hmax, hfactors, hw⟩
  · obtain ⟨factors, hmin, hmax, hfactors, hw⟩ := h
    exact ⟨factors.length, hmin, hmax, factors, hw, rfl, hfactors⟩

theorem mem_kstar_iff_exists_pow {l : Language Char} {w : List Char} :
    w ∈ l∗ ↔ ∃ k : ℕ, w ∈ l ^ k := by
  rw [Language.kstar_eq_iSup_pow, Language.mem_iSup]

/-- A language followed by its star holds the words that are cut into one or more factors. -/
theorem mem_mul_kstar {l : Language Char} {w : List Char} :
    w ∈ l * l∗ ↔
      ∃ factors : List (List Char), factors ≠ [] ∧ (∀ v ∈ factors, v ∈ l) ∧
        w = factors.flatten := by
  rw [Language.mem_mul]
  refine ⟨fun h => ?_, fun h => ?_⟩
  · obtain ⟨v, hv, u, hu, rfl⟩ := h
    obtain ⟨factors, rfl, hfactors⟩ := Language.mem_kstar.1 hu
    exact ⟨v :: factors, List.cons_ne_nil _ _, List.forall_mem_cons.2 ⟨hv, hfactors⟩, rfl⟩
  · obtain ⟨factors, hne, hfactors, rfl⟩ := h
    cases factors with
    | nil => exact absurd rfl hne
    | cons v rest =>
      obtain ⟨hv, hrest⟩ := List.forall_mem_cons.1 hfactors
      exact ⟨v, hv, rest.flatten, Language.join_mem_kstar hrest, rfl⟩

/-- The factors that must be there come first, and the bound leaves room for the others. -/
theorem mem_powersBetween_iff_exists_append {l : Language Char} {min : Nat} {max : Option Nat}
    {w : List Char} : w ∈ powersBetween l min max ↔ ∃ u ∈ l ^ min, ∃ v,
      (∃ k, (∀ bound, max = some bound → min + k ≤ bound) ∧ v ∈ l ^ k) ∧ u ++ v = w := by
  refine ⟨fun h => ?_, fun h => ?_⟩
  · obtain ⟨n, hn, hmax, hw⟩ := h
    obtain ⟨k, rfl⟩ := Nat.exists_eq_add_of_le hn
    rw [pow_add, Language.mem_mul] at hw
    obtain ⟨u, hu, v, hv, rfl⟩ := hw
    exact ⟨u, hu, v, ⟨k, hmax, hv⟩, rfl⟩
  · obtain ⟨u, hu, v, ⟨k, hmax, hv⟩, rfl⟩ := h
    refine ⟨min + k, Nat.le_add_right _ _, hmax, ?_⟩
    rw [pow_add]
    exact Language.append_mem_mul hu hv

theorem powersBetween_none (l : Language Char) (min : Nat) :
    powersBetween l min none = l ^ min * l∗ := by
  ext w
  rw [mem_powersBetween_iff_exists_append, Language.mem_mul]
  simp [mem_kstar_iff_exists_pow]

theorem powersBetween_some {l : Language Char} {min bound : Nat} (h : min ≤ bound) :
    powersBetween l min (some bound) = l ^ min * powersUpTo l (bound - min) := by
  have hroom : ∀ k, (∀ b, some bound = some b → min + k ≤ b) ↔ k ≤ bound - min := by
    intro k
    rw [Nat.le_sub_iff_add_le h, Nat.add_comm]
    simp
  ext w
  rw [mem_powersBetween_iff_exists_append, Language.mem_mul]
  simp only [hroom]
  rfl

/-- Bounds in the wrong order leave no word. -/
theorem powersBetween_of_lt {l : Language Char} {min bound : Nat} (h : bound < min) :
    powersBetween l min (some bound) = 0 := by
  ext w
  refine iff_of_false ?_ (Language.notMem_zero w)
  rintro ⟨k, hk, hbound, _⟩
  exact absurd (hbound bound rfl) (Nat.not_le.2 (Nat.lt_of_lt_of_le h hk))

/-! ## The empty word

The empty word is made of empty factors only. -/

theorem nil_mem_mul {l m : Language Char} : [] ∈ l * m ↔ [] ∈ l ∧ [] ∈ m := by
  rw [Language.mem_mul]
  constructor
  · rintro ⟨u, hu, v, hv, huv⟩
    obtain ⟨rfl, rfl⟩ := List.append_eq_nil_iff.1 huv
    exact ⟨hu, hv⟩
  · rintro ⟨hl, hm⟩
    exact ⟨[], hl, [], hm, rfl⟩

theorem nil_mem_prod {parts : List (Language Char)} :
    [] ∈ parts.prod ↔ ∀ l ∈ parts, [] ∈ l := by
  induction parts with
  | nil => exact iff_of_true Language.nil_mem_one fun _ hl => absurd hl List.not_mem_nil
  | cons l rest ih => rw [List.prod_cons, nil_mem_mul, ih, List.forall_mem_cons]

theorem nil_mem_pow {l : Language Char} {k : Nat} : [] ∈ l ^ k ↔ k = 0 ∨ [] ∈ l := by
  induction k with
  | zero => exact iff_of_true Language.nil_mem_one (Or.inl rfl)
  | succ k ih =>
    rw [pow_succ', nil_mem_mul, ih, or_iff_right k.succ_ne_zero]
    exact ⟨fun h => h.1, fun h => ⟨h, Or.inr h⟩⟩

/-- If the bounds leave any number of factors, the least number decides. -/
theorem nil_mem_powersBetween {l : Language Char} {min : Nat} {max : Option Nat}
    (h : ∀ bound, max = some bound → min ≤ bound) :
    [] ∈ powersBetween l min max ↔ min = 0 ∨ [] ∈ l := by
  constructor
  · rintro ⟨k, hmin, _, hnil⟩
    refine (nil_mem_pow.1 hnil).imp_left fun hk => ?_
    rw [hk] at hmin
    exact Nat.le_zero.1 hmin
  · intro hnil
    exact ⟨min, Nat.le_refl min, h, nil_mem_pow.2 hnil⟩

end RegularLanguages
