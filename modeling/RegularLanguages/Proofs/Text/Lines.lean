import Std.Data.String.ToNat
import RegularLanguages.Proofs.Text.Quotation

set_option autoImplicit false

/-! # Texts that come apart in one way

A number ends where the first character stands that is no digit, a line ends at its line break.
So a text that is put together from numbers and lines comes apart in one way, and what it was put
together from can be read off it. -/

namespace RegularLanguages.Text

/-! ## Splitting at the first member without a property -/

theorem takeWhile_append_of_head? {α : Type} {p : α → Bool} {xs rest : List α}
    (hxs : ∀ a ∈ xs, p a = true) (hrest : ∀ a ∈ rest.head?, p a = false) :
    (xs ++ rest).takeWhile p = xs := by
  rw [List.takeWhile_append_of_pos hxs]
  cases rest with
  | nil => exact List.append_nil xs
  | cons a rest => rw [List.takeWhile_cons, hrest a rfl]; exact List.append_nil xs

/-- Members with a property, and then one without it or nothing: there is one place to split. -/
theorem append_inj_of_head? {α : Type} (p : α → Bool) {xs ys rest rest' : List α}
    (hxs : ∀ a ∈ xs, p a = true) (hys : ∀ a ∈ ys, p a = true)
    (hrest : ∀ a ∈ rest.head?, p a = false) (hrest' : ∀ a ∈ rest'.head?, p a = false)
    (h : xs ++ rest = ys ++ rest') : xs = ys ∧ rest = rest' := by
  have heq : xs = ys := by
    rw [← takeWhile_append_of_head? hxs hrest, h, takeWhile_append_of_head? hys hrest']
  rw [heq] at h
  exact ⟨heq, List.append_cancel_left h⟩

/-- Lines are told apart by their line breaks. -/
theorem flatMap_newline_inj {ls ms : List (List Char)} (hl : ∀ l ∈ ls, '\n' ∉ l)
    (hm : ∀ m ∈ ms, '\n' ∉ m)
    (h : ls.flatMap (· ++ ['\n']) = ms.flatMap (· ++ ['\n'])) : ls = ms := by
  induction ls generalizing ms with
  | nil =>
    cases ms with
    | nil => rfl
    | cons m ms => simp at h
  | cons l ls ih =>
    cases ms with
    | nil => simp at h
    | cons m ms =>
      rw [List.forall_mem_cons] at hl hm
      simp only [List.flatMap_cons, List.append_assoc, List.singleton_append] at h
      have hne : ∀ {line : List Char}, '\n' ∉ line → ∀ c ∈ line, (c != '\n') = true := by
        intro line hline c hc
        exact bne_iff_ne.2 fun heq => hline (heq ▸ hc)
      obtain ⟨heq, hrest⟩ := append_inj_of_head? (· != '\n') (hne hl.1) (hne hm.1)
        (by simp) (by simp) h
      rw [heq, ih hl.2 hm.2 (List.cons.inj hrest).2]

/-! ## Numbers -/

/-- The digits of a number in a drawing. -/
def numeral (n : Nat) : List Char := (toString n).toList

theorem isDigit_of_mem_numeral {n : Nat} {c : Char} (h : c ∈ numeral n) : c.isDigit = true := by
  rw [numeral, Nat.toString_eq_repr, Nat.toList_repr] at h
  exact Nat.isDigit_of_mem_toDigits (by decide) (by decide) h

theorem numeral_injective : Function.Injective numeral := by
  intro m n h
  exact Nat.repr_injective (String.toList_injective h)

/-- A number ends where the next blank stands. -/
theorem numeral_append_inj {m n : Nat} {rest rest' : List Char}
    (h : numeral m ++ ' ' :: rest = numeral n ++ ' ' :: rest') : m = n ∧ rest = rest' := by
  have hblank {rest : List Char} : ∀ c ∈ (' ' :: rest).head?, c.isDigit = false := by
    intro c hc
    rw [← Option.mem_some.1 hc]
    rfl
  obtain ⟨hnumeral, hrest⟩ := append_inj_of_head? Char.isDigit
    (fun c => isDigit_of_mem_numeral) (fun c => isDigit_of_mem_numeral) hblank hblank h
  exact ⟨numeral_injective hnumeral, (List.cons.inj hrest).2⟩

theorem notMem_numeral {c : Char} (hc : c.isDigit = false) (n : Nat) : c ∉ numeral n := by
  intro h
  rw [isDigit_of_mem_numeral h] at hc
  exact absurd hc (by decide)

theorem newline_notMem_numeral (n : Nat) : '\n' ∉ numeral n := notMem_numeral rfl n

theorem mark_notMem_numeral (n : Nat) : '"' ∉ numeral n := notMem_numeral rfl n

theorem unbroken_numeral (n : Nat) : Unbroken (numeral n) := by
  refine unbroken_of_forall fun c hc => ⟨?_, ?_⟩
  · intro heq
    exact mark_notMem_numeral n (heq ▸ hc)
  · intro heq
    exact notMem_numeral rfl n (heq ▸ hc)

end RegularLanguages.Text
