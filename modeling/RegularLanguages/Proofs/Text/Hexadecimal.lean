import RegularLanguages.Text.Hexadecimal

set_option autoImplicit false

/-! # Reading hexadecimal numbers

A number in base sixteen is read digit by digit, and zeros in front change nothing. So a padded
number is read back (`hexadecimalValue_hexadecimalPadded`), and it ends where the first character
stands that is no digit. -/

namespace RegularLanguages.Text

/-- The character is a digit of base sixteen, as they are written here. -/
def isHexadecimalDigit (c : Char) : Bool := c.isDigit || ('a' ≤ c && c ≤ 'f')

def hexadecimalDigitValue (c : Char) : Nat :=
  if c.isDigit then c.toNat - '0'.toNat else c.toNat - 'a'.toNat + 10

/-- The number that some digits stand for. -/
def hexadecimalValue (digits : List Char) : Nat :=
  digits.foldl (fun value c => 16 * value + hexadecimalDigitValue c) 0

theorem hexadecimalValue_append_singleton (digits : List Char) (c : Char) :
    hexadecimalValue (digits ++ [c]) = 16 * hexadecimalValue digits + hexadecimalDigitValue c := by
  rw [hexadecimalValue, List.foldl_append]
  rfl

theorem hexadecimalDigitValue_digitChar {n : Nat} (hn : n < 16) :
    hexadecimalDigitValue n.digitChar = n := by
  have hall : ∀ m < 16, hexadecimalDigitValue (Nat.digitChar m) = m := by decide
  exact hall n hn

theorem isHexadecimalDigit_digitChar {n : Nat} (hn : n < 16) :
    isHexadecimalDigit n.digitChar = true := by
  have hall : ∀ m < 16, isHexadecimalDigit (Nat.digitChar m) = true := by decide
  exact hall n hn

/-! ## Digit by digit -/

theorem hexadecimal_of_lt {n : Nat} (hn : n < 16) : hexadecimal n = [n.digitChar] :=
  Nat.toDigits_of_lt_base hn

/-- One more digit at the end. -/
theorem hexadecimal_append_digit {n digit : Nat} (hn : 0 < n) (hdigit : digit < 16) :
    hexadecimal (16 * n + digit) = hexadecimal n ++ [digit.digitChar] := by
  unfold hexadecimal
  rw [← Nat.toDigits_append_toDigits (by decide) hn hdigit, Nat.toDigits_of_lt_base hdigit]

theorem hexadecimalValue_replicate_zero (k : Nat) :
    hexadecimalValue (List.replicate k '0') = 0 := by
  induction k with
  | zero => rfl
  | succ k ih =>
    rw [List.replicate_succ', hexadecimalValue_append_singleton, ih]
    rfl

/-- Zeros in front of a number do not change it. -/
theorem hexadecimalValue_replicate_append (k n : Nat) :
    hexadecimalValue (List.replicate k '0' ++ hexadecimal n) = n := by
  induction n using Nat.base_induction 16 (by decide) with
  | single m hm =>
    rw [hexadecimal_of_lt hm, hexadecimalValue_append_singleton, hexadecimalValue_replicate_zero,
      hexadecimalDigitValue_digitChar hm, Nat.mul_zero, Nat.zero_add]
  | digit m digit hdigit hm ih =>
    rw [hexadecimal_append_digit hm hdigit, ← List.append_assoc,
      hexadecimalValue_append_singleton, ih, hexadecimalDigitValue_digitChar hdigit]

/-- A padded number is read back. -/
theorem hexadecimalValue_hexadecimalPadded (width n : Nat) :
    hexadecimalValue (hexadecimalPadded width n) = n :=
  hexadecimalValue_replicate_append _ n

theorem isHexadecimalDigit_of_mem_hexadecimal {n : Nat} {c : Char} (h : c ∈ hexadecimal n) :
    isHexadecimalDigit c = true := by
  induction n using Nat.base_induction 16 (by decide) with
  | single m hm =>
    rw [hexadecimal_of_lt hm, List.mem_singleton] at h
    rw [h]
    exact isHexadecimalDigit_digitChar hm
  | digit m digit hdigit hm ih =>
    rw [hexadecimal_append_digit hm hdigit, List.mem_append] at h
    rcases h with h | h
    · exact ih h
    · rw [List.mem_singleton.1 h]
      exact isHexadecimalDigit_digitChar hdigit

/-- A padded number is made of digits. -/
theorem isHexadecimalDigit_of_mem_hexadecimalPadded {width n : Nat} {c : Char}
    (h : c ∈ hexadecimalPadded width n) : isHexadecimalDigit c = true := by
  rcases List.mem_append.1 h with h | h
  · rw [(List.mem_replicate.1 h).2]
    rfl
  · exact isHexadecimalDigit_of_mem_hexadecimal h

end RegularLanguages.Text
