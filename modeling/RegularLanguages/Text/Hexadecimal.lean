set_option autoImplicit false

/-! # Hexadecimal numbers

Characters that cannot stand for themselves are written as the hexadecimal number of their code
point, in small letters. -/

namespace RegularLanguages.Text

/-- The number in base sixteen, without leading zeros. -/
def hexadecimal (n : Nat) : List Char := Nat.toDigits 16 n

/-- The number in base sixteen, with zeros in front up to `width` digits. -/
def hexadecimalPadded (width n : Nat) : List Char := (hexadecimal n).leftpad width '0'

end RegularLanguages.Text
