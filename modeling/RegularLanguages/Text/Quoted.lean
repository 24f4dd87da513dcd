import RegularLanguages.Text.Hexadecimal
import RegularLanguages.Text.Hidden

set_option autoImplicit false

/-! # Characters in single quotes

Messages and range texts show a character in single quotes. Inside the quotes a character
stands for itself if it shows; a backslash introduces the others. The double quote needs no
backslash here. -/

namespace RegularLanguages.Text

/-- How a character is written between single quotes. -/
def escaped (c : Char) : List Char :=
  if c = '\x00' then ['\\', '0']
  else if c = '\t' then ['\\', 't']
  else if c = '\r' then ['\\', 'r']
  else if c = '\n' then ['\\', 'n']
  else if c = '\x27' ∨ c = '\\' then ['\\', c]
  else if isHidden c then ['\\', 'u', '\x7b'] ++ hexadecimal c.toNat ++ ['\x7d']
  else [c]

/-- The character in single quotes. -/
def quoted (c : Char) : String := String.ofList (['\x27'] ++ escaped c ++ ['\x27'])

end RegularLanguages.Text
