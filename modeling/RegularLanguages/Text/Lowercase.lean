set_option autoImplicit false

/-! # Names without regard to case

Names in the small letters a to z are recognised in any case. Besides the capitals A to Z two
characters matter: the Kelvin sign has the small letter k as its lowercase form, and the capital
I with a dot has an i followed by a combining dot, so it never spells a plain i. All other
characters have no letter from a to z in their lowercase form, and are left alone. -/

namespace RegularLanguages.Text

/-- The lowercase form of a character, as far as it concerns the letters a to z. -/
def lowercase (c : Char) : List Char :=
  if c = '\u212a' then ['k']
  else if c = '\u0130' then ['i', '\u0307']
  else [c.toLower]

/-- The text spells `name`, which is in small letters, in any case. -/
def spells (text name : String) : Bool := text.toList.flatMap lowercase = name.toList

end RegularLanguages.Text
