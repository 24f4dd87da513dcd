import RegularLanguages.CharRange.Basic
import RegularLanguages.Text.Quoted

set_option autoImplicit false

/-! # The text of a range

A range is shown as its character, or as its two ends with a hyphen between them. -/

namespace RegularLanguages.CharRange

/-- The ends of the range in quotes; one of them is enough if they are the same. -/
def render (r : CharRange) : String :=
  if r.lo = r.hi then Text.quoted r.lo else Text.quoted r.lo ++ "-" ++ Text.quoted r.hi

end RegularLanguages.CharRange
