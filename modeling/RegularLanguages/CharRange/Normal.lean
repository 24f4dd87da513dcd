import RegularLanguages.Ascending
import RegularLanguages.CharRange.Basic

set_option autoImplicit false

/-! # Normal form of a set of ranges

Many lists of ranges describe the same set of characters. `normalize` sorts a list and joins
ranges that overlap or are neighbours, which leaves one list for each set. Neighbours are taken
by character, so the ranges on the two sides of the surrogates are joined. -/

namespace RegularLanguages.CharRange

/-- `s`, which does not start before `r`, overlaps `r` or follows it without a gap. -/
def Reaches (r s : CharRange) : Prop := s.lo ≤ r.hi ∨ r.Precedes s

instance (r s : CharRange) : Decidable (r.Reaches s) :=
  inferInstanceAs (Decidable (s.lo ≤ r.hi ∨ r.Precedes s))

/-- Joins an ascending list of ranges onto `r`, range by range, for as long as there is no
    gap. -/
def coalesce (r : CharRange) : List CharRange → List CharRange
  | [] => [r]
  | s :: rest => if r.Reaches s then coalesce (r.extend s) rest else r :: coalesce s rest

/-- The ascending list of separate ranges with the same characters. -/
def normalize (ranges : List CharRange) : List CharRange :=
  match Ascending.ofList ranges with
  | [] => []
  | r :: rest => coalesce r rest

end RegularLanguages.CharRange
