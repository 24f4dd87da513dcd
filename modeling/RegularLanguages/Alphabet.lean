import RegularLanguages.CharRange.Points
import RegularLanguages.Error

set_option autoImplicit false

/-! # Alphabets

Complement and difference are taken relative to a finite set of symbols, the alphabet. An
alphabet is an ascending list of ranges with at least one code point between any two of them;
neighbouring ranges are one range. Neighbours are taken by code point, so ranges that end at
D7FF and start at E000 stay two: the surrogates between them are not part of the alphabet,
while a range that runs across them includes them.

`separated` is what makes the list unique for its set. `insertInto` keeps it. -/

namespace RegularLanguages

/-- A set of symbols. -/
structure Alphabet where
  /-- The ranges in ascending order. -/
  ranges : List CharRange
  separated : ranges.Pairwise fun r s => r.stop < s.start
  deriving DecidableEq

namespace Alphabet

/-- Puts a range into a separated list, joined with every range that it overlaps or touches. -/
def insertInto (r : CharRange) : List CharRange → List CharRange
  | [] => [r]
  | s :: rest =>
    if r.stop < s.start then r :: s :: rest
    else if s.stop < r.start then s :: insertInto r rest
    else insertInto (r.hull s) rest

theorem lt_start_of_mem_insertInto {n : Nat} {r t : CharRange} {ranges : List CharRange}
    (hr : n < r.start) (hs : ∀ s ∈ ranges, n < s.start) (ht : t ∈ insertInto r ranges) :
    n < t.start := by
  induction ranges generalizing r with
  | nil =>
    obtain rfl := List.mem_singleton.1 ht
    exact hr
  | cons s rest ih =>
    obtain ⟨hs, hrest⟩ := List.forall_mem_cons.1 hs
    unfold insertInto at ht
    split at ht
    · rcases List.mem_cons.1 ht with rfl | ht
      · exact hr
      · rcases List.mem_cons.1 ht with rfl | ht
        · exact hs
        · exact hrest t ht
    · split at ht
      · rcases List.mem_cons.1 ht with rfl | ht
        · exact hs
        · exact ih hr hrest ht
      · exact ih (by rw [CharRange.start_hull]; omega) hrest ht

theorem separated_insertInto (r : CharRange) {ranges : List CharRange}
    (h : ranges.Pairwise fun r s => r.stop < s.start) :
    (insertInto r ranges).Pairwise fun r s => r.stop < s.start := by
  induction ranges generalizing r with
  | nil => exact List.pairwise_singleton _ _
  | cons s rest ih =>
    obtain ⟨hs, hrest⟩ := List.pairwise_cons.1 h
    unfold insertInto
    split
    · rename_i hrs
      refine List.pairwise_cons.2 ⟨fun t ht => ?_, h⟩
      rcases List.mem_cons.1 ht with rfl | ht
      · exact hrs
      · have := s.start_lt_stop
        have := hs t ht
        omega
    · split
      · rename_i hsr
        exact List.pairwise_cons.2 ⟨fun t ht => lt_start_of_mem_insertInto hsr hs ht, ih r hrest⟩
      · exact ih _ hrest

/-! ## Building alphabets -/

/-- The alphabet without symbols. -/
def empty : Alphabet := ⟨[], List.Pairwise.nil⟩

/-- The alphabet with the characters of a range added. -/
def insert (a : Alphabet) (r : CharRange) : Alphabet :=
  ⟨insertInto r a.ranges, separated_insertInto r a.separated⟩

/-- The alphabet with a character added. -/
def insertChar (a : Alphabet) (c : Char) : Alphabet := a.insert (CharRange.single c)

/-- The alphabet with ranges added one after the other. -/
def insertAll (a : Alphabet) (ranges : List CharRange) : Alphabet := ranges.foldl insert a

/-- The characters of some ranges. -/
def ofRanges (ranges : List CharRange) : Alphabet := empty.insertAll ranges

/-- The given characters. -/
def ofChars (chars : List Char) : Alphabet := ofRanges (chars.map CharRange.single)

/-- Every character. -/
def unicode : Alphabet := ofRanges [CharRange.full]

/-! ## Questions -/

instance : Membership Char Alphabet := ⟨fun a c => ∃ r ∈ a.ranges, c ∈ r⟩

instance (c : Char) (a : Alphabet) : Decidable (c ∈ a) :=
  inferInstanceAs (Decidable (∃ r ∈ a.ranges, c ∈ r))

def isEmpty (a : Alphabet) : Bool := a.ranges.isEmpty

/-- The parts of a range that belong to the alphabet, in ascending order. -/
def clip (a : Alphabet) (r : CharRange) : List CharRange :=
  a.ranges.filterMap fun s => s.intersect? r

/-- The parts of the alphabet outside all of the given ranges, in ascending order. -/
def uncovered (a : Alphabet) (covered : List CharRange) : List CharRange :=
  CharRange.minusAll a.ranges covered

/-! ## Checks -/

/-- Refuses the alphabet without symbols. -/
def requireDeclared (a : Alphabet) : Except AlphabetError Unit :=
  if a.isEmpty then .error .undeclared else .ok ()

/-- Refuses a text with a character outside the alphabet, and names the first one. -/
def checkText (a : Alphabet) (text : List Char) : Except AlphabetError Unit :=
  match text.find? fun c => c ∉ a with
  | some c => .error (.symbolOutside c)
  | none => .ok ()

/-- Refuses a range with a character outside the alphabet, and names the smallest one. -/
def checkRange (a : Alphabet) (r : CharRange) : Except AlphabetError Unit :=
  match CharRange.minusAll [r] a.ranges with
  | gap :: _ => .error (.symbolOutside gap.lo)
  | [] => .ok ()

/-- Checks ranges one after the other. -/
def checkRanges (a : Alphabet) : List CharRange → Except AlphabetError Unit
  | [] => .ok ()
  | r :: rest => do
    a.checkRange r
    a.checkRanges rest

end Alphabet

end RegularLanguages
