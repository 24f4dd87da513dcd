import RegularLanguages.Ascending
import RegularLanguages.CharRange.Basic

set_option autoImplicit false

/-! # Ranges and code points

Cutting a range is arithmetic on code points: the half-open interval `[start, stop)` is split
at a number. Not every number is a character, though. `ofPoints?` goes back from an interval of
code points to the range of the characters in it; surrogates at either end are dropped, and an
interval of surrogates alone has no range. Its law is `exists_mem_ofPoints?_iff`.

On top of it stand the two ways of cutting: `minus` takes one range out of another, `intervals`
cuts a whole family at its `boundaries`. -/

namespace RegularLanguages

theorem toNat_ofNat_of_isValidChar {n : Nat} (h : n.isValidChar) : (Char.ofNat n).toNat = n := by
  unfold Char.ofNat
  rw [dif_pos h]
  rfl

theorem char_toNat_valid (c : Char) : c.toNat < 0xD800 ∨ 0xDFFF < c.toNat ∧ c.toNat < 0x110000 :=
  c.valid

namespace CharRange

/-- The code point of the first character. -/
def start (r : CharRange) : Nat := r.lo.toNat

/-- One past the code point of the last character. -/
def stop (r : CharRange) : Nat := r.hi.toNat + 1

theorem mem_iff_points {c : Char} {r : CharRange} :
    c ∈ r ↔ r.start ≤ c.toNat ∧ c.toNat < r.stop := by
  rw [mem_def, char_le_iff_toNat_le, char_le_iff_toNat_le, start, stop]
  omega

theorem start_lt_stop (r : CharRange) : r.start < r.stop := by
  have := char_le_iff_toNat_le.1 r.lo_le_hi
  rw [start, stop]
  omega

@[simp] theorem start_hull (r s : CharRange) : (r.hull s).start = min r.start s.start := by
  simp only [hull, start, earlier]
  split <;> rename_i h <;> rw [char_le_iff_toNat_le] at h <;> omega

@[simp] theorem stop_hull (r s : CharRange) : (r.hull s).stop = max r.stop s.stop := by
  simp only [hull, stop, later]
  split <;> rename_i h <;> rw [char_le_iff_toNat_le] at h <;> omega

/-- The first character at or after the code point `n`. -/
def firstCharFrom? (n : Nat) : Option Char :=
  if n < 0xD800 then some (Char.ofNat n)
  else if n ≤ 0xE000 then some (Char.ofNat 0xE000)
  else if n < 0x110000 then some (Char.ofNat n)
  else none

/-- The last character before the code point `n`. -/
def lastCharBefore? (n : Nat) : Option Char :=
  if n = 0 then none
  else if n ≤ 0xD800 then some (Char.ofNat (n - 1))
  else if n ≤ 0xE000 then some (Char.ofNat 0xD7FF)
  else if n ≤ 0x110000 then some (Char.ofNat (n - 1))
  else some (Char.ofNat 0x10FFFF)

/-- The characters whose code points lie in `[start, stop)`, if there are any. -/
def ofPoints? (start stop : Nat) : Option CharRange :=
  match firstCharFrom? start, lastCharBefore? stop with
  | some lo, some hi => ofBounds? lo hi
  | _, _ => none

theorem exists_firstCharFrom?_iff {n : Nat} {c : Char} :
    (∃ a ∈ firstCharFrom? n, a ≤ c) ↔ n ≤ c.toNat := by
  have hc := char_toNat_valid c
  unfold firstCharFrom?
  split
  · rename_i h
    simp only [Option.mem_def, Option.some.injEq, exists_eq_left', char_le_iff_toNat_le]
    rw [toNat_ofNat_of_isValidChar (Or.inl h)]
  · split
    · simp only [Option.mem_def, Option.some.injEq, exists_eq_left', char_le_iff_toNat_le]
      rw [toNat_ofNat_of_isValidChar (by decide)]
      omega
    · split
      · rename_i h1 h2 h3
        simp only [Option.mem_def, Option.some.injEq, exists_eq_left', char_le_iff_toNat_le]
        rw [toNat_ofNat_of_isValidChar (Or.inr ⟨by omega, h3⟩)]
      · simp only [Option.not_mem_none, false_and, exists_false, false_iff]
        omega

theorem exists_lastCharBefore?_iff {n : Nat} {c : Char} :
    (∃ a ∈ lastCharBefore? n, c ≤ a) ↔ c.toNat < n := by
  have hc := char_toNat_valid c
  unfold lastCharBefore?
  split
  · simp only [Option.not_mem_none, false_and, exists_false, false_iff]
    omega
  · split
    · simp only [Option.mem_def, Option.some.injEq, exists_eq_left', char_le_iff_toNat_le]
      rw [toNat_ofNat_of_isValidChar (Or.inl (by omega))]
      omega
    · split
      · simp only [Option.mem_def, Option.some.injEq, exists_eq_left', char_le_iff_toNat_le]
        rw [toNat_ofNat_of_isValidChar (by decide)]
        omega
      · split
        · simp only [Option.mem_def, Option.some.injEq, exists_eq_left', char_le_iff_toNat_le]
          rw [toNat_ofNat_of_isValidChar (Or.inr ⟨by omega, by omega⟩)]
          omega
        · simp only [Option.mem_def, Option.some.injEq, exists_eq_left', char_le_iff_toNat_le]
          rw [toNat_ofNat_of_isValidChar (by decide)]
          omega

/-- `ofPoints?` keeps exactly the characters of the interval. -/
theorem exists_mem_ofPoints?_iff {start stop : Nat} {c : Char} :
    (∃ r ∈ ofPoints? start stop, c ∈ r) ↔ start ≤ c.toNat ∧ c.toNat < stop := by
  rw [← exists_firstCharFrom?_iff, ← exists_lastCharBefore?_iff]
  unfold ofPoints?
  split
  · rename_i lo hi hlo hhi
    rw [hlo, hhi, exists_mem_ofBounds?_iff]
    simp
  · rename_i h
    constructor
    · simp
    · rintro ⟨⟨a, ha, _⟩, b, hb, _⟩
      exact absurd hb (h a b ha)

/-! ## Taking ranges away -/

/-- The parts of `r` outside `s`: the one below `s`, then the one above. -/
def minus (r s : CharRange) : List CharRange :=
  (ofPoints? r.start (min r.stop s.start)).toList ++ (ofPoints? (max r.start s.stop) r.stop).toList

theorem exists_mem_minus_iff {r s : CharRange} {c : Char} :
    (∃ t ∈ r.minus s, c ∈ t) ↔ c ∈ r ∧ c ∉ s := by
  have split : (∃ t ∈ r.minus s, c ∈ t) ↔
      (∃ t ∈ ofPoints? r.start (min r.stop s.start), c ∈ t) ∨
        ∃ t ∈ ofPoints? (max r.start s.stop) r.stop, c ∈ t := by
    simp only [minus, List.mem_append, Option.mem_toList, Option.mem_def, or_and_right, exists_or]
  rw [split, exists_mem_ofPoints?_iff, exists_mem_ofPoints?_iff, mem_iff_points, mem_iff_points]
  have := s.start_lt_stop
  omega

/-- What is left of `ranges` when every hole has been taken out of every range. -/
def minusAll (ranges holes : List CharRange) : List CharRange :=
  holes.foldl (fun rest hole => rest.flatMap (·.minus hole)) ranges

theorem exists_mem_minusAll_iff {ranges holes : List CharRange} {c : Char} :
    (∃ t ∈ minusAll ranges holes, c ∈ t) ↔ (∃ r ∈ ranges, c ∈ r) ∧ ∀ s ∈ holes, c ∉ s := by
  induction holes generalizing ranges with
  | nil => simp [minusAll]
  | cons s holes ih =>
    have step : (∃ t ∈ ranges.flatMap (·.minus s), c ∈ t) ↔ (∃ r ∈ ranges, c ∈ r) ∧ c ∉ s := by
      constructor
      · rintro ⟨t, ht, hc⟩
        obtain ⟨r, hr, htr⟩ := List.mem_flatMap.1 ht
        obtain ⟨hcr, hcs⟩ := exists_mem_minus_iff.1 ⟨t, htr, hc⟩
        exact ⟨⟨r, hr, hcr⟩, hcs⟩
      · rintro ⟨⟨r, hr, hcr⟩, hcs⟩
        obtain ⟨t, ht, hc⟩ := exists_mem_minus_iff.2 ⟨hcr, hcs⟩
        exact ⟨t, List.mem_flatMap.2 ⟨r, hr, ht⟩, hc⟩
    have rest : (∃ t ∈ minusAll (ranges.flatMap (·.minus s)) holes, c ∈ t) ↔ _ := ih
    rw [minusAll, List.foldl_cons, ← minusAll, rest, step]
    simp [and_assoc]

/-! ## Cutting a family at its boundaries -/

/-- The code points at which some range starts or has just stopped, in ascending order. -/
def boundaries (ranges : List CharRange) : List Nat :=
  Ascending.ofList (ranges.flatMap fun r => [r.start, r.stop])

/-- The characters between consecutive points, as ranges; a gap without characters gives
    none. -/
def intervals : List Nat → List CharRange
  | p :: q :: points => (ofPoints? p q).toList ++ intervals (q :: points)
  | _ => []

end CharRange

end RegularLanguages
