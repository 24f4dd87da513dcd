import Mathlib.Order.Bounds.Basic
import RegularLanguages.Proofs.CharRange.Normal
import RegularLanguages.Proofs.CharRange.Pieces

set_option autoImplicit false

/-! # Ranges in order

A list of ranges is in order when each range ends before the next one starts. Taking characters
away, or keeping only those of another range, cuts every range into parts of itself, and that
leaves the list in order (`InOrder.flatMap`). The first range of a list in order then starts with
the least character of all (`InOrder.isLeast_lo`). It makes no difference whether characters are
taken away or code points: surrogates that are left over at the end go then
(`minusAll_eq_ofIntervals`). -/

namespace RegularLanguages.CharRange

variable {ranges : List CharRange} {r s t u : CharRange}

/-- Each range ends before the next one starts. -/
def InOrder (ranges : List CharRange) : Prop := ranges.Pairwise fun r s => r.hi < s.lo

theorem InOrder.pairwise_disjoint (h : InOrder ranges) : ranges.Pairwise Disjoint :=
  h.imp fun hlt => Or.inl hlt

theorem InOrder.pairwise_lt (h : InOrder ranges) : ranges.Pairwise (· < ·) :=
  h.imp fun {r _} hlt => Or.inl (lt_of_le_of_lt r.lo_le_hi hlt)

theorem InOrder.isLeast_lo (h : InOrder (r :: ranges)) :
    IsLeast {c | ∃ s ∈ r :: ranges, c ∈ s} r.lo := by
  constructor
  · exact ⟨r, List.mem_cons_self, r.lo_mem⟩
  · intro c hc
    obtain ⟨s, hs, hcs⟩ := hc
    rcases List.mem_cons.1 hs with rfl | hs
    · exact hcs.1
    · have hlt : r.hi < s.lo := (List.pairwise_cons.1 h).1 s hs
      exact le_of_lt (lt_of_le_of_lt r.lo_le_hi (lt_of_lt_of_le hlt hcs.1))

/-! ## Ranges of code points -/

theorem ofPoints?_eq_some_iff {start stop : Nat} {r : CharRange} : ofPoints? start stop = some r ↔
    ∀ c, c ∈ r ↔ start ≤ c.toNat ∧ c.toNat < stop := by
  refine ⟨fun h c => mem_of_ofPoints? h, fun h => ?_⟩
  obtain ⟨s, hs, _⟩ := exists_mem_ofPoints?_iff.2 ((h r.lo).1 r.lo_mem)
  have heq : s = r := ext_mem fun c => (mem_of_ofPoints? hs).trans (h c).symm
  exact heq ▸ hs

theorem ofPoints?_congr {start stop start' stop' : Nat}
    (h : ∀ c : Char, start ≤ c.toNat ∧ c.toNat < stop ↔ start' ≤ c.toNat ∧ c.toNat < stop') :
    ofPoints? start stop = ofPoints? start' stop' := by
  refine Option.ext fun r => ?_
  rw [ofPoints?_eq_some_iff, ofPoints?_eq_some_iff]
  simp only [h]

theorem ofPoints?_eq_none_iff {start stop : Nat} : ofPoints? start stop = none ↔
    ∀ c : Char, ¬ (start ≤ c.toNat ∧ c.toNat < stop) := by
  simp only [← exists_mem_ofPoints?_iff]
  cases ofPoints? start stop with
  | none => simp
  | some r => exact iff_of_false nofun fun h => h r.lo ⟨r, rfl, r.lo_mem⟩

/-- The range between the ends of a range is the range. -/
theorem ofPoints?_start_stop (r : CharRange) : ofPoints? r.start r.stop = some r :=
  ofPoints?_eq_some_iff.2 fun _ => mem_iff_points

/-! ## Parts of ranges -/

/-- Parts of two ranges are in the order of the ranges. -/
theorem hi_lt_lo_of_parts (h : r.hi < s.lo) (ht : ∀ c ∈ t, c ∈ r) (hu : ∀ c ∈ u, c ∈ s) :
    t.hi < u.lo :=
  lt_of_le_of_lt (ht _ t.hi_mem).2 (lt_of_lt_of_le h (hu _ u.lo_mem).1)

/-- Parts of two disjoint ranges are disjoint. -/
theorem Disjoint.mono (h : r.Disjoint s) (ht : ∀ c ∈ t, c ∈ r) (hu : ∀ c ∈ u, c ∈ s) :
    t.Disjoint u :=
  disjoint_iff.2 fun c hct hcu => disjoint_iff.1 h c (ht c hct) (hu c hcu)

theorem exists_mem_flatMap_iff {f : CharRange → List CharRange} {c : Char} :
    (∃ t ∈ ranges.flatMap f, c ∈ t) ↔ ∃ r ∈ ranges, ∃ t ∈ f r, c ∈ t := by
  constructor
  · intro h
    obtain ⟨t, ht, hc⟩ := h
    obtain ⟨r, hr, htr⟩ := List.mem_flatMap.1 ht
    exact ⟨r, hr, t, htr, hc⟩
  · intro h
    obtain ⟨r, hr, t, htr, hc⟩ := h
    exact ⟨t, List.mem_flatMap.2 ⟨r, hr, htr⟩, hc⟩

/-- Cutting every range into parts that are in order keeps the order. -/
theorem InOrder.flatMap {f : CharRange → List CharRange} (h : InOrder ranges)
    (hf : ∀ r, InOrder (f r)) (hpart : ∀ r, ∀ t ∈ f r, ∀ c ∈ t, c ∈ r) :
    InOrder (ranges.flatMap f) := by
  refine List.pairwise_flatMap.2 ⟨fun r _ => hf r, h.imp fun {r s} hlt t ht u hu => ?_⟩
  exact hi_lt_lo_of_parts hlt (hpart r t ht) (hpart s u hu)

theorem mem_of_mem_minus (ht : t ∈ r.minus s) {c : Char} (hc : c ∈ t) : c ∈ r :=
  (exists_mem_minus_iff.1 ⟨t, ht, hc⟩).1

theorem inOrder_toList (part : Option CharRange) : InOrder part.toList := by
  cases part with
  | none => exact List.Pairwise.nil
  | some t => exact List.pairwise_singleton _ t

theorem inOrder_minus (r s : CharRange) : InOrder (r.minus s) := by
  refine List.pairwise_append.2 ⟨inOrder_toList _, inOrder_toList _, fun t ht u hu => ?_⟩
  -- The first part ends below `s`, and the second one starts above it.
  have hlow := ((mem_of_ofPoints? (Option.mem_toList.1 ht)).1 t.hi_mem).2
  have hhigh := ((mem_of_ofPoints? (Option.mem_toList.1 hu)).1 u.lo_mem).1
  have hs := s.start_lt_stop
  rw [char_lt_iff_toNat_lt]
  omega

theorem InOrder.minusAll (h : InOrder ranges) (holes : List CharRange) :
    InOrder (minusAll ranges holes) := by
  induction holes generalizing ranges with
  | nil => exact h
  | cons s rest ih =>
    exact ih (h.flatMap (fun r => inOrder_minus r s) fun _ _ ht _ hc => mem_of_mem_minus ht hc)

theorem mem_of_intersect?_eq_some (h : r.intersect? s = some t) {c : Char} :
    c ∈ t ↔ c ∈ r ∧ c ∈ s := by
  rw [← exists_mem_intersect?_iff, h]
  simp

/-! ## Cutting code points -/

/-- The code points of an interval below a hole and above it; both parts may be empty. -/
def cut (hole : CharRange) (interval : Nat × Nat) : List (Nat × Nat) :=
  [(interval.1, min interval.2 hole.start), (max interval.1 hole.stop, interval.2)]

/-- The characters of intervals of code points; an interval without characters gives none. -/
def ofIntervals (intervals : List (Nat × Nat)) : List CharRange :=
  intervals.flatMap fun interval => (ofPoints? interval.1 interval.2).toList

/-- What is left of intervals of code points when every hole has been taken out of each. -/
def cutAll (holes : List CharRange) (intervals : List (Nat × Nat)) : List (Nat × Nat) :=
  holes.foldl (fun rest hole => rest.flatMap (cut hole)) intervals

/-- Cutting the characters of an interval is cutting its code points. -/
theorem flatMap_ofPoints?_minus (hole : CharRange) (interval : Nat × Nat) :
    (ofPoints? interval.1 interval.2).toList.flatMap (·.minus hole) =
      ofIntervals (cut hole interval) := by
  obtain ⟨start, stop⟩ := interval
  simp only [ofIntervals, cut, List.flatMap_cons, List.flatMap_nil, List.append_nil]
  cases hpart : ofPoints? start stop with
  | none =>
    -- Only surrogates, and then so are both parts.
    have hnone := ofPoints?_eq_none_iff.1 hpart
    have hbelow : ofPoints? start (min stop hole.start) = none :=
      ofPoints?_eq_none_iff.2 fun c hc => hnone c (by omega)
    have habove : ofPoints? (max start hole.stop) stop = none :=
      ofPoints?_eq_none_iff.2 fun c hc => hnone c (by omega)
    rw [hbelow, habove]
    rfl
  | some r =>
    -- The range may start later and stop earlier than the interval, but not by a character.
    have hmem (c : Char) : r.start ≤ c.toNat ∧ c.toNat < r.stop ↔
        start ≤ c.toNat ∧ c.toNat < stop :=
      mem_iff_points.symm.trans (ofPoints?_eq_some_iff.1 hpart c)
    have hbelow : ofPoints? r.start (min r.stop hole.start) =
        ofPoints? start (min stop hole.start) :=
      ofPoints?_congr fun c => by have := hmem c; omega
    have habove : ofPoints? (max r.start hole.stop) r.stop =
        ofPoints? (max start hole.stop) stop :=
      ofPoints?_congr fun c => by have := hmem c; omega
    simp only [Option.toList_some, List.flatMap_cons, List.flatMap_nil, List.append_nil, minus]
    rw [hbelow, habove]

theorem minusAll_ofIntervals (intervals : List (Nat × Nat)) (holes : List CharRange) :
    minusAll (ofIntervals intervals) holes = ofIntervals (cutAll holes intervals) := by
  induction holes generalizing intervals with
  | nil => rfl
  | cons hole holes ih =>
    have hstep : (ofIntervals intervals).flatMap (·.minus hole) =
        ofIntervals (intervals.flatMap (cut hole)) := by
      unfold ofIntervals
      rw [List.flatMap_assoc, List.flatMap_assoc]
      exact List.flatMap_congr fun interval _ => flatMap_ofPoints?_minus hole interval
    rw [minusAll, List.foldl_cons, hstep, cutAll, List.foldl_cons]
    exact ih _

/-- The surrogates may be left out at the end: taking holes out of ranges, one after the other,
    leaves the characters of what the holes leave of the code points. -/
theorem minusAll_eq_ofIntervals (ranges holes : List CharRange) :
    minusAll ranges holes = ofIntervals (cutAll holes (ranges.map fun r => (r.start, r.stop))) := by
  have hranges : ofIntervals (ranges.map fun r => (r.start, r.stop)) = ranges := by
    simp [ofIntervals, List.flatMap_map, ofPoints?_start_stop]
  rw [← minusAll_ofIntervals, hranges]

end RegularLanguages.CharRange
