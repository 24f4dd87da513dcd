import RegularLanguages.Proofs.Alphabet

set_option autoImplicit false

/-! # Alphabets as sets of code points

An alphabet answers questions about characters, but it keeps code points: a range that runs across
the surrogates includes them, and two ranges are joined when no code point is between them. Its
ranges are the maximal intervals of its code points (`mem_ranges_iff`), so it is determined by them
(`ext_hasPoint`). An insertion adds the code points of a range (`hasPoint_insert`), and a run of
insertions those of all ranges; neither their order nor a range that is given in parts can be told
from the alphabet that they lead to (`ofInsertions_canonical`). The characters alone do not
determine it. -/

namespace RegularLanguages

/-! ## Maximal intervals -/

/-- The numbers from `start` up to `stop`, which is left out, have a property, and neither the
    number before them nor the one behind them has it. -/
structure MaximalInterval (P : Nat → Prop) (start stop : Nat) : Prop where
  start_lt_stop : start < stop
  holds : ∀ n, start ≤ n → n < stop → P n
  not_before : ∀ n, n + 1 = start → ¬ P n
  not_behind : ¬ P stop

namespace MaximalInterval

variable {P : Nat → Prop} {start stop start' stop' n : Nat}

/-- A maximal interval holds every interval with the property that meets it. -/
theorem subset (h : MaximalInterval P start stop) (hstart : start ≤ n) (hstop : n < stop)
    (hstart' : start' ≤ n) (hstop' : n < stop') (hP : ∀ m, start' ≤ m → m < stop' → P m) :
    start ≤ start' ∧ stop' ≤ stop := by
  constructor
  · by_contra hlt
    exact h.not_before (start - 1) (by omega) (hP _ (by omega) (by omega))
  · by_contra hlt
    exact h.not_behind (hP stop (by omega) (by omega))

/-- Two maximal intervals of one property that meet are the same. -/
theorem unique (h : MaximalInterval P start stop) (h' : MaximalInterval P start' stop')
    (hstart : start ≤ n) (hstop : n < stop) (hstart' : start' ≤ n) (hstop' : n < stop') :
    start = start' ∧ stop = stop' := by
  have hsub := h.subset hstart hstop hstart' hstop' h'.holds
  have hsup := h'.subset hstart' hstop' hstart hstop h.holds
  omega

end MaximalInterval

/-! ## Code points of ranges -/

namespace CharRange

variable {r s : CharRange} {n : Nat}

/-- The code point lies between the ends of the range, be it a character or a surrogate. -/
def HasPoint (r : CharRange) (n : Nat) : Prop := r.start ≤ n ∧ n < r.stop

theorem mem_iff_hasPoint {c : Char} : c ∈ r ↔ r.HasPoint c.toNat := mem_iff_points

theorem eq_of_points (hstart : r.start = s.start) (hstop : r.stop = s.stop) : r = s :=
  ext_mem fun c => by rw [mem_iff_points, mem_iff_points, hstart, hstop]

/-- Two ranges without a gap between them have together the code points of their hull. -/
theorem hasPoint_hull (hrs : ¬ r.stop < s.start) (hsr : ¬ s.stop < r.start) :
    (r.hull s).HasPoint n ↔ r.HasPoint n ∨ s.HasPoint n := by
  have hr := r.start_lt_stop
  have hs := s.start_lt_stop
  unfold HasPoint
  rw [start_hull, stop_hull]
  omega

end CharRange

namespace Alphabet

variable {a b : Alphabet} {r : CharRange} {ranges : List CharRange} {n : Nat}

/-! ## Code points of alphabets -/

/-- The alphabet includes the code point, be it a character or a surrogate inside a range. -/
def HasPoint (a : Alphabet) (n : Nat) : Prop := ∃ r ∈ a.ranges, r.HasPoint n

theorem mem_iff_hasPoint {c : Char} : c ∈ a ↔ a.HasPoint c.toNat :=
  exists_congr fun _ => and_congr_right fun _ => CharRange.mem_iff_hasPoint

/-- A code point of the alphabet that is not separated from one of the ranges belongs to it. -/
theorem hasPoint_of_touches (hr : r ∈ a.ranges) (h : a.HasPoint n) (hlow : r.start ≤ n + 1)
    (hhigh : n ≤ r.stop) : r.HasPoint n := by
  obtain ⟨s, hs, hstart, hstop⟩ := h
  rcases eq_or_of_pairwise a.separated hr hs with rfl | hlt | hlt
  · exact ⟨hstart, hstop⟩
  · omega
  · omega

theorem maximalInterval_of_mem_ranges (hr : r ∈ a.ranges) :
    MaximalInterval a.HasPoint r.start r.stop := by
  have hlt := r.start_lt_stop
  refine ⟨hlt, fun n hstart hstop => ⟨r, hr, hstart, hstop⟩, fun n hn h => ?_, fun h => ?_⟩
  · have hpoint := hasPoint_of_touches hr h (Nat.le_of_eq hn.symm) (by omega)
    exact absurd hpoint.1 (by omega)
  · have hpoint := hasPoint_of_touches hr h (by omega) (Nat.le_refl _)
    exact absurd hpoint.2 (Nat.lt_irrefl _)

/-- Every maximal interval of an alphabet goes from the first to behind the last character of a
    range. -/
theorem exists_mem_ranges_of_maximalInterval {start stop : Nat}
    (h : MaximalInterval a.HasPoint start stop) :
    ∃ r ∈ a.ranges, r.start = start ∧ r.stop = stop := by
  obtain ⟨r, hr, hstart, hstop⟩ := h.holds start (Nat.le_refl _) h.start_lt_stop
  exact ⟨r, hr, (maximalInterval_of_mem_ranges hr).unique h hstart hstop (Nat.le_refl _)
    h.start_lt_stop⟩

/-- The ranges of an alphabet are its maximal intervals. -/
theorem mem_ranges_iff : r ∈ a.ranges ↔ MaximalInterval a.HasPoint r.start r.stop := by
  refine ⟨maximalInterval_of_mem_ranges, fun h => ?_⟩
  obtain ⟨s, hs, hstart, hstop⟩ := exists_mem_ranges_of_maximalInterval h
  exact CharRange.eq_of_points hstart hstop ▸ hs

/-- Alphabets with the same code points are equal. -/
theorem ext_hasPoint (h : ∀ n, a.HasPoint n ↔ b.HasPoint n) : a = b := by
  have hpoints : a.HasPoint = b.HasPoint := funext fun n => propext (h n)
  have hranges : a.ranges = b.ranges :=
    Ascending.eq_of_mem_iff a.inOrder_ranges.pairwise_lt b.inOrder_ranges.pairwise_lt fun r => by
      rw [mem_ranges_iff, mem_ranges_iff, hpoints]
  cases a
  cases b
  congr

/-! ## Insertions -/

theorem hasPoint_insertInto : (∃ t ∈ insertInto r ranges, t.HasPoint n) ↔
    r.HasPoint n ∨ ∃ s ∈ ranges, s.HasPoint n := by
  induction ranges generalizing r with
  | nil => simp [insertInto]
  | cons s rest ih =>
    unfold insertInto
    split
    · rw [List.exists_mem_cons_iff]
    · split
      · rw [List.exists_mem_cons_iff, ih, List.exists_mem_cons_iff, or_left_comm]
      · -- The hull stands for both ranges in what is left, so the hypothesis has to be for all `r`.
        rename_i hrs hsr
        rw [ih, CharRange.hasPoint_hull hrs hsr, List.exists_mem_cons_iff, or_assoc]

/-- An insertion adds the code points of the range and no others. -/
theorem hasPoint_insert : (a.insert r).HasPoint n ↔ r.HasPoint n ∨ a.HasPoint n :=
  hasPoint_insertInto

end Alphabet

/-- A call that adds symbols to an alphabet, with its argument. -/
inductive Insertion where
  | char (c : Char)
  | range (r : CharRange)
  deriving DecidableEq

namespace Insertion

/-- The range that the call adds. -/
def added : Insertion → CharRange
  | char c => CharRange.single c
  | range r => r

/-- The alphabet after the call. -/
def apply (a : Alphabet) : Insertion → Alphabet
  | char c => a.insertChar c
  | range r => a.insert r

theorem hasPoint_apply {a : Alphabet} {n : Nat} (i : Insertion) :
    (i.apply a).HasPoint n ↔ i.added.HasPoint n ∨ a.HasPoint n := by
  cases i with
  | char c => exact Alphabet.hasPoint_insert
  | range r => exact Alphabet.hasPoint_insert

/-- The code point lies in a range that one of the calls adds. -/
def Inserted (calls : List Insertion) (n : Nat) : Prop := ∃ i ∈ calls, i.added.HasPoint n

theorem inserted_cons {i : Insertion} {calls : List Insertion} {n : Nat} :
    Inserted (i :: calls) n ↔ i.added.HasPoint n ∨ Inserted calls n := by
  unfold Inserted
  rw [List.exists_mem_cons_iff]

theorem inserted_append {calls others : List Insertion} {n : Nat} :
    Inserted (calls ++ others) n ↔ Inserted calls n ∨ Inserted others n := by
  simp only [Inserted, List.mem_append, or_and_right, exists_or]

end Insertion

namespace Alphabet

open Insertion (Inserted)

variable {a : Alphabet} {calls others : List Insertion} {n : Nat}

/-- What calls made one after the other leave of the alphabet without symbols. -/
def ofInsertions (calls : List Insertion) : Alphabet :=
  calls.foldl (fun a i => i.apply a) empty

/-- A run of calls adds the code points that the calls add. -/
theorem hasPoint_foldl_apply :
    (calls.foldl (fun a i => i.apply a) a).HasPoint n ↔ Inserted calls n ∨ a.HasPoint n := by
  induction calls generalizing a with
  | nil => simp [Inserted]
  | cons i rest ih =>
    rw [List.foldl_cons, ih, Insertion.hasPoint_apply, Insertion.inserted_cons, or_left_comm,
      or_assoc]

theorem hasPoint_ofInsertions : (ofInsertions calls).HasPoint n ↔ Inserted calls n := by
  have hempty : ¬ empty.HasPoint n := fun h => by
    obtain ⟨r, hr, _⟩ := h
    exact absurd hr List.not_mem_nil
  rw [ofInsertions, hasPoint_foldl_apply, or_iff_left hempty]

/-- A character is a symbol if and only if some call added it. -/
theorem mem_ofInsertions_iff {c : Char} : c ∈ ofInsertions calls ↔ ∃ i ∈ calls, c ∈ i.added := by
  rw [mem_iff_hasPoint, hasPoint_ofInsertions]
  exact exists_congr fun _ => and_congr_right fun _ => CharRange.mem_iff_hasPoint.symm

/-- Calls that insert the same code points lead to the same alphabet. -/
theorem ofInsertions_eq_iff :
    ofInsertions calls = ofInsertions others ↔ ∀ n, Inserted calls n ↔ Inserted others n := by
  simp only [← hasPoint_ofInsertions]
  exact ⟨fun h n => by rw [h], ext_hasPoint⟩

theorem ofRanges_eq_ofInsertions (ranges : List CharRange) :
    ofRanges ranges = ofInsertions (ranges.map .range) := by
  rw [ofInsertions, List.foldl_map]
  rfl

theorem ofChars_eq_ofInsertions (chars : List Char) :
    ofChars chars = ofInsertions (chars.map .char) := by
  rw [ofChars, ofRanges, insertAll, ofInsertions, List.foldl_map, List.foldl_map]
  rfl

/-- Every alphabet is what the insertion of its ranges leads to. -/
theorem ofRanges_ranges (a : Alphabet) : ofRanges a.ranges = a := by
  refine ext_hasPoint fun n => ?_
  rw [ofRanges_eq_ofInsertions, hasPoint_ofInsertions]
  simp [Inserted, HasPoint, Insertion.added]

/-- Neither the order of the calls counts nor how often one is made. -/
theorem ofInsertions_congr (h : ∀ i, i ∈ calls ↔ i ∈ others) :
    ofInsertions calls = ofInsertions others :=
  ofInsertions_eq_iff.2 fun n => by simp only [Inserted, h]

/-- A range may be inserted in two parts if no code point is left out between them. -/
theorem ofInsertions_split {before after : List Insertion} {r s t : CharRange}
    (hstart : s.start = r.start) (hmid : s.stop = t.start) (hstop : t.stop = r.stop) :
    ofInsertions (before ++ .range r :: after) =
      ofInsertions (before ++ .range s :: .range t :: after) := by
  have hparts (n : Nat) : r.HasPoint n ↔ s.HasPoint n ∨ t.HasPoint n := by
    have hs := s.start_lt_stop
    have ht := t.start_lt_stop
    unfold CharRange.HasPoint
    omega
  -- The calls before and after count on both sides.
  refine ofInsertions_eq_iff.2 fun n => ?_
  rw [Insertion.inserted_append, Insertion.inserted_append, Insertion.inserted_cons,
    Insertion.inserted_cons, Insertion.inserted_cons, Insertion.added, hparts, or_assoc]
  rfl

/-- Whatever is inserted into the alphabet without symbols, and however often: the symbols are the
    characters of the inserted ranges; the ranges are the maximal intervals of the inserted code
    points, which start and end with characters, in order; and two alphabets are equal if and only
    if the same code points were inserted, so neither the order nor the repetition of calls nor a
    range given in two parts counts. -/
theorem ofInsertions_canonical (calls others : List Insertion) :
    (∀ c, c ∈ ofInsertions calls ↔ ∃ i ∈ calls, c ∈ i.added) ∧
      (∀ c, (∃ r ∈ (ofInsertions calls).ranges, c ∈ r) ↔ c ∈ ofInsertions calls) ∧
      CharRange.InOrder (ofInsertions calls).ranges ∧
      (∀ r, r ∈ (ofInsertions calls).ranges ↔
        MaximalInterval (Inserted calls) r.start r.stop) ∧
      (∀ start stop, MaximalInterval (Inserted calls) start stop →
        ∃ r, CharRange.ofPoints? start stop = some r ∧ r.start = start ∧ r.stop = stop) ∧
      (ofInsertions calls = ofInsertions others ↔ ∀ n, Inserted calls n ↔ Inserted others n) ∧
      ((∀ i, i ∈ calls ↔ i ∈ others) → ofInsertions calls = ofInsertions others) ∧
      ∀ before after r s t, s.start = r.start → s.stop = t.start → t.stop = r.stop →
        ofInsertions (before ++ .range r :: after) =
          ofInsertions (before ++ .range s :: .range t :: after) := by
  have hpoints : (ofInsertions calls).HasPoint = Inserted calls :=
    funext fun n => propext hasPoint_ofInsertions
  refine ⟨fun c => mem_ofInsertions_iff, fun c => Iff.rfl, inOrder_ranges _, fun r => ?_,
    fun start stop h => ?_, ofInsertions_eq_iff, ofInsertions_congr,
    fun _ _ _ _ _ => ofInsertions_split⟩
  · rw [← hpoints]
    exact mem_ranges_iff
  · rw [← hpoints] at h
    obtain ⟨r, _, rfl, rfl⟩ := exists_mem_ranges_of_maximalInterval h
    exact ⟨r, r.ofPoints?_start_stop, rfl, rfl⟩

/-- Letters inserted out of order and twice; their interval; and a range around the surrogates that
    is given in two parts. -/
theorem ofInsertions_canonical_letters :
    let letters : List Insertion := [.char 'c', .range ⟨'a', 'b', by decide⟩, .char 'c']
    ((∀ i, i ∈ letters ↔ i ∈ [.range ⟨'a', 'b', by decide⟩, .char 'c']) ∧
        ofInsertions letters = ofInsertions [.range ⟨'a', 'b', by decide⟩, .char 'c']) ∧
      (MaximalInterval (Inserted letters) 0x61 0x64 ∧
        ∃ r, CharRange.ofPoints? 0x61 0x64 = some r ∧ r.start = 0x61 ∧ r.stop = 0x64) ∧
      ofInsertions [.range ⟨'a', '\uE001', by decide⟩] =
        ofInsertions [.range ⟨'a', '\uE000', by decide⟩, .range (.single '\uE001')] := by
  intro letters
  obtain ⟨_, _, _, hranges, hends, _, hcongr, hsplit⟩ := ofInsertions_canonical letters
    [.range ⟨'a', 'b', by decide⟩, .char 'c']
  have hsame : ∀ i, i ∈ letters ↔ i ∈ [.range ⟨'a', 'b', by decide⟩, .char 'c'] := by
    intro i
    simp only [letters, List.mem_cons, List.not_mem_nil, or_false]
    tauto
  have hinterval : MaximalInterval (Inserted letters) 0x61 0x64 :=
    (hranges ⟨'a', 'c', by decide⟩).1 (by decide)
  exact ⟨⟨hsame, hcongr hsame⟩, ⟨hinterval, hends _ _ hinterval⟩,
    hsplit [] [] _ _ _ (by decide) (by decide) (by decide)⟩

/-- The characters of two alphabets may be the same when their code points are not: the range
    across the surrogates includes them. -/
example : ofRanges [⟨'\uD7FF', '\uE000', by decide⟩] ≠ ofChars ['\uD7FF', '\uE000'] := by decide

end Alphabet

end RegularLanguages
