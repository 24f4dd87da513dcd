import RegularLanguages.Proofs.Alphabet

set_option autoImplicit false

/-! # What an alphabet covers of ranges and texts

Ranges divide an alphabet: each of them is clipped, and what none of them has is uncovered. The
parts are in order, and if the ranges are disjoint, every symbol lies in exactly one part
(`clip_uncovered_partition`). A range or a text passes its check if all of its characters are
symbols, and otherwise the error names the first that is not (`checkRange_checkText_iff`). All of
this is said of characters: a gap of the alphabet that holds only surrogates is none. -/

namespace RegularLanguages.Alphabet

variable {a : Alphabet} {r : CharRange} {ranges : List CharRange} {text : List Char} {c : Char}

/-! ## Division by ranges -/

/-- The parts into which ranges divide an alphabet. -/
def parts (a : Alphabet) (ranges : List CharRange) : List CharRange :=
  ranges.flatMap a.clip ++ a.uncovered ranges

/-- Every symbol lies in a part: in a clip if one of the ranges has it. -/
theorem exists_mem_parts_iff : (∃ t ∈ a.parts ranges, c ∈ t) ↔ c ∈ a := by
  have hclips : (∃ t ∈ ranges.flatMap a.clip, c ∈ t) ↔ c ∈ a ∧ ∃ r ∈ ranges, c ∈ r := by
    rw [CharRange.exists_mem_flatMap_iff]
    simp only [exists_mem_clip_iff, and_left_comm, exists_and_left]
  have hrest : (∃ t ∈ a.uncovered ranges, c ∈ t) ↔ c ∈ a ∧ ¬ ∃ r ∈ ranges, c ∈ r := by
    rw [exists_mem_uncovered_iff]
    simp only [not_exists, not_and]
  simp only [parts, List.mem_append, or_and_right, exists_or]
  rw [hclips, hrest, ← and_or_left, and_iff_left (Classical.em _)]

theorem pairwise_disjoint_clips (h : ranges.Pairwise CharRange.Disjoint) :
    (ranges.flatMap a.clip).Pairwise CharRange.Disjoint := by
  refine List.pairwise_flatMap.2 ⟨fun r _ => (a.inOrder_clip r).pairwise_disjoint, ?_⟩
  refine h.imp fun {r s} hrs t ht u hu => ?_
  exact hrs.mono (fun _ => mem_of_mem_clip ht) fun _ => mem_of_mem_clip hu

theorem pairwise_disjoint_parts (h : ranges.Pairwise CharRange.Disjoint) :
    (a.parts ranges).Pairwise CharRange.Disjoint := by
  refine List.pairwise_append.2 ⟨pairwise_disjoint_clips h,
    (a.inOrder_uncovered ranges).pairwise_disjoint, fun t ht u hu => ?_⟩
  obtain ⟨r, hr, htr⟩ := List.mem_flatMap.1 ht
  refine CharRange.disjoint_iff.2 fun c hct hcu => ?_
  exact (exists_mem_uncovered_iff.1 ⟨u, hu, hcu⟩).2 r hr (mem_of_mem_clip htr hct)

/-- A clip has the symbols of the range, and uncovered are the symbols that none of the ranges has,
    both in order. So disjoint ranges divide the alphabet: their clips and what is uncovered are
    disjoint, and together they have its symbols and nothing else. -/
theorem clip_uncovered_partition (a : Alphabet) (r : CharRange) (ranges : List CharRange) :
    (∀ c, (∃ t ∈ a.clip r, c ∈ t) ↔ c ∈ r ∧ c ∈ a) ∧ CharRange.InOrder (a.clip r) ∧
      (∀ c, (∃ t ∈ a.uncovered ranges, c ∈ t) ↔ c ∈ a ∧ ∀ s ∈ ranges, c ∉ s) ∧
      CharRange.InOrder (a.uncovered ranges) ∧
      (ranges.Pairwise CharRange.Disjoint →
        (a.parts ranges).Pairwise CharRange.Disjoint ∧
        ∀ c, (∃ t ∈ a.parts ranges, c ∈ t) ↔ c ∈ a) :=
  ⟨fun _ => exists_mem_clip_iff.trans and_comm, a.inOrder_clip r,
    fun _ => exists_mem_uncovered_iff, a.inOrder_uncovered ranges,
    fun h => ⟨pairwise_disjoint_parts h, fun _ => exists_mem_parts_iff⟩⟩

/-- Two ranges that cut an alphabet on both sides of the surrogates. -/
theorem clip_uncovered_partition_surrogates :
    let a := ofRanges [⟨'a', 'c', by decide⟩, ⟨'\uD7FE', '\uE001', by decide⟩]
    let ranges : List CharRange := [⟨'b', '\uD7FE', by decide⟩, ⟨'\uE001', '\uE005', by decide⟩]
    ranges.Pairwise CharRange.Disjoint ∧
      a.parts ranges = [⟨'b', 'c', by decide⟩, .single '\uD7FE', .single '\uE001', .single 'a',
        ⟨'\uD7FF', '\uE000', by decide⟩] ∧
      (a.parts ranges).Pairwise CharRange.Disjoint ∧
      ∀ c, (∃ t ∈ a.parts ranges, c ∈ t) ↔ c ∈ a := by
  intro a ranges
  have hranges : ranges.Pairwise CharRange.Disjoint := by decide
  exact ⟨hranges, by decide, (clip_uncovered_partition a (.single 'a') ranges).2.2.2.2 hranges⟩

/-! ## Checks -/

theorem checkText_eq_ok_iff : a.checkText text = .ok () ↔ ∀ c ∈ text, c ∈ a := by
  have hnone : (text.find? fun c => c ∉ a) = none ↔ ∀ c ∈ text, c ∈ a := by
    simp [List.find?_eq_none]
  unfold checkText
  split
  · rename_i c hfind
    rw [hfind] at hnone
    exact ⟨nofun, fun h => nomatch hnone.2 h⟩
  · rename_i hfind
    exact iff_of_true rfl (hnone.1 hfind)

/-- The error of a text names its first character outside the alphabet. -/
theorem checkText_eq_error_iff {e : AlphabetError} : a.checkText text = .error e ↔
    ∃ c, e = .symbolOutside c ∧
      ∃ before after, text = before ++ c :: after ∧ (∀ d ∈ before, d ∈ a) ∧ c ∉ a := by
  have hfirst (c : Char) : (text.find? fun c => c ∉ a) = some c ↔
      ∃ before after, text = before ++ c :: after ∧ (∀ d ∈ before, d ∈ a) ∧ c ∉ a := by
    rw [List.find?_eq_some_iff_append]
    simp [and_comm, and_left_comm]
  simp only [← hfirst]
  unfold checkText
  split
  · rename_i c hfind
    rw [hfind]
    simp [eq_comm]
  · rename_i hfind
    rw [hfind]
    simp

/-- A range passes if all of its characters are symbols, and otherwise the error names the least
    that is not; a text passes if all of its characters are symbols, and otherwise the error names
    the first that is not. -/
theorem checkRange_checkText_iff (a : Alphabet) (r : CharRange) (text : List Char) :
    (a.checkRange r = .ok () ↔ ∀ c ∈ r, c ∈ a) ∧
      (∀ e, a.checkRange r = .error e ↔
        ∃ c, e = .symbolOutside c ∧ IsLeast {c | c ∈ r ∧ c ∉ a} c) ∧
      (a.checkText text = .ok () ↔ ∀ c ∈ text, c ∈ a) ∧
      ∀ e, a.checkText text = .error e ↔
        ∃ c, e = .symbolOutside c ∧
          ∃ before after, text = before ++ c :: after ∧ (∀ d ∈ before, d ∈ a) ∧ c ∉ a :=
  ⟨checkRange_eq_ok_iff, fun _ => checkRange_eq_error_iff, checkText_eq_ok_iff,
    fun _ => checkText_eq_error_iff⟩

/-- A gap that starts with surrogates is blamed on the character behind them. -/
example : (ofRanges [⟨'a', '\uD7FF', by decide⟩, ⟨'\uE001', '\uE005', by decide⟩]).checkRange
    ⟨'b', '\uE005', by decide⟩ = .error (.symbolOutside '\uE000') := by decide

end RegularLanguages.Alphabet
