import RegularLanguages.Alphabet
import RegularLanguages.Proofs.CharRange.Parts

set_option autoImplicit false

/-! # Alphabets as sets of characters

What the operations on an alphabet do to its characters. `clip` and `uncovered` keep the characters
that they are named for (`exists_mem_clip_iff`, `exists_mem_uncovered_iff`) and give ranges in
order, whatever ranges they are asked about. A range passes `checkRange` if the alphabet covers it,
and otherwise the error names the least character outside (`checkRange_eq_error_iff`). Of several
ranges the first one that is not covered decides (`checkRanges_flatMap_eq_error_iff`). -/

namespace RegularLanguages

/-! ## Checks in turn -/

section Checks

variable {α ε : Type} {check : α → Except ε Unit} {xs : List α} {e : ε}

theorem forM_eq_ok_iff : xs.forM check = .ok () ↔ ∀ x ∈ xs, check x = .ok () := by
  induction xs with
  | nil => exact ⟨fun _ _ hx => absurd hx List.not_mem_nil, fun _ => rfl⟩
  | cons x rest ih =>
    rw [List.forall_mem_cons, ← ih]
    show (check x).bind (fun _ => rest.forM check) = _ ↔ _
    cases check x with
    | error e => simp [Except.bind]
    | ok _ => simp [Except.bind]

/-- The first check that fails decides. -/
theorem forM_eq_error_iff : xs.forM check = .error e ↔
    ∃ before x after, xs = before ++ x :: after ∧ (∀ y ∈ before, check y = .ok ()) ∧
      check x = .error e := by
  induction xs with
  | nil => simp [pure, Except.pure]
  | cons x rest ih =>
    show (check x).bind (fun _ => rest.forM check) = _ ↔ _
    cases hx : check x with
    | error d =>
      constructor
      · intro h
        exact ⟨[], x, rest, rfl, nofun, hx.trans h⟩
      · intro h
        obtain ⟨before, y, after, heq, hbefore, hy⟩ := h
        cases before with
        | nil =>
          obtain ⟨rfl, _⟩ := List.cons.inj heq
          exact hx.symm.trans hy
        | cons z before =>
          obtain ⟨rfl, _⟩ := List.cons.inj heq
          rw [hbefore x List.mem_cons_self] at hx
          cases hx
    | ok _ =>
      refine ih.trans ⟨fun h => ?_, fun h => ?_⟩
      · obtain ⟨before, y, after, rfl, hbefore, hy⟩ := h
        exact ⟨x :: before, y, after, rfl, List.forall_mem_cons.2 ⟨hx, hbefore⟩, hy⟩
      · obtain ⟨before, y, after, heq, hbefore, hy⟩ := h
        cases before with
        | nil =>
          obtain ⟨rfl, _⟩ := List.cons.inj heq
          rw [hx] at hy
          cases hy
        | cons z before =>
          obtain ⟨_, rfl⟩ := List.cons.inj heq
          exact ⟨before, y, after, rfl, (List.forall_mem_cons.1 hbefore).2, hy⟩

theorem forM_flatMap {β : Type} (f : β → List α) (ys : List β) :
    (ys.flatMap f).forM check = ys.forM fun y => (f y).forM check := by
  induction ys with
  | nil => rfl
  | cons y rest ih =>
    rw [List.flatMap_cons]
    refine List.forM_append.trans ?_
    show ((f y).forM check).bind (fun _ => (rest.flatMap f).forM check) = _
    rw [ih]
    rfl

end Checks

namespace Alphabet

variable {a : Alphabet} {r t : CharRange} {ranges : List CharRange} {c : Char}

theorem inOrder_ranges (a : Alphabet) : CharRange.InOrder a.ranges := by
  refine a.separated.imp fun {r s} h => ?_
  rw [char_lt_iff_toNat_lt]
  unfold CharRange.stop CharRange.start at h
  omega

/-! ## The alphabet without symbols -/

theorem isEmpty_iff : a.isEmpty = true ↔ ∀ c, c ∉ a := by
  unfold isEmpty
  rw [List.isEmpty_iff, List.eq_nil_iff_forall_not_mem]
  constructor
  · intro h c hc
    obtain ⟨r, hr, _⟩ := hc
    exact h r hr
  · intro h r hr
    exact h r.lo ⟨r, hr, r.lo_mem⟩

theorem requireDeclared_eq_error (h : ∀ c, c ∉ a) : a.requireDeclared = .error .undeclared :=
  if_pos (isEmpty_iff.2 h)

theorem requireDeclared_eq_ok (h : ∃ c, c ∈ a) : a.requireDeclared = .ok () := by
  obtain ⟨c, hc⟩ := h
  exact if_neg fun hempty => isEmpty_iff.1 hempty c hc

/-! ## Parts of the alphabet -/

theorem exists_mem_clip_iff : (∃ t ∈ a.clip r, c ∈ t) ↔ c ∈ a ∧ c ∈ r := by
  unfold clip
  constructor
  · intro h
    obtain ⟨t, ht, hc⟩ := h
    obtain ⟨s, hs, hst⟩ := List.mem_filterMap.1 ht
    obtain ⟨hcs, hcr⟩ := (CharRange.mem_of_intersect?_eq_some hst).1 hc
    exact ⟨⟨s, hs, hcs⟩, hcr⟩
  · intro h
    obtain ⟨⟨s, hs, hcs⟩, hcr⟩ := h
    obtain ⟨t, ht, hc⟩ := CharRange.exists_mem_intersect?_iff.2 ⟨hcs, hcr⟩
    exact ⟨t, List.mem_filterMap.2 ⟨s, hs, ht⟩, hc⟩

theorem mem_of_mem_clip (ht : t ∈ a.clip r) (hc : c ∈ t) : c ∈ r :=
  (exists_mem_clip_iff.1 ⟨t, ht, hc⟩).2

theorem inOrder_clip (a : Alphabet) (r : CharRange) : CharRange.InOrder (a.clip r) := by
  refine List.pairwise_filterMap.2 (a.inOrder_ranges.imp fun {s u} hlt t ht v hv => ?_)
  refine CharRange.hi_lt_lo_of_parts hlt (fun c hc => ?_) fun c hc => ?_
  · exact ((CharRange.mem_of_intersect?_eq_some ht).1 hc).1
  · exact ((CharRange.mem_of_intersect?_eq_some hv).1 hc).1

theorem exists_mem_uncovered_iff :
    (∃ t ∈ a.uncovered ranges, c ∈ t) ↔ c ∈ a ∧ ∀ r ∈ ranges, c ∉ r :=
  CharRange.exists_mem_minusAll_iff

theorem inOrder_uncovered (a : Alphabet) (ranges : List CharRange) :
    CharRange.InOrder (a.uncovered ranges) :=
  a.inOrder_ranges.minusAll ranges

/-! ## Checks -/

/-- Every character of the range is a symbol. -/
def Covers (a : Alphabet) (r : CharRange) : Prop := ∀ c ∈ r, c ∈ a

theorem exists_mem_minusAll_ranges_iff :
    (∃ t ∈ CharRange.minusAll [r] a.ranges, c ∈ t) ↔ c ∈ r ∧ c ∉ a := by
  have houtside : c ∉ a ↔ ∀ s ∈ a.ranges, c ∉ s := by
    show ¬ (∃ s ∈ a.ranges, c ∈ s) ↔ _
    simp only [not_exists, not_and]
  rw [CharRange.exists_mem_minusAll_iff, houtside]
  simp only [List.mem_singleton, exists_eq_left]

theorem checkRange_eq_ok_iff : a.checkRange r = .ok () ↔ a.Covers r := by
  have hgaps := @exists_mem_minusAll_ranges_iff a r
  unfold checkRange
  split
  · rename_i gap rest hminus
    rw [hminus] at hgaps
    obtain ⟨hr, ha⟩ := hgaps.1 ⟨gap, List.mem_cons_self, gap.lo_mem⟩
    exact ⟨nofun, fun hcovers => absurd (hcovers _ hr) ha⟩
  · rename_i hminus
    refine ⟨fun _ c hc => ?_, fun _ => rfl⟩
    by_contra ha
    obtain ⟨t, ht, _⟩ := hgaps.2 ⟨hc, ha⟩
    rw [hminus] at ht
    exact absurd ht List.not_mem_nil

/-- The error of a range names its least character outside the alphabet. -/
theorem checkRange_eq_error_iff {e : AlphabetError} : a.checkRange r = .error e ↔
    ∃ c, e = .symbolOutside c ∧ IsLeast {c | c ∈ r ∧ c ∉ a} c := by
  have hset : {c | ∃ t ∈ CharRange.minusAll [r] a.ranges, c ∈ t} = {c | c ∈ r ∧ c ∉ a} :=
    Set.ext fun c => exists_mem_minusAll_ranges_iff
  have horder : CharRange.InOrder (CharRange.minusAll [r] a.ranges) :=
    CharRange.InOrder.minusAll (List.pairwise_singleton _ r) a.ranges
  unfold checkRange
  split
  · rename_i gap rest hminus
    rw [hminus] at hset horder
    have hleast := horder.isLeast_lo
    rw [hset] at hleast
    constructor
    · intro h
      exact ⟨gap.lo, (Except.error.inj h).symm, hleast⟩
    · intro h
      obtain ⟨c, rfl, hc⟩ := h
      rw [hc.unique hleast]
  · rename_i hminus
    rw [hminus] at hset
    refine ⟨nofun, fun h => ?_⟩
    obtain ⟨c, _, hc⟩ := h
    have hmem := hc.1
    rw [← hset] at hmem
    simp at hmem

theorem checkRanges_eq_forM (a : Alphabet) (ranges : List CharRange) :
    a.checkRanges ranges = ranges.forM a.checkRange := by
  induction ranges with
  | nil => rfl
  | cons r rest ih =>
    show (a.checkRange r).bind (fun _ => a.checkRanges rest) = _
    rw [ih]
    rfl

theorem checkRanges_eq_ok_iff :
    a.checkRanges ranges = .ok () ↔ ∀ r ∈ ranges, a.Covers r := by
  rw [checkRanges_eq_forM, forM_eq_ok_iff]
  simp only [checkRange_eq_ok_iff]

theorem checkRanges_eq_error_iff {e : AlphabetError} : a.checkRanges ranges = .error e ↔
    ∃ before r after, ranges = before ++ r :: after ∧ (∀ s ∈ before, a.Covers s) ∧
      a.checkRange r = .error e := by
  rw [checkRanges_eq_forM, forM_eq_error_iff]
  simp only [checkRange_eq_ok_iff]

/-- Of several lists of ranges the first one with a range that is not covered decides. -/
theorem checkRanges_flatMap_eq_error_iff {α : Type} {f : α → List CharRange} {xs : List α}
    {e : AlphabetError} : a.checkRanges (xs.flatMap f) = .error e ↔
      ∃ before x after, xs = before ++ x :: after ∧
        (∀ y ∈ before, ∀ r ∈ f y, a.Covers r) ∧ a.checkRanges (f x) = .error e := by
  rw [checkRanges_eq_forM, forM_flatMap, forM_eq_error_iff]
  simp only [← checkRanges_eq_forM, checkRanges_eq_ok_iff]

end Alphabet

end RegularLanguages
