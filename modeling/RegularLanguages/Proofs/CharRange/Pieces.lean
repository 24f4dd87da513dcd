import RegularLanguages.Proofs.CharRange.Normal

set_option autoImplicit false

/-! # Pieces on which nothing changes

A family of ranges cuts the characters into pieces at its boundaries. On one piece every range
of the family is fully present or fully absent (`mem_iff_of_mem_intervals`), so one character of
a piece speaks for all of them; every character of a range lies in a piece
(`exists_mem_intervals`), and in one only, for the pieces ascend
(`pairwise_intervals_boundaries`). So each range of the family is put together from the pieces
that it meets (`intervals_boundaries_tile`). -/

namespace RegularLanguages.CharRange

theorem mem_of_ofPoints? {start stop : Nat} {r : CharRange} (h : ofPoints? start stop = some r)
    {c : Char} : c ∈ r ↔ start ≤ c.toNat ∧ c.toNat < stop := by
  rw [← exists_mem_ofPoints?_iff, h]
  simp

/-! ## Cutting at points -/

theorem mem_intervals_cons {p q : Nat} {points : List Nat} {r : CharRange} :
    r ∈ intervals (p :: q :: points) ↔ ofPoints? p q = some r ∨ r ∈ intervals (q :: points) := by
  rw [intervals, List.mem_append, Option.mem_toList]

theorem le_of_mem_intervals {p : Nat} {points : List Nat} (h : (p :: points).Pairwise (· < ·))
    {r : CharRange} (hr : r ∈ intervals (p :: points)) {c : Char} (hc : c ∈ r) : p ≤ c.toNat := by
  induction points generalizing p with
  | nil => exact absurd hr List.not_mem_nil
  | cons q points ih =>
    obtain ⟨hp, hq⟩ := List.pairwise_cons.1 h
    rcases mem_intervals_cons.1 hr with hr | hr
    · exact ((mem_of_ofPoints? hr).1 hc).1
    · have hqc : q ≤ c.toNat := ih hq hr
      have hpq : p < q := hp q List.mem_cons_self
      omega

/-- The pieces between ascending points are ascending and disjoint. -/
theorem pairwise_intervals {points : List Nat} (h : points.Pairwise (· < ·)) :
    (intervals points).Pairwise fun r s => r.hi < s.lo := by
  induction points with
  | nil => exact List.Pairwise.nil
  | cons p points ih =>
    cases points with
    | nil => exact List.Pairwise.nil
    | cons q points =>
      have hq := (List.pairwise_cons.1 h).2
      rw [intervals]
      refine List.pairwise_append.2 ⟨?_, ih hq, fun r hr s hs => ?_⟩
      · cases ofPoints? p q with
        | none => exact List.Pairwise.nil
        | some r => exact List.pairwise_singleton _ r
      · have hr' := Option.mem_toList.1 hr
        have hlt := ((mem_of_ofPoints? hr').1 ⟨r.lo_le_hi, Char.le_refl _⟩).2
        have hle := le_of_mem_intervals hq hs ⟨Char.le_refl _, s.lo_le_hi⟩
        rw [char_lt_iff_toNat_lt]
        omega

/-- No point separates two characters of a piece. -/
theorem le_iff_of_mem_intervals {points : List Nat} (h : points.Pairwise (· < ·)) {r : CharRange}
    (hr : r ∈ intervals points) {c d : Char} (hc : c ∈ r) (hd : d ∈ r) {n : Nat}
    (hn : n ∈ points) : n ≤ c.toNat ↔ n ≤ d.toNat := by
  induction points with
  | nil => exact absurd hn List.not_mem_nil
  | cons p points ih =>
    cases points with
    | nil => exact absurd hr List.not_mem_nil
    | cons q points =>
      obtain ⟨hp, hq⟩ := List.pairwise_cons.1 h
      have hpc : p ≤ c.toNat := le_of_mem_intervals h hr hc
      have hpd : p ≤ d.toNat := le_of_mem_intervals h hr hd
      rcases mem_intervals_cons.1 hr with hr | hr
      · have hcq := ((mem_of_ofPoints? hr).1 hc).2
        have hdq := ((mem_of_ofPoints? hr).1 hd).2
        rcases List.mem_cons.1 hn with rfl | hn
        · omega
        · have hqn : q ≤ n := by
            rcases List.mem_cons.1 hn with rfl | hn
            · exact Nat.le_refl _
            · exact Nat.le_of_lt ((List.pairwise_cons.1 hq).1 n hn)
          omega
      · rcases List.mem_cons.1 hn with rfl | hn
        · omega
        · exact ih hq hr hn

/-- A character between two of the points lies in a piece. -/
theorem exists_mem_intervals_of_le_of_lt {points : List Nat} (h : points.Pairwise (· < ·))
    {c : Char} {m n : Nat} (hm : m ∈ points) (hmc : m ≤ c.toNat) (hn : n ∈ points)
    (hcn : c.toNat < n) : ∃ r ∈ intervals points, c ∈ r := by
  induction points generalizing m with
  | nil => exact absurd hm List.not_mem_nil
  | cons p points ih =>
    cases points with
    | nil =>
      rw [List.mem_singleton] at hm hn
      omega
    | cons q points =>
      obtain ⟨hp, hq⟩ := List.pairwise_cons.1 h
      have hpm : p ≤ m := by
        rcases List.mem_cons.1 hm with rfl | hm
        · exact Nat.le_refl _
        · exact Nat.le_of_lt (hp m hm)
      -- From `q` on the character is in a later piece, and `q` takes the part of `m`.
      by_cases hqc : q ≤ c.toNat
      · have hn' : n ∈ q :: points := by
          rcases List.mem_cons.1 hn with rfl | hn
          · omega
          · exact hn
        obtain ⟨r, hr, hcr⟩ := ih hq List.mem_cons_self hqc hn'
        exact ⟨r, mem_intervals_cons.2 (Or.inr hr), hcr⟩
      · obtain ⟨r, hr, hcr⟩ := exists_mem_ofPoints?_iff.2
          (⟨by omega, by omega⟩ : p ≤ c.toNat ∧ c.toNat < q)
        exact ⟨r, mem_intervals_cons.2 (Or.inl hr), hcr⟩

/-! ## Cutting at the boundaries of a family -/

theorem mem_boundaries {ranges : List CharRange} {n : Nat} :
    n ∈ boundaries ranges ↔ ∃ r ∈ ranges, n = r.start ∨ n = r.stop := by
  unfold boundaries
  rw [Ascending.mem_ofList, List.mem_flatMap]
  simp

theorem pairwise_boundaries (ranges : List CharRange) :
    (boundaries ranges).Pairwise (· < ·) :=
  Ascending.pairwise_ofList _

theorem pairwise_intervals_boundaries (ranges : List CharRange) :
    (intervals (boundaries ranges)).Pairwise fun r s => r.hi < s.lo :=
  pairwise_intervals (pairwise_boundaries ranges)

/-- A range of the family contains all characters of a piece or none. -/
theorem mem_iff_of_mem_intervals {ranges : List CharRange} {piece : CharRange}
    (hpiece : piece ∈ intervals (boundaries ranges)) {c d : Char} (hc : c ∈ piece)
    (hd : d ∈ piece) {r : CharRange} (hr : r ∈ ranges) : c ∈ r ↔ d ∈ r := by
  have hstart := le_iff_of_mem_intervals (pairwise_boundaries ranges) hpiece hc hd
    (mem_boundaries.2 ⟨r, hr, Or.inl rfl⟩)
  have hstop := le_iff_of_mem_intervals (pairwise_boundaries ranges) hpiece hc hd
    (mem_boundaries.2 ⟨r, hr, Or.inr rfl⟩)
  rw [mem_iff_points, mem_iff_points]
  omega

/-- Every character of a range of the family lies in a piece. -/
theorem exists_mem_intervals {ranges : List CharRange} {r : CharRange} (hr : r ∈ ranges)
    {c : Char} (hc : c ∈ r) : ∃ piece ∈ intervals (boundaries ranges), c ∈ piece := by
  rw [mem_iff_points] at hc
  exact exists_mem_intervals_of_le_of_lt (pairwise_boundaries ranges)
    (mem_boundaries.2 ⟨r, hr, Or.inl rfl⟩) hc.1 (mem_boundaries.2 ⟨r, hr, Or.inr rfl⟩) hc.2

theorem pairwise_disjoint_intervals (ranges : List CharRange) :
    (intervals (boundaries ranges)).Pairwise Disjoint :=
  (pairwise_intervals_boundaries ranges).imp Or.inl

/-- A piece with one character in a range of the family is a part of the range. -/
theorem mem_of_mem_intervals_of_not_disjoint {ranges : List CharRange} {piece : CharRange}
    (hpiece : piece ∈ intervals (boundaries ranges)) {r : CharRange} (hr : r ∈ ranges)
    (hmeets : ¬ piece.Disjoint r) {c : Char} (hc : c ∈ piece) : c ∈ r := by
  rw [disjoint_iff] at hmeets
  push Not at hmeets
  obtain ⟨d, hd, hdr⟩ := hmeets
  exact (mem_iff_of_mem_intervals hpiece hc hd hr).2 hdr

/-- Cut at its boundaries, a family of ranges falls into pieces that ascend and have no character
    in common. Each range is the union of the pieces that it meets, each piece lies inside or
    outside of each range, and each character of a range lies in exactly one piece. -/
theorem intervals_boundaries_tile (ranges : List CharRange) :
    let pieces := intervals (boundaries ranges)
    pieces.Pairwise (· < ·) ∧
      pieces.Pairwise Disjoint ∧
      (∀ r ∈ ranges, ∀ c, c ∈ r ↔ ∃ piece ∈ pieces, ¬ piece.Disjoint r ∧ c ∈ piece) ∧
      (∀ piece ∈ pieces, ∀ r ∈ ranges, (∀ c ∈ piece, c ∈ r) ∨ ∀ c ∈ piece, c ∉ r) ∧
      ∀ r ∈ ranges, ∀ c ∈ r, ∃! piece, piece ∈ pieces ∧ c ∈ piece := by
  intro pieces
  have hdisjoint : pieces.Pairwise Disjoint := pairwise_disjoint_intervals ranges
  refine ⟨(pairwise_intervals_boundaries ranges).imp fun {r s} hlt => ?_, hdisjoint,
    fun r hr c => ⟨fun hc => ?_, fun h => ?_⟩, fun piece hpiece r hr => ?_, fun r hr c hc => ?_⟩
  · exact Or.inl (lt_of_le_of_lt r.lo_le_hi hlt)
  · obtain ⟨piece, hpiece, hcp⟩ := exists_mem_intervals hr hc
    exact ⟨piece, hpiece, fun hapart => disjoint_iff.1 hapart c hcp hc, hcp⟩
  · obtain ⟨piece, hpiece, hmeets, hcp⟩ := h
    exact mem_of_mem_intervals_of_not_disjoint hpiece hr hmeets hcp
  · by_cases hapart : piece.Disjoint r
    · exact Or.inr (disjoint_iff.1 hapart)
    · exact Or.inl fun c hc => mem_of_mem_intervals_of_not_disjoint hpiece hr hapart hc
  · obtain ⟨piece, hpiece, hcp⟩ := exists_mem_intervals hr hc
    refine ⟨piece, ⟨hpiece, hcp⟩, fun other hother => ?_⟩
    exact eq_of_pairwise_disjoint hdisjoint hother.1 hpiece hother.2 hcp

/-- Three ranges with an end or a start at the surrogates: no piece lies between the last character
    before them and the first one behind them. -/
theorem intervals_boundaries_tile_surrogates :
    let ranges : List CharRange := [⟨'a', '\uD7FF', by decide⟩, ⟨'m', '\uE005', by decide⟩,
      ⟨'\uE000', .ofNat 0x10FFFF, by decide⟩]
    intervals (boundaries ranges) =
        [⟨'a', 'l', by decide⟩, ⟨'m', '\uD7FF', by decide⟩, ⟨'\uE000', '\uE005', by decide⟩,
          ⟨'\uE006', .ofNat 0x10FFFF, by decide⟩] ∧
      ⟨'m', '\uE005', by decide⟩ ∈ ranges ∧ '\uE000' ∈ (⟨'m', '\uE005', by decide⟩ : CharRange) ∧
      ∃! piece, piece ∈ intervals (boundaries ranges) ∧ '\uE000' ∈ piece := by
  intro ranges
  have hrange : (⟨'m', '\uE005', by decide⟩ : CharRange) ∈ ranges := by decide
  have hchar : '\uE000' ∈ (⟨'m', '\uE005', by decide⟩ : CharRange) := by decide
  exact ⟨by decide, hrange, hchar, (intervals_boundaries_tile ranges).2.2.2.2 _ hrange _ hchar⟩

end RegularLanguages.CharRange
