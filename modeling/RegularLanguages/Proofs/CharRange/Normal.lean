import Mathlib.Data.Char
import Mathlib.Data.List.Basic
import Mathlib.Data.List.Pairwise
import RegularLanguages.CharRange.Normal
import RegularLanguages.CharRange.Points

set_option autoImplicit false

/-! # The normal form of a set of characters

A list of ranges is normal when between any two of its ranges, in order, there is a character
that belongs to neither. `normalize` keeps the characters of a list (`exists_mem_normalize_iff`)
and makes it normal (`isNormal_normalize`), and a normal list is determined by its characters
(`IsNormal.eq_of_mem_iff`): a run of characters can not be spread over two ranges of a normal
list, whatever the code points between them. So the normal form is canonical
(`normalize_canonical`). -/

namespace RegularLanguages

/-- Two members of a list are related in the order in which they stand. -/
theorem eq_or_of_pairwise {α : Type} {R : α → α → Prop} {xs : List α} (h : xs.Pairwise R) {x y : α}
    (hx : x ∈ xs) (hy : y ∈ xs) : x = y ∨ R x y ∨ R y x := by
  have : Std.Symm fun x y : α => R x y ∨ R y x := ⟨fun _ _ => Or.symm⟩
  have heither : xs.Pairwise fun x y => R x y ∨ R y x := h.imp Or.inl
  exact or_iff_not_imp_left.2 fun hne => heither.forall hx hy hne

/-! ## The character after a character -/

theorem succ?_eq_some_iff {a b : Char} :
    a.succ? = some b ↔ b.ordinal.val = a.ordinal.val + 1 := by
  rw [Char.succ?_eq, Option.map_eq_some_iff]
  constructor
  · rintro ⟨f, hf, rfl⟩
    rw [Char.ordinal_ofOrdinal]
    exact (Fin.addNat?_eq_some_iff.1 hf).2
  · intro h
    exact ⟨b.ordinal, Fin.addNat?_eq_some_iff.2 ⟨by omega, h⟩, Char.ofOrdinal_ordinal⟩

theorem lt_of_succ?_eq_some {a b : Char} (h : a.succ? = some b) : a < b := by
  rw [succ?_eq_some_iff] at h
  rw [Char.lt_iff_ordinal_lt, Fin.lt_def]
  omega

theorem le_of_succ?_eq_some {a b c : Char} (h : a.succ? = some b) (hc : a < c) : b ≤ c := by
  rw [succ?_eq_some_iff] at h
  rw [Char.lt_iff_ordinal_lt, Fin.lt_def] at hc
  rw [Char.le_iff_ordinal_le, Fin.le_def]
  omega

theorem exists_succ?_of_lt {a c : Char} (h : a < c) : ∃ b, a.succ? = some b := by
  rw [Char.lt_iff_ordinal_lt, Fin.lt_def] at h
  refine ⟨Char.ofOrdinal ⟨a.ordinal.val + 1, by omega⟩, succ?_eq_some_iff.2 ?_⟩
  rw [Char.ordinal_ofOrdinal]

/-- The place of a character among all characters: the surrogates are not counted. -/
theorem ordinal_val (c : Char) :
    c.ordinal.val = if c.toNat < 0xD800 then c.toNat else c.toNat - 0x800 := by
  have h : c.val < 0xD800 ↔ c.toNat < 0xD800 := UInt32.lt_iff_toNat_lt
  unfold Char.ordinal
  split <;> rename_i hc <;> rw [h] at hc
  · exact (if_pos hc).symm
  · exact (if_neg hc).symm

/-- The next character has the next code point, or is the first behind the surrogates. -/
theorem succ?_eq_some_iff_toNat {a b : Char} :
    a.succ? = some b ↔ a.toNat + 1 = b.toNat ∨ a.toNat = 0xD7FF ∧ b.toNat = 0xE000 := by
  have ha := char_toNat_valid a
  have hb := char_toNat_valid b
  rw [succ?_eq_some_iff, ordinal_val, ordinal_val]
  split <;> split <;> omega

namespace CharRange

theorem lo_mem (r : CharRange) : r.lo ∈ r := ⟨Char.le_refl _, r.lo_le_hi⟩

theorem hi_mem (r : CharRange) : r.hi ∈ r := ⟨r.lo_le_hi, Char.le_refl _⟩

/-- Ranges with the same characters are equal. -/
theorem ext_mem {r s : CharRange} (h : ∀ c, c ∈ r ↔ c ∈ s) : r = s := by
  have hlo : r.lo = s.lo :=
    Char.le_antisymm ((h s.lo).2 s.lo_mem).1 ((h r.lo).1 r.lo_mem).1
  have hhi : r.hi = s.hi :=
    Char.le_antisymm ((h r.hi).1 r.hi_mem).2 ((h s.hi).2 s.hi_mem).2
  cases r; cases s
  simp only at hlo hhi
  subst hlo hhi
  rfl

/-! ## Normal lists -/

/-- `r` ends before `s` starts, and some character lies between them. -/
def Before (r s : CharRange) : Prop := ∃ c, r.hi < c ∧ c < s.lo

/-- Any two ranges are in order, with a character between them. -/
def IsNormal (ranges : List CharRange) : Prop := ranges.Pairwise Before

theorem before_iff {r s : CharRange} : r.Before s ↔ r.hi < s.lo ∧ ¬ r.Precedes s := by
  constructor
  · rintro ⟨c, hrc, hcs⟩
    refine ⟨lt_trans hrc hcs, fun h => ?_⟩
    exact absurd (le_of_succ?_eq_some h hrc) (not_le.2 hcs)
  · rintro ⟨hlt, hnot⟩
    obtain ⟨c, hc⟩ := exists_succ?_of_lt hlt
    refine ⟨c, lt_of_succ?_eq_some hc, lt_of_le_of_ne (le_of_succ?_eq_some hc hlt) ?_⟩
    rintro rfl
    exact hnot hc

theorem precedes_iff {r s : CharRange} :
    r.Precedes s ↔ r.stop = s.start ∨ r.stop = 0xD800 ∧ s.start = 0xE000 := by
  unfold Precedes stop start
  rw [succ?_eq_some_iff_toNat]
  omega

/-- The ends do not touch, also if the surrogates between them are not counted. -/
theorem Before.lt_and_not_adjacent {r s : CharRange} (h : r.Before s) :
    r.hi < s.lo ∧ r.stop ≠ s.start ∧ ¬ (r.stop = 0xD800 ∧ s.start = 0xE000) := by
  obtain ⟨hlt, hprecedes⟩ := before_iff.1 h
  rw [precedes_iff, not_or] at hprecedes
  exact ⟨hlt, hprecedes⟩

theorem Before.lt {r s : CharRange} (h : r.Before s) : r < s :=
  Or.inl (lt_of_le_of_lt r.lo_le_hi (before_iff.1 h).1)

theorem Before.disjoint {r s : CharRange} (h : r.Before s) : r.Disjoint s :=
  Or.inl (before_iff.1 h).1

theorem IsNormal.pairwise_lt {ranges : List CharRange} (h : IsNormal ranges) :
    ranges.Pairwise (· < ·) :=
  h.imp Before.lt

theorem IsNormal.pairwise_disjoint {ranges : List CharRange} (h : IsNormal ranges) :
    ranges.Pairwise Disjoint :=
  h.imp Before.disjoint

instance : Std.Symm Disjoint where
  symm _ _ h := Or.symm h

/-- Two ranges of a disjoint list with a common character are the same range. -/
theorem eq_of_pairwise_disjoint {ranges : List CharRange} (h : ranges.Pairwise Disjoint)
    {r s : CharRange} (hr : r ∈ ranges) (hs : s ∈ ranges) {c : Char} (hcr : c ∈ r) (hcs : c ∈ s) :
    r = s := by
  by_contra hne
  exact disjoint_iff.1 (h.forall hr hs hne) c hcr hcs

/-- A character has one place in a list of disjoint ranges. -/
theorem index_eq_of_pairwise_disjoint {ranges : List CharRange} (h : ranges.Pairwise Disjoint)
    {j k : Nat} {r s : CharRange} (hr : ranges[j]? = some r) (hs : ranges[k]? = some s) {c : Char}
    (hcr : c ∈ r) (hcs : c ∈ s) : j = k := by
  obtain ⟨hj, rfl⟩ := List.getElem?_eq_some_iff.1 hr
  obtain ⟨hk, rfl⟩ := List.getElem?_eq_some_iff.1 hs
  have hdisjoint := List.pairwise_iff_getElem.1 h
  by_contra hne
  rcases Nat.lt_or_gt_of_ne hne with hlt | hlt
  · exact disjoint_iff.1 (hdisjoint j k hj hk hlt) c hcr hcs
  · exact disjoint_iff.1 (hdisjoint k j hk hj hlt) c hcs hcr

/-- Two ranges of a normal list are the same or have a character between them. -/
theorem IsNormal.eq_or_before {ranges : List CharRange} (h : IsNormal ranges) {r s : CharRange}
    (hr : r ∈ ranges) (hs : s ∈ ranges) : r = s ∨ r.Before s ∨ s.Before r :=
  eq_or_of_pairwise h hr hs

/-! ## Uniqueness -/

/-- A range whose characters all belong to a normal list lies in one range of the list. -/
theorem IsNormal.exists_of_forall_mem {ranges : List CharRange} (h : IsNormal ranges)
    {t : CharRange} (ht : ∀ c ∈ t, ∃ r ∈ ranges, c ∈ r) : ∃ r ∈ ranges, ∀ c ∈ t, c ∈ r := by
  obtain ⟨r, hr, hlo⟩ := ht t.lo t.lo_mem
  refine ⟨r, hr, fun c hc => ⟨Char.le_trans hlo.1 hc.1, ?_⟩⟩
  by_contra hlt
  rw [not_le] at hlt
  -- The first character after `r` still lies in `t`, hence in a range right behind `r`.
  obtain ⟨d, hd⟩ := exists_succ?_of_lt hlt
  have hrd : r.hi < d := lt_of_succ?_eq_some hd
  have hdt : d ∈ t :=
    ⟨le_of_lt (lt_of_le_of_lt hlo.2 hrd), Char.le_trans (le_of_succ?_eq_some hd hlt) hc.2⟩
  obtain ⟨s, hs, hds⟩ := ht d hdt
  rcases h.eq_or_before hr hs with rfl | ⟨e, hre, hes⟩ | hsr
  · exact absurd hds.2 (not_le.2 hrd)
  · have hde : d ≤ e := le_of_succ?_eq_some hd hre
    exact absurd hds.1 (not_le.2 (lt_of_le_of_lt hde hes))
  · have hsd : s.hi < d :=
      lt_of_lt_of_le (before_iff.1 hsr).1 (Char.le_trans r.lo_le_hi (le_of_lt hrd))
    exact absurd hds.2 (not_le.2 hsd)

theorem IsNormal.subset_of_mem_iff {xs ys : List CharRange} (hx : IsNormal xs) (hy : IsNormal ys)
    (h : ∀ c, (∃ r ∈ xs, c ∈ r) ↔ ∃ r ∈ ys, c ∈ r) {r : CharRange} (hr : r ∈ xs) : r ∈ ys := by
  obtain ⟨s, hs, hrs⟩ := hy.exists_of_forall_mem fun c hc => (h c).1 ⟨r, hr, hc⟩
  obtain ⟨t, ht, hst⟩ := hx.exists_of_forall_mem fun c hc => (h c).2 ⟨s, hs, hc⟩
  -- From one list to the other and back, a range can only come back to itself.
  have hrt : r = t :=
    eq_of_pairwise_disjoint hx.pairwise_disjoint hr ht r.lo_mem (hst _ (hrs _ r.lo_mem))
  have hrs' : r = s := ext_mem fun c => ⟨hrs c, fun hc => hrt ▸ hst c hc⟩
  exact hrs' ▸ hs

/-- Normal lists with the same characters are equal. -/
theorem IsNormal.eq_of_mem_iff {xs ys : List CharRange} (hx : IsNormal xs) (hy : IsNormal ys)
    (h : ∀ c, (∃ r ∈ xs, c ∈ r) ↔ ∃ r ∈ ys, c ∈ r) : xs = ys :=
  Ascending.eq_of_mem_iff hx.pairwise_lt hy.pairwise_lt fun _ =>
    ⟨hx.subset_of_mem_iff hy h, hy.subset_of_mem_iff hx fun c => (h c).symm⟩

/-! ## Normalizing -/

theorem mem_extend_iff {r s : CharRange} (hlo : r.lo ≤ s.lo) (h : r.Reaches s) {c : Char} :
    c ∈ r.extend s ↔ c ∈ r ∨ c ∈ s := by
  have hmem : c ∈ r.extend s ↔ r.lo ≤ c ∧ c ≤ later r.hi s.hi := Iff.rfl
  rw [hmem]
  constructor
  · rintro ⟨hrc, hc⟩
    by_cases hcr : c ≤ r.hi
    · exact Or.inl ⟨hrc, hcr⟩
    · -- Behind the end of `r` the character has to be one of `s`, wherever `s` starts.
      rw [not_le] at hcr
      have hcs : c ≤ s.hi := by
        unfold later at hc
        split at hc
        · exact hc
        · exact absurd hc (not_le.2 hcr)
      rcases h with h | h
      · exact Or.inr ⟨Char.le_trans h (le_of_lt hcr), hcs⟩
      · exact Or.inr ⟨le_of_succ?_eq_some h hcr, hcs⟩
  · rintro (hc | hc)
    · exact ⟨hc.1, Char.le_trans hc.2 (le_later_left _ _)⟩
    · exact ⟨Char.le_trans hlo hc.1, Char.le_trans hc.2 (le_later_right _ _)⟩

theorem before_of_not_reaches {r s : CharRange} (h : ¬ r.Reaches s) : r.Before s := by
  refine before_iff.2 ⟨?_, fun hp => h (Or.inr hp)⟩
  exact not_le.1 fun hle => h (Or.inl hle)

/-- The ranges start in ascending order, none of them before `r`. -/
def StartsAfter (r : CharRange) (ranges : List CharRange) : Prop :=
  (r :: ranges).Pairwise fun s t => s.lo ≤ t.lo

/-- A range that is extended still starts where it did. -/
theorem StartsAfter.extend {r s : CharRange} {rest : List CharRange}
    (h : StartsAfter r (s :: rest)) : StartsAfter (r.extend s) rest := by
  obtain ⟨hr, hs⟩ := List.pairwise_cons.1 h
  exact List.pairwise_cons.2 ⟨fun t ht => hr t (List.mem_cons_of_mem s ht), hs.of_cons⟩

theorem exists_mem_coalesce_iff {r : CharRange} {ranges : List CharRange}
    (h : StartsAfter r ranges) {c : Char} :
    (∃ t ∈ coalesce r ranges, c ∈ t) ↔ c ∈ r ∨ ∃ t ∈ ranges, c ∈ t := by
  induction ranges generalizing r with
  | nil => simp [coalesce]
  | cons s rest ih =>
    obtain ⟨hr, hs⟩ := List.pairwise_cons.1 h
    have hrs : r.lo ≤ s.lo := hr s List.mem_cons_self
    unfold coalesce
    split
    · rename_i hreach
      rw [ih h.extend, mem_extend_iff hrs hreach, List.exists_mem_cons_iff, or_assoc]
    · rw [List.exists_mem_cons_iff, ih hs, List.exists_mem_cons_iff]

theorem lo_le_of_mem_coalesce {r t : CharRange} {ranges : List CharRange}
    (h : StartsAfter r ranges) (ht : t ∈ coalesce r ranges) : r.lo ≤ t.lo := by
  induction ranges generalizing r with
  | nil =>
    rw [List.mem_singleton.1 ht]
  | cons s rest ih =>
    obtain ⟨hr, hs⟩ := List.pairwise_cons.1 h
    unfold coalesce at ht
    split at ht
    · exact (ih h.extend ht : (r.extend s).lo ≤ t.lo)
    · rcases List.mem_cons.1 ht with rfl | ht
      · exact Char.le_refl _
      · exact Char.le_trans (hr s List.mem_cons_self) (ih hs ht)

theorem isNormal_coalesce {r : CharRange} {ranges : List CharRange} (h : StartsAfter r ranges) :
    IsNormal (coalesce r ranges) := by
  induction ranges generalizing r with
  | nil => exact List.pairwise_singleton _ _
  | cons s rest ih =>
    obtain ⟨hr, hs⟩ := List.pairwise_cons.1 h
    unfold coalesce
    split
    · exact ih h.extend
    · rename_i hreach
      -- The character before `s` is also before all that is made of the later ranges.
      refine List.pairwise_cons.2 ⟨fun t ht => ?_, ih hs⟩
      obtain ⟨c, hrc, hcs⟩ := before_of_not_reaches hreach
      exact ⟨c, hrc, lt_of_lt_of_le hcs (lo_le_of_mem_coalesce hs ht)⟩

/-- The ranges that are left of a list when each has been joined onto those before it. -/
def joined : List CharRange → List CharRange
  | [] => []
  | r :: rest => coalesce r rest

theorem normalize_eq_joined (ranges : List CharRange) :
    normalize ranges = joined (Ascending.ofList ranges) := by
  unfold normalize
  split <;> rename_i h <;> rw [h] <;> rfl

theorem exists_mem_joined_iff {ranges : List CharRange}
    (h : ranges.Pairwise fun r s => r.lo ≤ s.lo) {c : Char} :
    (∃ r ∈ joined ranges, c ∈ r) ↔ ∃ r ∈ ranges, c ∈ r := by
  cases ranges with
  | nil => exact Iff.rfl
  | cons r rest => rw [joined, exists_mem_coalesce_iff h, List.exists_mem_cons_iff]

theorem isNormal_joined {ranges : List CharRange}
    (h : ranges.Pairwise fun r s => r.lo ≤ s.lo) : IsNormal (joined ranges) := by
  cases ranges with
  | nil => exact List.Pairwise.nil
  | cons r rest => exact isNormal_coalesce h

theorem pairwise_lo_ofList (ranges : List CharRange) :
    (Ascending.ofList ranges).Pairwise fun r s => r.lo ≤ s.lo := by
  refine (Ascending.pairwise_ofList ranges).imp fun {r s} hlt => ?_
  rcases lt_def.1 hlt with hlt | ⟨heq, _⟩
  · exact le_of_lt hlt
  · exact le_of_eq heq

/-- Normalizing keeps the characters. -/
theorem exists_mem_normalize_iff {ranges : List CharRange} {c : Char} :
    (∃ r ∈ normalize ranges, c ∈ r) ↔ ∃ r ∈ ranges, c ∈ r := by
  rw [normalize_eq_joined, exists_mem_joined_iff (pairwise_lo_ofList ranges)]
  simp only [Ascending.mem_ofList]

theorem isNormal_normalize (ranges : List CharRange) : IsNormal (normalize ranges) := by
  rw [normalize_eq_joined]
  exact isNormal_joined (pairwise_lo_ofList ranges)

theorem normalize_ne_nil {ranges : List CharRange} (h : ranges ≠ []) : normalize ranges ≠ [] := by
  obtain ⟨r, hr⟩ := List.exists_mem_of_ne_nil ranges h
  obtain ⟨s, hs, _⟩ := exists_mem_normalize_iff.2 ⟨r, hr, r.lo_mem⟩
  exact List.ne_nil_of_mem hs

/-- A list in normal form is its own normal form. -/
theorem IsNormal.normalize_eq {ranges : List CharRange} (h : IsNormal ranges) :
    normalize ranges = ranges :=
  (isNormal_normalize ranges).eq_of_mem_iff h fun _ => exists_mem_normalize_iff

/-- Two lists have the same normal form if and only if they have the same characters. -/
theorem normalize_eq_normalize_iff {xs ys : List CharRange} :
    normalize xs = normalize ys ↔ ∀ c, (∃ r ∈ xs, c ∈ r) ↔ ∃ r ∈ ys, c ∈ r := by
  constructor
  · intro h c
    rw [← exists_mem_normalize_iff, h, exists_mem_normalize_iff]
  · intro h
    refine (isNormal_normalize xs).eq_of_mem_iff (isNormal_normalize ys) fun c => ?_
    rw [exists_mem_normalize_iff, h, exists_mem_normalize_iff]

/-- The normal form has the characters of the list. It ascends, and any two of its ranges have
    neither a character in common nor adjacent ends, also across the surrogates. So it is a
    canonical form: it depends on the characters alone and is its own normal form. -/
theorem normalize_canonical (xs ys : List CharRange) :
    (∀ c, (∃ r ∈ normalize xs, c ∈ r) ↔ ∃ r ∈ xs, c ∈ r) ∧
      (normalize xs).Pairwise (· < ·) ∧
      (normalize xs).Pairwise (fun r s => r.hi < s.lo ∧ r.stop ≠ s.start ∧
        ¬ (r.stop = 0xD800 ∧ s.start = 0xE000)) ∧
      (normalize xs = normalize ys ↔ ∀ c, (∃ r ∈ xs, c ∈ r) ↔ ∃ r ∈ ys, c ∈ r) ∧
      normalize (normalize xs) = normalize xs := by
  have hnormal := isNormal_normalize xs
  refine ⟨fun c => exists_mem_normalize_iff, hnormal.pairwise_lt, hnormal.imp fun hbefore => ?_,
    normalize_eq_normalize_iff, hnormal.normalize_eq⟩
  obtain ⟨hlt, hprecedes⟩ := before_iff.1 hbefore
  rw [precedes_iff, not_or] at hprecedes
  exact ⟨hlt, hprecedes⟩

/-- Nested, repeated and neighbouring ranges become one, also across the surrogates. -/
example : normalize [single '\uE000', ⟨'b', 'y', by decide⟩, single 'c', single 'c',
    ⟨'x', '\uD7FF', by decide⟩] = [⟨'b', '\uE000', by decide⟩] := by decide

end CharRange

end RegularLanguages
