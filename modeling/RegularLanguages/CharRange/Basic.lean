set_option autoImplicit false

/-! # Ranges of characters

Transitions are labelled with inclusive, non-empty ranges of characters. A range holds its two
ends and the proof that they are in order, so the empty range cannot be written.

Characters are Unicode scalar values: the code points D800 to DFFF are missing. Two ranges are
therefore neighbours when the *character* after the first is the first of the second, and that
character is `Char.succ?`, which steps from D7FF to E000. -/

namespace RegularLanguages

/-- The later of two characters. -/
def later (a b : Char) : Char := if a ≤ b then b else a

/-- The earlier of two characters. -/
def earlier (a b : Char) : Char := if a ≤ b then a else b

theorem later_le_iff {a b c : Char} : later a b ≤ c ↔ a ≤ c ∧ b ≤ c := by
  unfold later
  split
  · rename_i h
    exact ⟨fun hc => ⟨Char.le_trans h hc, hc⟩, And.right⟩
  · rename_i h
    exact ⟨fun hc => ⟨hc, Char.le_trans ((Char.le_total a b).resolve_left h) hc⟩, And.left⟩

theorem le_earlier_iff {a b c : Char} : c ≤ earlier a b ↔ c ≤ a ∧ c ≤ b := by
  unfold earlier
  split
  · rename_i h
    exact ⟨fun hc => ⟨hc, Char.le_trans hc h⟩, And.left⟩
  · rename_i h
    exact ⟨fun hc => ⟨Char.le_trans hc ((Char.le_total a b).resolve_left h), hc⟩, And.right⟩

theorem le_later_left (a b : Char) : a ≤ later a b := (later_le_iff.1 (Char.le_refl _)).1

theorem le_later_right (a b : Char) : b ≤ later a b := (later_le_iff.1 (Char.le_refl _)).2

theorem char_le_iff_toNat_le {a b : Char} : a ≤ b ↔ a.toNat ≤ b.toNat := by
  rw [Char.le_def, UInt32.le_iff_toNat_le]; rfl

theorem char_lt_iff_toNat_lt {a b : Char} : a < b ↔ a.toNat < b.toNat := by
  rw [Char.lt_def, UInt32.lt_iff_toNat_lt]; rfl

/-! ## The type -/

/-- The characters from `lo` to `hi`, both included. -/
structure CharRange where
  /-- The first character. -/
  lo : Char
  /-- The last character. -/
  hi : Char
  lo_le_hi : lo ≤ hi
  deriving DecidableEq

namespace CharRange

instance : Membership Char CharRange := ⟨fun r c => r.lo ≤ c ∧ c ≤ r.hi⟩

theorem mem_def {c : Char} {r : CharRange} : c ∈ r ↔ r.lo ≤ c ∧ c ≤ r.hi := Iff.rfl

instance (c : Char) (r : CharRange) : Decidable (c ∈ r) :=
  inferInstanceAs (Decidable (r.lo ≤ c ∧ c ≤ r.hi))

instance : Inhabited CharRange := ⟨'\x00', '\x00', by decide⟩

/-- The range from `lo` to `hi`, unless `lo` comes after `hi`. -/
def ofBounds? (lo hi : Char) : Option CharRange :=
  if h : lo ≤ hi then some ⟨lo, hi, h⟩ else none

/-- The range that holds one character. -/
def single (c : Char) : CharRange := ⟨c, c, Char.le_refl c⟩

/-- Every character. -/
def full : CharRange := ⟨Char.ofNat 0, Char.ofNat 0x10FFFF, by decide⟩

@[simp] theorem mem_single {a c : Char} : a ∈ single c ↔ a = c :=
  ⟨fun h => Char.le_antisymm h.2 h.1, fun h => h ▸ ⟨Char.le_refl _, Char.le_refl _⟩⟩

theorem exists_mem_ofBounds?_iff {lo hi c : Char} :
    (∃ r ∈ ofBounds? lo hi, c ∈ r) ↔ lo ≤ c ∧ c ≤ hi := by
  unfold ofBounds?
  split
  · simp [mem_def]
  · rename_i h
    simp only [Option.not_mem_none, false_and, exists_false, false_iff]
    exact fun hc => h (Char.le_trans hc.1 hc.2)

/-! ## Order

Ranges are ordered by their first and then by their last character. -/

instance : LT CharRange := ⟨fun r s => r.lo < s.lo ∨ r.lo = s.lo ∧ r.hi < s.hi⟩

theorem lt_def {r s : CharRange} : r < s ↔ r.lo < s.lo ∨ r.lo = s.lo ∧ r.hi < s.hi := Iff.rfl

instance : DecidableLT CharRange := fun r s =>
  inferInstanceAs (Decidable (r.lo < s.lo ∨ r.lo = s.lo ∧ r.hi < s.hi))

instance : Std.Irrefl (α := CharRange) (· < ·) where
  irrefl r := by simp [lt_def]

instance : Trans (α := CharRange) (· < ·) (· < ·) (· < ·) where
  trans {a b c} h k := by
    rcases lt_def.1 h with h | ⟨h1, h2⟩ <;> rcases lt_def.1 k with k | ⟨k1, k2⟩
    · exact Or.inl (Char.lt_trans h k)
    · exact Or.inl (k1 ▸ h)
    · exact Or.inl (h1 ▸ k)
    · exact Or.inr ⟨h1.trans k1, Char.lt_trans h2 k2⟩

instance : Std.Trichotomous (α := CharRange) (· < ·) where
  trichotomous a b h k := by
    have hl : a.lo = b.lo := by
      apply Std.Trichotomous.trichotomous (r := (· < · : Char → Char → Prop))
      · exact fun hl => h (Or.inl hl)
      · exact fun hl => k (Or.inl hl)
    have hh : a.hi = b.hi := by
      apply Std.Trichotomous.trichotomous (r := (· < · : Char → Char → Prop))
      · exact fun hh => h (Or.inr ⟨hl, hh⟩)
      · exact fun hh => k (Or.inr ⟨hl.symm, hh⟩)
    cases a; cases b
    simp only at hl hh
    subst hl hh
    rfl

/-! ## Two ranges together -/

/-- What two ranges have in common. -/
def intersect? (r s : CharRange) : Option CharRange :=
  ofBounds? (later r.lo s.lo) (earlier r.hi s.hi)

theorem exists_mem_intersect?_iff {r s : CharRange} {c : Char} :
    (∃ t ∈ r.intersect? s, c ∈ t) ↔ c ∈ r ∧ c ∈ s := by
  unfold intersect?
  rw [exists_mem_ofBounds?_iff, later_le_iff, le_earlier_iff, mem_def, mem_def]
  exact ⟨fun ⟨⟨a, b⟩, c, d⟩ => ⟨⟨a, c⟩, b, d⟩, fun ⟨⟨a, c⟩, b, d⟩ => ⟨⟨a, b⟩, c, d⟩⟩

/-- `s` starts with the character that follows the last one of `r`. -/
def Precedes (r s : CharRange) : Prop := r.hi.succ? = some s.lo

instance (r s : CharRange) : Decidable (r.Precedes s) :=
  inferInstanceAs (Decidable (r.hi.succ? = some s.lo))

/-- The two ranges have no character in common. -/
def Disjoint (r s : CharRange) : Prop := r.hi < s.lo ∨ s.hi < r.lo

instance (r s : CharRange) : Decidable (r.Disjoint s) :=
  inferInstanceAs (Decidable (r.hi < s.lo ∨ s.hi < r.lo))

theorem disjoint_iff {r s : CharRange} : r.Disjoint s ↔ ∀ c, c ∈ r → c ∉ s := by
  constructor
  · rintro (h | h) c hr hs
    · exact Char.not_lt.2 (Char.le_trans hs.1 hr.2) h
    · exact Char.not_lt.2 (Char.le_trans hr.1 hs.2) h
  · intro h
    apply Decidable.byContradiction
    intro hn
    have hn1 : s.lo ≤ r.hi := Char.not_lt.1 fun hl => hn (Or.inl hl)
    have hn2 : r.lo ≤ s.hi := Char.not_lt.1 fun hl => hn (Or.inr hl)
    have hmem : later r.lo s.lo ≤ earlier r.hi s.hi :=
      later_le_iff.2 ⟨le_earlier_iff.2 ⟨r.lo_le_hi, hn2⟩, le_earlier_iff.2 ⟨hn1, s.lo_le_hi⟩⟩
    have hlo := later_le_iff.1 (Char.le_refl (later r.lo s.lo))
    have hhi := le_earlier_iff.1 hmem
    exact h _ ⟨hlo.1, hhi.1⟩ ⟨hlo.2, hhi.2⟩

/-- The range from the start of `r` to the end of `r` or `s`, whichever is later. -/
def extend (r s : CharRange) : CharRange :=
  ⟨r.lo, later r.hi s.hi, Char.le_trans r.lo_le_hi (le_later_left _ _)⟩

/-- The least range that holds both. -/
def hull (r s : CharRange) : CharRange :=
  ⟨earlier r.lo s.lo, later r.hi s.hi,
    Char.le_trans (le_earlier_iff.1 (Char.le_refl _)).1
      (Char.le_trans r.lo_le_hi (le_later_left _ _))⟩

end CharRange

end RegularLanguages
