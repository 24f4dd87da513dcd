import Mathlib.Data.Bool.AllAny
import RegularLanguages.Automaton.Dot
import RegularLanguages.Proofs.Text.Hexadecimal
import RegularLanguages.Proofs.Text.Lines

set_option autoImplicit false

/-! # Labels of ranges

A label is read back by `readLabel`, so different ranges have different labels. In a drawing it
stands between quotation marks; it is made of visible characters of ASCII, and it never ends the
string that it stands in (`unbroken_dotLabel`). -/

namespace RegularLanguages.CharRange

open Text

/-! ## Reading labels -/

/-- What a label has after two backslashes. The backslash stands for itself at the end and before
    the hyphen between two characters. -/
def readSetOff : List Char → Char × List Char
  | [] => ('\\', [])
  | 's' :: rest => (' ', rest)
  | 'u' :: rest =>
    (Char.ofNat (hexadecimalValue (rest.takeWhile isHexadecimalDigit)),
      rest.dropWhile isHexadecimalDigit)
  | c :: rest => if c = '-' then ('\\', c :: rest) else (c, rest)

/-- The first character of a label that has been written out, and the rest of the label. -/
def readLabelChar : List Char → Option (Char × List Char)
  | [] => none
  | '\\' :: '\\' :: rest => some (readSetOff rest)
  | '\\' :: c :: rest => some (c, rest)
  | c :: rest => some (c, rest)

/-- The two ends of the range that a label stands for. -/
def readLabel (text : List Char) : Option (Char × Char) :=
  (readLabelChar text).bind fun
    | (lo, '-' :: rest) => (readLabelChar rest).map fun (hi, _) => (lo, hi)
    | (lo, _) => some (lo, lo)

/-- A character that is given by number is read back, up to the first that is no digit. -/
theorem readSetOff_hexadecimalPadded (c : Char) {rest : List Char}
    (hrest : ∀ d ∈ rest.head?, isHexadecimalDigit d = false) :
    readSetOff ('u' :: (hexadecimalPadded 4 c.toNat ++ rest)) = (c, rest) := by
  have hdigits : ∀ d ∈ hexadecimalPadded 4 c.toNat, isHexadecimalDigit d = true :=
    fun d => isHexadecimalDigit_of_mem_hexadecimalPadded
  have htake := takeWhile_append_of_head? hdigits hrest
  have hdrop : (hexadecimalPadded 4 c.toNat ++ rest).dropWhile isHexadecimalDigit = rest := by
    rw [← List.append_right_inj (hexadecimalPadded 4 c.toNat)]
    conv => lhs; lhs; rw [← htake]
    exact List.takeWhile_append_dropWhile
  rw [readSetOff, htake, hdrop, hexadecimalValue_hexadecimalPadded, Char.ofNat_toNat]

/-- The written character is read back, before a hyphen and at the end of a label. -/
theorem readLabelChar_escapedLabel (c : Char) {rest : List Char}
    (hrest : ∀ d ∈ rest.head?, d = '-') :
    readLabelChar (escapedLabel c ++ rest) = some (c, rest) := by
  unfold escapedLabel
  split
  · rename_i h
    rcases h with rfl | rfl
    · rfl
    · cases rest with
      | nil => rfl
      | cons d rest =>
        rw [hrest d rfl]
        rfl
  split
  · rename_i h
    rcases h with rfl | rfl | rfl | rfl <;> rfl
  split
  · rename_i h
    rw [h]
    rfl
  split
  · rename_i hplain _ _ _
    rw [not_or] at hplain
    unfold readLabelChar
    split <;> simp_all
  · rw [List.append_assoc]
    exact congrArg some (readSetOff_hexadecimalPadded c fun d hd => by rw [hrest d hd]; rfl)

theorem toList_dotLabel (r : CharRange) :
    r.dotLabel.toList =
      if r.lo = r.hi then escapedLabel r.lo else escapedLabel r.lo ++ ['-'] ++ escapedLabel r.hi :=
  String.toList_ofList

/-- The ends of a range can be read off its label. -/
theorem readLabel_dotLabel (r : CharRange) : readLabel r.dotLabel.toList = some (r.lo, r.hi) := by
  have hend : ∀ d ∈ ([] : List Char).head?, d = '-' := fun d hd => nomatch hd
  have hhyphen (rest : List Char) : ∀ d ∈ ('-' :: rest).head?, d = '-' :=
    fun d hd => (Option.mem_some.1 hd).symm
  rw [toList_dotLabel, readLabel]
  split
  · rename_i heq
    have hread := readLabelChar_escapedLabel r.lo hend
    rw [List.append_nil] at hread
    rw [hread, ← heq]
    rfl
  · have hread := readLabelChar_escapedLabel r.hi hend
    rw [List.append_nil] at hread
    rw [List.append_assoc, List.singleton_append, readLabelChar_escapedLabel r.lo (hhyphen _)]
    simp [hread]

/-- Different ranges have different labels. -/
theorem dotLabel_injective : Function.Injective dotLabel := by
  intro r s h
  have hends := readLabel_dotLabel r
  rw [h, readLabel_dotLabel, Option.some.injEq, Prod.mk.injEq] at hends
  cases r
  cases s
  obtain ⟨rfl, rfl⟩ := hends
  rfl

/-! ## The characters of a label -/

/-- A character of ASCII with a mark of its own. -/
def IsVisible (c : Char) : Prop := '!' ≤ c ∧ c ≤ '~'

instance (c : Char) : Decidable (IsVisible c) :=
  inferInstanceAs (Decidable ('!' ≤ c ∧ c ≤ '~'))

theorem isVisible_of_isHexadecimalDigit {c : Char} (h : isHexadecimalDigit c = true) :
    IsVisible c := by
  rw [isHexadecimalDigit, Char.isDigit, Bool.or_eq_true, Bool.and_eq_true, Bool.and_eq_true] at h
  simp only [decide_eq_true_eq] at h
  rcases h with ⟨hlo, hhi⟩ | ⟨hlo, hhi⟩
  · exact ⟨Char.le_trans (b := '0') (by decide) hlo, Char.le_trans (b := '9') hhi (by decide)⟩
  · exact ⟨Char.le_trans (by decide) hlo, Char.le_trans hhi (by decide)⟩

theorem isVisible_of_mem_escapedLabel (c : Char) : ∀ d ∈ escapedLabel c, IsVisible d := by
  unfold escapedLabel
  split
  · rename_i h
    rcases h with rfl | rfl <;> exact List.all_iff_forall_prop.1 (by decide)
  split
  · rename_i h
    rcases h with rfl | rfl | rfl | rfl <;> exact List.all_iff_forall_prop.1 (by decide)
  split
  · exact List.all_iff_forall_prop.1 (by decide)
  split
  · rename_i hvisible
    intro d hd
    rw [List.mem_singleton.1 hd]
    exact hvisible
  · rw [List.forall_mem_append]
    exact ⟨List.all_iff_forall_prop.1 (by decide), fun d hd =>
      isVisible_of_isHexadecimalDigit (isHexadecimalDigit_of_mem_hexadecimalPadded hd)⟩

theorem isVisible_of_mem_dotLabel (r : CharRange) : ∀ c ∈ r.dotLabel.toList, IsVisible c := by
  rw [toList_dotLabel]
  split
  · exact isVisible_of_mem_escapedLabel r.lo
  · rw [List.forall_mem_append, List.forall_mem_append]
    have hdash : ∀ c ∈ ['-'], IsVisible c := List.all_iff_forall_prop.1 (by decide)
    exact ⟨⟨isVisible_of_mem_escapedLabel r.lo, hdash⟩, isVisible_of_mem_escapedLabel r.hi⟩

/-- No mark is left without a backslash, and no backslash is left over. -/
theorem unbroken_escapedLabel (c : Char) : Unbroken (escapedLabel c) := by
  unfold escapedLabel
  split
  · exact Unbroken.escaped c Unbroken.nil
  rename_i hplain
  rw [not_or] at hplain
  have hself : Unbroken [c] := Unbroken.plain hplain.1 hplain.2 Unbroken.nil
  split
  · exact Unbroken.escaped '\\' hself
  split
  · exact Unbroken.escaped '\\' (unbroken_of_forall (List.all_iff_forall_prop.1 (by decide)))
  split
  · exact hself
  · refine Unbroken.escaped '\\' (unbroken_of_forall fun d hd => ?_)
    have hdigit : isHexadecimalDigit d = true ∨ d = 'u' :=
      (List.mem_cons.1 hd).symm.imp_left isHexadecimalDigit_of_mem_hexadecimalPadded
    constructor
    · rintro rfl
      revert hdigit
      decide
    · rintro rfl
      revert hdigit
      decide

/-- A label ends where its string is meant to end. -/
theorem unbroken_dotLabel (r : CharRange) : Unbroken r.dotLabel.toList := by
  rw [toList_dotLabel]
  split
  · exact unbroken_escapedLabel r.lo
  · have hdash : Unbroken ['-'] := unbroken_of_forall (List.all_iff_forall_prop.1 (by decide))
    exact ((unbroken_escapedLabel r.lo).append hdash).append (unbroken_escapedLabel r.hi)

end RegularLanguages.CharRange
