import RegularLanguages.Proofs.Pattern.Printing
import RegularLanguages.Proofs.Pattern.WellFormed

set_option autoImplicit false

/-! # Reading printed parts

What the text of a part does to a reader: `Reads` says that a text takes a reader to a given state,
and counts its characters. A character that stands for itself is one more item (`reads_escaped`), a
class in normal form one more class (`reads_class`), and bounds repeat the latest item
(`reads_bounds`). The level of the reader, and the groups that are open around it, are arbitrary
throughout: what is read next does not depend on them. -/

namespace RegularLanguages

/-! ## Reading a text -/

/-- The text takes a reader to the given groups, level and mode. -/
def Reads (limit : Option Nat) (r : Reader) (text : List Char) (enclosing : List (Nat × Level))
    (level : Level) (mode : Mode) : Prop :=
  text.foldlM (Reader.step limit) r = .ok ⟨r.position + text.length, enclosing, level, mode⟩

section Reads

variable {limit : Option Nat} {r s : Reader} {c : Char} {text rest : List Char}
  {enclosing enclosing' : List (Nat × Level)} {level level' : Level} {mode mode' : Mode}

theorem reads_nil (position : Nat) : Reads limit ⟨position, enclosing, level, mode⟩ [] enclosing
    level mode :=
  rfl

theorem reads_cons (h : r.read limit c = .ok s)
    (hrest : Reads limit ⟨r.position + 1, s.enclosing, s.level, s.mode⟩ rest enclosing level mode) :
    Reads limit r (c :: rest) enclosing level mode := by
  have hstep : r.step limit c = .ok ⟨r.position + 1, s.enclosing, s.level, s.mode⟩ :=
    bind_eq_ok_iff.2 ⟨s, h, rfl⟩
  unfold Reads at hrest ⊢
  rw [List.foldlM_cons, List.length_cons, Nat.add_comm rest.length, ← Nat.add_assoc]
  exact bind_eq_ok_iff.2 ⟨_, hstep, hrest⟩

theorem reads_singleton (h : r.read limit c = .ok s) :
    Reads limit r [c] s.enclosing s.level s.mode :=
  reads_cons h (reads_nil _)

theorem Reads.append (h : Reads limit r text enclosing level mode)
    (hrest : Reads limit ⟨r.position + text.length, enclosing, level, mode⟩ rest enclosing' level'
      mode') :
    Reads limit r (text ++ rest) enclosing' level' mode' := by
  unfold Reads at hrest ⊢
  rw [List.foldlM_append, List.length_append, ← Nat.add_assoc]
  exact bind_eq_ok_iff.2 ⟨_, h, hrest⟩

end Reads

open Pattern Reader

/-! ## Characters and classes -/

section Characters

variable {limit : Option Nat} {c : Char} {pos start : Nat} {negated : Bool}
  {enc : List (Nat × Level)} {lvl : Level} {mode : Mode} {ranges : List CharRange}

theorem unescape_of_mem (hc : c ∈ metacharacters) (start : Nat) : unescape start c = .ok c := by
  have hne : ∀ d, d ∉ metacharacters → c ≠ d := fun d hd h => hd (h ▸ hc)
  have hself : unescape? c = some c := by
    unfold unescape?
    rw [if_neg (hne 'n' (by decide)), if_neg (hne 't' (by decide)), if_neg (hne 'r' (by decide))]
    exact if_pos hc
  rw [unescape, hself]

theorem readItem_of_not_mem (hc : c ∉ metacharacters) (r : Reader) :
    r.readItem limit c = .ok (r.push (.literal r.position c)) := by
  unfold readItem
  split
  -- Every character with a meaning of its own is in the list.
  all_goals first | rfl | exact absurd (by decide) hc

theorem readClassItem_of_not_mem (hc : c ∉ metacharacters) (r : Reader) :
    r.readClassItem start negated ranges c =
      .ok { r with mode := .inClass start negated ranges (.low r.position c) } := by
  unfold readClassItem
  split
  all_goals first | rfl | exact absurd (by decide) hc

/-- A character that is to stand for itself is read behind a backslash, or alone if it has no
    other meaning. -/
theorem reads_escaped_of {escape mode' : Mode} {lvl' : Level}
    (hescape : Reader.read limit ⟨pos, enc, lvl, mode⟩ '\\' = .ok ⟨pos, enc, lvl, escape⟩)
    (hmeta : c ∈ metacharacters →
      Reader.read limit ⟨pos + 1, enc, lvl, escape⟩ c = .ok ⟨pos + 1, enc, lvl', mode'⟩)
    (hplain : c ∉ metacharacters →
      Reader.read limit ⟨pos, enc, lvl, mode⟩ c = .ok ⟨pos, enc, lvl', mode'⟩) :
    Reads limit ⟨pos, enc, lvl, mode⟩ (escaped c) enc lvl' mode' := by
  unfold escaped
  by_cases hc : c ∈ metacharacters
  · rw [if_pos hc]
    exact reads_cons hescape (reads_singleton (hmeta hc))
  · rw [if_neg hc]
    exact reads_singleton (hplain hc)

/-- Outside a class it is one more item. -/
theorem reads_escaped (pos : Nat) (enc : List (Nat × Level)) (lvl : Level) :
    Reads limit ⟨pos, enc, lvl, .item⟩ (escaped c) enc (lvl.push (.literal pos c)) .item := by
  have hescape : Reader.read limit ⟨pos, enc, lvl, .item⟩ '\\' =
      .ok ⟨pos, enc, lvl, .escape pos⟩ :=
    rfl
  refine reads_escaped_of hescape (fun hc => ?_) fun hc => ?_
  · exact bind_eq_ok_iff.2 ⟨c, unescape_of_mem hc pos, rfl⟩
  · exact readItem_of_not_mem hc _

/-- The reader is in a class and has read the ranges, the latest first; of the latest one the
    upper end may still come. -/
inductive Mode.Collects (start : Nat) : Bool → List CharRange → Mode → Prop where
  | opened : Collects start false [] (.openClass start)
  | item (negated : Bool) (ranges : List CharRange) :
      Collects start negated ranges (.inClass start negated ranges .item)
  | low (negated : Bool) (ranges : List CharRange) (itemStart : Nat) (lo : Char) :
      Collects start negated (.single lo :: ranges)
        (.inClass start negated ranges (.low itemStart lo))

/-- A character that neither negates nor makes a range starts the next item. -/
theorem read_of_collects (h : mode.Collects start negated ranges) (hnegate : c ≠ '^')
    (hrange : c ≠ '-') : Reader.read limit ⟨pos, enc, lvl, mode⟩ c =
      readClassItem ⟨pos, enc, lvl, mode⟩ start negated ranges c := by
  cases h with
  | opened => exact if_neg hnegate
  | item => rfl
  | low => exact if_neg hrange

theorem ne_of_not_mem_metacharacters (hc : c ∉ metacharacters) : c ≠ '^' ∧ c ≠ '-' :=
  ⟨fun h => hc (h ▸ by decide), fun h => hc (h ▸ by decide)⟩

/-- The lower end of an item. -/
theorem reads_low (h : mode.Collects start negated ranges) (lo : Char) :
    Reads limit ⟨pos, enc, lvl, mode⟩ (escaped lo) enc lvl
      (.inClass start negated ranges (.low pos lo)) := by
  have hescape : Reader.read limit ⟨pos, enc, lvl, mode⟩ '\\' =
      .ok ⟨pos, enc, lvl, .inClass start negated ranges (.escapedLow pos)⟩ :=
    read_of_collects h (by decide) (by decide)
  refine reads_escaped_of hescape (fun hlo => ?_) fun hlo => ?_
  · exact bind_eq_ok_iff.2 ⟨lo, unescape_of_mem hlo pos, rfl⟩
  · obtain ⟨hnegate, hrange⟩ := ne_of_not_mem_metacharacters hlo
    exact (read_of_collects h hnegate hrange).trans (readClassItem_of_not_mem hlo _)

theorem readClass_hyphen_of_not_mem (hc : c ∉ metacharacters) (r : Reader) (itemStart : Nat)
    (lo : Char) : r.readClass start negated ranges (.hyphen itemStart lo) c =
      r.closeRange start negated ranges itemStart lo c := by
  simp only [readClass]
  split
  all_goals first | rfl | exact absurd (by decide) hc

theorem closeRange_eq_ok (r : Reader) (itemStart : Nat) (range : CharRange) :
    r.closeRange start negated ranges itemStart range.lo range.hi =
      .ok { r with mode := .inClass start negated (range :: ranges) .item } := by
  have hbounds : CharRange.ofBounds? range.lo range.hi = some range := dif_pos range.lo_le_hi
  rw [closeRange, hbounds]

/-- The upper end of an item closes the range. -/
theorem reads_high (range : CharRange) (itemStart : Nat) :
    Reads limit ⟨pos, enc, lvl, .inClass start negated ranges (.hyphen itemStart range.lo)⟩
      (escaped range.hi) enc lvl (.inClass start negated (range :: ranges) .item) := by
  have hescape : Reader.read limit
      ⟨pos, enc, lvl, .inClass start negated ranges (.hyphen itemStart range.lo)⟩ '\\' =
        .ok ⟨pos, enc, lvl, .inClass start negated ranges (.escapedHigh itemStart range.lo pos)⟩ :=
    rfl
  refine reads_escaped_of hescape (fun hhi => ?_) fun hhi => ?_
  · exact bind_eq_ok_iff.2
      ⟨range.hi, unescape_of_mem hhi pos, closeRange_eq_ok _ itemStart range⟩
  · exact (readClass_hyphen_of_not_mem hhi _ itemStart range.lo).trans
      (closeRange_eq_ok _ itemStart range)

theorem reads_range (h : mode.Collects start negated ranges) (r : CharRange) :
    ∃ mode', Reads limit ⟨pos, enc, lvl, mode⟩ (printRange r) enc lvl mode' ∧
      mode'.Collects start negated (r :: ranges) := by
  unfold printRange
  by_cases hr : r.lo = r.hi
  · rw [if_pos hr]
    have hsingle : r = .single r.lo := by
      cases r
      cases hr
      rfl
    refine ⟨_, reads_low h r.lo, ?_⟩
    rw [hsingle]
    exact .low negated ranges pos r.lo
  · rw [if_neg hr]
    have hrest : Reads limit ⟨pos + (escaped r.lo).length, enc, lvl,
        .inClass start negated ranges (.low pos r.lo)⟩ ('-' :: escaped r.hi) enc lvl
          (.inClass start negated (r :: ranges) .item) :=
      reads_cons (s := ⟨_, enc, lvl, .inClass start negated ranges (.hyphen pos r.lo)⟩) rfl
        (reads_high r pos)
    exact ⟨_, (reads_low h r.lo).append hrest, .item negated (r :: ranges)⟩

theorem reads_ranges (h : mode.Collects start negated ranges) (rs : List CharRange) :
    ∃ mode', Reads limit ⟨pos, enc, lvl, mode⟩ (rs.flatMap printRange) enc lvl mode' ∧
      mode'.Collects start negated (rs.reverse ++ ranges) := by
  induction rs generalizing pos mode ranges with
  | nil => exact ⟨mode, reads_nil pos, h⟩
  | cons r rest ih =>
    obtain ⟨mode', hr, h'⟩ := reads_range h r
    obtain ⟨mode'', hrest, h''⟩ := ih h'
    refine ⟨mode'', ?_, ?_⟩
    · rw [List.flatMap_cons]
      exact hr.append hrest
    · rw [List.reverse_cons, List.append_assoc]
      exact h''

theorem reads_opening (pos : Nat) (enc : List (Nat × Level)) (lvl : Level) (negated : Bool) :
    ∃ mode,
      Reads limit ⟨pos, enc, lvl, .item⟩ (if negated then ['[', '^'] else ['[']) enc lvl mode ∧
        mode.Collects pos negated [] := by
  have hopen : Reader.read limit ⟨pos, enc, lvl, .item⟩ '[' =
      .ok ⟨pos, enc, lvl, .openClass pos⟩ :=
    rfl
  cases negated with
  | false => exact ⟨.openClass pos, reads_singleton hopen, .opened⟩
  | true =>
    have hnegate : Reader.read limit ⟨pos + 1, enc, lvl, .openClass pos⟩ '^' =
        .ok ⟨pos + 1, enc, lvl, .inClass pos true [] .item⟩ :=
      rfl
    exact ⟨_, reads_cons hopen (reads_singleton hnegate), .item true []⟩

theorem reads_closing (h : mode.Collects start negated ranges.reverse) (hranges : ranges ≠ [])
    (hnormal : CharRange.IsNormal ranges) : Reads limit ⟨pos, enc, lvl, mode⟩ [']'] enc
      (lvl.push (.charClass start negated ranges)) .item := by
  have hsome : ¬ ranges.reverse.isEmpty = true := by simpa using hranges
  have hread : Reader.read limit ⟨pos, enc, lvl, mode⟩ ']' =
      .ok ⟨pos, enc, lvl.push (.charClass start negated ranges), .item⟩ := by
    rw [read_of_collects h (by decide) (by decide)]
    simp only [readClassItem, if_neg hsome, List.reverse_reverse, hnormal.normalize_eq]
    rfl
  exact reads_singleton hread

/-- A class in normal form is read as it is printed. -/
theorem reads_class (hranges : ranges ≠ []) (hnormal : CharRange.IsNormal ranges) :
    Reads limit ⟨pos, enc, lvl, .item⟩ (print (.charClass start negated ranges)) enc
      (lvl.push (.charClass pos negated ranges)) .item := by
  obtain ⟨mode, hopening, hempty⟩ := reads_opening pos enc lvl negated
  obtain ⟨mode', hitems, hcollects⟩ := reads_ranges hempty ranges
  rw [List.append_nil] at hcollects
  exact hopening.append (hitems.append (reads_closing hcollects hranges hnormal))

end Characters

/-! ## Bounds -/

section Bounds

variable {limit : Option Nat} {pos : Nat} {enc : List (Nat × Level)} {lvl : Level}

theorem digitValue?_digitChar {n : Nat} (hn : n < 10) : digitValue? n.digitChar = some n := by
  have hall : ∀ m < 10, digitValue? (Nat.digitChar m) = some m := by decide
  exact hall n hn

theorem addDigit_none {digit : Nat} (h : digit ≤ repetitionLimit) :
    addDigit pos none digit = .ok ⟨pos, digit⟩ := by
  simp [addDigit, Nat.not_lt.2 h]

theorem addDigit_some {start value digit : Nat} (h : value * 10 + digit ≤ repetitionLimit) :
    addDigit pos (some ⟨start, value⟩) digit = .ok ⟨start, value * 10 + digit⟩ := by
  simp [addDigit, Nat.not_lt.2 h]

/-- The digits of a number are read one by one, in either bound. -/
theorem reads_digits {mode : Option Digits → Mode}
    (hmode : ∀ pos {digits digit d c}, digitValue? c = some digit →
      addDigit pos digits digit = .ok d →
        Reader.read limit ⟨pos, enc, lvl, mode digits⟩ c = .ok ⟨pos, enc, lvl, mode (some d)⟩)
    {n : Nat} (hn : n ≤ repetitionLimit) :
    Reads limit ⟨pos, enc, lvl, mode none⟩ (Nat.toDigits 10 n) enc lvl (mode (some ⟨pos, n⟩)) := by
  induction n using Nat.strongRecOn with
  | _ n ih =>
    by_cases hlt : n < 10
    · rw [Nat.toDigits_of_lt_base hlt]
      exact reads_singleton (hmode pos (digitValue?_digitChar hlt) (addDigit_none hn))
    · have hle : 10 ≤ n := Nat.not_lt.1 hlt
      have hsmaller : n / 10 < n := Nat.div_lt_self (by omega) (by decide)
      have hvalue : n / 10 * 10 + n % 10 = n := Nat.div_add_mod' n 10
      have hdigit : ∀ next, addDigit next (some ⟨pos, n / 10⟩) (n % 10) = .ok ⟨pos, n⟩ := by
        intro next
        rw [addDigit_some (hvalue.symm ▸ hn), hvalue]
      have hlast := fun next =>
        hmode next (digitValue?_digitChar (Nat.mod_lt n (by decide))) (hdigit next)
      rw [Nat.toDigits_of_base_le (by decide) hle]
      exact (ih (n / 10) hsmaller (Nat.le_trans (Nat.le_of_lt hsmaller) hn)).append
        (reads_singleton (hlast _))

theorem read_lowerBound_digit (pos : Nat) {start digit : Nat} {digits : Option Digits}
    {d : Digits} {c : Char} (hdigit : digitValue? c = some digit)
    (hd : addDigit pos digits digit = .ok d) :
    Reader.read limit ⟨pos, enc, lvl, .lowerBound start digits⟩ c =
      .ok ⟨pos, enc, lvl, .lowerBound start (some d)⟩ := by
  show readLowerBound limit _ start digits c = _
  simp only [readLowerBound, hdigit]
  exact bind_eq_ok_iff.2 ⟨d, hd, rfl⟩

theorem read_upperBound_digit (pos : Nat) {start min digit : Nat} {digits : Option Digits}
    {d : Digits} {c : Char} (hdigit : digitValue? c = some digit)
    (hd : addDigit pos digits digit = .ok d) :
    Reader.read limit ⟨pos, enc, lvl, .upperBound start min digits⟩ c =
      .ok ⟨pos, enc, lvl, .upperBound start min (some d)⟩ := by
  show readUpperBound limit _ start min digits c = _
  simp only [readUpperBound, hdigit]
  exact bind_eq_ok_iff.2 ⟨d, hd, rfl⟩

theorem repeatLatest_push {body : Pattern} {mode : Mode} {min : Nat} {max : Option Nat}
    (hdepth : ∀ n ∈ limit, body.depth + 1 ≤ n) :
    repeatLatest limit ⟨pos, enc, lvl.push body, mode⟩ min max =
      .ok ⟨pos, enc, lvl.push (.repetition body.position body min max), .item⟩ :=
  bind_eq_ok_iff.2 ⟨_, within_eq_ok_iff.2 ⟨hdepth, rfl⟩, rfl⟩

/-- The upper bound, with the brace that closes it. -/
theorem reads_upperBound {body : Pattern} {start min : Nat} {max : Option Nat}
    (hmax : ∀ m ∈ max, min ≤ m ∧ m ≤ repetitionLimit)
    (hdepth : ∀ n ∈ limit, body.depth + 1 ≤ n) :
    Reads limit ⟨pos, enc, lvl.push body, .upperBound start min none⟩
      (max.elim [] (Nat.toDigits 10) ++ ['\x7d']) enc
      (lvl.push (.repetition body.position body min max)) .item := by
  cases max with
  | none =>
    have hclose : Reader.read limit ⟨pos, enc, lvl.push body, .upperBound start min none⟩ '\x7d' =
        .ok ⟨pos, enc, lvl.push (.repetition body.position body min none), .item⟩ :=
      repeatLatest_push hdepth
    exact reads_singleton hclose
  | some m =>
    obtain ⟨hle, hm⟩ := hmax m rfl
    have hclose : Reader.read limit ⟨pos + (Nat.toDigits 10 m).length, enc, lvl.push body,
        .upperBound start min (some ⟨pos, m⟩)⟩ '\x7d' =
          .ok ⟨pos + (Nat.toDigits 10 m).length, enc,
            lvl.push (.repetition body.position body min (some m)), .item⟩ :=
      (if_neg (Nat.not_lt.2 hle)).trans (repeatLatest_push hdepth)
    exact (reads_digits (fun pos => read_upperBound_digit pos) hm).append (reads_singleton hclose)

/-- The bounds repeat the latest item. -/
theorem reads_bounds (pos : Nat) (enc : List (Nat × Level)) (lvl : Level) {body : Pattern}
    {min : Nat} {max : Option Nat} (hmin : min ≤ repetitionLimit)
    (hmax : ∀ m ∈ max, min ≤ m ∧ m ≤ repetitionLimit) (hdepth : ∀ n ∈ limit, body.depth + 1 ≤ n) :
    Reads limit ⟨pos, enc, lvl.push body, .item⟩ (printBounds min max) enc
      (lvl.push (.repetition body.position body min max)) .item := by
  have hopen : Reader.read limit ⟨pos, enc, lvl.push body, .item⟩ '\x7b' =
      .ok ⟨pos, enc, lvl.push body, .lowerBound pos none⟩ :=
    rfl
  have hcomma : ∀ next digits, Reader.read limit
      ⟨next, enc, lvl.push body, .lowerBound pos (some ⟨digits, min⟩)⟩ ',' =
        .ok ⟨next, enc, lvl.push body, .upperBound pos min none⟩ :=
    fun _ _ => rfl
  have hlower : Reads limit ⟨pos + 1, enc, lvl.push body, .lowerBound pos none⟩
      (Nat.toDigits 10 min) enc (lvl.push body) (.lowerBound pos (some ⟨pos + 1, min⟩)) :=
    reads_digits (fun pos => read_lowerBound_digit pos) hmin
  exact reads_cons hopen (hlower.append (reads_cons (hcomma _ _) (reads_upperBound hmax hdepth)))

end Bounds

/-! ## Levels -/

namespace Level

variable {limit : Option Nat} {l : Level}

theorem branch_of_two_le (h : 2 ≤ l.items.length) :
    l.branch limit = (Pattern.concat l.branchStart l.items.reverse).within limit := by
  obtain ⟨start, branches, branchStart, items⟩ := l
  match items, h with
  | _ :: _ :: _, _ => rfl

theorem close_of_ne_nil {last : Pattern} (hlast : l.branch limit = .ok last)
    (h : l.branches ≠ []) :
    l.close limit =
      (Pattern.alternation l.start (last :: l.branches).reverse).within limit := by
  obtain ⟨start, branches, branchStart, items⟩ := l
  match branches, h with
  | q :: rest, _ =>
    unfold close
    rw [hlast]
    rfl

end Level

end RegularLanguages
