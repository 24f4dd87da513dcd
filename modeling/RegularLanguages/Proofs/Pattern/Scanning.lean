import RegularLanguages.Proofs.Outcome
import RegularLanguages.Proofs.Pattern.Reader

set_option autoImplicit false

/-! # What a reader makes of classes and operators

The parser has a function for escapes, one for classes and one for the operators that repeat an
item; a reader has modes instead. `readOn` is what a reader in some state makes of the rest of a
text, up to the end. When the parser takes something from the text, a reader that goes on over the
same text is afterwards where the parser is, and has what the parser has taken; or both refuse the
text with the same error. So each equation here says that reading on is taking something first,
whatever follows it.

The reader does not look ahead. Where the parser does so, behind a character of a class, the reader
has a mode more and decides a character later (`readOn_rangeEnd`,
`readOn_low_of_not_startsRange`). -/

namespace RegularLanguages

open Reader

/-! ## Nodes and trees -/

namespace Node

variable {limit : Option Nat} {α : Type}

/-- A tree that is complete is refused for the depth that comes with it. -/
theorem within_bind (node : Node) (k : Pattern → Except SyntaxError α) :
    (node.tree.within limit >>= k) = (node.within limit >>= fun m => k m.tree) := by
  unfold Pattern.within within nest
  rw [node.depth_eq]
  split <;> rfl

end Node

namespace Input

variable {limit : Option Nat} {n groups start : Nat} {enclosing : List (Nat × Level)}
  {level : Level} {mode : Mode} {s : Input}

/-- What a reader makes of the rest of a text. -/
def readOn (limit : Option Nat) (enclosing : List (Nat × Level)) (level : Level) (mode : Mode)
    (s : Input) : Except SyntaxError Pattern :=
  ({ position := s.position, enclosing, level, mode } : Reader).readAll limit s.rest

theorem readOn_of_next?_eq_none (h : s.next? = none) :
    s.readOn limit enclosing level mode =
      ({ position := s.position, enclosing, level, mode } : Reader).finish limit := by
  obtain ⟨_ | ⟨c, rest⟩, position, openGroups⟩ := s
  · rfl
  · cases h

theorem readOn_of_next?_eq_some {t : Taken s.length s.openGroups Char} (h : s.next? = some t) :
    s.readOn limit enclosing level mode =
      (({ position := s.position, enclosing, level, mode } : Reader).read limit t.value >>=
        fun r => t.left.readOn limit r.enclosing r.level r.mode) := by
  obtain ⟨_ | ⟨c, rest⟩, position, openGroups⟩ := s
  · cases h
  · cases h
    unfold readOn readAll
    rw [List.foldlM_cons]
    unfold step
    simp only [bind_assoc, pure_bind]

theorem eat?_eq_some_iff {c : Char} {t : Taken s.length s.openGroups Char} :
    s.eat? c = some t ↔ s.next? = some t ∧ t.value = c := by
  rw [eat?, Option.filter_eq_some_iff, decide_eq_true_iff]

theorem eat?_eq_none_iff {c : Char} :
    s.eat? c = none ↔ ∀ t, s.next? = some t → t.value ≠ c := by
  rw [eat?, Option.filter_eq_none_iff]
  simp

/-! ## Escapes -/

/-- An escape, in a mode that waits for the character behind the backslash. -/
theorem readOn_escape {f : Nat → Char → Except SyntaxError Reader}
    (hread : ∀ position c, ({ position, enclosing, level, mode } : Reader).read limit c =
      (unescape start c >>= f position))
    (hfinish : ∀ position, ({ position, enclosing, level, mode } : Reader).finish limit =
      refuse position .unexpectedEnd) :
    s.readOn limit enclosing level mode = (s.escape start >>= fun t =>
      f s.position t.value >>= fun r => t.left.readOn limit r.enclosing r.level r.mode) := by
  unfold escape
  cases h : s.next? with
  | none =>
    rw [readOn_of_next?_eq_none h, hfinish]
    rfl
  | some t =>
    rw [readOn_of_next?_eq_some h, hread]
    simp only [bind_assoc, pure_bind]

/-! ## Classes -/

variable {negated : Bool} {ranges : List CharRange}

/-- The first character of an item of a class. -/
theorem readOn_classChar {t : Taken s.length s.openGroups Char} (h : s.next? = some t)
    (hclose : t.value ≠ ']') :
    s.readOn limit enclosing level (.inClass start negated ranges .item) =
      (classChar s.position t.value t.left t.bounded >>= fun lo =>
        lo.left.readOn limit enclosing level
          (.inClass start negated ranges (.low s.position lo.value))) := by
  rw [readOn_of_next?_eq_some h]
  show (readClassItem _ _ _ _ _ >>= _) = _
  unfold classChar
  split
  · rename_i hescape
    rw [hescape]
    simp only [bind_assoc, pure_bind]
    show t.left.readOn limit enclosing level
      (.inClass start negated ranges (.escapedLow s.position)) = _
    exact (readOn_escape (fun _ _ => rfl) fun _ => rfl).trans rfl
  · rename_i hescape
    unfold readClassItem
    split
    · contradiction
    · contradiction
    · rfl

theorem startsRange_iff :
    s.startsRange = true ↔ ∃ hyphen, s.next? = some hyphen ∧ hyphen.value = '-' ∧
      ∃ t, hyphen.left.next? = some t ∧ t.value ≠ ']' := by
  simp only [startsRange, Option.any_eq_true, eat?_eq_some_iff, decide_eq_true_iff, and_assoc]

/-- What follows the first character of an item, unless it makes a range, belongs to the next. -/
theorem readOn_low_of_not_startsRange (h : ¬ s.startsRange = true) (itemStart : Nat) (lo : Char) :
    s.readOn limit enclosing level (.inClass start negated ranges (.low itemStart lo)) =
      s.readOn limit enclosing level (.inClass start negated (.single lo :: ranges) .item) := by
  cases hs : s.next? with
  | none =>
    rw [readOn_of_next?_eq_none hs, readOn_of_next?_eq_none hs]
    rfl
  | some t =>
    rw [readOn_of_next?_eq_some hs, readOn_of_next?_eq_some hs]
    by_cases hhyphen : t.value = '-'
    · -- The hyphen is taken for a range at first, and for an item when the class ends behind it.
      rw [hhyphen]
      show t.left.readOn limit enclosing level
          (.inClass start negated ranges (.hyphen itemStart lo)) =
        t.left.readOn limit enclosing level
          (.inClass start negated (.single lo :: ranges) (.low s.position '-'))
      cases ht : t.left.next? with
      | none =>
        rw [readOn_of_next?_eq_none ht, readOn_of_next?_eq_none ht]
        rfl
      | some u =>
        have hclose : u.value = ']' := Decidable.byContradiction fun hne =>
          h (startsRange_iff.2 ⟨t, hs, hhyphen, u, ht, hne⟩)
        rw [readOn_of_next?_eq_some ht, readOn_of_next?_eq_some ht, hclose]
        rfl
    · simp only [Reader.read, readClass, if_neg hhyphen, readClassItem, Reader.push]

theorem closeRange_bind (r : Reader) (s : Input) (itemStart : Nat) (lo hi : Char) :
    (r.closeRange start negated ranges itemStart lo hi >>= fun r =>
      s.readOn limit r.enclosing r.level r.mode) =
      match CharRange.ofBounds? lo hi with
      | some range =>
        s.readOn limit r.enclosing r.level (.inClass start negated (range :: ranges) .item)
      | none => refuse itemStart (.invalidRange lo hi) := by
  unfold closeRange
  cases CharRange.ofBounds? lo hi <;> rfl

/-- The second character of a range. -/
theorem readOn_rangeEnd (h : s.startsRange = true) (itemStart : Nat) (lo : Char) :
    s.readOn limit enclosing level (.inClass start negated ranges (.low itemStart lo)) =
      (s.rangeEnd start >>= fun hi =>
        match CharRange.ofBounds? lo hi.value with
        | some range =>
          hi.left.readOn limit enclosing level (.inClass start negated (range :: ranges) .item)
        | none => refuse itemStart (.invalidRange lo hi.value)) := by
  obtain ⟨hyphen, hhyphen, heq, t, ht, hclose⟩ := startsRange_iff.1 h
  have hstart : s.readOn limit enclosing level (.inClass start negated ranges (.low itemStart lo)) =
      hyphen.left.readOn limit enclosing level
        (.inClass start negated ranges (.hyphen itemStart lo)) := by
    rw [readOn_of_next?_eq_some hhyphen, heq]
    rfl
  rw [hstart, readOn_of_next?_eq_some ht]
  simp only [rangeEnd, hhyphen, ht, classChar]
  split
  · rename_i hescape
    rw [hescape]
    show t.left.readOn limit enclosing level
      (.inClass start negated ranges (.escapedHigh itemStart lo hyphen.left.position)) = _
    refine (readOn_escape (fun _ _ => rfl) fun _ => rfl).trans ?_
    simp only [closeRange_bind, bind_assoc, pure_bind]
  · rename_i hescape
    have hread : Reader.read limit ⟨hyphen.left.position, enclosing, level,
          .inClass start negated ranges (.hyphen itemStart lo)⟩ t.value =
        closeRange ⟨hyphen.left.position, enclosing, level,
          .inClass start negated ranges (.hyphen itemStart lo)⟩ start negated ranges itemStart lo
          t.value := by
      simp only [Reader.read, readClass]
    rw [hread, closeRange_bind]
    rfl

/-- The items of a class, up to its end. -/
theorem readOn_classRanges (hs : s.Bounded n groups) :
    s.readOn limit enclosing level (.inClass start negated ranges .item) =
      (s.classRanges start ranges hs >>= fun t =>
        t.left.readOn limit enclosing
          (level.push (.charClass start negated (CharRange.normalize t.value))) .item) := by
  fun_induction classRanges start ranges s hs with
  | case1 ranges s hs h =>
    rw [readOn_of_next?_eq_none h]
    rfl
  | case2 ranges s hs t h hclose hempty =>
    rw [readOn_of_next?_eq_some h, hclose]
    simp only [Reader.read, readClass, readClassItem, if_pos hempty]
    rfl
  | case3 ranges s hs t h hclose hempty =>
    rw [readOn_of_next?_eq_some h, hclose]
    simp only [Reader.read, readClass, readClassItem, if_neg hempty]
    rfl
  | case4 ranges s hs t h hclose ihrange ihsingle =>
    rw [readOn_classChar h hclose]
    simp only [bind_assoc]
    refine congrArg _ (funext fun lo => ?_)
    split
    · rename_i hrange
      rw [readOn_rangeEnd hrange]
      simp only [bind_assoc]
      refine congrArg _ (funext fun hi => ?_)
      cases CharRange.ofBounds? lo.value hi.value with
      | none => rfl
      | some range => exact ihrange lo hi range
    · rename_i hrange
      rw [readOn_low_of_not_startsRange hrange]
      exact ihsingle lo

theorem readOn_classItems (hs : s.Bounded n groups) :
    s.readOn limit enclosing level (.inClass start negated [] .item) =
      (s.classItems start negated hs >>= fun t =>
        t.left.readOn limit enclosing (level.push t.value.tree) .item) := by
  rw [readOn_classRanges hs]
  simp only [classItems, bind_assoc, pure_bind]
  rfl

theorem readOn_charClass (hs : s.Bounded n groups) :
    s.readOn limit enclosing level (.openClass start) = (s.charClass start hs >>= fun t =>
      t.left.readOn limit enclosing (level.push t.value.tree) .item) := by
  unfold charClass
  cases h : s.eat? '^' with
  | some t =>
    obtain ⟨ht, hcircumflex⟩ := eat?_eq_some_iff.1 h
    rw [readOn_of_next?_eq_some ht, hcircumflex]
    exact readOn_classItems (hs.trans t.bounded)
  | none =>
    refine Eq.trans ?_ (readOn_classItems hs)
    cases ht : s.next? with
    | none =>
      rw [readOn_of_next?_eq_none ht, readOn_of_next?_eq_none ht]
      rfl
    | some t =>
      rw [readOn_of_next?_eq_some ht, readOn_of_next?_eq_some ht]
      simp only [Reader.read, readClass, if_neg (eat?_eq_none_iff.1 h t ht), readClassItem,
        Reader.push]

/-! ## Repetitions -/

theorem addDigit_eq {value : Option Nat} {first position : Nat}
    (hfirst : value = none → first = position) (digit : Nat) :
    addDigit position (value.map (Digits.mk first)) digit =
      if repetitionLimit < value.getD 0 * 10 + digit then refuse first .invalidRepetition
      else .ok ⟨first, value.getD 0 * 10 + digit⟩ := by
  cases value with
  | none =>
    rw [hfirst rfl]
    rfl
  | some value => rfl

/-- Digits are added to the number under way, in either mode that has one. -/
theorem readOn_number (mode : Option Digits → Mode) {first : Nat} (value : Option Nat)
    (hread : ∀ position digits c digit, digitValue? c = some digit →
      ({ position, enclosing, level, mode := mode digits } : Reader).read limit c =
        (addDigit position digits digit >>= fun d =>
          .ok { position, enclosing, level, mode := mode (some d) }))
    (hfirst : value = none → first = s.position) (hs : s.Bounded n groups) :
    s.readOn limit enclosing level (mode (value.map (Digits.mk first))) =
      (s.number first value hs >>= fun t =>
        t.left.readOn limit enclosing level (mode (t.value.map (Digits.mk first)))) := by
  fun_induction number first value s hs with
  | case1 value s hs h => rfl
  | case2 value s hs t h hdigit => rfl
  | case3 value s hs t h digit hdigit next hlarge =>
    rw [readOn_of_next?_eq_some h, hread _ _ _ _ hdigit, addDigit_eq hfirst, if_pos hlarge]
    rfl
  | case4 value s hs t h digit hdigit next hsmall ih =>
    rw [readOn_of_next?_eq_some h, hread _ _ _ _ hdigit, addDigit_eq hfirst, if_neg hsmall,
      ← ih nofun]
    rfl

/-- What comes next is not a digit. -/
def EndsNumber (s : Input) : Prop := ∀ t, s.next? = some t → digitValue? t.value = none

theorem outcome_number (value : Option Nat) (hs : s.Bounded n groups) :
    Outcome (fun t => t.left.EndsNumber) (fun _ => True) (s.number start value hs) := by
  fun_induction number start value s hs with
  | case1 value s hs h =>
    intro u hu
    rw [h] at hu
    cases hu
  | case2 value s hs t h hdigit =>
    intro u hu
    rw [h] at hu
    cases hu
    exact hdigit
  | case3 value s hs t h digit hdigit next hlarge => trivial
  | case4 value s hs t h digit hdigit next hsmall ih => exact ih

/-- What a reader makes of the text behind an operator, which repeats the item `p`. -/
def repeatOn (limit : Option Nat) (enclosing : List (Nat × Level)) (level : Level) (p : Pattern)
    (t : Taken n groups (Nat × Option Nat)) : Except SyntaxError Pattern := do
  let q ← (Pattern.repetition p.position p t.value.1 t.value.2).within limit
  t.left.readOn limit enclosing (level.push q) .item

variable {p : Pattern} {min : Nat}

theorem repeatLatest_bind (t : Taken n groups (Nat × Option Nat)) (position : Nat) :
    (repeatLatest limit { position, enclosing, level := level.push p, mode } t.value.1 t.value.2 >>=
      fun r => t.left.readOn limit r.enclosing r.level r.mode) =
      repeatOn limit enclosing level p t := by
  show ((_ >>= _) >>= _) = _
  rw [bind_assoc]
  rfl

theorem readOn_closeBounds {first : Nat} {max : Option Nat} (hs : s.Bounded n groups)
    (hend : s.EndsNumber) :
    s.readOn limit enclosing (level.push p) (.upperBound start min (max.map (Digits.mk first))) =
      (s.closeBounds start min max hs >>= repeatOn limit enclosing level p) := by
  unfold closeBounds
  cases h : s.next? with
  | none =>
    rw [readOn_of_next?_eq_none h]
    rfl
  | some u =>
    rw [readOn_of_next?_eq_some h]
    show (readUpperBound _ _ _ _ _ _ >>= _) = _
    simp only [readUpperBound, hend u h]
    by_cases hbrace : u.value = '\x7d'
    · rw [hbrace]
      cases max with
      | none => exact repeatLatest_bind ⟨(min, none), u.left, hs.trans u.bounded⟩ _
      | some max =>
        by_cases hlt : max < min
        · simp only [Option.map_some, Option.any_some, hlt, if_true, decide_true]
          rfl
        · simp only [Option.map_some, Option.any_some, hlt, if_false, decide_false]
          exact repeatLatest_bind ⟨(min, some max), u.left, hs.trans u.bounded⟩ _
    · rw [if_pos hbrace]
      split
      · contradiction
      · contradiction
      · rfl

/-- Without a comma the lower bound is the upper bound, too. -/
theorem readOn_closeBounds_of_lowerBound {digits : Digits} (hs : s.Bounded n groups)
    (hend : s.EndsNumber) (hcomma : ∀ t, s.next? = some t → t.value ≠ ',') :
    s.readOn limit enclosing (level.push p) (.lowerBound start digits) =
      (s.closeBounds start digits.value (some digits.value) hs >>=
        repeatOn limit enclosing level p) := by
  unfold closeBounds
  cases h : s.next? with
  | none =>
    rw [readOn_of_next?_eq_none h]
    rfl
  | some u =>
    rw [readOn_of_next?_eq_some h]
    show (readLowerBound _ _ _ _ _ >>= _) = _
    simp only [readLowerBound, hend u h]
    by_cases hbrace : u.value = '\x7d'
    · rw [hbrace]
      simp only [Option.any_some, Nat.lt_irrefl, decide_false]
      exact repeatLatest_bind
        ⟨(digits.value, some digits.value), u.left, hs.trans u.bounded⟩ _
    · rw [if_pos hbrace]
      split
      · exact absurd ‹_› (hcomma u h)
      · contradiction
      · rfl

/-- The upper bound of a repetition whose lower bound has been read. -/
theorem readOn_upperBound {digits : Digits} (hs : s.Bounded n groups) (hend : s.EndsNumber) :
    s.readOn limit enclosing (level.push p) (.lowerBound start digits) =
      (s.upperBound digits.value hs >>= fun upper =>
        upper.left.closeBounds start digits.value upper.value upper.bounded >>=
          repeatOn limit enclosing level p) := by
  unfold upperBound
  cases h : s.eat? ',' with
  | none => exact readOn_closeBounds_of_lowerBound hs hend (eat?_eq_none_iff.1 h)
  | some t =>
    obtain ⟨ht, hcomma⟩ := eat?_eq_some_iff.1 h
    have hupper : s.readOn limit enclosing (level.push p) (.lowerBound start digits) =
        t.left.readOn limit enclosing (level.push p) (.upperBound start digits.value none) := by
      rw [readOn_of_next?_eq_some ht, hcomma]
      rfl
    rw [hupper]
    refine (readOn_number (.upperBound start digits.value) none ?_ (fun _ => rfl)
      (hs.trans t.bounded)).trans ?_
    · intro position digits c digit hdigit
      simp only [Reader.read, readUpperBound, hdigit]
      rfl
    · exact (outcome_number none _).bind_congr fun upper hend =>
        readOn_closeBounds upper.bounded hend

theorem readOn_bounds (hs : s.Bounded n groups) :
    s.readOn limit enclosing (level.push p) (.lowerBound start none) =
      (s.bounds start hs >>= repeatOn limit enclosing level p) := by
  unfold bounds
  rw [bind_assoc]
  refine (readOn_number (.lowerBound start) none ?_ (fun _ => rfl) hs).trans ?_
  · intro position digits c digit hdigit
    simp only [Reader.read, readLowerBound, hdigit]
    rfl
  · refine (outcome_number none _).bind_congr fun lower hend => ?_
    cases lower.value with
    | none =>
      cases h : lower.left.next? with
      | none =>
        rw [readOn_of_next?_eq_none h]
        rfl
      | some t =>
        rw [readOn_of_next?_eq_some h]
        simp only [Reader.read, readLowerBound, hend t h, Option.map_none]
        rfl
    | some min =>
      rw [bind_assoc]
      exact readOn_upperBound lower.bounded hend

/-- An operator repeats the latest item; anything else waits. -/
theorem readOn_operator? :
    s.readOn limit enclosing (level.push p) .item = (s.operator? >>= fun operator =>
      match operator with
      | none => s.readOn limit enclosing (level.push p) .item
      | some t => repeatOn limit enclosing level p t) := by
  unfold operator?
  cases h : s.next? with
  | none => rfl
  | some t =>
    simp only
    split
    · rename_i hbrace
      rw [readOn_of_next?_eq_some h, hbrace, bind_assoc]
      exact readOn_bounds t.bounded
    · rename_i hstar
      rw [readOn_of_next?_eq_some h, hstar]
      exact repeatLatest_bind ⟨(0, none), t.left, t.bounded⟩ _
    · rename_i hplus
      rw [readOn_of_next?_eq_some h, hplus]
      exact repeatLatest_bind ⟨(1, none), t.left, t.bounded⟩ _
    · rename_i hoptional
      rw [readOn_of_next?_eq_some h, hoptional]
      exact repeatLatest_bind ⟨(0, some 1), t.left, t.bounded⟩ _
    · rfl

theorem readOn_operators (node : Node) (hs : s.Bounded n groups) :
    s.readOn limit enclosing (level.push node.tree) .item =
      (s.operators limit node hs >>= fun t =>
        t.left.readOn limit enclosing (level.push t.value.tree) .item) := by
  fun_induction operators limit node s hs with
  | case1 node s hs ih =>
    rw [readOn_operator?, bind_assoc]
    refine congrArg _ (funext fun operator => ?_)
    cases operator with
    | none => rfl
    | some t =>
      refine ((node.repetition t.value.1 t.value.2).within_bind _).trans ?_
      exact (congrArg _ (funext fun node => ih t node)).trans (bind_assoc _ _ _).symm

/-- An operator comes next. -/
def OperatorNext (s : Input) : Prop :=
  ∃ t, s.next? = some t ∧ t.value ∈ ['*', '+', '?', '\x7b']

theorem not_operatorNext_of_next?_eq_none (h : s.next? = none) : ¬ s.OperatorNext := by
  intro hnext
  obtain ⟨t, ht, -⟩ := hnext
  rw [h] at ht
  cases ht

theorem operatorNext_iff {t : Taken s.length s.openGroups Char} (h : s.next? = some t) :
    s.OperatorNext ↔ t.value ∈ ['*', '+', '?', '\x7b'] := by
  simp only [OperatorNext, h, Option.some.injEq, exists_eq_left']

/-- Where no operator is found, there is none. -/
theorem outcome_operator (s : Input) :
    Outcome (fun operator => operator.isSome ∨ ¬ s.OperatorNext) (fun _ => True) s.operator? := by
  unfold operator?
  split
  · rename_i h
    exact .inr (not_operatorNext_of_next?_eq_none h)
  · rename_i t h
    split
    · exact (Outcome.trivial _).bind fun _ _ => .inl rfl
    · exact .inl rfl
    · exact .inl rfl
    · exact .inl rfl
    · right
      rw [operatorNext_iff h]
      simp only [List.mem_cons, List.not_mem_nil, or_false, not_or]
      exact ⟨‹_›, ‹_›, ‹_›, ‹_›⟩

/-- Behind the operators there is no operator. -/
theorem outcome_operators (node : Node) (hs : s.Bounded n groups) :
    Outcome (fun t => ¬ t.left.OperatorNext) (fun _ => True) (s.operators limit node hs) := by
  fun_induction operators limit node s hs with
  | case1 node s hs ih =>
    refine (outcome_operator s).bind fun operator hoperator => ?_
    cases operator with
    | none => exact hoperator.resolve_left Bool.false_ne_true
    | some t => exact (Outcome.trivial _).bind fun node _ => ih t node

end Input

end RegularLanguages
