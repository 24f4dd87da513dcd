import RegularLanguages.Proofs.Pattern.WellFormed

set_option autoImplicit false

/-! # What an error blames

An error names a position. `SyntaxError.Blames` says for each kind what must be there: the end of
the text, or the character that is to blame. Every error of the reader is accurate in this sense
(`Pattern.blames_of_parse_eq_error`).

The reader meets most of these characters long before it gives up: a bracket when a group or a
class is opened, a digit when a number begins. It keeps their positions, and `Reader.Located` says
that they are right. A character that is read keeps that, or the error is accurate (`Accurate`,
with a lemma for each thing that a character may belong to).

The reader never looks ahead, so an error that it makes at a character is there whatever follows
(`Pattern.parse_append_of_definite`). Only the errors that it makes at the end of a text may go
away when the text goes on, and `SyntaxError.Definite` leaves these out. -/

namespace RegularLanguages

open Reader

/-! ## Positions in a text -/

theorem lt_length_of_getElem?_eq_some {text : List Char} {position : Nat} {c : Char}
    (h : text[position]? = some c) : position < text.length :=
  (List.getElem?_eq_some_iff.1 h).1

/-- The character is written at the position, alone or behind a backslash. -/
def WrittenAt (text : List Char) (position : Nat) (c : Char) : Prop :=
  text[position]? = some c ∨
    text[position]? = some '\\' ∧ ∃ d, text[position + 1]? = some d ∧ unescape? d = some c

/-- A digit from 0 to 9 is at the position. -/
def DigitAt (text : List Char) (position : Nat) : Prop :=
  ∃ c, text[position]? = some c ∧ c.isDigit = true

namespace SyntaxError

/-- What is at the position of the error is what the error is about. -/
def Blames (text : List Char) (e : SyntaxError) : Prop :=
  match e.kind with
  | .unexpectedEnd => e.position = text.length
  | .unmatchedParen => text[e.position]? = some ')'
  | .unclosedGroup => text[e.position]? = some '('
  | .unclosedClass => text[e.position]? = some '['
  | .emptyClass => text[e.position]? = some '['
  | .nothingToRepeat => ∃ c ∈ ['*', '+', '?', '\x7b'], text[e.position]? = some c
  | .invalidRange lo hi => hi < lo ∧ WrittenAt text e.position lo
  | .invalidRepetition => text[e.position]? = some '\x7b' ∨ DigitAt text e.position
  | .unknownEscape c => text[e.position]? = some '\\' ∧ text[e.position + 1]? = some c
  | .unexpectedChar c => text[e.position]? = some c ∧ (c = ']' ∨ c = '\x7d')
  | .nestingTooDeep => e.position < text.length

/-- The error is about what is there, and not about what the text lacks at its end. The bounds of
    a repetition are wrong for good unless the text ends where they begin. -/
def Definite (text : List Char) (e : SyntaxError) : Prop :=
  match e.kind with
  | .unmatchedParen => True
  | .emptyClass => True
  | .nothingToRepeat => True
  | .invalidRange _ _ => True
  | .invalidRepetition => ¬ (e.position + 1 = text.length ∧ text[e.position]? = some '\x7b')
  | .unknownEscape _ => True
  | .unexpectedChar _ => True
  | .unexpectedEnd => False
  | .unclosedGroup => False
  | .unclosedClass => False
  | .nestingTooDeep => False

variable {text : List Char} {e : SyntaxError}

/-- The text goes on to the position of every error but that of its end. -/
theorem Blames.lt_length (h : e.Blames text) (hend : e.kind ≠ .unexpectedEnd) :
    e.position < text.length := by
  obtain ⟨position, kind⟩ := e
  cases kind with
  | unexpectedEnd => exact absurd rfl hend
  | unmatchedParen => exact lt_length_of_getElem?_eq_some h
  | unclosedGroup => exact lt_length_of_getElem?_eq_some h
  | unclosedClass => exact lt_length_of_getElem?_eq_some h
  | emptyClass => exact lt_length_of_getElem?_eq_some h
  | nothingToRepeat =>
    obtain ⟨c, _, hc⟩ := h
    exact lt_length_of_getElem?_eq_some hc
  | invalidRange lo hi =>
    rcases h.2 with hlo | ⟨hescape, _⟩
    · exact lt_length_of_getElem?_eq_some hlo
    · exact lt_length_of_getElem?_eq_some hescape
  | invalidRepetition =>
    rcases h with hbrace | ⟨c, hc, _⟩
    · exact lt_length_of_getElem?_eq_some hbrace
    · exact lt_length_of_getElem?_eq_some hc
  | unknownEscape c => exact lt_length_of_getElem?_eq_some h.1
  | unexpectedChar c => exact lt_length_of_getElem?_eq_some h.1
  | nestingTooDeep => exact h

theorem Blames.eq_length_iff (h : e.Blames text) :
    e.position = text.length ↔ e.kind = .unexpectedEnd := by
  constructor
  · intro heq
    by_contra hend
    exact absurd heq (Nat.ne_of_lt (h.lt_length hend))
  · intro hend
    rwa [Blames, hend] at h

/-- A depth may be refused anywhere in the text. -/
theorem blames_of_nestingTooDeep {n : Nat} (hn : n ≤ text.length)
    (h : e.kind = .nestingTooDeep ∧ e.position < n) : e.Blames text := by
  obtain ⟨hkind, hlt⟩ := h
  rw [Blames, hkind]
  exact Nat.lt_of_lt_of_le hlt hn

end SyntaxError

/-- A computation returns something with the property, or what it blames is there. -/
def Accurate {α : Type} (text : List Char) (P : α → Prop) (x : Except SyntaxError α) : Prop :=
  Outcome P (SyntaxError.Blames text) x

/-! ## Levels -/

/-- The level was made from the first `n` characters of a text. -/
structure Level.Before (n : Nat) (l : Level) : Prop where
  start_le : l.start ≤ n
  branchStart_le : l.branchStart ≤ n
  start_lt : l.branches ≠ [] → l.start < n
  branchStart_lt : l.items ≠ [] → l.branchStart < n
  items : ∀ p ∈ l.items, p.position < n

namespace Level

variable {limit : Option Nat} {n m : Nat} {l : Level} {p : Pattern}

theorem before_start (start : Nat) : Before start { start } where
  start_le := Nat.le_refl _
  branchStart_le := Nat.le_refl _
  start_lt h := absurd rfl h
  branchStart_lt h := absurd rfl h
  items _ h := absurd h List.not_mem_nil

theorem Before.mono (h : l.Before n) (hnm : n ≤ m) : l.Before m where
  start_le := Nat.le_trans h.start_le hnm
  branchStart_le := Nat.le_trans h.branchStart_le hnm
  start_lt hne := Nat.lt_of_lt_of_le (h.start_lt hne) hnm
  branchStart_lt hne := Nat.lt_of_lt_of_le (h.branchStart_lt hne) hnm
  items p hp := Nat.lt_of_lt_of_le (h.items p hp) hnm

/-- One more character may complete an item, or the latest items may change. -/
theorem Before.withItems (h : l.Before n) {items : List Pattern}
    (hitems : ∀ p ∈ items, p.position ≤ n) : ({ l with items } : Level).Before (n + 1) where
  start_le := Nat.le_succ_of_le h.start_le
  branchStart_le := Nat.le_succ_of_le h.branchStart_le
  start_lt _ := Nat.lt_succ_of_le h.start_le
  branchStart_lt _ := Nat.lt_succ_of_le h.branchStart_le
  items p hp := Nat.lt_succ_of_le (hitems p hp)

theorem Before.push (h : l.Before n) (hp : p.position ≤ n) : (l.push p).Before (n + 1) :=
  h.withItems (List.forall_mem_cons.2 ⟨hp, fun q hq => Nat.le_of_lt (h.items q hq)⟩)

/-- One more character may end a branch. -/
theorem Before.nextBranch (h : l.Before n) (branches : List Pattern) :
    ({ l with branches, branchStart := n + 1, items := [] } : Level).Before (n + 1) where
  start_le := Nat.le_succ_of_le h.start_le
  branchStart_le := Nat.le_refl _
  start_lt _ := Nat.lt_succ_of_le h.start_le
  branchStart_lt hne := absurd rfl hne
  items _ hp := absurd hp List.not_mem_nil

/-- A branch is refused only for its depth, and where it starts. -/
theorem Before.branch (h : l.Before n) :
    Outcome (fun _ => True) (fun e => e.kind = .nestingTooDeep ∧ e.position < n)
      (l.branch limit) := by
  obtain ⟨start, branches, branchStart, items⟩ := l
  match items, h with
  | [], _ => trivial
  | [_], _ => trivial
  | _ :: _ :: _, h =>
    have hlt : branchStart < n := h.branchStart_lt (List.cons_ne_nil _ _)
    exact (Pattern.outcome_within ⟨rfl, hlt⟩).imp (fun _ _ => trivial) fun _ => id

theorem Before.close (h : l.Before n) :
    Outcome (fun _ => True) (fun e => e.kind = .nestingTooDeep ∧ e.position < n)
      (l.close limit) := by
  refine h.branch.bind fun last _ => ?_
  obtain ⟨start, branches, branchStart, items⟩ := l
  match branches, h with
  | [], _ => trivial
  | _ :: _, h =>
    have hlt : start < n := h.start_lt (List.cons_ne_nil _ _)
    exact (Pattern.outcome_within ⟨rfl, hlt⟩).imp (fun _ _ => trivial) fun _ => id

end Level

/-! ## Readers

What a reader keeps of the first `n` characters of a text. -/

/-- The character at the position has been read. -/
def ReadAt (text : List Char) (n position : Nat) (c : Char) : Prop :=
  position < n ∧ text[position]? = some c

theorem ReadAt.succ {text : List Char} {n position : Nat} {c : Char}
    (h : ReadAt text n position c) : ReadAt text (n + 1) position c :=
  ⟨Nat.lt_succ_of_lt h.1, h.2⟩

/-- A backslash is the latest character. -/
def EscapeAt (text : List Char) (n start : Nat) : Prop :=
  start + 1 = n ∧ text[start]? = some '\\'

def ClassMode.Located (text : List Char) (n : Nat) : ClassMode → Prop
  | item => True
  | escapedLow start => EscapeAt text n start
  | low start lo => WrittenAt text start lo
  | hyphen start lo => WrittenAt text start lo
  | escapedHigh start lo escape => WrittenAt text start lo ∧ EscapeAt text n escape

/-- Bounds come after an item. -/
def Mode.Located (text : List Char) (n : Nat) (l : Level) : Mode → Prop
  | item => True
  | escape start => EscapeAt text n start
  | openClass start => ReadAt text n start '['
  | inClass start _ _ mode => ReadAt text n start '[' ∧ mode.Located text n
  | lowerBound start digits => l.items ≠ [] ∧ text[start]? = some '\x7b' ∧
      (digits = none → start + 1 = n) ∧ ∀ d ∈ digits, DigitAt text d.start
  | upperBound start _ digits => l.items ≠ [] ∧ text[start]? = some '\x7b' ∧
      ∀ d ∈ digits, DigitAt text d.start

theorem Mode.Located.of_eq_item {text : List Char} {n : Nat} {l : Level} {mode : Mode}
    (h : mode = .item) : mode.Located text n l := by
  rw [h]
  trivial

namespace Reader

/-- The positions that the reader keeps are those of the characters that it keeps them for. -/
structure Located (text : List Char) (n : Nat) (r : Reader) : Prop where
  level : r.level.Before n
  enclosing : ∀ e ∈ r.enclosing, ReadAt text n e.1 '(' ∧ e.2.Before n
  mode : r.mode.Located text n r.level

variable {text : List Char} {limit : Option Nat} {r : Reader} {c : Char}

theorem Located.enclosing_succ {n : Nat} (h : r.Located text n) :
    ∀ e ∈ r.enclosing, ReadAt text (n + 1) e.1 '(' ∧ e.2.Before (n + 1) := by
  intro e he
  obtain ⟨⟨hlt, hparen⟩, hbefore⟩ := h.enclosing e he
  exact ⟨⟨Nat.lt_succ_of_lt hlt, hparen⟩, hbefore.mono (Nat.le_succ n)⟩

/-- One more character may belong to something else. -/
theorem Located.withMode {n : Nat} (h : r.Located text n) {mode : Mode}
    (hmode : mode.Located text (n + 1) r.level) :
    ({ r with mode } : Reader).Located text (n + 1) :=
  ⟨h.level.mono (Nat.le_succ n), h.enclosing_succ, hmode⟩

/-- One more character may complete an item. -/
theorem Located.push {n : Nat} (h : r.Located text n) {p : Pattern} (hp : p.position ≤ n) :
    (r.push p).Located text (n + 1) :=
  ⟨h.level.push hp, h.enclosing_succ, trivial⟩

theorem Located.accurate_branch {n : Nat} (h : r.Located text n) (hn : n ≤ text.length) :
    Accurate text (fun _ => True) (r.level.branch limit) :=
  h.level.branch.imp (fun _ => id) fun _ => SyntaxError.blames_of_nestingTooDeep hn

theorem Located.accurate_close {n : Nat} (h : r.Located text n) (hn : n ≤ text.length) :
    Accurate text (fun _ => True) (r.level.close limit) :=
  h.level.close.imp (fun _ => id) fun _ => SyntaxError.blames_of_nestingTooDeep hn

/-! ### One character

The reader has located what it has read, and the character `c` is next. -/

section Character

variable (h : r.Located text r.position) (hc : text[r.position]? = some c)

include h hc

theorem Located.repeatLatest
    (hblame : r.level.items = [] → SyntaxError.Blames text ⟨r.position, .nothingToRepeat⟩)
    (min : Nat) (max : Option Nat) :
    Accurate text (Located text (r.position + 1)) (r.repeatLatest limit min max) := by
  have hlt := lt_length_of_getElem?_eq_some hc
  unfold Reader.repeatLatest
  split
  · rename_i hitems
    exact hblame hitems
  · rename_i body items hitems
    have hall := h.level.items
    rw [hitems, List.forall_mem_cons] at hall
    have hposition : (Pattern.repetition body.position body min max).position < text.length :=
      Nat.lt_trans hall.1 hlt
    refine (Pattern.outcome_within hposition).bind fun p hp => ?_
    refine ⟨h.level.withItems (List.forall_mem_cons.2 ⟨?_, fun q hq => ?_⟩), h.enclosing_succ,
      trivial⟩
    · rw [hp.1]
      exact Nat.le_of_lt hall.1
    · exact Nat.le_of_lt (hall.2 q hq)

theorem Located.openGroup (hparen : c = '(') (hmode : r.mode = .item) :
    Accurate text (Located text (r.position + 1)) (r.openGroup limit) := by
  unfold Reader.openGroup
  split
  · exact lt_length_of_getElem?_eq_some hc
  · have hread : ReadAt text (r.position + 1) r.position '(' :=
      ⟨Nat.lt_succ_self _, hc.trans (congrArg some hparen)⟩
    exact ⟨Level.before_start _,
      List.forall_mem_cons.2 ⟨⟨hread, h.level.mono (Nat.le_succ _)⟩, h.enclosing_succ⟩,
      .of_eq_item hmode⟩

theorem Located.closeGroup (hparen : c = ')') (hmode : r.mode = .item) :
    Accurate text (Located text (r.position + 1)) (r.closeGroup limit) := by
  have hlt := lt_length_of_getElem?_eq_some hc
  refine (h.accurate_close (Nat.le_of_lt hlt)).bind fun body _ => ?_
  split
  · exact hc.trans (congrArg some hparen)
  · rename_i start outer enclosing henclosing
    have hall := h.enclosing
    have hsucc := h.enclosing_succ
    rw [henclosing, List.forall_mem_cons] at hall hsucc
    obtain ⟨⟨hstart, _⟩, houter⟩ := hall.1
    have hposition : (Pattern.group start body).position < text.length := Nat.lt_trans hstart hlt
    refine (Pattern.outcome_within hposition).bind fun p hp => ?_
    refine ⟨houter.push ?_, hsucc.2, .of_eq_item hmode⟩
    rw [hp.1]
    exact Nat.le_of_lt hstart

theorem Located.nextBranch (hmode : r.mode = .item) :
    Accurate text (Located text (r.position + 1)) (r.nextBranch limit) := by
  have hlt := lt_length_of_getElem?_eq_some hc
  refine (h.accurate_branch (Nat.le_of_lt hlt)).bind fun p _ => ?_
  exact ⟨h.level.nextBranch _, h.enclosing_succ, .of_eq_item hmode⟩

theorem Located.readItem (hmode : r.mode = .item) :
    Accurate text (Located text (r.position + 1)) (r.readItem limit c) := by
  have hblame : c ∈ ['*', '+', '?', '\x7b'] →
      SyntaxError.Blames text ⟨r.position, .nothingToRepeat⟩ :=
    fun hmem => ⟨c, hmem, hc⟩
  unfold Reader.readItem
  split
  · exact h.openGroup hc rfl hmode
  · exact h.closeGroup hc rfl hmode
  · exact h.nextBranch hc hmode
  · exact h.repeatLatest hc (fun _ => hblame (by decide)) _ _
  · exact h.repeatLatest hc (fun _ => hblame (by decide)) _ _
  · exact h.repeatLatest hc (fun _ => hblame (by decide)) _ _
  · split
    · exact hblame (by decide)
    · rename_i hitems
      exact h.withMode ⟨fun hnil => hitems (List.isEmpty_iff.2 hnil), hc, fun _ => rfl,
        fun _ hd => absurd hd (Option.not_mem_none _)⟩
  · exact h.withMode ⟨Nat.lt_succ_self _, hc⟩
  · exact h.withMode ⟨rfl, hc⟩
  · exact ⟨hc, Or.inl rfl⟩
  · exact ⟨hc, Or.inr rfl⟩
  · exact h.push (Nat.le_refl _)
  · exact h.push (Nat.le_refl _)

/-! #### Classes -/

omit h in
theorem accurate_unescape {start : Nat} (hescape : EscapeAt text r.position start) :
    Accurate text (WrittenAt text start) (unescape start c) := by
  obtain ⟨hnext, hbackslash⟩ := hescape
  rw [← hnext] at hc
  unfold unescape
  split
  · rename_i d hd
    exact Or.inr ⟨hbackslash, c, hc, hd⟩
  · exact ⟨hbackslash, hc⟩

variable {start : Nat} {negated : Bool} {ranges : List CharRange}

theorem Located.readClassItem (hstart : ReadAt text r.position start '[') :
    Accurate text (Located text (r.position + 1)) (r.readClassItem start negated ranges c) := by
  unfold Reader.readClassItem
  split
  · split
    · exact hstart.2
    · exact h.push (Nat.le_of_lt hstart.1)
  · exact h.withMode ⟨hstart.succ, rfl, hc⟩
  · exact h.withMode ⟨hstart.succ, Or.inl hc⟩

omit hc in
theorem Located.closeRange (hstart : ReadAt text r.position start '[') {itemStart : Nat}
    {lo : Char} (hlo : WrittenAt text itemStart lo) (hi : Char) :
    Accurate text (Located text (r.position + 1))
      (r.closeRange start negated ranges itemStart lo hi) := by
  unfold Reader.closeRange
  split
  · exact h.withMode ⟨hstart.succ, trivial⟩
  · rename_i hbounds
    refine ⟨?_, hlo⟩
    by_contra hle
    rw [CharRange.ofBounds?, dif_pos (Char.not_lt.1 hle)] at hbounds
    cases hbounds

theorem Located.readClass (hstart : ReadAt text r.position start '[') {mode : ClassMode}
    (hmode : mode.Located text r.position) :
    Accurate text (Located text (r.position + 1)) (r.readClass start negated ranges mode c) := by
  cases mode with
  | item => exact h.readClassItem hc hstart
  | escapedLow itemStart =>
    exact (accurate_unescape hc hmode).bind fun lo hlo => h.withMode ⟨hstart.succ, hlo⟩
  | low itemStart lo =>
    simp only [Reader.readClass]
    split
    · exact h.withMode ⟨hstart.succ, hmode⟩
    · exact h.readClassItem hc hstart
  | hyphen itemStart lo =>
    simp only [Reader.readClass]
    split
    · exact h.readClassItem hc hstart
    · exact h.withMode ⟨hstart.succ, hmode, rfl, hc⟩
    · exact h.closeRange hstart hmode c
  | escapedHigh itemStart lo escape =>
    obtain ⟨hlo, hescape⟩ := hmode
    exact (accurate_unescape hc hescape).bind fun hi _ => h.closeRange hstart hlo hi

/-! #### Bounds -/

omit h in
/-- A number that is too large is blamed on its first digit. -/
theorem accurate_addDigit {digits : Option Digits} (hdigits : ∀ d ∈ digits, DigitAt text d.start)
    {digit : Nat} (hdigit : digitValue? c = some digit) :
    Accurate text (fun d => DigitAt text d.start) (addDigit r.position digits digit) := by
  have hisDigit : c.isDigit = true := by
    by_contra hother
    rw [digitValue?, if_neg hother] at hdigit
    cases hdigit
  have hstart : DigitAt text ((digits.map Digits.start).getD r.position) := by
    cases digits with
    | none => exact ⟨c, hc, hisDigit⟩
    | some d => exact hdigits d rfl
  simp only [addDigit]
  split
  · exact Or.inr hstart
  · exact hstart

theorem Located.readLowerBound {digits : Option Digits}
    (hmode : (Mode.lowerBound start digits).Located text r.position r.level) :
    Accurate text (Located text (r.position + 1)) (r.readLowerBound limit start digits c) := by
  obtain ⟨hitems, hbrace, -, hdigits⟩ := hmode
  unfold Reader.readLowerBound
  split
  · rename_i hdigit
    refine (accurate_addDigit hc hdigits hdigit).bind fun d hd => h.withMode ?_
    refine ⟨hitems, hbrace, nofun, fun e he => ?_⟩
    rwa [← Option.some.inj he]
  · exact Or.inl hbrace
  · split
    · exact h.withMode ⟨hitems, hbrace, fun _ hd => absurd hd (Option.not_mem_none _)⟩
    · exact h.repeatLatest hc (fun hnil => absurd hnil hitems) _ _
    · exact Or.inl hbrace

theorem Located.readUpperBound {min : Nat} {digits : Option Digits}
    (hmode : (Mode.upperBound start min digits).Located text r.position r.level) :
    Accurate text (Located text (r.position + 1)) (r.readUpperBound limit start min digits c) := by
  obtain ⟨hitems, hbrace, hdigits⟩ := hmode
  unfold Reader.readUpperBound
  split
  · rename_i hdigit
    refine (accurate_addDigit hc hdigits hdigit).bind fun d hd => h.withMode ?_
    refine ⟨hitems, hbrace, fun e he => ?_⟩
    rwa [← Option.some.inj he]
  · split
    · exact h.repeatLatest hc (fun hnil => absurd hnil hitems) _ _
    · split
      · exact Or.inl hbrace
      · exact h.repeatLatest hc (fun hnil => absurd hnil hitems) _ _
    · exact Or.inl hbrace

/-! #### Whatever it belongs to -/

theorem Located.read :
    Accurate text (Located text (r.position + 1)) (r.read limit c) := by
  have hmode := h.mode
  unfold Reader.read
  split
  · exact h.readItem hc ‹_›
  · rename_i heq
    rw [heq] at hmode
    refine (accurate_unescape hc hmode).bind fun d _ => h.push ?_
    exact Nat.le_of_lt (Nat.lt_of_succ_le (Nat.le_of_eq hmode.1))
  · rename_i heq
    rw [heq] at hmode
    split
    · exact h.withMode ⟨hmode.succ, trivial⟩
    · exact h.readClassItem hc hmode
  · rename_i heq
    rw [heq] at hmode
    exact h.readClass hc hmode.1 hmode.2
  · rename_i heq
    rw [heq] at hmode
    exact h.readLowerBound hc hmode
  · rename_i heq
    rw [heq] at hmode
    exact h.readUpperBound hc hmode

theorem Located.step :
    Accurate text (fun s => s.position = r.position + 1 ∧ s.Located text s.position)
      (r.step limit c) :=
  (h.read hc).bind fun _ hs => ⟨rfl, hs.level, hs.enclosing, hs.mode⟩

end Character

/-! ### Texts -/

theorem located_start : Located text 0 {} :=
  ⟨Level.before_start 0, fun _ he => absurd he List.not_mem_nil, trivial⟩

theorem Located.run {before rest : List Char} (h : r.Located text r.position)
    (hbefore : before.length = r.position) (htext : before ++ rest = text) :
    Accurate text (fun s => s.position = text.length ∧ s.Located text s.position)
      (rest.foldlM (Reader.step limit) r) := by
  induction rest generalizing r before with
  | nil =>
    rw [List.append_nil] at htext
    exact ⟨by rw [← htext, hbefore], h⟩
  | cons c rest ih =>
    have hc : text[r.position]? = some c := by
      rw [← htext, ← hbefore, List.getElem?_append_right (Nat.le_refl _), Nat.sub_self]
      rfl
    rw [List.foldlM_cons]
    refine (h.step hc).bind fun s hs => ?_
    have hlength : (before ++ [c]).length = s.position := by
      rw [List.length_append, hbefore, hs.1]
      rfl
    refine ih hs.2 hlength ?_
    rw [List.append_assoc]
    exact htext

/-- An error at the end of the text is accurate, and it is not definite. -/
theorem Located.finish (h : r.Located text r.position) (hend : r.position = text.length) :
    Outcome (fun _ => True) (fun e => e.Blames text ∧ ¬ e.Definite text) (r.finish limit) := by
  have hmode := h.mode
  unfold Reader.finish
  split
  · refine (h.level.close.imp (fun _ => id) fun e he => ?_).bind fun p _ => ?_
    · refine ⟨SyntaxError.blames_of_nestingTooDeep (Nat.le_of_eq hend) he, ?_⟩
      rw [SyntaxError.Definite, he.1]
      exact id
    · split
      · trivial
      · rename_i start outer enclosing henclosing
        have hparen := (h.enclosing (start, outer) (henclosing ▸ List.mem_cons_self)).1
        exact ⟨hparen.2, id⟩
  · exact ⟨hend, id⟩
  · rename_i heq
    rw [heq] at hmode
    exact ⟨hmode.2, id⟩
  · exact ⟨hend, id⟩
  · exact ⟨hend, id⟩
  · rename_i heq
    rw [heq] at hmode
    exact ⟨hmode.1.2, id⟩
  · -- The latest character is the brace that is blamed.
    rename_i heq
    rw [heq] at hmode
    obtain ⟨_, hbrace, hlast, _⟩ := hmode
    exact ⟨Or.inl hbrace, fun hdefinite => hdefinite ⟨(hlast rfl).trans hend, hbrace⟩⟩
  · exact ⟨hend, id⟩
  · exact ⟨hend, id⟩

end Reader

/-! ## Whole texts -/

namespace Pattern

variable {text : List Char} {limit : Option Nat} {e : SyntaxError}

theorem accurate_run (limit : Option Nat) (text : List Char) :
    Accurate text (fun r => r.position = text.length ∧ r.Located text r.position)
      (text.foldlM (Reader.step limit) ({} : Reader)) :=
  have hbefore : ([] : List Char).length = 0 := rfl
  Reader.located_start.run hbefore rfl

/-- Every error is accurate, whatever the limit is. -/
theorem accurate_parseWithin (limit : Option Nat) (text : List Char) :
    Accurate text (fun _ => True) (parseWithin limit text) := by
  rw [parseWithin_eq_readAll]
  exact (accurate_run limit text).bind fun _ hr =>
    (hr.2.finish hr.1).imp (fun _ => id) fun _ he => he.1

/-- The position of an error is in the text, or at its end if the text ends too early, and the
    character there is the one to blame. -/
theorem blames_of_parse_eq_error (h : parse text = .error e) :
    e.position ≤ text.length ∧ (e.position = text.length ↔ e.kind = .unexpectedEnd) ∧
      e.Blames text := by
  have hblames : e.Blames text := by
    have hparse : Accurate text (fun _ => True) (parse text) := accurate_parseWithin _ text
    rwa [h] at hparse
  refine ⟨?_, hblames.eq_length_iff, hblames⟩
  by_cases hend : e.kind = .unexpectedEnd
  · exact Nat.le_of_eq (hblames.eq_length_iff.2 hend)
  · exact Nat.le_of_lt (hblames.lt_length hend)

/-- A range in the wrong order, whose first character is written as an escape. -/
theorem blames_of_parse_eq_error_range :
    let text := "a|(b[^\\\x7d-!c".toList
    let e : SyntaxError := ⟨6, .invalidRange '\x7d' '!'⟩
    parse text = .error e ∧ e.position ≤ text.length ∧
      (e.position = text.length ↔ e.kind = .unexpectedEnd) ∧ e.Blames text := by
  intro text e
  have hread : parse text = .error e := (parse_eq_readAll text).trans rfl
  exact ⟨hread, blames_of_parse_eq_error hread⟩

/-- A definite error is made at a character, before the end of the text is known. -/
theorem run_eq_error_of_definite (h : parseWithin limit text = .error e)
    (hdefinite : e.Definite text) :
    text.foldlM (Reader.step limit) ({} : Reader) = .error e := by
  have hrun := accurate_run limit text
  rw [parseWithin_eq_readAll, Reader.readAll] at h
  cases hr : text.foldlM (Reader.step limit) ({} : Reader) with
  | error e' =>
    rw [hr] at h
    exact congrArg _ (Except.error.inj h)
  | ok r =>
    rw [hr] at h hrun
    have hend : r.finish limit = .error e := h
    have hfinish : Outcome _ _ (r.finish limit) := hrun.2.finish hrun.1
    rw [hend] at hfinish
    exact absurd hdefinite hfinish.2

/-- What follows the character is not read any more. -/
theorem parseWithin_append_of_run_eq_error
    (h : text.foldlM (Reader.step limit) ({} : Reader) = .error e) (rest : List Char) :
    parseWithin limit (text ++ rest) = .error e := by
  rw [parseWithin_eq_readAll, Reader.readAll, List.foldlM_append, h]
  rfl

/-- The first definite error is final: the text is refused with the same error, whatever follows
    it. -/
theorem parse_append_of_definite (h : parse text = .error e) (hdefinite : e.Definite text)
    (rest : List Char) : parse (text ++ rest) = .error e :=
  parseWithin_append_of_run_eq_error (run_eq_error_of_definite h hdefinite) rest

/-- Bounds in the wrong order inside a group that is not closed. -/
theorem parse_append_of_definite_bounds :
    let text := "(a\x7b3,1\x7d".toList
    let e : SyntaxError := ⟨2, .invalidRepetition⟩
    (parse text = .error e ∧ e.Definite text) ∧
      ∀ rest, parse (text ++ rest) = .error e := by
  intro text e
  have hread : parse text = .error e := (parse_eq_readAll text).trans rfl
  have hdefinite : e.Definite text := by
    rintro ⟨hlast, _⟩
    exact absurd hlast (by decide)
  exact ⟨⟨hread, hdefinite⟩, parse_append_of_definite hread hdefinite⟩

end Pattern

end RegularLanguages
