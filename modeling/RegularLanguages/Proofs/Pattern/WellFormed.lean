import RegularLanguages.Proofs.Pattern.Descent
import RegularLanguages.Proofs.CharRange.Normal

set_option autoImplicit false

/-! # The trees that are read

A pattern has three levels: an alternation of branches, each of them a row of items. A tree shows
the levels without the steps between: a branch of one item is that item, an alternation of one
branch is that branch, and only parentheses put a loose pattern where a tight one is asked for.
`Grammatical` says which trees that leaves, `WellFormed` adds the limit on the depth.

Every tree that is read is well formed (`admissible_of_parseWithin_eq_ok`). The reader holds trees
that are complete and a number that may be under way; `Reader.Sound` says of the former that they
are grammatical and in a place for their level, and of the latter that it is within its bounds. A
character keeps that (`Reader.Sound.read`, with a lemma for each thing that a character may belong
to), so every text does (`Reader.Sound.run`). What a step of the reader does is said by its
`Outcome`: what holds of a result, and what of the cause of a failure. -/

namespace RegularLanguages

namespace Pattern

/-! ## Well-formed trees -/

/-- The pattern may stand in a concatenation or be repeated. -/
def IsItem : Pattern → Prop
  | empty _ | concat _ _ | alternation _ _ => False
  | _ => True

/-- The pattern may stand in an alternation. -/
def IsBranch : Pattern → Prop
  | alternation _ _ => False
  | _ => True

/-- The trees that show the grouping that was written, and nothing else. -/
inductive Grammatical : Pattern → Prop where
  | empty (position : Nat) : Grammatical (.empty position)
  | literal (position : Nat) (c : Char) : Grammatical (.literal position c)
  | anyChar (position : Nat) : Grammatical (.anyChar position)
  /-- The ranges ascend, and there is a gap between any two of them. -/
  | charClass (position : Nat) (negated : Bool) {ranges : List CharRange} (hranges : ranges ≠ [])
      (hnormal : ranges.Pairwise fun r s => r.hi < s.lo ∧ ¬ r.Precedes s) :
      Grammatical (.charClass position negated ranges)
  | concat (position : Nat) {items : List Pattern} (hlength : 2 ≤ items.length)
      (hkind : ∀ p ∈ items, p.IsItem) (hitems : ∀ p ∈ items, Grammatical p) :
      Grammatical (.concat position items)
  | alternation (position : Nat) {branches : List Pattern} (hlength : 2 ≤ branches.length)
      (hkind : ∀ p ∈ branches, p.IsBranch) (hbranches : ∀ p ∈ branches, Grammatical p) :
      Grammatical (.alternation position branches)
  | repetition (position : Nat) {body : Pattern} {min : Nat} {max : Option Nat}
      (hkind : body.IsItem) (hbody : Grammatical body) (hmin : min ≤ repetitionLimit)
      (hmax : ∀ m ∈ max, min ≤ m ∧ m ≤ repetitionLimit) :
      Grammatical (.repetition position body min max)
  | group (position : Nat) {body : Pattern} (hbody : Grammatical body) :
      Grammatical (.group position body)

/-- A grammatical tree that is not too deep. -/
structure Admissible (limit : Option Nat) (p : Pattern) : Prop where
  grammatical : p.Grammatical
  depth_le : ∀ n ∈ limit, p.depth ≤ n

/-- A grammatical tree within the nesting limit. -/
def WellFormed (p : Pattern) : Prop := p.Admissible (some nestingLimit)

variable {limit : Option Nat} {p q : Pattern}

theorem IsItem.isBranch (h : p.IsItem) : p.IsBranch := by
  cases p <;> trivial

/-- A leaf is never too deep. -/
theorem Grammatical.admissible (h : p.Grammatical) (hdepth : p.depth = 0) :
    p.Admissible limit :=
  ⟨h, fun n _ => hdepth ▸ Nat.zero_le n⟩

theorem within_eq_ok_iff : p.within limit = .ok q ↔ (∀ n ∈ limit, p.depth ≤ n) ∧ p = q := by
  unfold within
  cases limit with
  | none => exact ⟨fun h => ⟨nofun, Except.ok.inj h⟩, fun h => congrArg Except.ok h.2⟩
  | some n =>
    have hlimit : (∀ m ∈ some n, p.depth ≤ m) ↔ ¬ n < p.depth := by simp
    rw [hlimit]
    by_cases hdeep : n < p.depth
    · rw [if_pos (by simpa using hdeep)]
      exact ⟨nofun, fun h => absurd hdeep h.1⟩
    · rw [if_neg (by simpa using hdeep)]
      exact ⟨fun h => ⟨hdeep, Except.ok.inj h⟩, fun h => congrArg Except.ok h.2⟩

/-- A tree comes back as it is, or it is refused where it starts. -/
theorem outcome_within {E : SyntaxError → Prop} (h : E ⟨p.position, .nestingTooDeep⟩) :
    Outcome (fun q => q = p ∧ ∀ n ∈ limit, p.depth ≤ n) E (p.within limit) := by
  cases hq : p.within limit with
  | error e =>
    unfold within at hq
    split at hq
    · rwa [← Except.error.inj hq]
    · cases hq
  | ok q =>
    obtain ⟨hdepth, heq⟩ := within_eq_ok_iff.1 hq
    exact ⟨heq.symm, hdepth⟩

theorem Grammatical.outcome_within (h : p.Grammatical) :
    Outcome (fun q => q = p ∧ q.Admissible limit) (fun _ => True) (p.within limit) := by
  refine (Pattern.outcome_within trivial).imp (fun q hq => ?_) fun _ => id
  obtain ⟨rfl, hdepth⟩ := hq
  exact ⟨rfl, h, hdepth⟩

end Pattern

/-! ## Levels -/

/-- What is complete on the level is admissible and in its place. -/
structure Level.Sound (limit : Option Nat) (l : Level) : Prop where
  branches : ∀ p ∈ l.branches, p.IsBranch ∧ p.Admissible limit
  items : ∀ p ∈ l.items, p.IsItem ∧ p.Admissible limit

namespace Level

variable {limit : Option Nat} {l : Level} {p : Pattern}

theorem sound_start (start : Nat) : Sound limit { start } where
  branches _ h := absurd h List.not_mem_nil
  items _ h := absurd h List.not_mem_nil

theorem Sound.push (hl : l.Sound limit) (hkind : p.IsItem) (hp : p.Admissible limit) :
    (l.push p).Sound limit where
  branches := hl.branches
  items := List.forall_mem_cons.2 ⟨⟨hkind, hp⟩, hl.items⟩

theorem Sound.branch (hl : l.Sound limit) :
    Outcome (fun p => p.IsBranch ∧ p.Admissible limit) (fun _ => True) (l.branch limit) := by
  obtain ⟨start, branches, branchStart, items⟩ := l
  -- No item, one item, or a concatenation.
  match items, hl.items with
  | [], _ => exact ⟨trivial, (Pattern.Grammatical.empty branchStart).admissible rfl⟩
  | [q], hitems =>
    obtain ⟨hkind, hq⟩ := hitems q List.mem_cons_self
    exact ⟨hkind.isBranch, hq⟩
  | q :: r :: rest, hitems =>
    have hconcat : (Pattern.concat branchStart (q :: r :: rest).reverse).Grammatical :=
      .concat branchStart (by simp) (fun s hs => (hitems s (List.mem_reverse.1 hs)).1)
        fun s hs => (hitems s (List.mem_reverse.1 hs)).2.grammatical
    refine hconcat.outcome_within.imp (fun p hp => ?_) fun _ => id
    obtain ⟨rfl, hp⟩ := hp
    exact ⟨trivial, hp⟩

theorem Sound.close (hl : l.Sound limit) :
    Outcome (Pattern.Admissible limit) (fun _ => True) (l.close limit) := by
  refine hl.branch.bind fun last hlast => ?_
  obtain ⟨start, branches, branchStart, items⟩ := l
  match branches, hl.branches with
  | [], _ => exact hlast.2
  | q :: rest, hbranches =>
    have hall : ∀ s ∈ (last :: q :: rest).reverse, s.IsBranch ∧ s.Admissible limit := by
      intro s hs
      rcases List.mem_cons.1 (List.mem_reverse.1 hs) with rfl | hs
      · exact hlast
      · exact hbranches s hs
    have halternation : (Pattern.alternation start (last :: q :: rest).reverse).Grammatical :=
      .alternation start (by simp) (fun s hs => (hall s hs).1)
        fun s hs => (hall s hs).2.grammatical
    exact halternation.outcome_within.imp (fun _ hp => hp.2) fun _ => id

end Level

/-! ## Readers -/

/-- A number under way is within the bounds of a repetition. -/
def Mode.Sound : Mode → Prop
  | lowerBound _ digits => ∀ d ∈ digits, d.value ≤ repetitionLimit
  | upperBound _ min digits => min ≤ repetitionLimit ∧ ∀ d ∈ digits, d.value ≤ repetitionLimit
  | _ => True

namespace Reader

/-- What the reader holds may become part of a tree. -/
structure Sound (limit : Option Nat) (r : Reader) : Prop where
  level : r.level.Sound limit
  enclosing : ∀ e ∈ r.enclosing, e.2.Sound limit
  mode : r.mode.Sound

variable {limit : Option Nat} {r : Reader}

theorem Sound.withMode (h : r.Sound limit) {mode : Mode} (hmode : mode.Sound) :
    ({ r with mode } : Reader).Sound limit :=
  ⟨h.level, h.enclosing, hmode⟩

theorem Sound.push (h : r.Sound limit) {p : Pattern} (hkind : p.IsItem) (hp : p.Admissible limit) :
    (r.push p).Sound limit :=
  ⟨h.level.push hkind hp, h.enclosing, trivial⟩

theorem Sound.repeatLatest (h : r.Sound limit) {min : Nat} {max : Option Nat}
    (hmin : min ≤ repetitionLimit) (hmax : ∀ m ∈ max, min ≤ m ∧ m ≤ repetitionLimit) :
    Outcome (Sound limit) (fun _ => True) (r.repeatLatest limit min max) := by
  unfold Reader.repeatLatest
  split
  · trivial
  · rename_i body items hitems
    have hall := h.level.items
    rw [hitems, List.forall_mem_cons] at hall
    obtain ⟨⟨hkind, hbody⟩, hrest⟩ := hall
    have hrepetition : (Pattern.repetition body.position body min max).Grammatical :=
      .repetition _ hkind hbody.grammatical hmin hmax
    refine hrepetition.outcome_within.bind fun p hp => ?_
    obtain ⟨rfl, hp⟩ := hp
    exact ⟨⟨h.level.branches, List.forall_mem_cons.2 ⟨⟨trivial, hp⟩, hrest⟩⟩, h.enclosing,
      trivial⟩

/-! ### Groups and branches -/

theorem Sound.openGroup (h : r.Sound limit) :
    Outcome (Sound limit) (fun _ => True) (r.openGroup limit) := by
  unfold Reader.openGroup
  split
  · trivial
  · exact ⟨Level.sound_start _, List.forall_mem_cons.2 ⟨h.level, h.enclosing⟩, h.mode⟩

theorem Sound.closeGroup (h : r.Sound limit) :
    Outcome (Sound limit) (fun _ => True) (r.closeGroup limit) := by
  refine h.level.close.bind fun body hbody => ?_
  split
  · trivial
  · rename_i start outer enclosing henclosing
    have hall := h.enclosing
    rw [henclosing, List.forall_mem_cons] at hall
    have hgroup : (Pattern.group start body).Grammatical := .group start hbody.grammatical
    refine hgroup.outcome_within.bind fun p hp => ?_
    obtain ⟨rfl, hp⟩ := hp
    exact ⟨hall.1.push trivial hp, hall.2, h.mode⟩

theorem Sound.nextBranch (h : r.Sound limit) :
    Outcome (Sound limit) (fun _ => True) (r.nextBranch limit) := by
  refine h.level.branch.bind fun p hp => ?_
  exact ⟨⟨List.forall_mem_cons.2 ⟨hp, h.level.branches⟩, fun _ hq => absurd hq List.not_mem_nil⟩,
    h.enclosing, h.mode⟩

/-! ### One character -/

theorem Sound.readItem (h : r.Sound limit) (c : Char) :
    Outcome (Sound limit) (fun _ => True) (r.readItem limit c) := by
  have hlimit : 1 ≤ repetitionLimit := by decide
  unfold Reader.readItem
  split
  · exact h.openGroup
  · exact h.closeGroup
  · exact h.nextBranch
  · exact h.repeatLatest (Nat.zero_le _) fun m hm => absurd hm (Option.not_mem_none m)
  · exact h.repeatLatest hlimit fun m hm => absurd hm (Option.not_mem_none m)
  · refine h.repeatLatest (Nat.zero_le _) fun m hm => ?_
    rw [← Option.some.inj hm]
    exact ⟨Nat.zero_le 1, hlimit⟩
  · split
    · trivial
    · exact h.withMode nofun
  · exact h.withMode trivial
  · exact h.withMode trivial
  · trivial
  · trivial
  · exact h.push trivial ((Pattern.Grammatical.anyChar _).admissible rfl)
  · exact h.push trivial ((Pattern.Grammatical.literal _ _).admissible rfl)

theorem Sound.readClassItem (h : r.Sound limit) (start : Nat) (negated : Bool)
    (ranges : List CharRange) (c : Char) :
    Outcome (Sound limit) (fun _ => True) (r.readClassItem start negated ranges c) := by
  unfold Reader.readClassItem
  split
  · split
    · trivial
    · rename_i hranges
      refine h.push trivial ((Pattern.Grammatical.charClass _ _ ?_ ?_).admissible rfl)
      · apply CharRange.normalize_ne_nil
        intro hnil
        rw [List.reverse_eq_nil_iff] at hnil
        exact hranges (List.isEmpty_iff.2 hnil)
      · exact (CharRange.isNormal_normalize _).imp CharRange.before_iff.1
  · exact h.withMode trivial
  · exact h.withMode trivial

theorem Sound.closeRange (h : r.Sound limit) (start : Nat) (negated : Bool)
    (ranges : List CharRange) (itemStart : Nat) (lo hi : Char) :
    Outcome (Sound limit) (fun _ => True)
      (r.closeRange start negated ranges itemStart lo hi) := by
  unfold Reader.closeRange
  split
  · exact h.withMode trivial
  · trivial

/-- Whatever a backslash and a character stand for, it is a character. -/
theorem outcome_unescape (start : Nat) (c : Char) :
    Outcome (fun _ => True) (fun _ => True) (unescape start c) := by
  unfold unescape
  split <;> trivial

theorem Sound.readClass (h : r.Sound limit) (start : Nat) (negated : Bool)
    (ranges : List CharRange) (mode : ClassMode) (c : Char) :
    Outcome (Sound limit) (fun _ => True) (r.readClass start negated ranges mode c) := by
  cases mode with
  | item => exact h.readClassItem _ _ _ c
  | escapedLow itemStart =>
    exact (outcome_unescape itemStart c).bind fun lo _ => h.withMode trivial
  | low itemStart lo =>
    simp only [Reader.readClass]
    split
    · exact h.withMode trivial
    · exact h.readClassItem _ _ _ c
  | hyphen itemStart lo =>
    simp only [Reader.readClass]
    split
    · exact h.readClassItem _ _ _ _
    · exact h.withMode trivial
    · exact h.closeRange _ _ _ _ _ _
  | escapedHigh itemStart lo escape =>
    exact (outcome_unescape escape c).bind fun hi _ => h.closeRange _ _ _ _ _ _

theorem outcome_addDigit (position : Nat) (digits : Option Digits) (digit : Nat) :
    Outcome (fun d => d.value ≤ repetitionLimit) (fun _ => True)
      (addDigit position digits digit) := by
  simp only [addDigit]
  split
  · trivial
  · rename_i hvalue
    exact Nat.not_lt.1 hvalue

theorem Sound.readLowerBound (h : r.Sound limit) (start : Nat) {digits : Option Digits}
    (hdigits : ∀ d ∈ digits, d.value ≤ repetitionLimit) (c : Char) :
    Outcome (Sound limit) (fun _ => True) (r.readLowerBound limit start digits c) := by
  unfold Reader.readLowerBound
  split
  · refine (outcome_addDigit _ _ _).bind fun d hd => h.withMode fun e he => ?_
    rwa [← Option.some.inj he]
  · trivial
  · rename_i min _
    have hmin := hdigits min rfl
    split
    · exact h.withMode ⟨hmin, fun m hm => absurd hm (Option.not_mem_none m)⟩
    · refine h.repeatLatest hmin fun m hm => ?_
      rw [← Option.some.inj hm]
      exact ⟨Nat.le_refl _, hmin⟩
    · trivial

theorem Sound.readUpperBound (h : r.Sound limit) (start : Nat) {min : Nat}
    {digits : Option Digits} (hmin : min ≤ repetitionLimit)
    (hdigits : ∀ d ∈ digits, d.value ≤ repetitionLimit) (c : Char) :
    Outcome (Sound limit) (fun _ => True) (r.readUpperBound limit start min digits c) := by
  unfold Reader.readUpperBound
  split
  · refine (outcome_addDigit _ _ _).bind fun d hd => h.withMode ⟨hmin, fun e he => ?_⟩
    rwa [← Option.some.inj he]
  · split
    · exact h.repeatLatest hmin fun m hm => absurd hm (Option.not_mem_none m)
    · rename_i max _
      split
      · trivial
      · rename_i hle
        refine h.repeatLatest hmin fun m hm => ?_
        rw [← Option.some.inj hm]
        exact ⟨Nat.not_lt.1 hle, hdigits max rfl⟩
    · trivial

theorem Sound.read (h : r.Sound limit) (c : Char) :
    Outcome (Sound limit) (fun _ => True) (r.read limit c) := by
  have hmode := h.mode
  unfold Reader.read
  split
  · exact h.readItem c
  · refine (outcome_unescape _ c).bind fun d _ => h.push trivial ?_
    exact (Pattern.Grammatical.literal _ _).admissible rfl
  · split
    · exact h.withMode trivial
    · exact h.readClassItem _ _ _ c
  · exact h.readClass _ _ _ _ c
  · rename_i heq
    rw [heq] at hmode
    exact h.readLowerBound _ hmode c
  · rename_i heq
    rw [heq] at hmode
    exact h.readUpperBound _ hmode.1 hmode.2 c

/-! ### Texts -/

theorem sound_start : Sound limit {} :=
  ⟨Level.sound_start 0, fun _ he => absurd he List.not_mem_nil, trivial⟩

theorem Sound.step (h : r.Sound limit) (c : Char) :
    Outcome (Sound limit) (fun _ => True) (r.step limit c) :=
  (h.read c).bind fun _ hs => ⟨hs.level, hs.enclosing, hs.mode⟩

theorem Sound.run (h : r.Sound limit) (text : List Char) :
    Outcome (Sound limit) (fun _ => True) (text.foldlM (Reader.step limit) r) := by
  induction text generalizing r with
  | nil => exact h
  | cons c rest ih =>
    rw [List.foldlM_cons]
    exact (h.step c).bind fun _ hs => ih hs

theorem Sound.finish (h : r.Sound limit) :
    Outcome (Pattern.Admissible limit) (fun _ => True) (r.finish limit) := by
  unfold Reader.finish
  split
  · refine h.level.close.bind fun p hp => ?_
    split
    · exact hp
    · trivial
  -- In any other mode the text may not end.
  all_goals trivial

end Reader

/-- Whatever the limit is, only admissible trees are read. -/
theorem Pattern.admissible_of_parseWithin_eq_ok {limit : Option Nat} {text : List Char}
    {p : Pattern} (h : parseWithin limit text = .ok p) : p.Admissible limit := by
  have hread : Outcome (Admissible limit) (fun _ => True) (({} : Reader).readAll limit text) :=
    (Reader.sound_start.run text).bind fun _ hr => hr.finish
  rwa [← parseWithin_eq_readAll, h] at hread

end RegularLanguages
