import Mathlib.Order.Basic
import RegularLanguages.Proofs.Pattern.RoundTrip

set_option autoImplicit false

/-! # The limit on the depth

Whether a tree is too deep is looked at in several places: at a group when it is opened, and at
every node when it is complete. Together these looks refuse the trees that are deeper than the
limit and no others (`Pattern.parse_eq_ok_iff_parseWithin_none`).

The proof runs the reader twice on the same text, with the limit and without. As long as the limit
refuses nothing, both hold the same trees. Once it does, the reader without a limit has gone on
with something too deep, and no character takes that back: `Reader.depth` is the depth that the
whole tree is sure to have, counting the groups that are still open, and it never falls.
`LimitedTo` says both at once, and follows the reader from one character to the whole text. -/

namespace RegularLanguages

/-! ## Limited computations -/

/-- A computation with the limit `n` beside the same computation without, from something of depth
    `d`. -/
structure LimitedTo {α : Type} (n d : Nat) (depth : α → Nat)
    (limited unlimited : Except SyntaxError α) : Prop where
  /-- Nothing becomes less deep. -/
  grows : ∀ a, unlimited = .ok a → d ≤ depth a
  /-- The limit changes nothing, or it refuses what is too deep. -/
  agrees : limited = unlimited ∨
    (∃ position, limited = refuse position .nestingTooDeep) ∧
      ∀ a, unlimited = .ok a → n < depth a

namespace LimitedTo

variable {α β : Type} {n d e : Nat} {depth : α → Nat} {depth' : β → Nat}
  {x y : Except SyntaxError α} {f g : α → Except SyntaxError β}

theorem ok {a : α} (h : d ≤ depth a) : LimitedTo n d depth (.ok a) (.ok a) where
  grows _ hb := Except.ok.inj hb ▸ h
  agrees := Or.inl rfl

theorem refused (position : Nat) (kind : SyntaxErrorKind) :
    LimitedTo n d depth (refuse position kind) (refuse position kind) where
  grows _ hb := nomatch hb
  agrees := Or.inl rfl

theorem mono (h : LimitedTo n e depth x y) (hde : d ≤ e) : LimitedTo n d depth x y where
  grows a ha := Nat.le_trans hde (h.grows a ha)
  agrees := h.agrees

/-- Two steps are limited if the second keeps at least the depth that the first has reached. -/
theorem bind (h : LimitedTo n e depth x y)
    (hnext : ∀ a, e ≤ depth a → LimitedTo n (max d (depth a)) depth' (f a) (g a)) :
    LimitedTo n d depth' (x >>= f) (y >>= g) where
  grows b hb := by
    obtain ⟨a, ha, hb⟩ := bind_eq_ok_iff.1 hb
    exact (Nat.max_le.1 ((hnext a (h.grows a ha)).grows b hb)).1
  agrees := by
    rcases h.agrees with rfl | ⟨⟨position, rfl⟩, hdeep⟩
    · cases x with
      | error cause => exact Or.inl rfl
      | ok a => exact (hnext a (h.grows a rfl)).agrees
    · refine Or.inr ⟨⟨position, rfl⟩, fun b hb => ?_⟩
      obtain ⟨a, ha, hb⟩ := bind_eq_ok_iff.1 hb
      have hle := (Nat.max_le.1 ((hnext a (h.grows a ha)).grows b hb)).2
      exact Nat.lt_of_lt_of_le (hdeep a ha) hle

/-- A first step that knows no limit. -/
theorem bind_left (x : Except SyntaxError α)
    (hnext : ∀ a, LimitedTo n d depth' (f a) (g a)) :
    LimitedTo n d depth' (x >>= f) (x >>= g) := by
  cases x with
  | error cause => exact ⟨nofun, Or.inl rfl⟩
  | ok a => exact hnext a

end LimitedTo

/-! ## Trees and levels -/

namespace Pattern

theorem deepest_le_iff {ps : List Pattern} {n : Nat} :
    deepest ps ≤ n ↔ ∀ p ∈ ps, p.depth ≤ n := by
  induction ps with
  | nil => exact iff_of_true (Nat.zero_le n) fun _ hp => absurd hp List.not_mem_nil
  | cons p rest ih => rw [deepest, Nat.max_le, ih, List.forall_mem_cons]

theorem deepest_reverse (ps : List Pattern) : deepest ps.reverse = deepest ps := by
  refine eq_of_forall_ge_iff fun n => ?_
  simp only [deepest_le_iff, List.mem_reverse]

theorem limitedTo_within (n : Nat) (p : Pattern) :
    LimitedTo n p.depth depth (p.within (some n)) (p.within none) where
  grows q hq := Nat.le_of_eq (congrArg depth (Except.ok.inj hq))
  agrees := by
    by_cases hdeep : n < p.depth
    · have hrefuse : p.within (some n) = refuse p.position .nestingTooDeep :=
        if_pos (by simpa using hdeep)
      exact Or.inr ⟨⟨p.position, hrefuse⟩, fun q hq => Except.ok.inj hq ▸ hdeep⟩
    · exact Or.inl (if_neg (by simpa using hdeep))

end Pattern

open Pattern

namespace Level

/-- The depth of the deepest tree of the level. -/
def depth (l : Level) : Nat := max (deepest l.branches) (deepest l.items)

theorem depth_push (l : Level) (p : Pattern) : (l.push p).depth = max l.depth p.depth := by
  simp only [depth, push, deepest]
  omega

theorem limitedTo_branch (n : Nat) (l : Level) :
    LimitedTo n (deepest l.items) Pattern.depth (l.branch (some n)) (l.branch none) := by
  obtain ⟨start, branches, branchStart, items⟩ := l
  match items with
  | [] => exact .ok (Nat.le_refl 0)
  | [p] => exact .ok (Nat.max_le.2 ⟨Nat.le_refl _, Nat.zero_le _⟩)
  | p :: q :: rest =>
    refine (limitedTo_within n _).mono ?_
    show _ ≤ deepest (p :: q :: rest).reverse + 1
    rw [deepest_reverse]
    exact Nat.le_succ _

theorem limitedTo_close (n : Nat) (l : Level) :
    LimitedTo n l.depth Pattern.depth (l.close (some n)) (l.close none) := by
  refine (limitedTo_branch n l).bind fun last hlast => ?_
  obtain ⟨start, branches, branchStart, items⟩ := l
  match branches with
  | [] =>
    refine .ok ?_
    simp only [depth, deepest] at hlast ⊢
    omega
  | p :: rest =>
    refine (limitedTo_within n _).mono ?_
    show _ ≤ deepest (last :: p :: rest).reverse + 1
    rw [deepest_reverse]
    simp only [depth, deepest] at hlast ⊢
    omega

end Level

/-! ## Readers -/

namespace Reader

/-- The depth that the open groups give to what they interrupt. -/
def enclosingDepth : List (Nat × Level) → Nat
  | [] => 0
  | (_, outer) :: enclosing => max (outer.depth + enclosing.length) (enclosingDepth enclosing)

/-- The depth that the whole tree is sure to have: every open group will be a node around what is
    inside. -/
def depth (r : Reader) : Nat :=
  max (r.level.depth + r.enclosing.length) (enclosingDepth r.enclosing)

theorem depth_le_push (r : Reader) (p : Pattern) : r.depth ≤ (r.push p).depth := by
  simp only [depth, push, Level.depth_push]
  omega

variable (n : Nat) (r : Reader) (c : Char)

theorem limitedTo_repeatLatest (min : Nat) (max : Option Nat) :
    LimitedTo n r.depth depth (r.repeatLatest (some n) min max) (r.repeatLatest none min max) := by
  obtain ⟨position, enclosing, ⟨start, branches, branchStart, items⟩, mode⟩ := r
  cases items with
  | nil => exact .refused _ _
  | cons body items =>
    refine (limitedTo_within n _).bind fun p hp => .ok ?_
    simp only [depth, Level.depth, deepest, Pattern.depth] at hp ⊢
    omega

/-! ### Groups and branches -/

theorem limitedTo_openGroup :
    LimitedTo n r.depth depth (r.openGroup (some n)) (r.openGroup none) := by
  have hdepth : ∀ s, r.openGroup none = .ok s →
      s.depth = max (r.enclosing.length + 1) r.depth := by
    intro s hs
    rw [← Except.ok.inj hs]
    simp only [depth, enclosingDepth, Level.depth, deepest, List.length_cons]
    omega
  refine ⟨fun s hs => hdepth s hs ▸ Nat.le_max_right _ _, ?_⟩
  by_cases hdeep : n < r.enclosing.length + 1
  · have hrefuse : r.openGroup (some n) = refuse r.position .nestingTooDeep :=
      if_pos (by simpa using hdeep)
    refine Or.inr ⟨⟨r.position, hrefuse⟩, fun s hs => ?_⟩
    rw [hdepth s hs]
    exact Nat.lt_of_lt_of_le hdeep (Nat.le_max_left _ _)
  · exact Or.inl (if_neg (by simpa using hdeep))

theorem limitedTo_closeGroup :
    LimitedTo n r.depth depth (r.closeGroup (some n)) (r.closeGroup none) := by
  refine (Level.limitedTo_close n r.level).bind fun body hbody => ?_
  obtain ⟨position, enclosing, level, mode⟩ := r
  match enclosing with
  | [] => exact .refused _ _
  | (start, outer) :: enclosing =>
    refine (limitedTo_within n _).bind fun p hp => .ok ?_
    simp only [depth, enclosingDepth, Level.depth_push, Pattern.depth, List.length_cons]
      at hbody hp ⊢
    omega

theorem limitedTo_nextBranch :
    LimitedTo n r.depth depth (r.nextBranch (some n)) (r.nextBranch none) := by
  refine (Level.limitedTo_branch n r.level).bind fun p hp => .ok ?_
  simp only [depth, Level.depth, deepest] at hp ⊢
  omega

/-! ### One character -/

theorem limitedTo_readItem :
    LimitedTo n r.depth depth (r.readItem (some n) c) (r.readItem none c) := by
  unfold readItem
  split
  · exact limitedTo_openGroup n r
  · exact limitedTo_closeGroup n r
  · exact limitedTo_nextBranch n r
  · exact limitedTo_repeatLatest n r _ _
  · exact limitedTo_repeatLatest n r _ _
  · exact limitedTo_repeatLatest n r _ _
  · split
    · exact .refused _ _
    · exact .ok (Nat.le_refl _)
  · exact .ok (Nat.le_refl _)
  · exact .ok (Nat.le_refl _)
  · exact .refused _ _
  · exact .refused _ _
  · exact .ok (depth_le_push r _)
  · exact .ok (depth_le_push r _)

theorem limitedTo_readClassItem (start : Nat) (negated : Bool) (ranges : List CharRange) :
    LimitedTo n r.depth depth (r.readClassItem start negated ranges c)
      (r.readClassItem start negated ranges c) := by
  unfold readClassItem
  split
  · split
    · exact .refused _ _
    · exact .ok (depth_le_push r _)
  · exact .ok (Nat.le_refl _)
  · exact .ok (Nat.le_refl _)

theorem limitedTo_closeRange (start itemStart : Nat) (negated : Bool) (ranges : List CharRange)
    (lo hi : Char) :
    LimitedTo n r.depth depth (r.closeRange start negated ranges itemStart lo hi)
      (r.closeRange start negated ranges itemStart lo hi) := by
  unfold closeRange
  split
  · exact .ok (Nat.le_refl _)
  · exact .refused _ _

theorem limitedTo_readClass (start : Nat) (negated : Bool) (ranges : List CharRange)
    (mode : ClassMode) :
    LimitedTo n r.depth depth (r.readClass start negated ranges mode c)
      (r.readClass start negated ranges mode c) := by
  cases mode with
  | item => exact limitedTo_readClassItem n r c _ _ _
  | escapedLow itemStart => exact .bind_left _ fun lo => .ok (Nat.le_refl _)
  | low itemStart lo =>
    simp only [readClass]
    split
    · exact .ok (Nat.le_refl _)
    · exact limitedTo_readClassItem n r c _ _ _
  | hyphen itemStart lo =>
    simp only [readClass]
    split
    · exact limitedTo_readClassItem n r _ _ _ _
    · exact .ok (Nat.le_refl _)
    · exact limitedTo_closeRange n r _ _ _ _ _ _
  | escapedHigh itemStart lo escape =>
    exact .bind_left _ fun hi => limitedTo_closeRange n r _ _ _ _ _ _

theorem limitedTo_readLowerBound (start : Nat) (digits : Option Digits) :
    LimitedTo n r.depth depth (r.readLowerBound (some n) start digits c)
      (r.readLowerBound none start digits c) := by
  unfold readLowerBound
  split
  · exact .bind_left _ fun d => .ok (Nat.le_refl _)
  · exact .refused _ _
  · split
    · exact .ok (Nat.le_refl _)
    · exact limitedTo_repeatLatest n r _ _
    · exact .refused _ _

theorem limitedTo_readUpperBound (start min : Nat) (digits : Option Digits) :
    LimitedTo n r.depth depth (r.readUpperBound (some n) start min digits c)
      (r.readUpperBound none start min digits c) := by
  unfold readUpperBound
  split
  · exact .bind_left _ fun d => .ok (Nat.le_refl _)
  · split
    · exact limitedTo_repeatLatest n r _ _
    · split
      · exact .refused _ _
      · exact limitedTo_repeatLatest n r _ _
    · exact .refused _ _

theorem limitedTo_read : LimitedTo n r.depth depth (r.read (some n) c) (r.read none c) := by
  unfold read
  split
  · exact limitedTo_readItem n r c
  · exact .bind_left _ fun d => .ok (depth_le_push r _)
  · split
    · exact .ok (Nat.le_refl _)
    · exact limitedTo_readClassItem n r c _ _ _
  · exact limitedTo_readClass n r c _ _ _ _
  · exact limitedTo_readLowerBound n r c _ _
  · exact limitedTo_readUpperBound n r c _ _ _

/-! ### Texts -/

theorem limitedTo_step : LimitedTo n r.depth depth (r.step (some n) c) (r.step none c) :=
  (limitedTo_read n r c).bind fun _ hle => .ok (Nat.max_le.2 ⟨hle, Nat.le_refl _⟩)

theorem limitedTo_run (text : List Char) :
    LimitedTo n r.depth depth (text.foldlM (step (some n)) r) (text.foldlM (step none) r) := by
  induction text generalizing r with
  | nil => exact .ok (Nat.le_refl _)
  | cons c rest ih =>
    rw [List.foldlM_cons, List.foldlM_cons]
    refine (limitedTo_step n r c).bind fun next hle => (ih next).mono ?_
    exact Nat.max_le.2 ⟨hle, Nat.le_refl _⟩

theorem limitedTo_finish :
    LimitedTo n r.depth Pattern.depth (r.finish (some n)) (r.finish none) := by
  unfold finish
  split
  · refine (Level.limitedTo_close n r.level).bind fun p hp => ?_
    split
    · rename_i henclosing
      refine .ok ?_
      simp only [depth, henclosing, enclosingDepth, List.length_nil]
      omega
    · exact .refused _ _
  -- In any other mode the text may not end.
  all_goals exact .refused _ _

end Reader

/-! ## Whole texts -/

namespace Pattern

theorem limitedTo_parseWithin (n : Nat) (text : List Char) :
    LimitedTo n 0 depth (parseWithin (some n) text) (parseWithin none text) := by
  rw [parseWithin_eq_readAll, parseWithin_eq_readAll]
  exact (Reader.limitedTo_run n {} text).bind fun r _ =>
    (Reader.limitedTo_finish n r).mono (Nat.max_le.2 ⟨Nat.zero_le _, Nat.le_refl _⟩)

/-- The limit takes away the trees that are too deep and nothing else: a tree is read if and only
    if it is read without a limit and is not deeper than the limit, and a text that would have a
    deeper tree is refused for its depth. -/
theorem parse_eq_ok_iff_parseWithin_none (text : List Char) :
    (∀ t, parse text = .ok t ↔ parseWithin none text = .ok t ∧ t.depth ≤ nestingLimit) ∧
      ∀ t, parseWithin none text = .ok t → nestingLimit < t.depth →
        ∃ position, parse text = .error { position, kind := .nestingTooDeep } := by
  rcases (limitedTo_parseWithin nestingLimit text).agrees with heq | ⟨⟨position, hrefuse⟩, hdeep⟩
  · -- Nothing was refused for its depth, so the tree is not too deep.
    have hdepth : ∀ t, parseWithin none text = .ok t → t.depth ≤ nestingLimit := fun t ht =>
      (admissible_of_parseWithin_eq_ok (heq.trans ht)).depth_le nestingLimit rfl
    refine ⟨fun t => ?_, fun t ht hlt => absurd (hdepth t ht) (Nat.not_le.2 hlt)⟩
    rw [parse, heq]
    exact ⟨fun ht => ⟨ht, hdepth t ht⟩, fun ht => ht.1⟩
  · refine ⟨fun t => ?_, fun _ _ _ => ⟨position, hrefuse⟩⟩
    rw [parse, hrefuse]
    exact ⟨nofun, fun ht => absurd ht.2 (Nat.not_le.2 (hdeep t ht.1))⟩

/-- A letter inside a number of groups. -/
def nested : Nat → Pattern
  | 0 => .literal 0 'a'
  | k + 1 => .group 0 (nested k)

theorem grammatical_nested (k : Nat) : (nested k).Grammatical := by
  induction k with
  | zero => exact .literal 0 'a'
  | succ k ih => exact .group 0 ih

theorem depth_nested (k : Nat) : (nested k).depth = k := by
  induction k with
  | zero => rfl
  | succ k ih => exact congrArg (· + 1) ih

theorem print_nested (k : Nat) :
    (nested k).print = List.replicate k '(' ++ 'a' :: List.replicate k ')' := by
  induction k with
  | zero => rfl
  | succ k ih =>
    show '(' :: ((nested k).print ++ [')']) = _
    rw [ih, List.append_assoc, List.cons_append, ← List.replicate_succ']
    rfl

/-- One group more than the limit allows. -/
theorem parse_eq_ok_iff_parseWithin_none_groups :
    let text := List.replicate 251 '(' ++ 'a' :: List.replicate 251 ')'
    let t := (nested 251).placed 0
    (parseWithin none text = .ok t ∧ nestingLimit < t.depth) ∧
      ∃ position, parse text = .error { position, kind := .nestingTooDeep } := by
  intro text t
  have hread : parseWithin none text = .ok t := by
    have hprint : parseWithin none (nested 251).print = .ok t :=
      parseWithin_print ⟨grammatical_nested 251, nofun⟩
    rwa [print_nested] at hprint
  have hdeep : nestingLimit < t.depth := by
    rw [depth_placed, depth_nested]
    decide
  exact ⟨⟨hread, hdeep⟩, (parse_eq_ok_iff_parseWithin_none text).2 t hread hdeep⟩

end Pattern

end RegularLanguages
