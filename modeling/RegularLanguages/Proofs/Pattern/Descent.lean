import RegularLanguages.Proofs.Pattern.Scanning

set_option autoImplicit false

/-! # Parsing is reading

The parser calls itself for what is inside a group. A reader that comes to a group puts the
alternation under way aside and starts another one, so what it holds is the line of calls that have
not returned: as many alternations are put aside as groups are open, and there is a node for every
tree (`readOn_items`, `branchOn_branches`).

A group takes less of the text than it is in. So what the parser makes of a text is what a reader
makes of it, by induction on the length of the text (`readsAlternations`), and the properties of
readers are properties of the parser (`Pattern.parseWithin_eq_readAll`). -/

namespace RegularLanguages

open Reader

namespace Input

variable {limit : Option Nat} {n groups start : Nat} {enclosing : List (Nat × Level)}
  {level : Level} {s : Input}

/-! ## Ends of branches and groups -/

/-- What a reader makes of the text behind a complete alternation. Any end of the alternation but a
    closing parenthesis is blamed on the group that is open. -/
def closeOn (limit : Option Nat) (enclosing : List (Nat × Level)) (body : Pattern) (s : Input) :
    Except SyntaxError Pattern :=
  match enclosing with
  | [] =>
    match s.next? with
    | none => .ok body
    | some t =>
      if t.value = ')' then refuse s.position .unmatchedParen
      else refuse s.position (.unexpectedChar t.value)
  | (start, outer) :: enclosing =>
    match s.eat? ')' with
    | none => refuse start .unclosedGroup
    | some t => do
      let p ← (Pattern.group start body).within limit
      t.left.readOn limit enclosing (outer.push p) .item

/-- The alternation of the given branches, of which `last` comes behind the others. -/
def alternationOf (limit : Option Nat) (start : Nat) (branches : List Pattern) (last : Pattern) :
    Except SyntaxError Pattern :=
  match branches with
  | [] => .ok last
  | branches => (Pattern.alternation start (last :: branches).reverse).within limit

/-- What a reader makes of the text behind a complete branch. -/
def branchOn (limit : Option Nat) (enclosing : List (Nat × Level)) (start : Nat)
    (branches : List Pattern) (last : Pattern) (s : Input) : Except SyntaxError Pattern :=
  match s.eat? '|' with
  | none => do
    let body ← alternationOf limit start branches last
    s.closeOn limit enclosing body
  | some t =>
    t.left.readOn limit enclosing
      { start, branches := last :: branches, branchStart := t.left.position } .item

theorem position_of_next?_eq_some {t : Taken s.length s.openGroups Char} (h : s.next? = some t) :
    t.left.position = s.position + 1 := by
  obtain ⟨_ | ⟨c, rest⟩, position, openGroups⟩ := s
  · cases h
  · cases h
    rfl

theorem close_eq_branch_bind (l : Level) :
    l.close limit = (l.branch limit >>= alternationOf limit l.start l.branches) := rfl

/-- Where a branch ends, a reader completes it as the parser does. -/
theorem readOn_branchEnd (h : s.next?.all (·.value ∈ ['|', ')']) = true) :
    s.readOn limit enclosing level .item = (level.branch limit >>= fun last =>
      s.branchOn limit enclosing level.start level.branches last) := by
  cases hs : s.next? with
  | none =>
    rw [readOn_of_next?_eq_none hs]
    simp only [branchOn, closeOn, eat?, hs, Option.filter_none, finish, close_eq_branch_bind,
      bind_assoc]
    cases enclosing <;> rfl
  | some t =>
    rw [readOn_of_next?_eq_some hs]
    rw [hs, Option.all_some, decide_eq_true_iff, List.mem_cons, List.mem_singleton] at h
    rcases h with hbar | hclose
    · simp only [branchOn, eat?, hs, hbar, Option.filter_some, decide_true, if_true,
        position_of_next?_eq_some hs]
      show (nextBranch _ _ >>= _) = _
      simp only [nextBranch, bind_assoc, pure_bind]
    · simp only [branchOn, closeOn, eat?, hs, hclose, Option.filter_some]
      show (closeGroup _ _ >>= _) = _
      cases enclosing with
      | nil =>
        simp only [closeGroup, close_eq_branch_bind, bind_assoc]
        rfl
      | cons e enclosing =>
        simp only [closeGroup, close_eq_branch_bind, bind_assoc, pure_bind]
        rfl

/-- A branch as the parser and as a reader complete it. -/
theorem branch_bind {α : Type} (limit : Option Nat) (start : Nat) (branches : List Pattern)
    (branchStart : Nat) (nodes : List Node) (k : Pattern → Except SyntaxError α) :
    (Level.branch limit ⟨start, branches, branchStart, nodes.map Node.tree⟩ >>= k) =
      (Node.ofItems limit branchStart nodes >>= fun node => k node.tree) := by
  match nodes with
  | [] => rfl
  | [_] => rfl
  | first :: second :: rest =>
    have hconcat : Pattern.concat branchStart ((first :: second :: rest).map Node.tree).reverse =
        (Node.concat branchStart (first :: second :: rest).reverse).tree :=
      congrArg (Pattern.concat branchStart) List.map_reverse.symm
    show (Pattern.within limit (Pattern.concat branchStart
      ((first :: second :: rest).map Node.tree).reverse) >>= k) = _
    rw [hconcat, Node.within_bind]
    rfl

/-- An alternation as the parser and as a reader complete it. -/
theorem alternationOf_bind {α : Type} (limit : Option Nat) (start : Nat) (nodes : List Node)
    (last : Node) (k : Pattern → Except SyntaxError α) :
    (alternationOf limit start (nodes.map Node.tree) last.tree >>= k) =
      (Node.ofBranches limit start (last :: nodes) >>= fun node => k node.tree) := by
  match nodes with
  | [] => rfl
  | first :: rest =>
    have halternation :
        Pattern.alternation start ((last :: first :: rest).map Node.tree).reverse =
          (Node.alternation start (last :: first :: rest).reverse).tree :=
      congrArg (Pattern.alternation start) List.map_reverse.symm
    show (Pattern.within limit (Pattern.alternation start
      ((last :: first :: rest).map Node.tree).reverse) >>= k) = _
    rw [halternation, Node.within_bind]
    rfl

/-! ## Patterns -/

/-- In what is shorter than `m` characters the parser takes the alternations that a reader reads. -/
def ReadsAlternations (limit : Option Nat) (m : Nat) : Prop :=
  ∀ s : Input, s.length < m → ∀ enclosing : List (Nat × Level),
    enclosing.length = s.openGroups →
      s.readOn limit enclosing { start := s.position } .item = (s.alternation limit >>= fun body =>
        body.left.closeOn limit enclosing body.value.tree)

/-- A group: the number of groups that are open is the number of alternations put aside. -/
theorem readOn_group (hrec : ReadsAlternations limit s.length)
    (henclosing : enclosing.length = s.openGroups)
    {t : Taken s.length s.openGroups Char} (h : s.next? = some t) (hopen : t.value = '(') :
    s.readOn limit enclosing level .item =
      (nest limit s.position t.left.enter.openGroups >>= fun _ =>
        t.left.enter.alternation limit >>= fun body =>
          body.left.closeOn limit ((s.position, level) :: enclosing) body.value.tree) := by
  have hgroups : enclosing.length + 1 = t.left.enter.openGroups :=
    congrArg (· + 1) (henclosing.trans t.bounded.openGroups_eq.symm)
  have hposition : t.left.enter.position = s.position + 1 := position_of_next?_eq_some h
  rw [readOn_of_next?_eq_some h, hopen,
    ← hrec t.left.enter t.bounded.length_lt ((s.position, level) :: enclosing) hgroups,
    ← hgroups, hposition]
  show (openGroup _ _ >>= _) = _
  unfold openGroup nest
  split <;> rfl

/-- Where nothing comes before, an operator is refused. -/
theorem readOn_of_operator {t : Taken s.length s.openGroups Char} (h : s.next? = some t)
    (hmem : t.value ∈ ['*', '+', '?', '\x7b']) (hoperator : s.OperatorNext → level.items = []) :
    s.readOn limit enclosing level .item = refuse s.position .nothingToRepeat := by
  have hitems := hoperator ⟨t, h, hmem⟩
  rw [readOn_of_next?_eq_some h]
  simp only [List.mem_cons, List.not_mem_nil, or_false] at hmem
  rcases hmem with heq | heq | heq | heq
  all_goals
    simp only [Reader.read, readItem, repeatLatest, heq, hitems]
    rfl

theorem readOn_atom (hrec : ReadsAlternations limit s.length)
    (henclosing : enclosing.length = s.openGroups)
    {t : Taken s.length s.openGroups Char} (h : s.next? = some t) (hend : t.value ∉ ['|', ')'])
    (hoperator : s.OperatorNext → level.items = []) :
    s.readOn limit enclosing level .item = (s.atom limit >>= fun u =>
      u.left.readOn limit enclosing (level.push u.value.tree) .item) := by
  rw [atom]
  simp only [h]
  split
  · rename_i hopen
    rw [readOn_group hrec henclosing h hopen, bind_assoc]
    refine congrArg _ (funext fun _ => ?_)
    rw [bind_assoc]
    refine congrArg _ (funext fun body => ?_)
    unfold closeOn
    cases body.left.eat? ')' with
    | none => rfl
    | some u =>
      simp only [bind_assoc, pure_bind]
      exact (Node.group s.position body.value).within_bind _
  · rename_i hbracket
    rw [readOn_of_next?_eq_some h, hbracket]
    exact readOn_charClass t.bounded
  · rename_i hdot
    rw [readOn_of_next?_eq_some h, hdot]
    rfl
  · rename_i hescape
    rw [readOn_of_next?_eq_some h, hescape, bind_assoc]
    exact (readOn_escape (fun _ _ => rfl) fun _ => rfl).trans rfl
  · rename_i hstar
    exact readOn_of_operator h (by rw [hstar]; decide) hoperator
  · rename_i hplus
    exact readOn_of_operator h (by rw [hplus]; decide) hoperator
  · rename_i hoptional
    exact readOn_of_operator h (by rw [hoptional]; decide) hoperator
  · rename_i hbrace
    exact readOn_of_operator h (by rw [hbrace]; decide) hoperator
  · rename_i hclose
    rw [readOn_of_next?_eq_some h, hclose]
    rfl
  · rename_i hclose
    rw [readOn_of_next?_eq_some h, hclose]
    rfl
  · have hbar : t.value ≠ '|' := fun heq => hend (by rw [heq]; decide)
    have hclose : t.value ≠ ')' := fun heq => hend (by rw [heq]; decide)
    have hread : Reader.readItem limit ⟨s.position, enclosing, level, .item⟩ t.value =
        .ok (Reader.push ⟨s.position, enclosing, level, .item⟩ (.literal s.position t.value)) := by
      unfold readItem
      split <;> first | contradiction | rfl
    rw [readOn_of_next?_eq_some h]
    show (Reader.readItem _ _ _ >>= _) = _
    rw [hread]
    rfl

theorem readOn_item (hrec : ReadsAlternations limit s.length)
    (henclosing : enclosing.length = s.openGroups)
    {t : Taken s.length s.openGroups Char} (h : s.next? = some t) (hend : t.value ∉ ['|', ')'])
    (hoperator : s.OperatorNext → level.items = []) :
    s.readOn limit enclosing level .item = (s.item limit >>= fun u =>
      u.left.readOn limit enclosing (level.push u.value.tree) .item) := by
  rw [item, bind_assoc, readOn_atom hrec henclosing h hend hoperator]
  exact congrArg _ (funext fun u => readOn_operators u.value u.bounded)

theorem outcome_item (s : Input) :
    Outcome (fun u => ¬ u.left.OperatorNext) (fun _ => True) (s.item limit) := by
  rw [item]
  exact (Outcome.trivial _).bind fun u _ => outcome_operators u.value u.bounded

theorem ReadsAlternations.mono {m k : Nat} (h : ReadsAlternations limit m) (hle : k ≤ m) :
    ReadsAlternations limit k :=
  fun s hs => h s (Nat.lt_of_lt_of_le hs hle)

/-- The items of a branch, up to its end. -/
theorem readOn_items {m : Nat} (hrec : ReadsAlternations limit m) {branchStart : Nat}
    {branches : List Pattern} (nodes : List Node) (hs : s.Bounded n groups) (hm : s.length ≤ m)
    (henclosing : enclosing.length = s.openGroups) (hoperator : s.OperatorNext → nodes = []) :
    s.readOn limit enclosing ⟨start, branches, branchStart, nodes.map Node.tree⟩ .item =
      (s.items limit branchStart nodes hs >>= fun t =>
        t.left.branchOn limit enclosing start branches t.value.tree) := by
  induction hk : s.length using Nat.strongRecOn generalizing s nodes with
  | ind k ih =>
    rw [items]
    by_cases hend : s.next?.all (·.value ∈ ['|', ')']) = true
    · rw [if_pos hend, readOn_branchEnd hend]
      simp only [bind_assoc, pure_bind]
      exact branch_bind limit start branches branchStart nodes _
    · obtain ⟨t, ht, hchar⟩ : ∃ t, s.next? = some t ∧ t.value ∉ ['|', ')'] := by
        cases h : s.next? with
        | none => exact absurd (by rw [h]; rfl) hend
        | some t => exact ⟨t, rfl, fun hmem => hend (by rw [h]; exact decide_eq_true hmem)⟩
      have hitems : s.OperatorNext → (nodes.map Node.tree) = [] := fun h => by
        rw [hoperator h]
        rfl
      rw [if_neg hend, bind_assoc, readOn_item (hrec.mono hm) henclosing ht hchar hitems]
      refine (outcome_item s).bind_congr fun u hu => ?_
      have hlt := u.bounded.length_lt
      exact ih u.left.length (hk ▸ hlt) (u.value :: nodes) (hs.trans u.bounded)
        (Nat.le_of_lt (Nat.lt_of_lt_of_le hlt hm)) (henclosing.trans u.bounded.openGroups_eq.symm)
        (fun h => absurd h hu) rfl

theorem readOn_concat {m : Nat} (hrec : ReadsAlternations limit m) {branches : List Pattern}
    (hm : s.length ≤ m) (henclosing : enclosing.length = s.openGroups) :
    s.readOn limit enclosing ⟨start, branches, s.position, []⟩ .item =
      (s.concat limit >>= fun t =>
        t.left.branchOn limit enclosing start branches t.value.tree) := by
  rw [concat]
  exact readOn_items hrec [] s.bounded_self hm henclosing fun _ => rfl

/-- The branches of an alternation, up to its end. -/
theorem branchOn_branches {m : Nat} (hrec : ReadsAlternations limit m) (nodes : List Node)
    (last : Node) (hs : s.Bounded n groups) (hm : s.length ≤ m)
    (henclosing : enclosing.length = s.openGroups) :
    s.branchOn limit enclosing start (nodes.map Node.tree) last.tree =
      (s.branches limit start (last :: nodes) hs >>= fun t =>
        t.left.closeOn limit enclosing t.value.tree) := by
  induction hk : s.length using Nat.strongRecOn generalizing s nodes last with
  | ind k ih =>
    rw [branches, branchOn]
    cases h : s.eat? '|' with
    | none =>
      simp only [bind_assoc, pure_bind]
      exact alternationOf_bind limit start nodes last _
    | some t =>
      have hlt := t.bounded.length_lt
      have hgroups := henclosing.trans t.bounded.openGroups_eq.symm
      have hle : t.left.length ≤ m := Nat.le_of_lt (Nat.lt_of_lt_of_le hlt hm)
      simp only [bind_assoc]
      refine (readOn_concat hrec hle hgroups).trans (congrArg _ (funext fun next => ?_))
      have hnext := (t.bounded.trans_succ next.bounded).length_lt
      exact ih next.left.length (hk ▸ hnext) (last :: nodes) next.value _
        (Nat.le_of_lt (Nat.lt_of_lt_of_le hnext hm))
        (hgroups.trans next.bounded.openGroups_eq.symm) rfl

theorem readOn_alternation {m : Nat} (hrec : ReadsAlternations limit m) (hm : s.length ≤ m)
    (henclosing : enclosing.length = s.openGroups) :
    s.readOn limit enclosing { start := s.position } .item =
      (s.alternation limit >>= fun body =>
        body.left.closeOn limit enclosing body.value.tree) := by
  rw [alternation, bind_assoc]
  refine (readOn_concat hrec hm henclosing).trans (congrArg _ (funext fun first => ?_))
  exact branchOn_branches hrec [] first.value first.bounded
    (Nat.le_trans (Nat.le_of_lt_succ first.bounded.length_lt) hm)
    (henclosing.trans first.bounded.openGroups_eq.symm)

/-- However long a text is: a group takes less than the text that it is in. -/
theorem readsAlternations (limit : Option Nat) (m : Nat) : ReadsAlternations limit m := by
  induction m with
  | zero => exact fun _ hs => absurd hs (Nat.not_lt_zero _)
  | succ m ih => exact fun s hs _ => readOn_alternation ih (Nat.le_of_lt_succ hs)

end Input

/-- The parser takes what a reader reads, whatever the text and the limit are. -/
theorem Pattern.parseWithin_eq_readAll (limit : Option Nat) (text : List Char) :
    parseWithin limit text = ({} : Reader).readAll limit text := by
  have hread : ({} : Reader).readAll limit text = _ :=
    Input.readsAlternations limit (text.length + 1) { rest := text } (Nat.lt_succ_self _) [] rfl
  rw [hread]
  refine congrArg _ (funext fun whole => ?_)
  unfold Input.closeOn
  cases whole.left.next? <;> rfl

theorem Pattern.parse_eq_readAll (text : List Char) :
    parse text = ({} : Reader).readAll (some nestingLimit) text :=
  parseWithin_eq_readAll (some nestingLimit) text

end RegularLanguages
