import RegularLanguages.Proofs.Pattern.Reads

set_option autoImplicit false

/-! # Printed trees are read back

The text of a well-formed tree is read as the same tree, but for the positions
(`parseWithin_print`). The reader knows nothing of the tree to come: it has open groups and a level,
and what it has read must come out right when the level is closed. So there is a statement for
each level of the grammar. The text of an item adds the item to whatever level it is read on
(`ReadsItem`); the text of a branch at the start of a branch, and of an alternation at the start of
a level, leave a level from which that tree is made (`ReadsBranch`, `ReadsBody`). All three speak
about a reader inside any number of open groups, since these count for the limit. -/

namespace RegularLanguages.Pattern

variable {limit : Option Nat} {enc : List (Nat × Level)} {t : Pattern}

/-! ## Room for a tree -/

/-- The limit leaves room for a tree of the given depth inside the groups that are open. -/
def Fits (limit : Option Nat) (enc : List (Nat × Level)) (depth : Nat) : Prop :=
  ∀ n ∈ limit, enc.length + depth ≤ n

theorem Fits.mono {d e : Nat} (h : Fits limit enc e) (hde : d ≤ e) : Fits limit enc d :=
  fun n hn => Nat.le_trans (Nat.add_le_add_left hde _) (h n hn)

theorem Fits.depth_le {depth : Nat} (h : Fits limit enc depth) : ∀ n ∈ limit, depth ≤ n :=
  fun n hn => Nat.le_trans (Nat.le_add_left _ _) (h n hn)

theorem Fits.within_placed (h : Fits limit enc t.depth) (pos : Nat) :
    (t.placed pos).within limit = .ok (t.placed pos) := by
  rw [within_eq_ok_iff, depth_placed]
  exact ⟨h.depth_le, rfl⟩

/-! ## Three levels -/

/-- The text adds the tree to the items of the branch under way. -/
def ReadsItem (limit : Option Nat) (t : Pattern) : Prop :=
  ∀ pos enc lvl, Fits limit enc t.depth →
    Reads limit ⟨pos, enc, lvl, .item⟩ t.print enc (lvl.push (t.placed pos)) .item

/-- At the start of a branch, the text makes the tree the branch under way. -/
def ReadsBranch (limit : Option Nat) (t : Pattern) : Prop :=
  ∀ pos enc start branches, Fits limit enc t.depth → ∃ items,
    Reads limit ⟨pos, enc, ⟨start, branches, pos, []⟩, .item⟩ t.print enc
        ⟨start, branches, pos, items⟩ .item ∧
      Level.branch limit ⟨start, branches, pos, items⟩ = .ok (t.placed pos)

/-- At the start of a level, the text makes the tree the alternation under way. -/
def ReadsBody (limit : Option Nat) (t : Pattern) : Prop :=
  ∀ pos enc, Fits limit enc t.depth → ∃ lvl,
    Reads limit ⟨pos, enc, { start := pos }, .item⟩ t.print enc lvl .item ∧
      lvl.close limit = .ok (t.placed pos)

theorem ReadsItem.readsBranch (h : ReadsItem limit t) : ReadsBranch limit t :=
  fun pos enc _ _ hfits => ⟨[t.placed pos], h pos enc _ hfits, rfl⟩

theorem ReadsBranch.readsBody (h : ReadsBranch limit t) : ReadsBody limit t := by
  intro pos enc hfits
  obtain ⟨items, hreads, hbranch⟩ := h pos enc pos [] hfits
  exact ⟨_, hreads, bind_eq_ok_iff.2 ⟨_, hbranch, rfl⟩⟩

/-! ## One node -/

theorem readsBranch_empty (position : Nat) : ReadsBranch limit (.empty position) :=
  fun pos _ _ _ _ => ⟨[], reads_nil pos, rfl⟩

theorem readsItem_anyChar (position : Nat) : ReadsItem limit (.anyChar position) := by
  intro pos enc lvl _
  have hread : Reader.read limit ⟨pos, enc, lvl, .item⟩ '.' =
      .ok ⟨pos, enc, lvl.push (.anyChar pos), .item⟩ :=
    rfl
  exact reads_singleton hread

theorem readsItem_repetition {body : Pattern} {min : Nat} {max : Option Nat}
    (h : ReadsItem limit body) (hmin : min ≤ repetitionLimit)
    (hmax : ∀ m ∈ max, min ≤ m ∧ m ≤ repetitionLimit) (position : Nat) :
    ReadsItem limit (.repetition position body min max) := by
  intro pos enc lvl hfits
  have hdepth : ∀ n ∈ limit, (body.placed pos).depth + 1 ≤ n := by
    rw [depth_placed]
    exact hfits.depth_le
  have hbounds := reads_bounds (pos + body.print.length) enc lvl hmin hmax hdepth
  rw [position_placed] at hbounds
  exact (h pos enc lvl (hfits.mono (Nat.le_succ _))).append hbounds

theorem readsItem_group {body : Pattern} (h : ReadsBody limit body) (position : Nat) :
    ReadsItem limit (.group position body) := by
  intro pos enc lvl hfits
  -- The group is one more around its body, and the body is one less deep.
  have hroom : ¬ limit.any (· < enc.length + 1) = true := by
    cases limit with
    | none => exact Bool.false_ne_true
    | some n =>
      have hle : enc.length + (body.depth + 1) ≤ n := hfits n rfl
      simp only [Option.any_some, decide_eq_true_eq]
      omega
  have hinner : Fits limit ((pos, lvl) :: enc) body.depth := by
    intro n hn
    have hle : enc.length + (body.depth + 1) ≤ n := hfits n hn
    rw [List.length_cons]
    omega
  obtain ⟨inner, hbody, hclose⟩ := h (pos + 1) ((pos, lvl) :: enc) hinner
  have hopening : Reader.read limit ⟨pos, enc, lvl, .item⟩ '(' =
      .ok ⟨pos, (pos, lvl) :: enc, { start := pos + 1 }, .item⟩ :=
    if_neg hroom
  have hclosing : ∀ next, Reader.read limit ⟨next, (pos, lvl) :: enc, inner, .item⟩ ')' =
      .ok ⟨next, enc, lvl.push (.group pos (body.placed (pos + 1))), .item⟩ := fun next =>
    bind_eq_ok_iff.2 ⟨_, hclose, bind_eq_ok_iff.2
      ⟨_, Fits.within_placed (t := .group position body) hfits pos, rfl⟩⟩
  exact reads_cons hopening (hbody.append (reads_singleton (hclosing _)))

/-! ## Several nodes -/

theorem reads_items {items : List Pattern} (h : ∀ p ∈ items, ReadsItem limit p) (pos : Nat)
    (lvl : Level) (hfits : Fits limit enc (deepest items)) :
    Reads limit ⟨pos, enc, lvl, .item⟩ (printAll items).flatten enc
      { lvl with items := (placedAll pos 0 items).reverse ++ lvl.items } .item := by
  induction items generalizing pos lvl with
  | nil => exact reads_nil pos
  | cons p rest ih =>
    obtain ⟨hp, hall⟩ := List.forall_mem_cons.1 h
    have hfirst := hp pos enc lvl (hfits.mono (Nat.le_max_left _ _))
    have hrest := ih hall (pos + p.print.length) (lvl.push (p.placed pos))
      (hfits.mono (Nat.le_max_right _ _))
    rw [reverse_placedAll_cons]
    exact hfirst.append hrest

theorem readsBranch_concat {items : List Pattern} (hlength : 2 ≤ items.length)
    (h : ∀ p ∈ items, ReadsItem limit p) (position : Nat) :
    ReadsBranch limit (.concat position items) := by
  intro pos enc start branches hfits
  refine ⟨(placedAll pos 0 items).reverse ++ [], reads_items h pos _ (hfits.mono (Nat.le_succ _)),
    ?_⟩
  have htwo : 2 ≤ ((placedAll pos 0 items).reverse ++ []).length := by
    rwa [List.append_nil, List.length_reverse, length_placedAll]
  rw [Level.branch_of_two_le htwo, List.append_nil, List.reverse_reverse]
  exact Fits.within_placed hfits pos

/-- Branches that follow each other are read onto those before them. -/
theorem reads_branches {p : Pattern} {rest : List Pattern}
    (h : ∀ q ∈ p :: rest, ReadsBranch limit q) (pos start : Nat) (done : List Pattern)
    (hfits : Fits limit enc (deepest (p :: rest))) : ∃ lvl last,
    Reads limit ⟨pos, enc, ⟨start, done, pos, []⟩, .item⟩
        (['|'].intercalate (printAll (p :: rest))) enc lvl .item ∧
      lvl.start = start ∧ lvl.branch limit = .ok last ∧
      last :: lvl.branches = (placedAll pos 1 (p :: rest)).reverse ++ done := by
  induction rest generalizing p pos done with
  | nil =>
    obtain ⟨items, hreads, hbranch⟩ :=
      h p List.mem_cons_self pos enc start done (hfits.mono (Nat.le_max_left _ _))
    refine ⟨_, _, ?_, rfl, hbranch, rfl⟩
    show Reads limit _ (['|'].intercalate [p.print]) enc _ .item
    rw [List.intercalate_singleton]
    exact hreads
  | cons q rest ih =>
    obtain ⟨hp, hall⟩ := List.forall_mem_cons.1 h
    obtain ⟨items, hreads, hbranch⟩ := hp pos enc start done (hfits.mono (Nat.le_max_left _ _))
    obtain ⟨lvl, last, hrest, hstart, hlast, hplaced⟩ := ih hall (pos + p.print.length + 1)
      (p.placed pos :: done) (hfits.mono (Nat.le_max_right _ _))
    have hbar : ∀ next, Reader.read limit ⟨next, enc, ⟨start, done, pos, items⟩, .item⟩ '|' =
        .ok ⟨next, enc, ⟨start, p.placed pos :: done, next + 1, []⟩, .item⟩ :=
      fun _ => bind_eq_ok_iff.2 ⟨_, hbranch, rfl⟩
    refine ⟨lvl, last, ?_, hstart, hlast, ?_⟩
    · show Reads limit _ (['|'].intercalate (p.print :: q.print :: printAll rest)) enc lvl .item
      rw [List.intercalate_cons_cons, List.append_assoc]
      exact hreads.append (reads_cons (hbar _) hrest)
    · rw [hplaced, reverse_placedAll_cons pos]

theorem readsBody_alternation {branches : List Pattern} (hlength : 2 ≤ branches.length)
    (h : ∀ p ∈ branches, ReadsBranch limit p) (position : Nat) :
    ReadsBody limit (.alternation position branches) := by
  intro pos enc hfits
  match branches, hlength, h with
  | p :: _ :: _, _, h =>
    obtain ⟨lvl, last, hreads, hstart, hlast, hplaced⟩ :=
      reads_branches h pos pos [] (hfits.mono (Nat.le_succ _))
    -- With two branches or more, the level has one before the branch under way.
    have hsome : lvl.branches ≠ [] := by
      intro hnil
      have hcount := congrArg List.length hplaced
      simp [hnil, length_placedAll] at hcount
    refine ⟨lvl, hreads, ?_⟩
    rw [Level.close_of_ne_nil hlast hsome, hplaced, List.append_nil, List.reverse_reverse, hstart]
    exact Fits.within_placed hfits pos

/-! ## Every tree -/

/-- The text of the tree is read as the tree wherever the tree may stand. -/
structure ReadsBack (limit : Option Nat) (t : Pattern) : Prop where
  item : t.IsItem → ReadsItem limit t
  branch : t.IsBranch → ReadsBranch limit t
  body : ReadsBody limit t

theorem ReadsItem.readsBack (h : ReadsItem limit t) : ReadsBack limit t :=
  ⟨fun _ => h, fun _ => h.readsBranch, h.readsBranch.readsBody⟩

theorem ReadsBranch.readsBack (h : ReadsBranch limit t) (hkind : ¬ t.IsItem) :
    ReadsBack limit t :=
  ⟨fun hitem => absurd hitem hkind, fun _ => h, h.readsBody⟩

theorem Grammatical.readsBack (h : t.Grammatical) : ReadsBack limit t := by
  -- Each constructor asks of its parts the level that the grammar gives them.
  induction h with
  | empty position => exact (readsBranch_empty position).readsBack id
  | literal position c => exact ReadsItem.readsBack fun pos enc lvl _ => reads_escaped pos enc lvl
  | anyChar position => exact (readsItem_anyChar position).readsBack
  | charClass position negated hranges hnormal =>
    have hbefore := hnormal.imp CharRange.before_iff.2
    exact ReadsItem.readsBack fun _ _ _ _ => reads_class hranges hbefore
  | concat position hlength hkind _ ih =>
    have hitems := readsBranch_concat hlength fun p hp => (ih p hp).item (hkind p hp)
    exact (hitems position).readsBack id
  | alternation position hlength hkind _ ih =>
    have hbranches := readsBody_alternation hlength fun p hp => (ih p hp).branch (hkind p hp)
    exact ⟨False.elim, False.elim, hbranches position⟩
  | repetition position hkind _ hmin hmax ih =>
    exact (readsItem_repetition (ih.item hkind) hmin hmax position).readsBack
  | group position _ ih => exact (readsItem_group ih.body position).readsBack

/-- The text of an admissible tree is read as that tree. -/
theorem parseWithin_print (h : t.Admissible limit) :
    parseWithin limit t.print = .ok (t.placed 0) := by
  have hfits : Fits limit [] t.depth := by
    intro n hn
    rw [List.length_nil, Nat.zero_add]
    exact h.depth_le n hn
  obtain ⟨lvl, hreads, hclose⟩ := h.grammatical.readsBack.body 0 [] hfits
  rw [parseWithin_eq_readAll]
  exact bind_eq_ok_iff.2 ⟨_, hreads, bind_eq_ok_iff.2 ⟨_, hclose, rfl⟩⟩

/-- Reading inverts printing: only well-formed trees are read, and the text of every well-formed
    tree is read as that tree, but for the positions. -/
theorem parse_inverts_print :
    (∀ text p, parse text = .ok p → p.WellFormed) ∧
      ∀ t : Pattern, t.WellFormed → ∃ p, parse t.print = .ok p ∧ p.unplaced = t.unplaced :=
  ⟨fun _ _ h => admissible_of_parseWithin_eq_ok h,
    fun t h => ⟨t.placed 0, parseWithin_print h, unplaced_placed 0 t⟩⟩

/-- A text that is read and printed again, with an empty branch, bounds and a class. -/
theorem parse_inverts_print_group :
    let text := "(|a\x7b2,3\x7d)[^\\-x-z]".toList
    let t := Pattern.concat 0 [
      .group 0 (.alternation 1 [.empty 1, .repetition 2 (.literal 2 'a') 2 (some 3)]),
      .charClass 9 true [.single '-', ⟨'x', 'z', by decide⟩]]
    (parse text = .ok t ∧ t.WellFormed) ∧
      ∃ p, parse t.print = .ok p ∧ p.unplaced = t.unplaced := by
  intro text t
  have hread : parse text = .ok t := (parse_eq_readAll text).trans rfl
  have hwell := parse_inverts_print.1 text t hread
  exact ⟨⟨hread, hwell⟩, parse_inverts_print.2 t hwell⟩

end RegularLanguages.Pattern
