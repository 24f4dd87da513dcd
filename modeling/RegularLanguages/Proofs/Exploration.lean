import Mathlib.Data.List.Nodup
import RegularLanguages.Exploration

set_option autoImplicit false

/-! # What an exploration finds

`explore` is run with a budget and expands the waiting nodes in one of two orders. This file
shows that neither matters for the set of nodes found: with a budget that is not smaller than
the number of nodes there are, `explore` finds exactly the nodes that can be reached
(`mem_explore_iff`).

The order matters for the numbering. `toList_explore_map` says that an injective renaming of
the nodes renames the list of found nodes and does nothing else, and `explore_cons` that the
first start has number 0. -/

namespace RegularLanguages

/-- The nodes that can be reached from `starts` along `next`. -/
inductive Reached {α : Type} (next : α → List α) (starts : List α) : α → Prop where
  | start {x : α} : x ∈ starts → Reached next starts x
  | next {x y : α} : Reached next starts x → y ∈ next x → Reached next starts y

/-! ## Numberings -/

namespace Numbering

variable {α : Type} [Ord α]

theorem mem_iff_exists_rank? {n : Numbering α} {x : α} : x ∈ n ↔ ∃ i, n.rank? x = some i := by
  show (n.rank? x).isSome ↔ _
  rw [Option.isSome_iff_exists]

theorem mem_of_rank? {n : Numbering α} {x : α} {i : Nat} (h : n.rank? x = some i) : x ∈ n :=
  mem_iff_exists_rank?.2 ⟨i, h⟩

theorem rank?_eq_none_iff {n : Numbering α} {x : α} : n.rank? x = none ↔ x ∉ n := by
  show _ ↔ ¬(n.rank? x).isSome
  rw [Option.not_isSome_iff_eq_none]

theorem rank?_lt_length {n : Numbering α} {x : α} {i : Nat} (h : n.rank? x = some i) :
    i < n.toList.length := by
  rw [rank?_eq_some_iff] at h
  exact (List.getElem?_eq_some_iff.1 h).1

theorem exists_rank?_of_lt_length {n : Numbering α} {i : Nat} (h : i < n.toList.length) :
    ∃ x, n.rank? x = some i :=
  ⟨n.toList[i], rank?_eq_some_iff.2 (List.getElem?_eq_getElem h)⟩

theorem rank?_inj {n : Numbering α} {x y : α} {i : Nat} (hx : n.rank? x = some i)
    (hy : n.rank? y = some i) : x = y := by
  rw [rank?_eq_some_iff] at hx hy
  exact Option.some.inj (hx.symm.trans hy)

theorem exists_rank?_eq_iff {n : Numbering α} {P : α → Prop} {x : α} {i : Nat}
    (h : n.rank? x = some i) : (∃ y, P y ∧ n.rank? y = some i) ↔ P x := by
  refine ⟨fun hy => ?_, fun hx => ⟨x, hx, h⟩⟩
  obtain ⟨y, hy, hrank⟩ := hy
  rwa [rank?_inj hrank h] at hy

/-- The number of an element; what has none gets 0. -/
def place (n : Numbering α) (x : α) : Nat := (n.rank? x).getD 0

theorem place_of_rank? {n : Numbering α} {x : α} {i : Nat} (h : n.rank? x = some i) :
    n.place x = i := by
  rw [place, h]
  rfl

theorem rank?_of_mem {n : Numbering α} {x : α} (h : x ∈ n) : n.rank? x = some (n.place x) := by
  obtain ⟨i, hi⟩ := mem_iff_exists_rank?.1 h
  rw [hi, place_of_rank? hi]

theorem place_inj {n : Numbering α} {x y : α} (hx : x ∈ n) (hy : y ∈ n)
    (h : n.place x = n.place y) : x = y :=
  rank?_inj (rank?_of_mem hx) (h ▸ rank?_of_mem hy)

/-- The elements of a numbering have the numbers from 0 on. -/
theorem toList_map_place (n : Numbering α) :
    n.toList.map n.place = List.range n.toList.length := by
  refine List.ext_getElem (by simp) fun i hi _ => ?_
  rw [List.length_map] at hi
  have hrank : n.rank? n.toList[i] = some i := rank?_eq_some_iff.2 (List.getElem?_eq_getElem hi)
  rw [List.getElem_map, place_of_rank? hrank, List.getElem_range]

theorem rank?_of_toList_eq_range {order : Numbering Nat} {n i : Nat}
    (h : order.toList = List.range n) (hi : i < n) : order.rank? i = some i := by
  rw [rank?_eq_some_iff, h, List.getElem?_range hi]

variable [Std.TransOrd α] [Std.LawfulEqOrd α]

theorem mem_addAll {n : Numbering α} {xs : List α} {y : α} :
    y ∈ n.addAll xs ↔ y ∈ n ∨ y ∈ xs := by
  induction xs generalizing n with
  | nil => simp [addAll]
  | cons x xs ih =>
    show y ∈ (n.add x).addAll xs ↔ _
    rw [ih, mem_add, List.mem_cons, or_assoc]

theorem add_of_mem {n : Numbering α} {x : α} (h : x ∈ n) : n.add x = n := by
  unfold add
  exact dif_pos h

/-- A new element gets the next number, and the others keep theirs. -/
theorem rank?_add_of_not_mem [DecidableEq α] {n : Numbering α} {x : α} (hx : x ∉ n) (y : α) :
    (n.add x).rank? y = if x = y then some n.toList.length else n.rank? y := by
  unfold add
  rw [dif_neg hx]
  show (n.ranks.insert x n.items.size)[y]? = _
  rw [Std.TreeMap.getElem?_insert]
  simp only [Std.LawfulEqOrd.compare_eq_iff_eq, toList, Array.length_toList]
  rfl

/-- Adding only extends the list of elements. -/
theorem exists_toList_addAll (n : Numbering α) (xs : List α) :
    ∃ rest, (n.addAll xs).toList = n.toList ++ rest := by
  induction xs generalizing n with
  | nil => exact ⟨[], (List.append_nil _).symm⟩
  | cons x xs ih =>
    obtain ⟨rest, hrest⟩ := ih (n.add x)
    have hadd : (n.addAll (x :: xs)).toList = (n.add x).toList ++ rest := hrest
    rw [toList_add] at hadd
    split at hadd
    · exact ⟨rest, hadd⟩
    · exact ⟨x :: rest, by rw [hadd, List.append_assoc]; rfl⟩

end Numbering

theorem Frontier.perm_toList_push {α : Type} (frontier : Frontier) (waiting : Waiting α) (x : α) :
    (frontier.push waiting x).toList.Perm (x :: waiting.toList) := by
  cases frontier with
  | newestFirst => exact List.Perm.refl _
  | oldestFirst =>
    show (waiting.pushBack x).toList.Perm _
    rw [Waiting.toList_pushBack]
    exact List.perm_append_singleton x _

variable {α : Type} [Ord α] [Std.TransOrd α] [Std.LawfulEqOrd α]

namespace Exploration

variable {next : α → List α} {starts : List α} {frontier : Frontier}

/-! ## One meeting -/

theorem found_meet (e : Exploration α) (x : α) :
    (meet frontier e x).found = e.found.add x := by
  unfold meet
  split
  · rename_i h
    exact (Numbering.add_of_mem h).symm
  · rfl

theorem found_foldl_meet (e : Exploration α) (xs : List α) :
    (xs.foldl (meet frontier) e).found = e.found.addAll xs := by
  induction xs generalizing e with
  | nil => rfl
  | cons x xs ih =>
    rw [List.foldl_cons, ih, found_meet]
    rfl

theorem mem_waiting_foldl_meet {e : Exploration α} {xs : List α} {y : α}
    (hy : y ∈ (xs.foldl (meet frontier) e).waiting.toList) :
    y ∈ e.waiting.toList ∨ y ∈ xs := by
  induction xs generalizing e with
  | nil => exact Or.inl hy
  | cons x xs ih =>
    rcases ih hy with hy | hy
    · unfold meet at hy
      split at hy
      · exact Or.inl hy
      · rcases List.mem_cons.1 ((frontier.perm_toList_push e.waiting x).mem_iff.1 hy) with rfl | hy
        · exact Or.inr List.mem_cons_self
        · exact Or.inl hy
    · exact Or.inr (List.mem_cons_of_mem x hy)

/-! ## The search finds what can be reached

Every node that was met is either expanded or waits. When the search has `done` some nodes, the
rest of the budget is enough for the nodes that are left, so at the end nothing waits. -/

/-- What holds throughout a search that has expanded the nodes of `done`. -/
structure Sound (next : α → List α) (starts : List α) (done : List α) (e : Exploration α) :
    Prop where
  perm : e.found.toList.Perm (done ++ e.waiting.toList)
  reached : ∀ x ∈ e.found, Reached next starts x
  expanded : ∀ x ∈ done, ∀ y ∈ next x, y ∈ e.found

theorem perm_meet {done : List α} {e : Exploration α} (x : α)
    (h : e.found.toList.Perm (done ++ e.waiting.toList)) :
    (meet frontier e x).found.toList.Perm (done ++ (meet frontier e x).waiting.toList) := by
  unfold meet
  split
  · exact h
  · rename_i hx
    have hpush : (e.found.add x).toList = e.found.toList ++ [x] := by
      rw [Numbering.toList_add, if_neg hx]
    have hmid : (done ++ x :: e.waiting.toList).Perm (x :: (done ++ e.waiting.toList)) :=
      List.perm_middle
    show (e.found.add x).toList.Perm (done ++ (frontier.push e.waiting x).toList)
    rw [hpush]
    -- The node joins both sides, at different places.
    calc (e.found.toList ++ [x]).Perm (x :: e.found.toList) := List.perm_append_singleton x _
      _ |>.Perm (x :: (done ++ e.waiting.toList)) := h.cons x
      _ |>.Perm (done ++ x :: e.waiting.toList) := hmid.symm
      _ |>.Perm _ := (frontier.perm_toList_push e.waiting x).symm.append_left done

theorem perm_foldl_meet {done : List α} (xs : List α) {e : Exploration α}
    (h : e.found.toList.Perm (done ++ e.waiting.toList)) :
    (xs.foldl (meet frontier) e).found.toList.Perm
      (done ++ (xs.foldl (meet frontier) e).waiting.toList) := by
  induction xs generalizing e with
  | nil => exact h
  | cons x xs ih => exact ih (perm_meet x h)

theorem sound_start : Sound next starts [] (start frontier starts) := by
  have hfound : (start frontier starts).found = Numbering.empty.addAll starts :=
    found_foldl_meet _ starts
  refine ⟨perm_foldl_meet starts (List.Perm.refl _), ?_, ?_⟩
  · intro x hx
    rw [hfound, Numbering.mem_addAll] at hx
    rcases hx with hx | hx
    · rw [← Numbering.mem_toList, Numbering.toList_empty] at hx
      exact absurd hx List.not_mem_nil
    · exact Reached.start hx
  · intro x hx
    exact absurd hx List.not_mem_nil

/-- Expanding the next waiting node keeps the search sound. -/
theorem Sound.expand {done : List α} {e : Exploration α} (h : Sound next starts done e)
    {x : α} {waiting : Waiting α} (hpop : e.waiting.pop? = some (x, waiting)) :
    Sound next starts (done ++ [x]) ((next x).foldl (meet frontier) { e with waiting }) := by
  have hlist : e.waiting.toList = x :: waiting.toList := Waiting.toList_of_pop? hpop
  have hperm : e.found.toList.Perm ((done ++ [x]) ++ waiting.toList) := by
    rw [List.append_assoc, List.singleton_append, ← hlist]
    exact h.perm
  have hx : x ∈ e.found := by
    rw [← Numbering.mem_toList, hperm.mem_iff]
    simp
  refine ⟨perm_foldl_meet (next x) hperm, ?_, ?_⟩
  · intro y hy
    rw [found_foldl_meet, Numbering.mem_addAll] at hy
    rcases hy with hy | hy
    · exact h.reached y hy
    · exact Reached.next (h.reached x hx) hy
  · intro z hz y hy
    rw [found_foldl_meet, Numbering.mem_addAll]
    rcases List.mem_append.1 hz with hz | hz
    · exact Or.inl (h.expanded z hz y hy)
    · rw [List.mem_singleton.1 hz] at hy
      exact Or.inr hy

theorem Sound.run {done : List α} {e : Exploration α} (budget : Nat)
    (h : Sound next starts done e)
    (hbudget : ∀ xs : List α, xs.Nodup → (∀ x ∈ xs, Reached next starts x) →
      xs.length ≤ done.length + budget) :
    ∃ all, Sound next starts all (run frontier next budget e) ∧
      (run frontier next budget e).waiting.toList = [] := by
  induction budget generalizing done e with
  | zero =>
    refine ⟨done, h, ?_⟩
    -- What was found is a list that the budget bounds, so there is no room for a waiting node.
    have hall : e.found.toList.length ≤ done.length :=
      hbudget _ e.found.nodup_toList fun x hx => h.reached x (Numbering.mem_toList.1 hx)
    rw [h.perm.length_eq, List.length_append] at hall
    exact List.eq_nil_of_length_eq_zero (by show e.waiting.toList.length = 0; omega)
  | succ budget ih =>
    unfold Exploration.run
    split
    · rename_i hpop
      exact ⟨done, h, Waiting.pop?_eq_none_iff.1 hpop⟩
    · rename_i x waiting hpop
      refine ih (h.expand hpop) fun xs hnodup hxs => ?_
      have := hbudget xs hnodup hxs
      rw [List.length_append, List.length_singleton]
      omega

theorem exists_found_run (frontier : Frontier) (next : α → List α) (budget : Nat)
    (e : Exploration α) :
    ∃ rest, (run frontier next budget e).found.toList = e.found.toList ++ rest := by
  induction budget generalizing e with
  | zero => exact ⟨[], (List.append_nil _).symm⟩
  | succ budget ih =>
    unfold run
    split
    · exact ⟨[], (List.append_nil _).symm⟩
    · rename_i x waiting hpop
      obtain ⟨rest, hrest⟩ := ih ((next x).foldl (meet frontier) { e with waiting })
      rw [found_foldl_meet] at hrest
      obtain ⟨met, hmet⟩ := e.found.exists_toList_addAll (next x)
      exact ⟨met ++ rest, by rw [hrest, hmet, List.append_assoc]⟩

end Exploration

/-- With a budget for all nodes there are, `explore` finds what can be reached. -/
theorem mem_explore_iff {frontier : Frontier} {next : α → List α} {budget : Nat}
    {starts : List α} (hbudget : ∀ xs : List α, xs.Nodup → (∀ x ∈ xs, Reached next starts x) →
      xs.length ≤ budget) {x : α} :
    x ∈ explore frontier next budget starts ↔ Reached next starts x := by
  have hstart : Exploration.Sound next starts [] (Exploration.start frontier starts) :=
    Exploration.sound_start
  obtain ⟨all, hsound, hwaiting⟩ := hstart.run budget (by simpa using hbudget)
  have hperm := hsound.perm
  rw [hwaiting, List.append_nil] at hperm
  constructor
  · exact hsound.reached x
  · intro h
    induction h with
    | start hx =>
      obtain ⟨rest, hrest⟩ := Exploration.exists_found_run frontier next budget
        (Exploration.start frontier starts)
      rw [← Numbering.mem_toList]
      show _ ∈ (Exploration.run frontier next budget _).found.toList
      rw [hrest, List.mem_append, Numbering.mem_toList, Exploration.start,
        Exploration.found_foldl_meet, Numbering.mem_addAll]
      exact Or.inl (Or.inr hx)
    | next _ hy ih =>
      rw [← Numbering.mem_toList] at ih
      exact hsound.expanded _ (hperm.mem_iff.1 ih) _ hy

/-- The first start comes first. -/
theorem explore_cons (frontier : Frontier) (next : α → List α) (budget : Nat) (x : α)
    (starts : List α) :
    ∃ rest, (explore frontier next budget (x :: starts)).toList = x :: rest := by
  obtain ⟨met, hmet⟩ := Exploration.exists_found_run frontier next budget
    (Exploration.start frontier (x :: starts))
  have hstart : (Exploration.start frontier (x :: starts)).found
      = (Numbering.empty.add x).addAll starts := Exploration.found_foldl_meet _ (x :: starts)
  obtain ⟨others, hothers⟩ := (Numbering.empty.add x).exists_toList_addAll starts
  have hx : (Numbering.empty.add x).toList = [x] := by
    rw [Numbering.toList_add]
    split
    · rename_i h
      rw [← Numbering.mem_toList, Numbering.toList_empty] at h
      exact absurd h List.not_mem_nil
    · rfl
  exact ⟨others ++ met, by rw [explore, hmet, hstart, hothers, hx]; rfl⟩

theorem rank?_explore_cons (frontier : Frontier) (next : α → List α) (budget : Nat) (x : α)
    (starts : List α) : (explore frontier next budget (x :: starts)).rank? x = some 0 := by
  obtain ⟨rest, hrest⟩ := explore_cons frontier next budget x starts
  rw [Numbering.rank?_eq_some_iff, hrest]
  rfl

/-! ## Renaming the nodes

Two searches run in step when one of them walks over renamed nodes. Two different nodes that
the first search meets need different names, for a second meeting must be one in both. -/

namespace Exploration

variable {β : Type} [Ord β] [Std.TransOrd β] [Std.LawfulEqOrd β]

/-- The second search stands where the first one stands, with every node renamed by `f`. -/
structure Renames (f : α → β) (e : Exploration α) (e' : Exploration β) : Prop where
  found : e'.found.toList = e.found.toList.map f
  waiting : e'.waiting.toList = e.waiting.toList.map f

omit [Std.TransOrd α] [Std.LawfulEqOrd α] [Std.TransOrd β] [Std.LawfulEqOrd β] in
theorem Renames.mem_iff {f : α → β} {e : Exploration α} {e' : Exploration β} {x : α}
    (h : Renames f e e') (hinj : ∀ y ∈ e.found, f y = f x → y = x) :
    f x ∈ e'.found ↔ x ∈ e.found := by
  rw [← Numbering.mem_toList, h.found, List.mem_map]
  constructor
  · rintro ⟨y, hy, hyx⟩
    rw [Numbering.mem_toList] at hy
    rwa [← hinj y hy hyx]
  · intro hx
    exact ⟨x, Numbering.mem_toList.2 hx, rfl⟩

theorem Renames.meet {f : α → β} {e : Exploration α} {e' : Exploration β} {x : α}
    (frontier : Frontier) (h : Renames f e e') (hinj : ∀ y ∈ e.found, f y = f x → y = x) :
    Renames f (meet frontier e x) (meet frontier e' (f x)) := by
  have hmem := h.mem_iff hinj
  unfold Exploration.meet
  by_cases hx : x ∈ e.found
  · rw [if_pos hx, if_pos (hmem.2 hx)]
    exact h
  · have hx' : f x ∉ e'.found := fun hc => hx (hmem.1 hc)
    rw [if_neg hx, if_neg hx']
    constructor
    · show (e'.found.add (f x)).toList = (e.found.add x).toList.map f
      rw [Numbering.toList_add, if_neg hx', Numbering.toList_add, if_neg hx, h.found,
        List.map_append, List.map_singleton]
    · show (frontier.push e'.waiting (f x)).toList = (frontier.push e.waiting x).toList.map f
      cases frontier with
      | newestFirst => exact congrArg (f x :: ·) h.waiting
      | oldestFirst =>
        show (e'.waiting.pushBack (f x)).toList = (e.waiting.pushBack x).toList.map f
        rw [Waiting.toList_pushBack, Waiting.toList_pushBack, h.waiting, List.map_append,
          List.map_singleton]

theorem Renames.foldl_meet {f : α → β} {P : α → Prop} (frontier : Frontier)
    (hinj : ∀ x y, P x → P y → f x = f y → x = y) (xs : List α) {e : Exploration α}
    {e' : Exploration β} (h : Renames f e e') (he : ∀ x ∈ e.found, P x) (hxs : ∀ x ∈ xs, P x) :
    Renames f (xs.foldl (Exploration.meet frontier) e)
      ((xs.map f).foldl (Exploration.meet frontier) e') := by
  induction xs generalizing e e' with
  | nil => exact h
  | cons x xs ih =>
    obtain ⟨hx, hrest⟩ := List.forall_mem_cons.1 hxs
    refine ih (h.meet frontier fun y hy => hinj y x (he y hy) hx) (fun y hy => ?_) hrest
    rw [found_meet, Numbering.mem_add] at hy
    rcases hy with hy | rfl
    · exact he y hy
    · exact hx

omit [Std.TransOrd α] [Std.LawfulEqOrd α] [Std.TransOrd β] [Std.LawfulEqOrd β] in
/-- In the second search nothing waits either. -/
theorem Renames.pop?_eq_none {f : α → β} {e : Exploration α} {e' : Exploration β}
    (h : Renames f e e') (hpop : e.waiting.pop? = none) : e'.waiting.pop? = none := by
  rw [Waiting.pop?_eq_none_iff] at hpop ⊢
  rw [h.waiting, hpop, List.map_nil]

omit [Std.TransOrd α] [Std.LawfulEqOrd α] [Std.TransOrd β] [Std.LawfulEqOrd β] in
/-- In the second search the renamed node leaves the line. -/
theorem Renames.pop?_eq_some {f : α → β} {e : Exploration α} {e' : Exploration β}
    (h : Renames f e e') {x : α} {waiting : Waiting α} (hpop : e.waiting.pop? = some (x, waiting)) :
    ∃ waiting', e'.waiting.pop? = some (f x, waiting') ∧
      Renames f { e with waiting } { e' with waiting := waiting' } := by
  have hlist := Waiting.toList_of_pop? hpop
  cases hpop' : e'.waiting.pop? with
  | none =>
    have hempty := Waiting.pop?_eq_none_iff.1 hpop'
    rw [h.waiting, hlist] at hempty
    exact absurd hempty (List.cons_ne_nil _ _)
  | some popped' =>
    obtain ⟨x', waiting'⟩ := popped'
    have hlist' := Waiting.toList_of_pop? hpop'
    rw [h.waiting, hlist, List.map_cons, List.cons.injEq] at hlist'
    obtain ⟨rfl, hrest⟩ := hlist'
    exact ⟨waiting', rfl, h.found, hrest.symm⟩

theorem Renames.run {f : α → β} {P : α → Prop} {next : α → List α} {next' : β → List β}
    (frontier : Frontier) (hinj : ∀ x y, P x → P y → f x = f y → x = y)
    (hclosed : ∀ x, P x → ∀ y ∈ next x, P y) (hnext : ∀ x, P x → next' (f x) = (next x).map f)
    (budget : Nat) {e : Exploration α} {e' : Exploration β} (h : Renames f e e')
    (he : ∀ x ∈ e.found, P x) (hw : ∀ x ∈ e.waiting.toList, P x) :
    Renames f (run frontier next budget e) (run frontier next' budget e') := by
  induction budget generalizing e e' with
  | zero => exact h
  | succ budget ih =>
    unfold Exploration.run
    cases hpop : e.waiting.pop? with
    | none =>
      rw [h.pop?_eq_none hpop]
      exact h
    | some popped =>
      obtain ⟨x, waiting⟩ := popped
      obtain ⟨waiting', hpop', hsame⟩ := h.pop?_eq_some hpop
      have hlist : e.waiting.toList = x :: waiting.toList := Waiting.toList_of_pop? hpop
      have hx : P x := hw x (hlist ▸ List.mem_cons_self)
      rw [hpop']
      show Renames f (Exploration.run frontier next budget _)
        (Exploration.run frontier next' budget ((next' (f x)).foldl _ _))
      rw [hnext x hx]
      refine ih (hsame.foldl_meet frontier hinj (next x) he (hclosed x hx)) ?_ ?_
      · intro y hy
        rw [found_foldl_meet, Numbering.mem_addAll] at hy
        rcases hy with hy | hy
        · exact he y hy
        · exact hclosed x hx y hy
      · intro y hy
        rcases mem_waiting_foldl_meet hy with hy | hy
        · exact hw y (hlist ▸ List.mem_cons_of_mem x hy)
        · exact hclosed x hx y hy

end Exploration

/-- Renaming the nodes of a search renames the nodes found, which keep their numbers. -/
theorem toList_explore_map {β : Type} [Ord β] [Std.TransOrd β] [Std.LawfulEqOrd β] {f : α → β}
    {next : α → List α} {next' : β → List β} (frontier : Frontier) (budget : Nat)
    {starts : List α}
    (hinj : ∀ x y, Reached next starts x → Reached next starts y → f x = f y → x = y)
    (hnext : ∀ x, Reached next starts x → next' (f x) = (next x).map f) :
    (explore frontier next' budget (starts.map f)).toList
      = (explore frontier next budget starts).toList.map f := by
  have hbegin : Exploration.Renames f (Exploration.start frontier starts)
      (Exploration.start frontier (starts.map f)) :=
    Exploration.Renames.foldl_meet frontier hinj starts ⟨rfl, rfl⟩
      (fun x hx => absurd (Numbering.mem_toList.2 hx) List.not_mem_nil)
      (fun x hx => Reached.start hx)
  have hsound : Exploration.Sound next starts [] (Exploration.start frontier starts) :=
    Exploration.sound_start
  refine (hbegin.run frontier hinj (fun x hx y hy => Reached.next hx hy) hnext budget
    hsound.reached fun x hx => ?_).found
  have hmem := hsound.perm.mem_iff.2 (List.mem_append_right [] hx)
  exact hsound.reached x (Numbering.mem_toList.1 hmem)

end RegularLanguages
