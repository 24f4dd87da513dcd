import Mathlib.Data.List.Infix
import RegularLanguages.Proofs.Distinct
import RegularLanguages.Proofs.Exploration

set_option autoImplicit false

/-! # Breadth-first order

Searching breadth first lists the starts, then the successors of the first node listed, then
those of the second, and so on, each node where it is first met. So the list is made of its own
nodes: it holds the first appearances among the starts and the successors of its nodes in turn.
`BreadthFirst` says this of a list without a search, and it determines the list
(`BreadthFirst.eq`). A search finds that list (`breadthFirst_explore`).

A renaming of the nodes takes a breadth-first list to a breadth-first list if the renamed
successors come to the same first appearances (`BreadthFirst.map`). They need not be the same
lists, which is what distinguishes this law from `toList_explore_map`. -/

namespace RegularLanguages

variable {α : Type} {next : α → List α} {starts : List α}

/-- What contains the starts and is closed under successors contains all that is reached. -/
theorem Reached.mem_of_closed {x : α} (h : Reached next starts x) {xs : List α}
    (hstarts : ∀ y ∈ starts, y ∈ xs) (hclosed : ∀ y ∈ xs, ∀ z ∈ next y, z ∈ xs) : x ∈ xs := by
  induction h with
  | start hx => exact hstarts _ hx
  | next _ hy ih => exact hclosed _ ih _ hy

/-! ## Lists in breadth-first order -/

/-- The list holds the nodes that are reached, in the order in which a breadth-first search meets
    them. -/
structure BreadthFirst [DecidableEq α] (next : α → List α) (starts order : List α) : Prop where
  reached : ∀ x ∈ order, Reached next starts x
  eq_novel : order = novel [] (starts ++ order.flatMap next)

namespace BreadthFirst

variable [DecidableEq α] {xs ys : List α}

theorem nodup (h : BreadthFirst next starts xs) : xs.Nodup := by
  rw [h.eq_novel]
  exact nodup_novel _ _

/-- The nodes met while the nodes of a beginning are expanded make up a beginning. -/
theorem isPrefix (h : BreadthFirst next starts xs) {part : List α} (hpart : part <+: xs) :
    novel [] (starts ++ part.flatMap next) <+: xs := by
  have hprefix : starts ++ part.flatMap next <+: starts ++ xs.flatMap next :=
    (List.prefix_append_right_inj starts).2 (hpart.flatMap next)
  have hnovel := novel_isPrefix hprefix []
  rwa [← h.eq_novel] at hnovel

/-- A beginning that the nodes met while it is expanded do not go beyond is all there is. -/
theorem mem_of_isPrefix {part : List α}
    (h : novel [] (starts ++ part.flatMap next) <+: part) {x : α}
    (hx : Reached next starts x) : x ∈ part := by
  have hmet : ∀ y ∈ starts ++ part.flatMap next, y ∈ part := fun y hy =>
    h.subset ((mem_novel _ _ _).2 ⟨hy, List.not_mem_nil⟩)
  refine hx.mem_of_closed (fun y hy => hmet y (List.mem_append_left _ hy)) fun y hy z hz => ?_
  exact hmet z (List.mem_append_right _ (List.mem_flatMap.2 ⟨y, hy, hz⟩))

theorem mem_iff (h : BreadthFirst next starts xs) {x : α} : x ∈ xs ↔ Reached next starts x := by
  refine ⟨h.reached x, mem_of_isPrefix ?_⟩
  exact h.isPrefix (List.prefix_refl xs)

/-- Every beginning of one breadth-first list is a beginning of any other. -/
theorem isPrefix_of_isPrefix (hx : BreadthFirst next starts xs)
    (hy : BreadthFirst next starts ys) (part : List α) (hpart : part <+: xs) : part <+: ys := by
  induction part using List.reverseRecOn with
  | nil => exact List.nil_prefix
  | append_singleton part x ih =>
    have hbefore : part <+: xs := (List.prefix_append part [x]).trans hpart
    -- What is met while `part` is expanded is the same in both lists, and reaches as far as `x`.
    have hmet := hy.isPrefix (ih hbefore)
    rcases List.prefix_or_prefix_of_prefix hpart (hx.isPrefix hbefore) with hle | hle
    · exact hle.trans hmet
    · rcases List.prefix_concat_iff.1 hle with heq | hle
      · rwa [← heq]
      · have hmem : x ∈ part := by
          refine mem_of_isPrefix hle (hx.reached x (hpart.subset ?_))
          exact List.mem_append_right part List.mem_cons_self
        have hnodup : (part ++ [x]).Nodup := hx.nodup.sublist hpart.sublist
        exact absurd rfl ((List.nodup_append.1 hnodup).2.2 x hmem x List.mem_cons_self)

/-- There is only one breadth-first list. -/
theorem eq (hx : BreadthFirst next starts xs) (hy : BreadthFirst next starts ys) : xs = ys := by
  have hxy := hx.isPrefix_of_isPrefix hy xs (List.prefix_refl xs)
  have hyx := hy.isPrefix_of_isPrefix hx ys (List.prefix_refl ys)
  exact hxy.eq_of_length_le hyx.length_le

/-- The renamed list holds the first appearances among the renamed successors. -/
theorem novel_map {β : Type} [DecidableEq β] {f : α → β} (h : BreadthFirst next starts xs)
    (hinj : ∀ x ∈ xs, ∀ y ∈ xs, f x = f y → x = y) :
    novel [] (starts.map f ++ xs.flatMap fun x => (next x).map f) = xs.map f := by
  have hmem : ∀ x ∈ starts ++ xs.flatMap next, x ∈ xs := by
    intro x hx
    rw [h.eq_novel]
    exact (mem_novel _ _ _).2 ⟨hx, List.not_mem_nil⟩
  calc novel [] (starts.map f ++ xs.flatMap fun x => (next x).map f)
      = novel [] ((starts ++ xs.flatMap next).map f) := by
        rw [List.map_append, List.map_flatMap]
    _ = (novel [] (starts ++ xs.flatMap next)).map f :=
        RegularLanguages.novel_map (fun x y hx hy => hinj x hx y hy)
          (fun x hx => absurd hx List.not_mem_nil) hmem
    _ = xs.map f := by rw [← h.eq_novel]

/-- Renamed, a breadth-first list is breadth first for all successors that come to the same first
    appearances as the renamed ones. -/
theorem map {β : Type} [DecidableEq β] {f : α → β} {next' : β → List β}
    (h : BreadthFirst next starts xs) (hinj : ∀ x ∈ xs, ∀ y ∈ xs, f x = f y → x = y)
    (hnext : ∀ x ∈ xs, ∀ y ∈ next x, f y ∈ next' (f x))
    (hnovel : novel [] (starts.map f ++ xs.flatMap fun x => next' (f x))
      = novel [] (starts.map f ++ xs.flatMap fun x => (next x).map f)) :
    BreadthFirst next' (starts.map f) (xs.map f) where
  reached := by
    intro y hy
    obtain ⟨x, hx, rfl⟩ := List.mem_map.1 hy
    have hreached := h.reached x hx
    clear hx hy
    induction hreached with
    | start hx => exact Reached.start (List.mem_map_of_mem hx)
    | next hx hy ih => exact ih.next (hnext _ (h.mem_iff.2 hx) _ hy)
  eq_novel := by rw [List.flatMap_map, hnovel, h.novel_map hinj]

end BreadthFirst

/-! ## Numbers in breadth-first order

When nodes are numbered in the order of a breadth-first search, the numbers themselves are in
breadth-first order for the renumbered successors. -/

section Numbering

variable [Ord α] [DecidableEq α] {order : Numbering α} {x : α}

/-- The search meets the numbers one after another. -/
theorem BreadthFirst.novel_place (h : BreadthFirst next [x] order.toList)
    (hx : order.rank? x = some 0) :
    novel [] ([0] ++ order.toList.flatMap fun y => (next y).map order.place)
      = List.range order.toList.length := by
  have hnovel := h.novel_map fun y hy z hz =>
    Numbering.place_inj (Numbering.mem_toList.1 hy) (Numbering.mem_toList.1 hz)
  rwa [List.map_singleton, Numbering.place_of_rank? hx, Numbering.toList_map_place] at hnovel

/-- The numbers are in breadth-first order for all successors that are met in the order of the
    renumbered ones. -/
theorem BreadthFirst.range {next' : Nat → List Nat} (h : BreadthFirst next [x] order.toList)
    (hx : order.rank? x = some 0)
    (hnext : ∀ y ∈ order.toList, ∀ z ∈ next y, order.place z ∈ next' (order.place y))
    (hnovel : novel [] ([0] ++ order.toList.flatMap fun y => next' (order.place y))
      = novel [] ([0] ++ order.toList.flatMap fun y => (next y).map order.place)) :
    BreadthFirst next' [0] (List.range order.toList.length) := by
  have hstart : [x].map order.place = [0] := by
    rw [List.map_singleton, Numbering.place_of_rank? hx]
  rw [← hstart] at hnovel
  have hmap := h.map (fun y hy z hz =>
    Numbering.place_inj (Numbering.mem_toList.1 hy) (Numbering.mem_toList.1 hz)) hnext hnovel
  rwa [hstart, Numbering.toList_map_place] at hmap

end Numbering

/-! ## Breadth-first searches

A search that expands the oldest node first keeps the nodes met in one line: those expanded, then
those that wait. -/

variable [Ord α] [Std.TransOrd α] [Std.LawfulEqOrd α]

namespace Exploration

theorem toList_found_foldl_meet {expanded : List α} (xs : List α) {e : Exploration α}
    (h : e.found.toList = expanded ++ e.waiting.toList) :
    (xs.foldl (meet .oldestFirst) e).found.toList
      = expanded ++ (xs.foldl (meet .oldestFirst) e).waiting.toList := by
  induction xs generalizing e with
  | nil => exact h
  | cons x xs ih =>
    refine ih ?_
    unfold meet
    split
    · exact h
    · rename_i hx
      show (e.found.add x).toList = expanded ++ (e.waiting.pushBack x).toList
      rw [Numbering.toList_add, if_neg hx, Waiting.toList_pushBack, h, List.append_assoc]

variable [DecidableEq α]

/-- What holds throughout a breadth-first search that has expanded the listed nodes. -/
structure InLine (next : α → List α) (starts expanded : List α) (e : Exploration α) : Prop where
  found_eq : e.found.toList = expanded ++ e.waiting.toList
  found_novel : e.found.toList = novel [] (starts ++ expanded.flatMap next)

theorem inLine_start : InLine next starts [] (start .oldestFirst starts) where
  found_eq := toList_found_foldl_meet starts rfl
  found_novel := by
    rw [start, found_foldl_meet, Numbering.toList_addAll, List.flatMap_nil, List.append_nil]
    rfl

/-- Expanding the oldest node keeps the search in line. -/
theorem InLine.expand {expanded : List α} {e : Exploration α} (h : InLine next starts expanded e)
    {x : α} {waiting : Waiting α} (hpop : e.waiting.pop? = some (x, waiting)) :
    InLine next starts (expanded ++ [x])
      ((next x).foldl (meet .oldestFirst) { e with waiting }) := by
  have hlist : e.waiting.toList = x :: waiting.toList := Waiting.toList_of_pop? hpop
  constructor
  · refine toList_found_foldl_meet (next x) ?_
    show e.found.toList = expanded ++ [x] ++ waiting.toList
    rw [h.found_eq, hlist, List.append_assoc, List.singleton_append]
  · rw [found_foldl_meet, Numbering.toList_addAll]
    show e.found.toList ++ novel e.found.toList (next x) = _
    rw [List.flatMap_append, List.flatMap_singleton, ← List.append_assoc, novel_append,
      ← h.found_novel]
    refine congrArg _ (novel_congr (fun y => ?_) (next x))
    rw [h.found_novel, mem_novel, List.append_nil]
    exact and_iff_left List.not_mem_nil

theorem InLine.run {expanded : List α} {e : Exploration α} (h : InLine next starts expanded e)
    (budget : Nat) :
    ∃ all, InLine next starts all (Exploration.run .oldestFirst next budget e) := by
  induction budget generalizing expanded e with
  | zero => exact ⟨expanded, h⟩
  | succ budget ih =>
    unfold Exploration.run
    split
    · exact ⟨expanded, h⟩
    · rename_i hpop
      exact ih (h.expand hpop)

end Exploration

/-- With a budget for all nodes there are, a search that expands the oldest node first finds them
    in breadth-first order. -/
theorem breadthFirst_explore [DecidableEq α] {budget : Nat}
    (hbudget : ∀ xs : List α, xs.Nodup → (∀ x ∈ xs, Reached next starts x) → xs.length ≤ budget) :
    BreadthFirst next starts (explore .oldestFirst next budget starts).toList := by
  have hsound : Exploration.Sound next starts [] (Exploration.start .oldestFirst starts) :=
    Exploration.sound_start
  obtain ⟨_, _, hwaiting⟩ := hsound.run budget (by simpa using hbudget)
  have hstart : Exploration.InLine next starts [] (Exploration.start .oldestFirst starts) :=
    Exploration.inLine_start
  obtain ⟨all, hline⟩ := hstart.run budget
  have hall := hline.found_eq
  rw [hwaiting, List.append_nil] at hall
  constructor
  · intro x hx
    exact (mem_explore_iff hbudget).1 (Numbering.mem_toList.1 hx)
  · show (Exploration.run .oldestFirst next budget _).found.toList = _
    unfold explore
    rw [hall]
    exact hall.symm.trans hline.found_novel

end RegularLanguages
