import Std.Data.TreeMap
import RegularLanguages.Distinct

set_option autoImplicit false

/-! # Numberings

A construction that discovers its states one after another has to know, for each state it
meets, whether it has met it before and under which number. A numbering answers both without
walking through the states met so far: it holds different elements in the order in which they
were added, and beside them an ordered map from each element to its place.

`toList` is what a numbering means. The laws say what each operation does to it: the number of
an element is its place (`rank?_eq_some_iff`), adding an element that is new appends it
(`toList_add`), and adding many keeps the first meetings (`toList_addAll`). -/

namespace RegularLanguages

/-- Different elements, numbered `0, 1, …` in the order in which they were added. -/
structure Numbering (α : Type) [Ord α] where
  items : Array α
  ranks : Std.TreeMap α Nat
  rank_iff : ∀ (x : α) (i : Nat), ranks[x]? = some i ↔ items[i]? = some x

namespace Numbering

variable {α : Type} [Ord α]

/-! ## Looking -/

/-- The elements in the order of their numbers. -/
def toList (n : Numbering α) : List α := n.items.toList

/-- The number of an element. -/
def rank? (n : Numbering α) (x : α) : Option Nat := n.ranks[x]?

instance : Membership α (Numbering α) := ⟨fun n x => (n.rank? x).isSome⟩

instance (n : Numbering α) (x : α) : Decidable (x ∈ n) :=
  inferInstanceAs (Decidable ((n.rank? x).isSome))

theorem rank?_eq_some_iff {n : Numbering α} {x : α} {i : Nat} :
    n.rank? x = some i ↔ n.toList[i]? = some x := by
  rw [toList, Array.getElem?_toList]
  exact n.rank_iff x i

@[simp] theorem mem_toList {n : Numbering α} {x : α} : x ∈ n.toList ↔ x ∈ n := by
  rw [List.mem_iff_getElem?]
  show _ ↔ (n.rank? x).isSome
  rw [Option.isSome_iff_exists]
  exact exists_congr fun i => rank?_eq_some_iff.symm

theorem nodup_toList (n : Numbering α) : n.toList.Nodup := by
  rw [List.nodup_iff_pairwise_ne, List.pairwise_iff_getElem]
  intro i j hi hj hij h
  have hx : n.rank? n.toList[i] = some i := rank?_eq_some_iff.2 (List.getElem?_eq_getElem hi)
  have hy : n.rank? n.toList[j] = some j := rank?_eq_some_iff.2 (List.getElem?_eq_getElem hj)
  rw [h, hy] at hx
  exact absurd (Option.some.inj hx) (Nat.ne_of_gt hij)

variable [Std.TransOrd α] [Std.LawfulEqOrd α]

/-- The elements in ascending order. -/
def sorted (n : Numbering α) : List α := n.ranks.keys

@[simp] theorem mem_sorted {n : Numbering α} {x : α} : x ∈ n.sorted ↔ x ∈ n :=
  Std.TreeMap.mem_keys.trans Std.TreeMap.mem_iff_isSome_getElem?

omit [Std.LawfulEqOrd α] in
theorem pairwise_sorted (n : Numbering α) : n.sorted.Pairwise fun x y => compare x y = .lt :=
  Std.TreeMap.ordered_keys

/-! ## Adding -/

/-- No elements. -/
def empty : Numbering α := ⟨#[], ∅, by simp⟩

/-- The places stay right when a new element goes to the end. -/
theorem rank_iff_push {items : Array α} {ranks : Std.TreeMap α Nat}
    (h : ∀ (x : α) (i : Nat), ranks[x]? = some i ↔ items[i]? = some x)
    {x : α} (hx : ranks[x]? = none) (y : α) (i : Nat) :
    (ranks.insert x items.size)[y]? = some i ↔ (items.push x)[i]? = some y := by
  rw [Std.TreeMap.getElem?_insert, Array.getElem?_push]
  by_cases hxy : compare x y = .eq
  · cases Std.LawfulEqOrd.eq_of_compare hxy
    by_cases hi : i = items.size
    · simp [hi]
    · have hne : items[i]? ≠ some x := fun e => by simp [(h x i).2 e] at hx
      simp [hi, hne, Ne.symm hi]
  · have hne : x ≠ y := fun e => hxy (e ▸ Std.ReflCmp.compare_self)
    by_cases hi : i = items.size
    · have := h y i
      simp [hi] at this
      simp [hi, hxy, hne, this]
    · simpa [hi, hxy] using h y i

/-- Gives `x` the next number, unless it has one. -/
def add (n : Numbering α) (x : α) : Numbering α :=
  if h : x ∈ n then n
  else
    -- The size is read before the push, so that the array is extended in place.
    let rank := n.items.size
    { items := n.items.push x
      ranks := n.ranks.insert x rank
      rank_iff := rank_iff_push n.rank_iff (Option.not_isSome_iff_eq_none.1 h) }

/-- Adds elements one after another. -/
def addAll (n : Numbering α) (xs : List α) : Numbering α := xs.foldl add n

/-- The elements of a list, numbered in the order of their first appearance. -/
def ofList (xs : List α) : Numbering α := empty.addAll xs

omit [Std.LawfulEqOrd α] in
@[simp] theorem toList_empty : (empty : Numbering α).toList = [] := rfl

theorem toList_add (n : Numbering α) (x : α) :
    (n.add x).toList = if x ∈ n then n.toList else n.toList ++ [x] := by
  unfold add
  split <;> simp [toList]

@[simp] theorem mem_add {n : Numbering α} {x y : α} : y ∈ n.add x ↔ y ∈ n ∨ y = x := by
  rw [← mem_toList, toList_add]
  split
  · rename_i hx
    rw [mem_toList]
    exact ⟨Or.inl, fun h => h.elim id fun e => e ▸ hx⟩
  · simp

theorem toList_addAll [DecidableEq α] (n : Numbering α) (xs : List α) :
    (n.addAll xs).toList = n.toList ++ novel n.toList xs := by
  induction xs generalizing n with
  | nil => simp [addAll]
  | cons x xs ih =>
    show ((n.add x).addAll xs).toList = _
    rw [ih, toList_add, novel]
    by_cases hx : x ∈ n
    · simp [hx]
    · have hs : ∀ y, y ∈ n.toList ++ [x] ↔ y ∈ x :: n.toList := fun y => by simp [or_comm]
      simp [hx, novel_congr hs]

theorem toList_ofList [DecidableEq α] (xs : List α) : (ofList xs).toList = novel [] xs := by
  simp [ofList, toList_addAll]

@[simp] theorem mem_ofList [DecidableEq α] {xs : List α} {x : α} : x ∈ ofList xs ↔ x ∈ xs := by
  rw [← mem_toList, toList_ofList]
  simp

end Numbering

end RegularLanguages
