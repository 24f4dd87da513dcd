import Mathlib.Data.List.Sort
import RegularLanguages.Distinct

set_option autoImplicit false

/-! # The order of first appearances

A search numbers what it meets by first appearance, so the numbers depend on the lists it walks
through only as far as `novel` does. Appending, filtering and injective renaming are seen through
`novel`; and it does not see the order inside a part of the list if, as a whole, the first
appearances ascend anyway (`SortsParts.novel_eq`). -/

namespace RegularLanguages

variable {α : Type} [DecidableEq α]

theorem novel_cons_of_mem {x : α} {seen : List α} (h : x ∈ seen) (xs : List α) :
    novel seen (x :: xs) = novel seen xs := by
  rw [novel, if_pos h]

theorem novel_cons_of_not_mem {x : α} {seen : List α} (h : x ∉ seen) (xs : List α) :
    novel seen (x :: xs) = x :: novel (x :: seen) xs := by
  rw [novel, if_neg h]

theorem novel_sublist (seen xs : List α) : (novel seen xs).Sublist xs := by
  induction xs generalizing seen with
  | nil => exact List.Sublist.slnil
  | cons x xs ih =>
    by_cases hx : x ∈ seen
    · rw [novel_cons_of_mem hx]
      exact (ih seen).cons x
    · rw [novel_cons_of_not_mem hx]
      exact (ih (x :: seen)).cons_cons x

/-- What a second list adds is what neither the first one nor the past holds. -/
theorem novel_append (seen xs ys : List α) :
    novel seen (xs ++ ys) = novel seen xs ++ novel (xs ++ seen) ys := by
  induction xs generalizing seen with
  | nil => rfl
  | cons x xs ih =>
    rw [List.cons_append]
    by_cases hx : x ∈ seen
    · rw [novel_cons_of_mem hx, novel_cons_of_mem hx, ih]
      refine congrArg _ (novel_congr (fun y => ?_) ys)
      rw [List.cons_append, List.mem_cons]
      exact (or_iff_right_of_imp fun h => h ▸ List.mem_append_right xs hx).symm
    · rw [novel_cons_of_not_mem hx, novel_cons_of_not_mem hx, ih, List.cons_append]
      refine congrArg (fun rest => x :: (novel (x :: seen) xs ++ rest))
        (novel_congr (fun y => ?_) ys)
      exact List.perm_middle.mem_iff

theorem novel_isPrefix {xs ys : List α} (h : xs <+: ys) (seen : List α) :
    novel seen xs <+: novel seen ys := by
  obtain ⟨zs, rfl⟩ := h
  rw [novel_append]
  exact List.prefix_append _ _

/-- To have seen more from the start, or to leave it out in the end, is the same. -/
theorem novel_append_seen (more seen xs : List α) :
    novel (more ++ seen) xs = (novel seen xs).filter fun x => x ∉ more := by
  induction xs generalizing seen with
  | nil => rfl
  | cons x xs ih =>
    by_cases hx : x ∈ seen
    · rw [novel_cons_of_mem hx, novel_cons_of_mem (List.mem_append_right more hx), ih]
    · have hmiddle : ∀ y, y ∈ x :: (more ++ seen) ↔ y ∈ more ++ x :: seen := fun y =>
        List.perm_middle.symm.mem_iff
      rw [novel_cons_of_not_mem hx]
      by_cases hm : x ∈ more
      · rw [novel_cons_of_mem (List.mem_append_left seen hm), List.filter_cons_of_neg (by simpa),
          ← ih, ← novel_congr hmiddle]
        refine novel_congr (fun y => ?_) xs
        rw [List.mem_cons]
        exact (or_iff_right_of_imp fun h => h ▸ List.mem_append_left seen hm).symm
      · have hnew : x ∉ more ++ seen := fun h => (List.mem_append.1 h).elim hm hx
        rw [novel_cons_of_not_mem hnew, List.filter_cons_of_pos (by simpa), ← ih,
          novel_congr hmiddle]

/-- Lists with the same first appearances stay so whatever was seen before. -/
theorem novel_eq_of_novel_nil_eq {xs ys : List α} (h : novel [] xs = novel [] ys)
    (seen : List α) : novel seen xs = novel seen ys := by
  rw [← List.append_nil seen, novel_append_seen, novel_append_seen, h]

theorem mem_iff_of_novel_nil_eq {xs ys : List α} (h : novel [] xs = novel [] ys) (x : α) :
    x ∈ xs ↔ x ∈ ys := by
  have hmem : x ∈ novel [] xs ↔ x ∈ novel [] ys := by rw [h]
  simpa using hmem

/-- Where each of the lists has the same first appearances as another one, so has the whole. -/
theorem novel_flatMap_congr {β : Type} {is : List β} {f f' : β → List α}
    (h : ∀ i ∈ is, novel [] (f i) = novel [] (f' i)) (seen : List α) :
    novel seen (is.flatMap f) = novel seen (is.flatMap f') := by
  induction is generalizing seen with
  | nil => rfl
  | cons i is ih =>
    obtain ⟨hi, hrest⟩ := List.forall_mem_cons.1 h
    rw [List.flatMap_cons, List.flatMap_cons, novel_append, novel_append,
      novel_eq_of_novel_nil_eq hi, ih hrest]
    refine congrArg _ (novel_congr (fun x => ?_) _)
    rw [List.mem_append, List.mem_append, mem_iff_of_novel_nil_eq hi]

/-- An injective renaming renames the first appearances. -/
theorem novel_map {β : Type} [DecidableEq β] {f : α → β} {P : α → Prop}
    (hinj : ∀ x y, P x → P y → f x = f y → x = y) {seen xs : List α} (hseen : ∀ x ∈ seen, P x)
    (hxs : ∀ x ∈ xs, P x) : novel (seen.map f) (xs.map f) = (novel seen xs).map f := by
  induction xs generalizing seen with
  | nil => rfl
  | cons x xs ih =>
    obtain ⟨hx, hrest⟩ := List.forall_mem_cons.1 hxs
    have hmem : f x ∈ seen.map f ↔ x ∈ seen := by
      refine ⟨fun h => ?_, List.mem_map_of_mem⟩
      obtain ⟨y, hy, heq⟩ := List.mem_map.1 h
      rwa [← hinj y x (hseen y hy) hx heq]
    rw [List.map_cons]
    by_cases h : x ∈ seen
    · rw [novel_cons_of_mem h, novel_cons_of_mem (hmem.2 h), ih hseen hrest]
    · rw [novel_cons_of_not_mem h, novel_cons_of_not_mem (mt hmem.1 h), List.map_cons,
        ← List.map_cons (f := f) (a := x) (l := seen),
        ih (List.forall_mem_cons.2 ⟨hx, hseen⟩) hrest]

/-! ## Sorted parts -/

/-- The second list is the first one with its parts, one after another, sorted. -/
inductive SortsParts : List Nat → List Nat → Prop where
  | nil : SortsParts [] []
  | part {part sorted xs ys : List Nat} : (∀ x, x ∈ sorted ↔ x ∈ part) → sorted.Pairwise (· < ·) →
      SortsParts xs ys → SortsParts (part ++ xs) (sorted ++ ys)

theorem SortsParts.of_pairwise {part sorted : List Nat} (hmem : ∀ x, x ∈ sorted ↔ x ∈ part)
    (hsorted : sorted.Pairwise (· < ·)) : SortsParts part sorted := by
  have h := SortsParts.part hmem hsorted SortsParts.nil
  rwa [List.append_nil, List.append_nil] at h

theorem SortsParts.append {xs xs' ys ys' : List Nat} (hx : SortsParts xs xs')
    (hy : SortsParts ys ys') : SortsParts (xs ++ ys) (xs' ++ ys') := by
  induction hx with
  | nil => exact hy
  | part hmem hsorted _ ih =>
    rw [List.append_assoc, List.append_assoc]
    exact SortsParts.part hmem hsorted ih

theorem SortsParts.flatMap {β : Type} {is : List β} {f f' : β → List Nat}
    (h : ∀ i ∈ is, SortsParts (f i) (f' i)) : SortsParts (is.flatMap f) (is.flatMap f') := by
  induction is with
  | nil => exact SortsParts.nil
  | cons i is ih =>
    obtain ⟨hi, hrest⟩ := List.forall_mem_cons.1 h
    exact hi.append (ih hrest)

theorem SortsParts.mem_iff {xs ys : List Nat} (h : SortsParts xs ys) {x : Nat} :
    x ∈ ys ↔ x ∈ xs := by
  induction h with
  | nil => exact Iff.rfl
  | part hmem _ _ ih => rw [List.mem_append, List.mem_append, hmem, ih]

/-- Sorting a part moves no first appearance if the first appearances ascend. -/
theorem SortsParts.novel_eq {xs ys : List Nat} (h : SortsParts xs ys) {seen : List Nat}
    (hascending : (novel seen xs).Pairwise (· < ·)) : novel seen ys = novel seen xs := by
  induction h generalizing seen with
  | nil => rfl
  | @part part sorted xs ys hmem hsorted _ ih =>
    rw [novel_append] at hascending ⊢
    obtain ⟨hpart, hrest, _⟩ := List.pairwise_append.1 hascending
    have hfirst : novel seen sorted = novel seen part := by
      refine (hsorted.sublist (novel_sublist seen sorted)).eq_of_mem_iff hpart fun x => ?_
      rw [mem_novel, mem_novel, hmem]
    have hseen : novel (sorted ++ seen) ys = novel (part ++ seen) ys :=
      novel_congr (fun x => by rw [List.mem_append, List.mem_append, hmem]) ys
    rw [hfirst, hseen, ih hrest, novel_append]

end RegularLanguages
