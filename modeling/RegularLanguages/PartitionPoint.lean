set_option autoImplicit false

/-! # Searching by halves

When the elements with some property come first, the place where they end is found by asking in
the middle and going on with one half. `lt_partitionPoint_iff` says that it is found: the elements
before that place are the ones with the property. -/

namespace RegularLanguages

variable {α : Type}

/-- The first place from `lo` to `hi` whose element does not satisfy `p`, if the elements that do
    come first. -/
def searchBetween (p : α → Bool) (xs : Array α) (lo hi : Nat) : Nat :=
  if lo < hi then
    let middle := lo + (hi - lo) / 2
    if xs[middle]?.any p then searchBetween p xs (middle + 1) hi
    else searchBetween p xs lo middle
  else lo
termination_by hi - lo

/-- The number of the elements that satisfy `p`, if these come first. -/
def partitionPoint (p : α → Bool) (xs : Array α) : Nat := searchBetween p xs 0 xs.size

variable {p : α → Bool} {xs : Array α}

/-- Everything below `lo` satisfies `p` and nothing from `hi` on does; every step keeps both. -/
theorem lt_searchBetween_iff
    (h : ∀ i j : Nat, i ≤ j → xs[j]?.any p = true → xs[i]?.any p = true) {lo hi : Nat}
    (hlo : ∀ i : Nat, i < lo → xs[i]?.any p = true)
    (hhi : ∀ i : Nat, xs[i]?.any p = true → i < hi) {i : Nat} :
    i < searchBetween p xs lo hi ↔ xs[i]?.any p = true := by
  fun_induction searchBetween p xs lo hi with
  | case1 lo hi hlt middle hmiddle ih =>
    exact ih (fun i hi => h i middle (Nat.le_of_lt_succ hi) hmiddle) hhi
  | case2 lo hi hlt middle hmiddle ih =>
    refine ih hlo fun i hi => Nat.lt_of_not_le fun hle => ?_
    exact hmiddle (h middle i hle hi)
  | case3 lo hi hle =>
    exact ⟨hlo i, fun hi => Nat.lt_of_lt_of_le (hhi i hi) (Nat.le_of_not_lt hle)⟩

theorem lt_partitionPoint_iff
    (h : ∀ i j : Nat, i ≤ j → xs[j]?.any p = true → xs[i]?.any p = true) {i : Nat} :
    i < partitionPoint p xs ↔ xs[i]?.any p = true := by
  refine lt_searchBetween_iff h (fun i hi => absurd hi (Nat.not_lt_zero i)) fun i hi => ?_
  obtain ⟨x, hx, _⟩ := (Option.any_eq_true _ _).1 hi
  exact (Array.getElem?_eq_some_iff.1 hx).1

end RegularLanguages
