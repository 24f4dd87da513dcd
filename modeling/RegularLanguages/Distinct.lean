set_option autoImplicit false

/-! # Distinct elements in the order of their first appearance

A search meets the same node again and again, a round of refinement gives many states the same
signature, and words share their beginnings. In each case the first meeting counts, and its
rank becomes a number. `novel` keeps the first meetings; `mem_novel` and `nodup_novel` say that
it loses nothing and repeats nothing. -/

namespace RegularLanguages

variable {α : Type} [DecidableEq α]

/-- The elements of `xs` that are not in `seen`, each once, in the order of their first
    appearance. -/
def novel (seen : List α) : List α → List α
  | [] => []
  | x :: xs => if x ∈ seen then novel seen xs else x :: novel (x :: seen) xs

@[simp] theorem novel_nil (seen : List α) : novel seen [] = [] := rfl

@[simp] theorem mem_novel (x : α) (seen xs : List α) :
    x ∈ novel seen xs ↔ x ∈ xs ∧ x ∉ seen := by
  induction xs generalizing seen with
  | nil => simp
  | cons y ys ih =>
    unfold novel
    split
    · rename_i hy
      rw [ih]
      constructor
      · exact fun ⟨hx, hs⟩ => ⟨List.mem_cons_of_mem _ hx, hs⟩
      · rintro ⟨hx, hs⟩
        rcases List.mem_cons.1 hx with rfl | hx
        · exact absurd hy hs
        · exact ⟨hx, hs⟩
    · rename_i hy
      rw [List.mem_cons, ih]
      by_cases hxy : x = y
      · subst hxy; simp [hy]
      · simp [hxy]

/-- Only the members of what was seen before count. -/
theorem novel_congr {seen seen' : List α} (h : ∀ x, x ∈ seen ↔ x ∈ seen') (xs : List α) :
    novel seen xs = novel seen' xs := by
  induction xs generalizing seen seen' with
  | nil => rfl
  | cons x xs ih =>
    have hc : ∀ y, y ∈ x :: seen ↔ y ∈ x :: seen' := fun y => by simp [h y]
    simp only [novel, h x, ih h, ih hc]

theorem nodup_novel (seen xs : List α) : (novel seen xs).Nodup := by
  induction xs generalizing seen with
  | nil => exact List.nodup_nil
  | cons y ys ih =>
    unfold novel
    split
    · exact ih seen
    · exact List.nodup_cons.2 ⟨fun h => ((mem_novel _ _ _).1 h).2 List.mem_cons_self, ih _⟩

end RegularLanguages
