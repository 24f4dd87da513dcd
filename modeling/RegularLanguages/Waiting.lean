set_option autoImplicit false

/-! # Waiting lines

A search keeps the nodes it has met and not yet expanded in a line. New nodes join at either
end, so the line is held in two halves, the second one reversed: joining takes one step at both
ends, and leaving turns the second half round once for each node in it.

`toList` is the line as it stands. -/

namespace RegularLanguages

/-- A line of waiting elements. -/
structure Waiting (α : Type) where
  /-- The elements in front. -/
  front : List α := []
  /-- The elements behind them, the last one first. -/
  back : List α := []

namespace Waiting

variable {α : Type}

/-- The elements in the order in which they leave. -/
def toList (w : Waiting α) : List α := w.front ++ w.back.reverse

/-- Joins in front of all others. -/
def pushFront (w : Waiting α) (x : α) : Waiting α := { w with front := x :: w.front }

/-- Joins behind all others. -/
def pushBack (w : Waiting α) (x : α) : Waiting α := { w with back := x :: w.back }

/-- The element that leaves next, with the line it leaves behind. -/
def pop? (w : Waiting α) : Option (α × Waiting α) :=
  match w.front with
  | x :: front => some (x, { w with front })
  | [] =>
    match w.back.reverse with
    | x :: front => some (x, { front })
    | [] => none

@[simp] theorem toList_empty : ({} : Waiting α).toList = [] := rfl

@[simp] theorem toList_pushFront (w : Waiting α) (x : α) :
    (w.pushFront x).toList = x :: w.toList := rfl

@[simp] theorem toList_pushBack (w : Waiting α) (x : α) :
    (w.pushBack x).toList = w.toList ++ [x] := by
  simp [pushBack, toList]

theorem pop?_eq_none_iff {w : Waiting α} : w.pop? = none ↔ w.toList = [] := by
  obtain ⟨front, back⟩ := w
  cases front with
  | cons x front => simp [pop?, toList]
  | nil => cases h : back.reverse <;> simp [pop?, toList, h]

theorem toList_of_pop? {w rest : Waiting α} {x : α} (h : w.pop? = some (x, rest)) :
    w.toList = x :: rest.toList := by
  obtain ⟨front, back⟩ := w
  cases front with
  | cons y front =>
    obtain ⟨rfl, rfl⟩ : y = x ∧ _ = rest := by simpa [pop?] using h
    rfl
  | nil =>
    cases hb : back.reverse with
    | nil => simp [pop?, hb] at h
    | cons y front =>
      obtain ⟨rfl, rfl⟩ : y = x ∧ _ = rest := by simpa [pop?, hb] using h
      simp [toList, hb]

end Waiting

end RegularLanguages
