set_option autoImplicit false

/-! # Computations that may fail

What a computation of several steps returns, or why it fails, follows from what its steps return
and why they fail. An `Outcome` says both at once; a step needs an outcome only for what the steps
before may have returned (`Outcome.bind`). -/

namespace RegularLanguages

/-- A computation in two steps succeeds if both do. -/
theorem bind_eq_ok_iff {α β ε : Type} {x : Except ε α} {f : α → Except ε β} {b : β} :
    (x >>= f) = .ok b ↔ ∃ a, x = .ok a ∧ f a = .ok b := by
  cases x with
  | error e => exact ⟨nofun, fun ⟨_, h, _⟩ => nomatch h⟩
  | ok a => exact ⟨fun h => ⟨a, rfl, h⟩, fun ⟨_, ha, h⟩ => Except.ok.inj ha ▸ h⟩

/-- A computation returns something with the property `P`, or it fails for a cause with the
    property `E`. -/
def Outcome {α ε : Type} (P : α → Prop) (E : ε → Prop) : Except ε α → Prop
  | .ok a => P a
  | .error e => E e

namespace Outcome

variable {α β ε : Type} {P P' : α → Prop} {Q : β → Prop} {E E' : ε → Prop} {x : Except ε α}
  {f g : α → Except ε β}

theorem bind (h : Outcome P E x) (hnext : ∀ a, P a → Outcome Q E (f a)) :
    Outcome Q E (x >>= f) := by
  cases x with
  | error e => exact h
  | ok a => exact hnext a h

theorem imp (h : Outcome P E x) (hreturn : ∀ a, P a → P' a) (hfail : ∀ e, E e → E' e) :
    Outcome P' E' x := by
  cases x with
  | error e => exact hfail e h
  | ok a => exact hreturn a h

/-- It does not matter in which way a step goes on after what cannot be returned. -/
theorem bind_congr (h : Outcome P E x) (hnext : ∀ a, P a → f a = g a) : (x >>= f) = (x >>= g) := by
  cases x with
  | error e => rfl
  | ok a => exact hnext a h

theorem trivial (x : Except ε α) : Outcome (fun _ => True) (fun _ => True) x := by
  cases x <;> exact True.intro

end Outcome

end RegularLanguages
