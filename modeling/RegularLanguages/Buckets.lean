set_option autoImplicit false

/-! # Sorting into buckets

Turning edges round asks, for every state, what leads to it. Searching all edges for each state
takes a square of the work; one pass over the edges that puts each into the bucket of its target
does the same. `buckets_getElem?` says what a bucket holds in the end: the values of the entries
with its number, in the order of the list. -/

namespace RegularLanguages

variable {β : Type}

/-- One list for each of the numbers below `count`; an entry with another number is left out. -/
def buckets (count : Nat) (entries : List (Nat × β)) : Array (List β) :=
  entries.foldr (fun (i, value) sorted => sorted.modify i (value :: ·)) (Array.replicate count [])

/-- The values of the entries with the given number. -/
def valuesAt (i : Nat) (entries : List (Nat × β)) : List β :=
  entries.filterMap fun (j, value) => if j = i then some value else none

theorem buckets_getElem? (count : Nat) (entries : List (Nat × β)) (i : Nat) :
    (buckets count entries)[i]? = if i < count then some (valuesAt i entries) else none := by
  induction entries with
  | nil => simp [buckets, valuesAt, Array.getElem?_replicate]
  | cons e entries ih =>
    obtain ⟨j, value⟩ := e
    show ((buckets count entries).modify j (value :: ·))[i]? = _
    rw [Array.getElem?_modify, ih]
    by_cases hj : j = i <;> by_cases hi : i < count <;> simp [valuesAt, hj, hi]

end RegularLanguages
