import RegularLanguages.Automaton.Primitive
import RegularLanguages.Proofs.Automaton.Reachable

set_option autoImplicit false

/-! # Languages of primitive automata

The automata with one or two states, from which all others are built, and the automata of one
word and of several. -/

namespace RegularLanguages

/-- The full range has every character. -/
theorem CharRange.mem_full (c : Char) : c ∈ CharRange.full := by
  have hvalid := char_toNat_valid c
  have hstart : CharRange.full.start = 0 := by decide
  have hstop : CharRange.full.stop = 0x110000 := by decide
  rw [mem_iff_points, hstart, hstop]
  omega

namespace Automaton

theorem valid_empty : empty.Valid := by decide

/-- No word. -/
theorem language_empty : empty.language = 0 := by
  have hstate : empty.state 0 = {} := state_ofList rfl
  ext w
  show w ∈ empty.languageFrom 0 ↔ _
  rw [mem_languageFrom_of_edges_eq_nil (by rw [hstate]), isAccepting, hstate]
  simp [Language.notMem_zero]

theorem valid_epsilon : epsilon.Valid := by decide

/-- The empty word. -/
theorem language_epsilon : epsilon.language = 1 := by
  have hstate : epsilon.state 0 = { accepting := true } := state_ofList rfl
  ext w
  show w ∈ epsilon.languageFrom 0 ↔ _
  rw [mem_languageFrom_of_edges_eq_nil (by rw [hstate]), isAccepting, hstate]
  simp [Language.mem_one]

theorem valid_oneOf (ranges : List CharRange) : (oneOf ranges).Valid := by
  refine ⟨Nat.two_pos, fun s hs target ht => ?_⟩
  show target < 2
  rcases List.mem_cons.1 hs with rfl | hs
  · simp only [State.targets, List.map_map, List.append_nil, List.mem_map] at ht
    obtain ⟨_, _, rfl⟩ := ht
    exact Nat.one_lt_two
  · rw [List.mem_singleton.1 hs] at ht
    exact absurd ht List.not_mem_nil

/-- The first state leads to the second on the characters of the ranges. -/
theorem moves_oneOf {ranges : List CharRange} {c : Char} {q : StateId} :
    (oneOf ranges).Moves 0 c q ↔ (∃ r ∈ ranges, c ∈ r) ∧ q = 1 := by
  have hstart : (oneOf ranges).state 0 = { edges := ranges.map fun r => ⟨r, 1⟩ } :=
    state_ofList rfl
  unfold Moves
  rw [hstart]
  refine ⟨fun h => ?_, fun h => ?_⟩
  · obtain ⟨e, he, hc, rfl⟩ := h
    obtain ⟨r, hr, rfl⟩ := List.mem_map.1 he
    exact ⟨⟨r, hr, hc⟩, rfl⟩
  · obtain ⟨⟨r, hr, hc⟩, rfl⟩ := h
    exact ⟨⟨r, 1⟩, List.mem_map.2 ⟨r, hr, rfl⟩, hc, rfl⟩

/-- The second state is where the words end. -/
theorem mem_languageFrom_oneOf {ranges : List CharRange} {w : List Char} :
    w ∈ (oneOf ranges).languageFrom 1 ↔ w = [] := by
  have hend : (oneOf ranges).state 1 = { accepting := true } := state_ofList rfl
  rw [mem_languageFrom_of_edges_eq_nil (by rw [hend]), isAccepting, hend]
  simp

/-- One character out of any of the ranges. -/
theorem mem_language_oneOf {ranges : List CharRange} {w : List Char} :
    w ∈ (oneOf ranges).language ↔ ∃ c, w = [c] ∧ ∃ r ∈ ranges, c ∈ r := by
  have hstart : (oneOf ranges).state 0 = { edges := ranges.map fun r => ⟨r, 1⟩ } :=
    state_ofList rfl
  show w ∈ (oneOf ranges).languageFrom 0 ↔ _
  rw [mem_languageFrom_iff, isAccepting, hstart]
  simp only [moves_oneOf]
  refine ⟨fun h => ?_, fun h => ?_⟩
  · rcases h with ⟨hacc, _⟩ | ⟨q, hq, _⟩ | ⟨c, v, q, rfl, ⟨hc, rfl⟩, hv⟩
    · exact absurd hacc Bool.false_ne_true
    · exact absurd hq List.not_mem_nil
    · rw [mem_languageFrom_oneOf.1 hv]
      exact ⟨c, rfl, hc⟩
  · obtain ⟨c, rfl, hc⟩ := h
    exact Or.inr (Or.inr ⟨c, [], 1, rfl, ⟨hc, rfl⟩, mem_languageFrom_oneOf.2 rfl⟩)

/-- Any one character. -/
theorem mem_language_anyChar {w : List Char} : w ∈ anyChar.language ↔ ∃ c, w = [c] := by
  rw [anyChar, mem_language_oneOf]
  simp [CharRange.mem_full]

/-- One given character. -/
theorem mem_language_char {c : Char} {w : List Char} : w ∈ (char c).language ↔ w = [c] := by
  rw [char, mem_language_oneOf]
  simp [CharRange.mem_single]

theorem valid_anyWord : anyWord.Valid := by decide

theorem valid_charsBetween (lo hi : Char) : (charsBetween lo hi).Valid := by
  unfold charsBetween
  split
  · exact valid_oneOf _
  · exact valid_empty

/-! ## Words -/

theorem valid_word (chars : List Char) : (word chars).Valid := by
  have hsize : (word chars).size = chars.length + 1 := by simp [word, size_ofList]
  refine ⟨?_, fun s hs target ht => ?_⟩
  · rw [hsize]
    exact Nat.succ_pos _
  · rw [hsize]
    rcases List.mem_append.1 hs with hs | hs
    · obtain ⟨⟨c, id⟩, hid, rfl⟩ := List.mem_map.1 hs
      have hlt : id < chars.length := (List.mem_zipIdx' hid).1
      rw [List.mem_singleton.1 ht]
      exact Nat.succ_lt_succ hlt
    · rw [List.mem_singleton.1 hs] at ht
      exact absurd ht List.not_mem_nil

end Automaton

end RegularLanguages
