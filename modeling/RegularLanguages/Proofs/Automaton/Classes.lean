import RegularLanguages.ClassTable
import RegularLanguages.Proofs.Automaton.Path
import RegularLanguages.Proofs.CharRange.Pieces

set_option autoImplicit false

/-! # Classes of characters

All characters of a class go the same way from every state (`moves_iff_of_mem_classes`), and a
character that some edge reads is in a class (`exists_mem_classes`). A label is therefore a run of
consecutive classes. The run is found by searching for its first class and going on from there
until a class starts behind the label, and what is found is no class too many and none too few:
the classes that start in the label (`mem_columnsOf`).

So the moves of an automaton on its classes are its moves on their first characters
(`mem_classMoves`), and in a deterministic automaton no two of them start from one place. -/

namespace RegularLanguages

/-! ## Runs of classes -/

section Columns

variable {pieces : List CharRange} {label : CharRange}

/-- Later classes start later. -/
theorem lo_le_lo_of_pairwise (h : pieces.Pairwise fun r s => r.hi < s.lo) {i j : Nat} (hij : i ≤ j)
    {r s : CharRange} (hr : pieces[i]? = some r) (hs : pieces[j]? = some s) : r.lo ≤ s.lo := by
  rcases Nat.lt_or_eq_of_le hij with hlt | rfl
  · obtain ⟨hi, rfl⟩ := List.getElem?_eq_some_iff.1 hr
    obtain ⟨hj, rfl⟩ := List.getElem?_eq_some_iff.1 hs
    have hbefore := List.pairwise_iff_getElem.1 h i j hi hj hlt
    exact le_of_lt (lt_of_le_of_lt pieces[i].lo_le_hi hbefore)
  · rw [hr] at hs
    exact le_of_eq (congrArg CharRange.lo (Option.some.inj hs))

theorem mem_columnsFrom (h : pieces.Pairwise fun r s => r.hi < s.lo) {column k : Nat} :
    k ∈ columnsFrom pieces.toArray label column ↔
      column ≤ k ∧ ∃ piece, pieces[k]? = some piece ∧ piece.lo ≤ label.hi := by
  fun_induction columnsFrom pieces.toArray label column with
  | case1 column hlt hlo ih =>
    have hpiece : pieces[column]? = some pieces.toArray[column] := by simp
    rw [List.mem_cons, ih]
    constructor
    · rintro (rfl | ⟨hle, hstart⟩)
      · exact ⟨Nat.le_refl k, _, hpiece, hlo⟩
      · exact ⟨Nat.le_of_succ_le hle, hstart⟩
    · rintro ⟨hle, hstart⟩
      exact (Nat.eq_or_lt_of_le hle).imp Eq.symm fun hlt => ⟨hlt, hstart⟩
  | case2 column hlt hlo =>
    -- A class that starts after the label is followed by classes that do so, too.
    have hpiece : pieces[column]? = some pieces.toArray[column] := by simp
    refine ⟨fun hk => absurd hk List.not_mem_nil, fun ⟨hle, piece, hk, hstart⟩ => ?_⟩
    exact absurd (le_trans (lo_le_lo_of_pairwise h hle hpiece hk) hstart) hlo
  | case3 column hle =>
    refine ⟨fun hk => absurd hk List.not_mem_nil, fun ⟨hle', piece, hk, _⟩ => ?_⟩
    exact absurd (List.getElem?_eq_some_iff.1 hk).1 (fun hlt => hle (lt_of_le_of_lt hle' hlt))

/-- The columns of a label are those of the classes that start in it. -/
theorem mem_columnsOf (h : pieces.Pairwise fun r s => r.hi < s.lo) {k : Nat} :
    k ∈ columnsOf pieces.toArray label ↔ ∃ piece, pieces[k]? = some piece ∧ piece.lo ∈ label := by
  let before : CharRange → Bool := fun piece => piece.lo < label.lo
  have hbefore : ∀ i : Nat, pieces.toArray[i]?.any before = true ↔
      ∃ piece, pieces[i]? = some piece ∧ piece.lo < label.lo := by
    intro i
    simp only [before, Option.any_eq_true, List.getElem?_toArray, decide_eq_true_eq]
  -- The classes that start before the label come first.
  have hsorted : ∀ i j : Nat, i ≤ j → pieces.toArray[j]?.any before = true →
      pieces.toArray[i]?.any before = true := by
    intro i j hij hj
    obtain ⟨s, hs, hlt⟩ := (hbefore j).1 hj
    have hi : i < pieces.length := lt_of_le_of_lt hij (List.getElem?_eq_some_iff.1 hs).1
    have hr : pieces[i]? = some pieces[i] := List.getElem?_eq_getElem hi
    exact (hbefore i).2 ⟨_, hr, lt_of_le_of_lt (lo_le_lo_of_pairwise h hij hr hs) hlt⟩
  have hfirst : partitionPoint before pieces.toArray ≤ k ↔
      ¬ ∃ piece, pieces[k]? = some piece ∧ piece.lo < label.lo := by
    rw [← Nat.not_lt, lt_partitionPoint_iff hsorted, hbefore]
  refine (mem_columnsFrom h).trans ?_
  rw [hfirst]
  constructor
  · rintro ⟨hnot, piece, hk, hstart⟩
    exact ⟨piece, hk, le_of_not_gt fun hlt => hnot ⟨piece, hk, hlt⟩, hstart⟩
  · rintro ⟨piece, hk, hlo, hhi⟩
    refine ⟨fun ⟨other, hother, hlt⟩ => ?_, piece, hk, hhi⟩
    rw [hk] at hother
    exact absurd (Option.some.inj hother ▸ hlt) (not_lt_of_ge hlo)

/-- The columns ascend from the first one. -/
theorem pairwise_columnsFrom (classes : Array CharRange) (label : CharRange) (column : Nat) :
    (columnsFrom classes label column).Pairwise (· < ·) ∧
      ∀ k ∈ columnsFrom classes label column, column ≤ k := by
  fun_induction columnsFrom classes label column with
  | case1 column hlt hlo ih =>
    refine ⟨List.pairwise_cons.2 ⟨ih.2, ih.1⟩, fun k hk => ?_⟩
    rcases List.mem_cons.1 hk with rfl | hk
    · exact Nat.le_refl k
    · exact Nat.le_of_succ_le (ih.2 k hk)
  | case2 => exact ⟨List.Pairwise.nil, nofun⟩
  | case3 => exact ⟨List.Pairwise.nil, nofun⟩

end Columns

namespace Automaton

variable {g : Automaton}

/-! ## Classes -/

theorem mem_classes {piece : CharRange} : piece ∈ g.classes ↔
    piece ∈ CharRange.intervals (CharRange.boundaries g.labels) ∧
      ∃ label ∈ g.labels, piece.lo ∈ label := by
  unfold classes
  rw [List.mem_filter, List.any_eq_true]
  simp only [decide_eq_true_eq]

theorem mem_labels {label : CharRange} :
    label ∈ g.labels ↔ ∃ id, ∃ e ∈ (g.state id).edges, e.label = label := by
  unfold labels
  simp only [List.mem_flatMap, List.mem_map]
  constructor
  · rintro ⟨s, hs, e, he, hlabel⟩
    obtain ⟨id, _, rfl⟩ := mem_toList_iff.1 hs
    exact ⟨id, e, he, hlabel⟩
  · rintro ⟨id, e, he, hlabel⟩
    have hmoves : g.Moves id e.label.lo e.target := Leads.of_mem he e.label.lo_mem
    have hid : id < g.size := lt_size_of_mem_targets hmoves.mem_targets
    exact ⟨g.state id, mem_toList_iff.2 ⟨id, hid, rfl⟩, e, he, hlabel⟩

theorem pairwise_classes (g : Automaton) : g.classes.Pairwise fun r s => r.hi < s.lo :=
  (CharRange.pairwise_intervals_boundaries g.labels).sublist List.filter_sublist

theorem pairwise_disjoint_classes (g : Automaton) : g.classes.Pairwise CharRange.Disjoint :=
  g.pairwise_classes.imp fun h => Or.inl h

/-- A label contains all characters of a class or none. -/
theorem mem_label_iff_of_mem_classes {piece : CharRange} (h : piece ∈ g.classes) {c : Char}
    (hc : c ∈ piece) {label : CharRange} (hlabel : label ∈ g.labels) :
    c ∈ label ↔ piece.lo ∈ label :=
  CharRange.mem_iff_of_mem_intervals (mem_classes.1 h).1 hc piece.lo_mem hlabel

/-- A character that some edge reads is in a class. -/
theorem exists_mem_classes {label : CharRange} (hlabel : label ∈ g.labels) {c : Char}
    (hc : c ∈ label) : ∃ piece ∈ g.classes, c ∈ piece := by
  obtain ⟨piece, hpiece, hcp⟩ := CharRange.exists_mem_intervals hlabel hc
  have hlo := (CharRange.mem_iff_of_mem_intervals hpiece hcp piece.lo_mem hlabel).1 hc
  exact ⟨piece, mem_classes.2 ⟨hpiece, label, hlabel, hlo⟩, hcp⟩

/-- The classes hold the characters that some edge reads and no others. -/
theorem exists_mem_classes_iff {c : Char} :
    (∃ piece ∈ g.classes, c ∈ piece) ↔ ∃ p q, g.Moves p c q := by
  constructor
  · intro h
    obtain ⟨piece, hpiece, hc⟩ := h
    obtain ⟨label, hlabel, hlo⟩ := (mem_classes.1 hpiece).2
    obtain ⟨p, e, he, rfl⟩ := mem_labels.1 hlabel
    exact ⟨p, e.target, Leads.of_mem he ((mem_label_iff_of_mem_classes hpiece hc hlabel).2 hlo)⟩
  · intro h
    obtain ⟨p, q, e, he, hc, _⟩ := h
    exact exists_mem_classes (mem_labels.2 ⟨p, e, he, rfl⟩) hc

/-- All characters of a class lead to the same states. -/
theorem moves_iff_of_mem_classes {piece : CharRange} (h : piece ∈ g.classes) {c : Char}
    (hc : c ∈ piece) {p q : StateId} : g.Moves p c q ↔ g.Moves p piece.lo q := by
  refine exists_congr fun e => and_congr_right fun he => and_congr_left fun _ => ?_
  exact mem_label_iff_of_mem_classes h hc (mem_labels.2 ⟨p, e, he, rfl⟩)

/-! ## Moves on classes -/

/-- A move on a class is the move on its first character. -/
theorem mem_classMoves {p q : StateId} {k : Nat} : (⟨p, k⟩, q) ∈ g.classMoves ↔
    ∃ piece, g.classes[k]? = some piece ∧ g.Moves p piece.lo q := by
  unfold classMoves
  simp only [List.mem_flatMap, List.mem_range, List.mem_map, mem_columnsOf g.pairwise_classes,
    Prod.mk.injEq, Cell.mk.injEq]
  constructor
  · rintro ⟨_, _, e, he, _, ⟨piece, hk, hlo⟩, ⟨rfl, rfl⟩, rfl⟩
    exact ⟨piece, hk, Leads.of_mem he hlo⟩
  · rintro ⟨piece, hk, hmoves⟩
    obtain ⟨e, he, hlo, rfl⟩ := id hmoves
    exact ⟨p, lt_size_of_mem_targets hmoves.mem_targets, e, he, k, ⟨piece, hk, hlo⟩,
      ⟨rfl, rfl⟩, rfl⟩

/-- A deterministic automaton has no two moves from one place. -/
theorem pairwise_classMoves (hd : g.IsDeterministic) :
    g.classMoves.Pairwise fun m n => m.1 ≠ n.1 := by
  unfold classMoves
  refine List.pairwise_flatMap.2 ⟨fun source _ => List.pairwise_flatMap.2 ⟨fun e _ => ?_, ?_⟩, ?_⟩
  · refine List.pairwise_map.2 ((pairwise_columnsFrom _ _ _).1.imp fun hlt heq => ?_)
    exact Nat.ne_of_lt hlt (Cell.mk.inj heq).2
  · refine (isDeterministic_iff.1 hd source).2.imp fun hdisjoint => ?_
    simp only [List.mem_map, mem_columnsOf g.pairwise_classes]
    rintro _ ⟨j, ⟨piece, hj, hlo⟩, rfl⟩ _ ⟨k, ⟨other, hk, hlo'⟩, rfl⟩ heq
    -- One class that started in both labels would be a character in both.
    obtain ⟨_, rfl⟩ := Cell.mk.inj heq
    rw [Option.some.inj (hk.symm.trans hj)] at hlo'
    exact CharRange.disjoint_iff.1 hdisjoint _ hlo hlo'
  · refine List.nodup_range.imp fun hne => ?_
    simp only [List.mem_flatMap, List.mem_map]
    rintro _ ⟨d, _, j, _, rfl⟩ _ ⟨e, _, k, _, rfl⟩ heq
    exact hne (Cell.mk.inj heq).1

end Automaton

end RegularLanguages
