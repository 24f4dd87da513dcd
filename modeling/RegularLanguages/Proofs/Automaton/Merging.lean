import RegularLanguages.Proofs.Automaton.Edge

set_option autoImplicit false

/-! # Merging as a canonical form

Merged edges are a canonical form of what the edges mean: two lists are merged into the same list
if and only if the same characters lead to the same states (`mergeEdges_canonical`).

So it does not matter how the merging is done. Grouping the edges by their targets is one way;
another sorts them by target first and joins neighbours in one pass over the whole list. In such a
list the edges to one target stand together, so the pass joins neither too much nor too little: it
treats each target as if it were alone (`labelsTo_joinEdges`). -/

namespace RegularLanguages

variable {edges : List Edge}

/-! ## The canonical form -/

/-- Two labels to one target have a character between them. -/
theorem IsMerged.pairwise_before (h : IsMerged edges) :
    edges.Pairwise fun d e => d.target = e.target → d.label.Before e.label := by
  refine h.ascending.imp_of_mem fun {d e} hd he hlt htarget => ?_
  have hd' : d.label ∈ labelsTo e.target edges := mem_labelsTo.2 (htarget ▸ hd)
  have he' : e.label ∈ labelsTo e.target edges := mem_labelsTo.2 he
  have hlabel : d.label < e.label := by
    rcases Edge.lt_def.1 hlt with hlt | ⟨_, hlt⟩
    · exact hlt
    · rw [htarget] at hlt
      exact absurd hlt (Nat.lt_irrefl e.target)
  -- In a normal list one of the two comes before the other, and the edges ascend.
  rcases (h.normal e.target).eq_or_before hd' he' with heq | hbefore | hbefore
  · rw [heq] at hlabel
    exact absurd hlabel (Std.Irrefl.irrefl (r := (· < · : CharRange → CharRange → Prop)) _)
  · exact hbefore
  · exact absurd (Trans.trans hlabel hbefore.lt)
      (Std.Irrefl.irrefl (r := (· < · : CharRange → CharRange → Prop)) _)

theorem mergeEdges_eq_mergeEdges_iff {xs ys : List Edge} :
    mergeEdges xs = mergeEdges ys ↔ ∀ c t, Leads xs c t ↔ Leads ys c t := by
  constructor
  · intro h c t
    rw [← leads_mergeEdges, h, leads_mergeEdges]
  · intro h
    refine (isMerged_mergeEdges xs).eq_of_leads_iff (isMerged_mergeEdges ys) fun c t => ?_
    rw [leads_mergeEdges, leads_mergeEdges, h]

/-- Merging keeps what leads where. Merged edges ascend by label and target without repetition,
    and two labels to one target neither overlap nor are adjacent, also across the surrogates. So
    the result depends on nothing but what leads where, and labels that were disjoint, whatever
    their targets, are disjoint afterwards. -/
theorem mergeEdges_canonical (xs ys : List Edge) :
    (∀ c t, Leads (mergeEdges xs) c t ↔ Leads xs c t) ∧
      (mergeEdges xs).Pairwise (· < ·) ∧
      (mergeEdges xs).Pairwise (fun d e => d.target = e.target →
        d.label.hi < e.label.lo ∧ d.label.stop ≠ e.label.start ∧
          ¬ (d.label.stop = 0xD800 ∧ e.label.start = 0xE000)) ∧
      (mergeEdges xs = mergeEdges ys ↔ ∀ c t, Leads xs c t ↔ Leads ys c t) ∧
      (xs.Pairwise (fun d e => d.label.Disjoint e.label) →
        (mergeEdges xs).Pairwise fun d e => d.label.Disjoint e.label) := by
  have hmerged := isMerged_mergeEdges xs
  refine ⟨fun c t => leads_mergeEdges, hmerged.ascending,
    hmerged.pairwise_before.imp fun hbefore htarget => (hbefore htarget).lt_and_not_adjacent,
    mergeEdges_eq_mergeEdges_iff, fun hdisjoint => ?_⟩
  exact pairwise_disjoint_mergeEdges (functional_of_pairwise_disjoint hdisjoint)

/-- Two targets take turns, and the labels to the second one meet across the surrogates. -/
theorem mergeEdges_canonical_turns :
    let edges : List Edge := [⟨⟨'\uE000', '\uE004', by decide⟩, 2⟩, ⟨.single 'b', 1⟩,
      ⟨⟨'\uD7F0', '\uD7FF', by decide⟩, 2⟩, ⟨.single 'c', 2⟩, ⟨.single 'a', 1⟩]
    edges.Pairwise (fun d e => d.label.Disjoint e.label) ∧
      mergeEdges edges = [⟨⟨'a', 'b', by decide⟩, 1⟩, ⟨.single 'c', 2⟩,
        ⟨⟨'\uD7F0', '\uE004', by decide⟩, 2⟩] ∧
      (mergeEdges edges).Pairwise fun d e => d.label.Disjoint e.label := by
  intro edges
  have hdisjoint : edges.Pairwise fun d e => d.label.Disjoint e.label := by decide
  exact ⟨hdisjoint, by decide, (mergeEdges_canonical edges edges).2.2.2.2 hdisjoint⟩

/-! ## Joining neighbours -/

/-- Joins edges onto `e`, one after another, for as long as they lead to the target of `e` and
    there is no gap. -/
def joinOnto (e : Edge) : List Edge → List Edge
  | [] => [e]
  | d :: rest =>
    if d.target = e.target ∧ e.label.Reaches d.label then
      joinOnto ⟨e.label.extend d.label, e.target⟩ rest
    else e :: joinOnto d rest

/-- Joins neighbouring edges in one pass. -/
def joinEdges : List Edge → List Edge
  | [] => []
  | e :: rest => joinOnto e rest

/-- The edges are sorted by target, and by the first characters of the labels to each target. -/
def TargetsAscend (edges : List Edge) : Prop :=
  edges.Pairwise fun d e => d.target < e.target ∨ d.target = e.target ∧ d.label.lo ≤ e.label.lo

theorem TargetsAscend.target_le {d e : Edge} (h : TargetsAscend (e :: edges)) (hd : d ∈ edges) :
    e.target ≤ d.target := by
  rcases (List.pairwise_cons.1 h).1 d hd with hlt | ⟨heq, _⟩
  · exact Nat.le_of_lt hlt
  · exact Nat.le_of_eq heq

/-- Behind an edge to a later target there is no edge to an earlier one. -/
theorem TargetsAscend.labelsTo_eq_nil {e : Edge} (h : TargetsAscend (e :: edges))
    {target : StateId} (hlt : target < e.target) : labelsTo target (e :: edges) = [] := by
  rw [List.eq_nil_iff_forall_not_mem]
  intro r hr
  rcases List.mem_cons.1 (mem_labelsTo.1 hr) with heq | hmem
  · rw [← heq] at hlt
    exact absurd hlt (Nat.lt_irrefl target)
  · exact absurd (h.target_le hmem) (Nat.not_le.2 hlt)

/-- An edge that is extended still comes before the others. -/
theorem TargetsAscend.extend {d e : Edge} (h : TargetsAscend (e :: d :: edges)) :
    TargetsAscend (⟨e.label.extend d.label, e.target⟩ :: edges) := by
  obtain ⟨he, hd⟩ := List.pairwise_cons.1 h
  exact List.pairwise_cons.2 ⟨fun x hx => he x (List.mem_cons_of_mem d hx), hd.of_cons⟩

theorem labelsTo_joinOnto {e : Edge} (h : TargetsAscend (e :: edges)) (target : StateId) :
    labelsTo target (joinOnto e edges) = CharRange.joined (labelsTo target (e :: edges)) := by
  induction edges generalizing e with
  | nil =>
    rw [joinOnto, labelsTo_cons]
    split <;> rfl
  | cons d rest ih =>
    have hd : TargetsAscend (d :: rest) := (List.pairwise_cons.1 h).2
    unfold joinOnto
    split
    · rename_i hjoin
      obtain ⟨htarget, hreach⟩ := hjoin
      rw [ih h.extend, labelsTo_cons, labelsTo_cons, labelsTo_cons, htarget]
      split
      · exact (if_pos hreach).symm
      · rfl
    · rename_i hjoin
      rw [labelsTo_cons, ih hd, labelsTo_cons target e]
      split
      · rename_i htarget
        subst htarget
        by_cases hsame : d.target = e.target
        · -- There is a gap before `d`.
          have hreach : ¬ e.label.Reaches d.label := fun hreach => hjoin ⟨hsame, hreach⟩
          rw [labelsTo_cons, if_pos hsame]
          exact (if_neg hreach).symm
        · -- With `d` the next target begins, and nothing can be joined onto `e` any more.
          have hlt : e.target < d.target :=
            Nat.lt_of_le_of_ne (h.target_le List.mem_cons_self) (Ne.symm hsame)
          rw [hd.labelsTo_eq_nil hlt]
          rfl
      · rfl

/-- For each target the pass does what it would do if there were no other targets. -/
theorem labelsTo_joinEdges (h : TargetsAscend edges) (target : StateId) :
    labelsTo target (joinEdges edges) = CharRange.joined (labelsTo target edges) := by
  cases edges with
  | nil => rfl
  | cons e rest => exact labelsTo_joinOnto h target

/-- The labels to one target start in ascending order. -/
theorem TargetsAscend.pairwise_lo (h : TargetsAscend edges) (target : StateId) :
    (labelsTo target edges).Pairwise fun r s => r.lo ≤ s.lo := by
  unfold labelsTo
  refine List.pairwise_filterMap.2 (h.imp fun {d e} hde r hr s hs => ?_)
  simp only [Option.ite_none_right_eq_some, Option.some.injEq] at hr hs
  obtain ⟨hd, rfl⟩ := hr
  obtain ⟨he, rfl⟩ := hs
  rcases hde with hlt | ⟨_, hlo⟩
  · rw [hd, he] at hlt
    exact absurd hlt (Nat.lt_irrefl target)
  · exact hlo

/-- Edges may be merged in one pass: sort them by target, with or without repetition, join
    neighbours, and sort again. -/
theorem mergeEdges_eq_ofList_joinEdges {sorted : List Edge} (h : TargetsAscend sorted)
    (hmem : ∀ e, e ∈ sorted ↔ e ∈ edges) :
    mergeEdges edges = Ascending.ofList (joinEdges sorted) := by
  have hnormal (target : StateId) : CharRange.IsNormal (labelsTo target (joinEdges sorted)) := by
    rw [labelsTo_joinEdges h]
    exact CharRange.isNormal_joined (h.pairwise_lo target)
  have hlabels (target : StateId) : labelsTo target (Ascending.ofList (joinEdges sorted)) =
      labelsTo target (joinEdges sorted) := labelsTo_ofList (hnormal target).pairwise_lt
  have hmerged : IsMerged (Ascending.ofList (joinEdges sorted)) :=
    ⟨Ascending.pairwise_ofList _, fun target => by rw [hlabels]; exact hnormal target⟩
  refine hmerged.mergeEdges_eq fun c t => ?_
  have hsame : Leads edges c t ↔ Leads sorted c t := by simp only [Leads, hmem]
  rw [hsame, leads_iff_exists_labelsTo, leads_iff_exists_labelsTo, hlabels, labelsTo_joinEdges h,
    CharRange.exists_mem_joined_iff (h.pairwise_lo t)]

end RegularLanguages
