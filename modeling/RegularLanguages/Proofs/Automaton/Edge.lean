import RegularLanguages.Automaton.Edge
import RegularLanguages.Proofs.CharRange.Parts
import RegularLanguages.Proofs.Distinct

set_option autoImplicit false

/-! # Merged edges

What a list of edges means is a relation: which character leads to which state. `mergeEdges`
keeps the relation (`leads_mergeEdges`) and depends on nothing else: a merged list is determined
by its relation (`IsMerged.eq_of_leads_iff`).

Merged edges are ordered by their labels; only edges with one label, a tie, are ordered by their
targets. A renaming of the targets that keeps the order at ties commutes with merging
(`mergeEdges_of_leads_retarget`). For a deterministic state the labels of different edges are
disjoint, and there are no ties. -/

namespace RegularLanguages

/-- Some edge leads to `target` on `c`. -/
def Leads (edges : List Edge) (c : Char) (target : StateId) : Prop :=
  ∃ e ∈ edges, c ∈ e.label ∧ e.target = target

theorem Leads.of_mem {edges : List Edge} {e : Edge} (he : e ∈ edges) {c : Char}
    (hc : c ∈ e.label) : Leads edges c e.target :=
  ⟨e, he, hc, rfl⟩

/-- A character leads somewhere if it is on a label. -/
theorem exists_leads_iff {edges : List Edge} {c : Char} :
    (∃ target, Leads edges c target) ↔ ∃ e ∈ edges, c ∈ e.label := by
  constructor
  · intro h
    obtain ⟨_, e, he, hc, _⟩ := h
    exact ⟨e, he, hc⟩
  · intro h
    obtain ⟨e, he, hc⟩ := h
    exact ⟨e.target, Leads.of_mem he hc⟩

theorem leads_append {xs ys : List Edge} {c : Char} {target : StateId} :
    Leads (xs ++ ys) c target ↔ Leads xs c target ∨ Leads ys c target := by
  simp only [Leads, List.mem_append, or_and_right, exists_or]

/-- Edges that all lead to one state. -/
theorem leads_map_mk {labels : List CharRange} {c : Char} {target t : StateId} :
    Leads (labels.map fun label => ⟨label, target⟩) c t ↔
      (∃ label ∈ labels, c ∈ label) ∧ t = target := by
  constructor
  · intro h
    obtain ⟨e, he, hc, rfl⟩ := h
    obtain ⟨label, hlabel, rfl⟩ := List.mem_map.1 he
    exact ⟨⟨label, hlabel, hc⟩, rfl⟩
  · intro h
    obtain ⟨⟨label, hlabel, hc⟩, rfl⟩ := h
    exact ⟨⟨label, t⟩, List.mem_map.2 ⟨label, hlabel, rfl⟩, hc, rfl⟩

/-- Moves to numbered things, with the numbers for targets. -/
theorem leads_filterMap_rank? {α : Type} [Ord α] {order : Numbering α}
    {moves : List (CharRange × α)} {c : Char} {target : StateId} :
    Leads (moves.filterMap fun (label, next) =>
      (order.rank? next).map fun target => ⟨label, target⟩) c target ↔
      ∃ next, (∃ label, (label, next) ∈ moves ∧ c ∈ label) ∧ order.rank? next = some target := by
  constructor
  · intro h
    obtain ⟨_, he, hc, rfl⟩ := h
    obtain ⟨⟨label, next⟩, hmem, heq⟩ := List.mem_filterMap.1 he
    obtain ⟨target, htarget, rfl⟩ := Option.map_eq_some_iff.1 heq
    exact ⟨next, ⟨label, hmem, hc⟩, htarget⟩
  · intro h
    obtain ⟨next, ⟨label, hmem, hc⟩, htarget⟩ := h
    refine ⟨⟨label, target⟩, List.mem_filterMap.2 ⟨(label, next), hmem, ?_⟩, hc, rfl⟩
    exact Option.map_eq_some_iff.2 ⟨target, htarget, rfl⟩

/-- No character leads to two states. -/
def Functional (edges : List Edge) : Prop :=
  ∀ c t u, Leads edges c t → Leads edges c u → t = u

theorem functional_of_pairwise_disjoint {edges : List Edge}
    (h : edges.Pairwise fun d e => d.label.Disjoint e.label) : Functional edges := by
  have : Std.Symm fun d e : Edge => d.label.Disjoint e.label := ⟨fun _ _ => Or.symm⟩
  intro c t u ht hu
  obtain ⟨d, hd, hcd, rfl⟩ := ht
  obtain ⟨e, he, hce, rfl⟩ := hu
  by_contra hne
  have hdisjoint := h.forall hd he fun heq => hne (congrArg Edge.target heq)
  exact CharRange.disjoint_iff.1 hdisjoint c hcd hce

/-! ## Labels to one target -/

theorem mem_labelsTo {target : StateId} {edges : List Edge} {r : CharRange} :
    r ∈ labelsTo target edges ↔ ⟨r, target⟩ ∈ edges := by
  unfold labelsTo
  rw [List.mem_filterMap]
  constructor
  · rintro ⟨e, he, hr⟩
    simp only [Option.ite_none_right_eq_some, Option.some.injEq] at hr
    obtain ⟨rfl, rfl⟩ := hr
    exact he
  · intro he
    exact ⟨⟨r, target⟩, he, by simp⟩

theorem labelsTo_cons (target : StateId) (e : Edge) (edges : List Edge) :
    labelsTo target (e :: edges) =
      if e.target = target then e.label :: labelsTo target edges else labelsTo target edges := by
  by_cases h : e.target = target <;> simp [labelsTo, h]

theorem leads_iff_exists_labelsTo {edges : List Edge} {c : Char} {target : StateId} :
    Leads edges c target ↔ ∃ r ∈ labelsTo target edges, c ∈ r := by
  constructor
  · rintro ⟨e, he, hc, rfl⟩
    exact ⟨e.label, mem_labelsTo.2 he, hc⟩
  · rintro ⟨r, hr, hc⟩
    exact ⟨⟨r, target⟩, mem_labelsTo.1 hr, hc, rfl⟩

theorem pairwise_labelsTo {edges : List Edge} (h : edges.Pairwise (· < ·)) (target : StateId) :
    (labelsTo target edges).Pairwise (· < ·) := by
  unfold labelsTo
  rw [List.pairwise_filterMap]
  refine h.imp fun {d e} hde r hr s hs => ?_
  simp only [Option.ite_none_right_eq_some, Option.some.injEq] at hr hs
  obtain ⟨hd, rfl⟩ := hr
  obtain ⟨he, rfl⟩ := hs
  rcases Edge.lt_def.1 hde with hlt | ⟨_, hlt⟩
  · exact hlt
  · rw [hd, he] at hlt
    exact absurd hlt (Nat.lt_irrefl target)

/-- Sorting all edges does not disturb the labels to a target if these ascend. -/
theorem labelsTo_ofList {edges : List Edge} {target : StateId}
    (h : (labelsTo target edges).Pairwise (· < ·)) :
    labelsTo target (Ascending.ofList edges) = labelsTo target edges := by
  refine Ascending.eq_of_mem_iff (pairwise_labelsTo (Ascending.pairwise_ofList edges) target) h
    fun r => ?_
  rw [mem_labelsTo, mem_labelsTo, Ascending.mem_ofList]

/-! ## Merged lists -/

/-- The edges ascend, and the labels to each target are in normal form. -/
structure IsMerged (edges : List Edge) : Prop where
  ascending : edges.Pairwise (· < ·)
  normal : ∀ target, CharRange.IsNormal (labelsTo target edges)

theorem IsMerged.subset_of_leads_iff {xs ys : List Edge} (hx : IsMerged xs) (hy : IsMerged ys)
    (h : ∀ c t, Leads xs c t ↔ Leads ys c t) {e : Edge} (he : e ∈ xs) : e ∈ ys := by
  have hlabels : labelsTo e.target xs = labelsTo e.target ys := by
    refine (hx.normal e.target).eq_of_mem_iff (hy.normal e.target) fun c => ?_
    rw [← leads_iff_exists_labelsTo, ← leads_iff_exists_labelsTo]
    exact h c e.target
  have hmem : e.label ∈ labelsTo e.target xs := mem_labelsTo.2 he
  rw [hlabels] at hmem
  exact mem_labelsTo.1 hmem

/-- Merged lists with the same moves are equal. -/
theorem IsMerged.eq_of_leads_iff {xs ys : List Edge} (hx : IsMerged xs) (hy : IsMerged ys)
    (h : ∀ c t, Leads xs c t ↔ Leads ys c t) : xs = ys :=
  Ascending.eq_of_mem_iff hx.ascending hy.ascending fun _ =>
    ⟨hx.subset_of_leads_iff hy h, hy.subset_of_leads_iff hx fun c t => (h c t).symm⟩

theorem mem_mergeEdges {edges : List Edge} {e : Edge} :
    e ∈ mergeEdges edges ↔ e.label ∈ CharRange.normalize (labelsTo e.target edges) := by
  unfold mergeEdges
  rw [Ascending.mem_ofList, List.mem_flatMap]
  constructor
  · rintro ⟨target, _, he⟩
    obtain ⟨label, hlabel, rfl⟩ := List.mem_map.1 he
    exact hlabel
  · intro he
    -- A label in the normal form comes from some edge, so its target is on the list.
    obtain ⟨r, hr, _⟩ := CharRange.exists_mem_normalize_iff.1 ⟨e.label, he, e.label.lo_mem⟩
    have htarget : e.target ∈ edges.map Edge.target :=
      List.mem_map.2 ⟨_, mem_labelsTo.1 hr, rfl⟩
    exact ⟨e.target, (mem_novel _ _ _).2 ⟨htarget, List.not_mem_nil⟩,
      List.mem_map.2 ⟨e.label, he, rfl⟩⟩

theorem labelsTo_mergeEdges (target : StateId) (edges : List Edge) :
    labelsTo target (mergeEdges edges) = CharRange.normalize (labelsTo target edges) := by
  have hascending : (mergeEdges edges).Pairwise (· < ·) := Ascending.pairwise_ofList _
  refine Ascending.eq_of_mem_iff (pairwise_labelsTo hascending target)
    (CharRange.isNormal_normalize _).pairwise_lt fun r => ?_
  rw [mem_labelsTo, mem_mergeEdges]

theorem isMerged_mergeEdges (edges : List Edge) : IsMerged (mergeEdges edges) where
  ascending := Ascending.pairwise_ofList _
  normal target := by
    rw [labelsTo_mergeEdges]
    exact CharRange.isNormal_normalize _

/-- Merging keeps the moves. -/
theorem leads_mergeEdges {edges : List Edge} {c : Char} {target : StateId} :
    Leads (mergeEdges edges) c target ↔ Leads edges c target := by
  rw [leads_iff_exists_labelsTo, labelsTo_mergeEdges, CharRange.exists_mem_normalize_iff,
    leads_iff_exists_labelsTo]

/-- A merged list is what merging makes of every list with its moves. -/
theorem IsMerged.mergeEdges_eq {xs ys : List Edge} (hx : IsMerged xs)
    (h : ∀ c t, Leads ys c t ↔ Leads xs c t) : mergeEdges ys = xs :=
  (isMerged_mergeEdges ys).eq_of_leads_iff hx fun c t => leads_mergeEdges.trans (h c t)

/-! ## Deterministic edges -/

theorem IsMerged.pairwise_disjoint {edges : List Edge} (h : IsMerged edges)
    (hf : Functional edges) : edges.Pairwise fun d e => d.label.Disjoint e.label := by
  refine h.ascending.imp_of_mem fun {d e} hd he hlt => CharRange.disjoint_iff.2 ?_
  intro c hcd hce
  have htarget : d.target = e.target := hf c _ _ (Leads.of_mem hd hcd) (Leads.of_mem he hce)
  have hd' : d.label ∈ labelsTo e.target edges := mem_labelsTo.2 (htarget ▸ hd)
  have he' : e.label ∈ labelsTo e.target edges := mem_labelsTo.2 he
  have hlabel : d.label = e.label :=
    CharRange.eq_of_pairwise_disjoint (h.normal e.target).pairwise_disjoint hd' he' hcd hce
  rcases Edge.lt_def.1 hlt with hlt | ⟨_, hlt⟩
  · rw [hlabel] at hlt
    exact Std.Irrefl.irrefl (r := (· < · : CharRange → CharRange → Prop)) _ hlt
  · rw [htarget] at hlt
    exact Nat.lt_irrefl e.target hlt

/-- The edges of a merged deterministic state ascend without overlap. -/
theorem IsMerged.inOrder {edges : List Edge} (h : IsMerged edges) (hf : Functional edges) :
    CharRange.InOrder (edges.map Edge.label) := by
  refine List.pairwise_map.2 ((h.ascending.and (h.pairwise_disjoint hf)).imp fun {d e} hde => ?_)
  obtain ⟨hlt, hdisjoint⟩ := hde
  refine hdisjoint.resolve_right fun hbehind => ?_
  -- The edge with the smaller label cannot lie behind the other one.
  have hlo : d.label.lo ≤ e.label.lo := by
    rcases Edge.lt_def.1 hlt with hlt | ⟨heq, _⟩
    · rcases CharRange.lt_def.1 hlt with hlt | ⟨heq, _⟩
      · exact le_of_lt hlt
      · exact le_of_eq heq
    · rw [heq]
  exact absurd (lt_of_lt_of_le hbehind hlo) (not_lt.2 e.label.lo_le_hi)

theorem Functional.mergeEdges {edges : List Edge} (h : Functional edges) :
    Functional (mergeEdges edges) := by
  intro c t u ht hu
  exact h c t u (leads_mergeEdges.1 ht) (leads_mergeEdges.1 hu)

/-- Merging the edges of a deterministic state keeps the labels of different edges disjoint. -/
theorem pairwise_disjoint_mergeEdges {edges : List Edge} (h : Functional edges) :
    (mergeEdges edges).Pairwise fun d e => d.label.Disjoint e.label :=
  (isMerged_mergeEdges edges).pairwise_disjoint h.mergeEdges

/-! ## The order of the targets

If the labels of the edges are in order, the targets first appear in the order of the first
characters that lead to them. So their order is a matter of the moves alone, and merging does not
change it. -/

/-- Some character leads to `t` and comes before all that lead to `u`. -/
def LeadsEarlier (edges : List Edge) (t u : StateId) : Prop :=
  ∃ c, Leads edges c t ∧ ∀ d, Leads edges d u → c < d

theorem Leads.of_cons {e : Edge} {edges : List Edge} {c : Char} {t : StateId}
    (h : Leads (e :: edges) c t) (hne : t ≠ e.target) : Leads edges c t := by
  obtain ⟨d, hd, hc, ht⟩ := h
  rcases List.mem_cons.1 hd with rfl | hd
  · exact absurd ht.symm hne
  · exact ⟨d, hd, hc, ht⟩

/-- To a target that `e` does not lead to, the same characters lead with and without `e`. -/
theorem LeadsEarlier.cons {e : Edge} {edges : List Edge} {t u : StateId}
    (h : LeadsEarlier edges t u) (hne : u ≠ e.target) : LeadsEarlier (e :: edges) t u := by
  obtain ⟨c, ⟨d, hd, hc, ht⟩, hbefore⟩ := h
  exact ⟨c, ⟨d, List.mem_cons_of_mem e hd, hc, ht⟩, fun b hb => hbefore b (hb.of_cons hne)⟩

/-- The first edge leads to its target before any other edge leads to another target. -/
theorem leadsEarlier_head {e : Edge} {edges : List Edge} {u : StateId}
    (h : CharRange.InOrder ((e :: edges).map Edge.label)) (hne : u ≠ e.target) :
    LeadsEarlier (e :: edges) e.target u := by
  refine ⟨e.label.lo, Leads.of_mem List.mem_cons_self e.label.lo_mem, fun c hc => ?_⟩
  obtain ⟨d, hd, hcd, _⟩ := hc.of_cons hne
  have hbehind : e.label.hi < d.label.lo :=
    (List.pairwise_cons.1 h).1 d.label (List.mem_map_of_mem hd)
  exact lt_of_le_of_lt e.label.lo_le_hi (lt_of_lt_of_le hbehind hcd.1)

theorem pairwise_novel_targets {edges : List Edge}
    (h : CharRange.InOrder (edges.map Edge.label)) (seen : List StateId) :
    (novel seen (edges.map Edge.target)).Pairwise (LeadsEarlier edges) := by
  induction edges generalizing seen with
  | nil => exact List.Pairwise.nil
  | cons e edges ih =>
    have hne : ∀ {seen u}, e.target ∈ seen → u ∈ novel seen (edges.map Edge.target) →
        u ≠ e.target := fun hseen hu heq => ((mem_novel _ _ _).1 hu).2 (heq ▸ hseen)
    have hrest : ∀ {seen}, e.target ∈ seen →
        (novel seen (edges.map Edge.target)).Pairwise (LeadsEarlier (e :: edges)) := fun hseen =>
      (ih (List.pairwise_cons.1 h).2 _).imp_of_mem fun _ hu hlt => hlt.cons (hne hseen hu)
    rw [List.map_cons]
    by_cases hseen : e.target ∈ seen
    · rw [novel_cons_of_mem hseen]
      exact hrest hseen
    · rw [novel_cons_of_not_mem hseen]
      refine List.pairwise_cons.2 ⟨fun u hu => ?_, hrest List.mem_cons_self⟩
      exact leadsEarlier_head h (hne List.mem_cons_self hu)

theorem mem_targets_iff_exists_leads {edges : List Edge} {t : StateId} :
    t ∈ edges.map Edge.target ↔ ∃ c, Leads edges c t := by
  rw [List.mem_map]
  constructor
  · rintro ⟨e, he, rfl⟩
    exact ⟨e.label.lo, Leads.of_mem he e.label.lo_mem⟩
  · rintro ⟨_, e, he, _, ht⟩
    exact ⟨e, he, ht⟩

/-- Edges in order with the same moves have their targets in the same order. -/
theorem novel_targets_eq {xs ys : List Edge} (hx : CharRange.InOrder (xs.map Edge.label))
    (hy : CharRange.InOrder (ys.map Edge.label)) (h : ∀ c t, Leads xs c t ↔ Leads ys c t) :
    novel [] (xs.map Edge.target) = novel [] (ys.map Edge.target) := by
  have hsame : LeadsEarlier ys = LeadsEarlier xs := by
    unfold LeadsEarlier
    simp only [h]
  have hpairwise := pairwise_novel_targets hy []
  rw [hsame] at hpairwise
  refine List.Perm.eq_of_pairwise (fun t u _ _ htu hut => ?_) (pairwise_novel_targets hx [])
    hpairwise ?_
  · obtain ⟨c, hc, hbefore⟩ := htu
    obtain ⟨d, hd, hbefore'⟩ := hut
    exact absurd (hbefore d hd) (lt_asymm (hbefore' c hc))
  · rw [List.perm_ext_iff_of_nodup (nodup_novel _ _) (nodup_novel _ _)]
    intro t
    rw [mem_novel, mem_novel, mem_targets_iff_exists_leads, mem_targets_iff_exists_leads]
    simp only [h]

/-! ## Renaming the targets -/

theorem leads_map_retarget {f : StateId → StateId} {edges : List Edge} {c : Char} {u : StateId} :
    Leads (edges.map (Edge.retarget f)) c u ↔ ∃ t, Leads edges c t ∧ f t = u := by
  constructor
  · rintro ⟨d, hd, hc, rfl⟩
    obtain ⟨e, he, rfl⟩ := List.mem_map.1 hd
    exact ⟨e.target, ⟨e, he, hc, rfl⟩, rfl⟩
  · rintro ⟨_, ⟨e, he, hc, rfl⟩, rfl⟩
    exact ⟨e.retarget f, List.mem_map.2 ⟨e, he, rfl⟩, hc, rfl⟩

/-- Where two edges have the same label, `f` keeps the order of their targets. -/
def KeepsTies (f : StateId → StateId) (edges : List Edge) : Prop :=
  ∀ d ∈ edges, ∀ e ∈ edges, d.label = e.label → d.target < e.target → f d.target < f e.target

instance (f : StateId → StateId) (edges : List Edge) : Decidable (KeepsTies f edges) :=
  inferInstanceAs (Decidable (∀ d ∈ edges, ∀ e ∈ edges, d.label = e.label →
    d.target < e.target → f d.target < f e.target))

/-- Deterministic edges have no ties. -/
theorem Functional.keepsTies {edges : List Edge} (h : Functional edges) (f : StateId → StateId) :
    KeepsTies f edges := by
  intro d hd e he hlabel hlt
  have hmem : d.label.lo ∈ e.label := hlabel ▸ d.label.lo_mem
  have htarget := h _ _ _ (Leads.of_mem hd d.label.lo_mem) (Leads.of_mem he hmem)
  rw [htarget] at hlt
  exact absurd hlt (Nat.lt_irrefl e.target)

theorem pairwise_map_retarget {f : StateId → StateId} {edges : List Edge}
    (h : edges.Pairwise (· < ·)) (hf : KeepsTies f edges) :
    (edges.map (Edge.retarget f)).Pairwise (· < ·) := by
  rw [List.pairwise_map]
  refine h.imp_of_mem fun {d e} hd he hlt => ?_
  rcases Edge.lt_def.1 hlt with hlt | ⟨hlabel, hlt⟩
  · exact Or.inl hlt
  · exact Or.inr ⟨hlabel, hf d hd e he hlabel hlt⟩

theorem labelsTo_map_retarget {f : StateId → StateId} {edges : List Edge} {target : StateId}
    (hinj : ∀ e ∈ edges, f e.target = f target → e.target = target) :
    labelsTo (f target) (edges.map (Edge.retarget f)) = labelsTo target edges := by
  unfold labelsTo
  rw [List.filterMap_map]
  refine List.filterMap_congr fun e he => ?_
  have hiff : f e.target = f target ↔ e.target = target := ⟨hinj e he, congrArg f⟩
  simp only [Function.comp_apply, Edge.retarget, hiff]

/-- Under new names the labels to a target are those to the target that has the name. -/
theorem IsMerged.isNormal_labelsTo_retarget {f : StateId → StateId} {edges : List Edge}
    (h : IsMerged edges)
    (hinj : ∀ d ∈ edges, ∀ e ∈ edges, f d.target = f e.target → d.target = e.target)
    (u : StateId) : CharRange.IsNormal (labelsTo u (edges.map (Edge.retarget f))) := by
  by_cases hu : ∃ e ∈ edges, f e.target = u
  · obtain ⟨e, he, rfl⟩ := hu
    rw [labelsTo_map_retarget fun d hd => hinj d hd e he]
    exact h.normal e.target
  · -- A name that no target has gets no labels.
    have hnone : labelsTo u (edges.map (Edge.retarget f)) = [] := by
      rw [List.eq_nil_iff_forall_not_mem]
      intro r hr
      obtain ⟨e, he, heq⟩ := List.mem_map.1 (mem_labelsTo.1 hr)
      exact hu ⟨e, he, congrArg Edge.target heq⟩
    rw [hnone]
    exact List.Pairwise.nil

theorem IsMerged.map_retarget {f : StateId → StateId} {edges : List Edge} (h : IsMerged edges)
    (hf : KeepsTies f edges)
    (hinj : ∀ d ∈ edges, ∀ e ∈ edges, f d.target = f e.target → d.target = e.target) :
    IsMerged (edges.map (Edge.retarget f)) where
  ascending := pairwise_map_retarget h.ascending hf
  normal := h.isNormal_labelsTo_retarget hinj

/-- At ties a renaming can upset the order; sorted again, the edges are merged again. -/
theorem IsMerged.ofList_map_retarget {f : StateId → StateId} {edges : List Edge}
    (h : IsMerged edges)
    (hinj : ∀ d ∈ edges, ∀ e ∈ edges, f d.target = f e.target → d.target = e.target) :
    IsMerged (Ascending.ofList (edges.map (Edge.retarget f))) where
  ascending := Ascending.pairwise_ofList _
  normal u := by
    have hnormal := h.isNormal_labelsTo_retarget hinj u
    rwa [labelsTo_ofList hnormal.pairwise_lt]

/-- Merging commutes with an injective renaming of the targets that keeps the order at ties. -/
theorem mergeEdges_of_leads_retarget {f : StateId → StateId} {xs ys : List Edge}
    (hf : KeepsTies f (mergeEdges xs))
    (hinj : ∀ c d t u, Leads xs c t → Leads xs d u → f t = f u → t = u)
    (h : ∀ c u, Leads ys c u ↔ ∃ t, Leads xs c t ∧ f t = u) :
    mergeEdges ys = (mergeEdges xs).map (Edge.retarget f) := by
  have hleads : ∀ e ∈ mergeEdges xs, Leads xs e.label.lo e.target := fun e he =>
    leads_mergeEdges.1 (Leads.of_mem he e.label.lo_mem)
  refine IsMerged.mergeEdges_eq ((isMerged_mergeEdges xs).map_retarget hf
    fun d hd e he => hinj _ _ _ _ (hleads d hd) (hleads e he)) fun c u => ?_
  rw [h, leads_map_retarget]
  simp only [leads_mergeEdges]

end RegularLanguages
