import RegularLanguages.Proofs.Automaton.Reduced
import RegularLanguages.Proofs.Distinct

set_option autoImplicit false

/-! # Trimming once is enough

Which states trimming keeps is decided on the whole automaton, before any edge is dropped. It is
the same decision afterwards: a path to a live state runs through live states only, so none of its
edges is lost, and every state that is kept is still reachable and still live. A second trimming
keeps them all, and since the first one has put the initial state in front and the others in
ascending order, it gives every state the number it has (`toList_trimmedOrder_trimmed`). -/

namespace RegularLanguages.Automaton

variable {g : Automaton}

/-- Trimming keeps the order of the states, if the initial state is the first one. -/
theorem pairwise_trimmedOrder (hinitial : g.initial = 0) (liveOnly : Bool) :
    (g.trimmedOrder liveOnly).toList.Pairwise (· < ·) := by
  unfold trimmedOrder
  rw [hinitial, Numbering.toList_ofList, novel_cons_of_not_mem List.not_mem_nil]
  refine List.pairwise_cons.2 ⟨fun p hp => ?_, ?_⟩
  · refine Nat.pos_of_ne_zero fun hzero => ((mem_novel _ _ _).1 hp).2 ?_
    rw [hzero]
    exact List.mem_cons_self
  · have hascending := g.reachable.ascending.filter fun id => !liveOnly || id ∈ g.coreachable
    exact hascending.sublist (novel_sublist _ _)

/-- A second trimming keeps all states under the numbers they have. -/
theorem toList_trimmedOrder_trimmed (hg : g.Valid) (liveOnly : Bool) :
    ((g.trimmed liveOnly).trimmedOrder liveOnly).toList
      = List.range (g.trimmed liveOnly).size := by
  have hvalid := valid_trimmed g liveOnly
  refine (pairwise_trimmedOrder rfl liveOnly).eq_of_mem_iff List.pairwise_lt_range fun i => ?_
  rw [Numbering.mem_toList, List.mem_range, mem_trimmedOrder hvalid]
  constructor
  · intro h
    rcases h with rfl | ⟨hreach, _⟩
    · exact hvalid.1
    · exact hreach.lt_size hvalid
  · intro hi
    refine or_iff_not_imp_left.2 fun hne => ⟨reachable_trimmed hg liveOnly hi, ?_⟩
    rintro rfl
    exact live_trimmed hg hi hne

/-- Trimming keeps the language and determinism, numbers the initial state 0 and leaves reachable
    states only, with `liveOnly` all of them live except perhaps the initial one. Trimming the
    result again does not change it. -/
theorem trimmed_accepts (hg : g.Valid) (liveOnly : Bool) :
    (∀ w, (g.trimmed liveOnly).accepts w = g.accepts w) ∧
      (g.trimmed liveOnly).initial = 0 ∧
      (g.IsDeterministic → (g.trimmed liveOnly).IsDeterministic) ∧
      (∀ i < (g.trimmed liveOnly).size, (g.trimmed liveOnly).Reachable i) ∧
      (liveOnly = true → ∀ i < (g.trimmed liveOnly).size, i ≠ (g.trimmed liveOnly).initial →
        (g.trimmed liveOnly).Live i) ∧
      (g.trimmed liveOnly).trimmed liveOnly = g.trimmed liveOnly := by
  have hvalid := valid_trimmed g liveOnly
  refine ⟨(accepts_eq_accepts_iff hg hvalid).2 (language_trimmed hg liveOnly), rfl,
    fun hd => hd.trimmed liveOnly, fun _ => reachable_trimmed hg liveOnly, ?_, ?_⟩
  · rintro rfl i hi hne
    exact live_trimmed hg hi hne
  · exact select_eq_self hvalid rfl (toList_trimmedOrder_trimmed hg liveOnly)

/-- The initial state is not the first one, state 0 is not reachable, and state 1 is dead. -/
def strewn : Automaton where
  states := #[{ accepting := true, edges := [⟨.single 'b', 2⟩] }, { epsilons := [1] },
    { edges := [⟨.single 'a', 3⟩, ⟨.single 'b', 1⟩, ⟨.single 'c', 2⟩] },
    { accepting := true, edges := [⟨.single 'a', 2⟩] }]
  initial := 2

theorem trimmed_accepts_strewn :
    strewn.Valid ∧
      (∀ w, (strewn.trimmed true).accepts w = strewn.accepts w) ∧
      (strewn.trimmed true).initial = 0 ∧
      (strewn.IsDeterministic → (strewn.trimmed true).IsDeterministic) ∧
      (∀ i < (strewn.trimmed true).size, (strewn.trimmed true).Reachable i) ∧
      (true = true → ∀ i < (strewn.trimmed true).size, i ≠ (strewn.trimmed true).initial →
        (strewn.trimmed true).Live i) ∧
      (strewn.trimmed true).trimmed true = strewn.trimmed true :=
  ⟨by decide, trimmed_accepts (by decide) true⟩

end RegularLanguages.Automaton
