import RegularLanguages.Proofs.Automaton.Reduced
import RegularLanguages.Proofs.Partition.Basic

set_option autoImplicit false

/-! # Quotients

The quotient of an automaton by a congruence of its table moves from block to block as the
automaton moves from state to state, so a block has the language of each of its states
(`languageFrom_quotient`). The congruence may come from any numbering of the states that respects
acceptance and moves, with numbers left out or not (`quotient_accepts`).

By the coarsest congruence, different blocks have different languages if no state is dead
(`distinguished_quotient`): having the same language is a congruence then. A dead state would spoil
this, for a move into it is a move all the same. -/

namespace RegularLanguages.ClassTable

variable {t : ClassTable} {g : Automaton} {p : Partition}

/-! ## Moves of tables -/

theorem Tabulates.coherent (h : t.Tabulates g) (hg : g.Valid) : t.Coherent where
  toInStep := h.inStep
  target_lt := by
    intro s k u hu
    have hpiece : t.classes[k]? = some _ := List.getElem?_eq_getElem (h.lt_width hu)
    have hmoves := (h.target?_eq_some_iff hpiece (CharRange.lo_mem _)).1 hu
    rw [h.size_eq]
    exact hg.target_lt hmoves.mem_targets

/-- Congruent states follow each other. -/
theorem IsCongruence.exists_moves {R : StateId → StateId → Prop} (hR : t.IsCongruence R)
    (h : t.Tabulates g) {s u : StateId} (hsu : R s u) {c : Char} {x : StateId}
    (hx : g.Moves s c x) : ∃ y, g.Moves u c y ∧ R x y := by
  obtain ⟨k, piece, hk, hc, hxk⟩ := (h.moves_iff s c x).1 hx
  have hrel := hR.target s u hsu k (List.getElem?_eq_some_iff.1 hk).1
  rw [hxk] at hrel
  cases hy : t.target? u k with
  | none =>
    rw [hy] at hrel
    cases hrel
  | some y =>
    rw [hy] at hrel
    cases hrel with
    | some hxy => exact ⟨y, (h.moves_iff u c y).2 ⟨k, piece, hk, hc, hy⟩, hxy⟩

/-! ## States of the quotient -/

/-- The moves of a state, with blocks as targets and one edge for each class. -/
def blockEdges (t : ClassTable) (p : Partition) (s : StateId) : List Edge :=
  t.classes.zipIdx.filterMap fun (label, column) =>
    (t.target? s column).map fun target => ⟨label, p.block target⟩

theorem leads_blockEdges (h : t.Tabulates g) {s : StateId} {c : Char} {b : StateId} :
    Leads (t.blockEdges p s) c b ↔ ∃ u, g.Moves s c u ∧ p.block u = b := by
  unfold blockEdges Leads
  simp only [List.mem_filterMap, Prod.exists, Option.map_eq_some_iff,
    List.mem_zipIdx_iff_getElem?]
  constructor
  · rintro ⟨_, ⟨piece, k, hk, u, hu, rfl⟩, hc, rfl⟩
    exact ⟨u, (h.target?_eq_some_iff hk hc).1 hu, rfl⟩
  · rintro ⟨u, hu, rfl⟩
    obtain ⟨k, piece, hk, hc, huk⟩ := (h.moves_iff s c u).1 hu
    exact ⟨_, ⟨piece, k, hk, u, huk, rfl⟩, hc, rfl⟩

theorem functional_blockEdges (h : t.Tabulates g) (hd : g.IsDeterministic) (s : StateId) :
    Functional (t.blockEdges p s) := by
  intro c b b' hb hb'
  obtain ⟨u, hu, rfl⟩ := (leads_blockEdges h).1 hb
  obtain ⟨u', hu', rfl⟩ := (leads_blockEdges h).1 hb'
  exact congrArg p.block (hd.functional s c u u' hu hu')

theorem size_quotient (t : ClassTable) (p : Partition) : (t.quotient p).size = p.count := by
  simp [quotient, Automaton.size]

theorem initial_quotient (t : ClassTable) (p : Partition) :
    (t.quotient p).initial = p.block t.start :=
  rfl

theorem state_quotient {b : Nat} (hb : b < p.count) :
    (t.quotient p).state b = t.blockState p b := by
  apply Automaton.state_of_getElem?
  simp [quotient, hb]

/-- The state of a block is made from one of its members; a block without members moves nowhere. -/
theorem blockState_cases (t : ClassTable) (p : Partition) (b : Nat) :
    (p.members b = [] ∧ t.blockState p b = {}) ∨
      ∃ s < p.size, p.block s = b ∧ t.blockState p b =
        { accepting := t.isAccepting s, edges := mergeEdges (t.blockEdges p s) } := by
  unfold blockState
  cases hhead : (p.members b).head? with
  | none => exact Or.inl ⟨List.head?_eq_none_iff.1 hhead, rfl⟩
  | some first =>
    have hfirst := Partition.mem_members.1 (List.mem_of_head? hhead)
    exact Or.inr ⟨first, hfirst.1, hfirst.2, rfl⟩

/-- The block of a state has a member. -/
theorem exists_state_quotient (hp : p.Assigns t.size) {s : StateId} (hs : s < t.size) :
    ∃ u < t.size, p.block u = p.block s ∧ (t.quotient p).state (p.block s) =
      { accepting := t.isAccepting u, edges := mergeEdges (t.blockEdges p u) } := by
  rw [state_quotient (hp.block_lt s hs), ← hp.size_eq]
  refine (t.blockState_cases p (p.block s)).resolve_left fun hnone => ?_
  have hmem : s ∈ p.members (p.block s) := Partition.mem_members.2 ⟨hp.size_eq ▸ hs, rfl⟩
  rw [hnone.1] at hmem
  exact absurd hmem List.not_mem_nil

theorem isDeterministic_quotient (h : t.Tabulates g) (hd : g.IsDeterministic) (p : Partition) :
    (t.quotient p).IsDeterministic := by
  refine Automaton.isDeterministic_of_forall_lt fun b hb => ?_
  rw [size_quotient] at hb
  rw [state_quotient hb]
  rcases t.blockState_cases p b with ⟨_, hstate⟩ | ⟨s, _, _, hstate⟩
  · rw [hstate]
    exact ⟨rfl, List.Pairwise.nil⟩
  · rw [hstate]
    exact ⟨rfl, pairwise_disjoint_mergeEdges (functional_blockEdges h hd s)⟩

theorem valid_quotient (h : t.Tabulates g) (hg : g.Valid) (hd : g.IsDeterministic)
    (hp : p.Assigns t.size) : (t.quotient p).Valid := by
  have hlt : ∀ {s}, s < g.size → p.block s < (t.quotient p).size := by
    intro s hs
    rw [size_quotient]
    exact hp.block_lt s (h.size_eq ▸ hs)
  refine (isDeterministic_quotient h hd p).epsilonFree.valid ?_ fun b hb c target hmoves => ?_
  · show p.block t.start < _
    rw [h.start_eq]
    exact hlt hg.1
  · rw [size_quotient] at hb
    unfold Automaton.Moves at hmoves
    rw [state_quotient hb] at hmoves
    rcases t.blockState_cases p b with ⟨_, hstate⟩ | ⟨s, _, _, hstate⟩
    · rw [hstate] at hmoves
      obtain ⟨_, he, _⟩ := hmoves
      exact absurd he List.not_mem_nil
    · rw [hstate] at hmoves
      obtain ⟨u, hu, rfl⟩ := (leads_blockEdges h).1 (leads_mergeEdges.1 hmoves)
      exact hlt (hg.target_lt hu.mem_targets)

section Congruence

variable (h : t.Tabulates g) (hp : p.Assigns t.size) (hc : t.IsCongruence p.Joins)

include h hp hc

theorem isAccepting_quotient {s : StateId} (hs : s < g.size) :
    (t.quotient p).isAccepting (p.block s) = g.isAccepting s := by
  rw [← h.size_eq] at hs
  obtain ⟨u, hu, hub, hstate⟩ := exists_state_quotient hp hs
  unfold Automaton.isAccepting at *
  rw [hstate]
  exact (hc.isAccepting_eq u s (hp.joins_iff.2 ⟨hu, hs, hub⟩)).trans (h.isAccepting_eq s)

theorem moves_quotient {s : StateId} (hs : s < g.size) {c : Char} {b : StateId} :
    (t.quotient p).Moves (p.block s) c b ↔ ∃ u, g.Moves s c u ∧ p.block u = b := by
  rw [← h.size_eq] at hs
  obtain ⟨u, hu, hub, hstate⟩ := exists_state_quotient hp hs
  -- The state that stands for the block may be another one, but the two follow each other.
  have hjoins : p.Joins u s := hp.joins_iff.2 ⟨hu, hs, hub⟩
  unfold Automaton.Moves at *
  rw [hstate]
  refine leads_mergeEdges.trans ((leads_blockEdges h).trans ?_)
  constructor
  · rintro ⟨x, hx, rfl⟩
    obtain ⟨y, hy, hxy⟩ := hc.exists_moves h hjoins hx
    exact ⟨y, hy, hxy.2.2.symm⟩
  · rintro ⟨y, hy, rfl⟩
    obtain ⟨x, hx, hxy⟩ := hc.exists_moves h ⟨hjoins.2.1, hjoins.1, hjoins.2.2.symm⟩ hy
    exact ⟨x, hx, hxy.2.2.symm⟩

/-- The state and the number of its block. -/
def InBlock (g : Automaton) (p : Partition) (s : StateId) (b : Nat) : Prop :=
  s < g.size ∧ p.block s = b

/-- The blocks follow the states. -/
theorem simulates_quotient (hg : g.Valid) (hd : g.IsDeterministic) :
    Automaton.Simulates (InBlock g p) g (t.quotient p) := by
  refine hd.simulates ?_
  intro s b c x hsb hx
  obtain ⟨hs, rfl⟩ := hsb
  exact ⟨p.block x, (moves_quotient h hp hc hs).2 ⟨x, hx, rfl⟩, hg.target_lt hx.mem_targets, rfl⟩

/-- The states follow the blocks: from any state of a block a move leads on as from the block. -/
theorem quotient_simulates (hg : g.Valid) (hd : g.IsDeterministic) :
    Automaton.Simulates (fun b s => InBlock g p s b) (t.quotient p) g := by
  refine (isDeterministic_quotient h hd p).simulates ?_
  intro b s c a hsb ha
  obtain ⟨hs, rfl⟩ := hsb
  obtain ⟨x, hx, hxa⟩ := (moves_quotient h hp hc hs).1 ha
  exact ⟨x, hx, hg.target_lt hx.mem_targets, hxa⟩

theorem isAccepting_of_inBlock {s : StateId} {b : Nat} (hsb : InBlock g p s b) :
    (t.quotient p).isAccepting b = g.isAccepting s := by
  obtain ⟨hs, rfl⟩ := hsb
  exact isAccepting_quotient h hp hc hs

/-- A block has the language of each of its states. -/
theorem languageFrom_quotient (hg : g.Valid) (hd : g.IsDeterministic) {s : StateId}
    (hs : s < g.size) : (t.quotient p).languageFrom (p.block s) = g.languageFrom s := by
  ext w
  constructor
  · refine (quotient_simulates h hp hc hg hd).mem_languageFrom (fun hsb hacc => ?_) ⟨hs, rfl⟩
    rw [← isAccepting_of_inBlock h hp hc hsb]
    exact hacc
  · refine (simulates_quotient h hp hc hg hd).mem_languageFrom (fun hsb hacc => ?_) ⟨hs, rfl⟩
    rw [isAccepting_of_inBlock h hp hc hsb]
    exact hacc

/-- The quotient keeps the language. -/
theorem language_quotient (hg : g.Valid) (hd : g.IsDeterministic) :
    (t.quotient p).language = g.language := by
  unfold Automaton.language
  rw [← languageFrom_quotient h hp hc hg hd hg.1, ← h.start_eq]
  rfl

end Congruence

/-! ## Numberings of the states -/

section Numberings

variable {f : StateId → Nat}

/-- States with the same number agree on acceptance, and on every class they both go nowhere or
    both go to states with the same number. -/
def Respects (t : ClassTable) (f : StateId → Nat) : Prop :=
  ∀ s < t.size, ∀ u < t.size, f s = f u →
    t.isAccepting s = t.isAccepting u ∧
      ∀ k < t.width, (t.target? s k).map f = (t.target? u k).map f

instance : Decidable (t.Respects f) :=
  inferInstanceAs (Decidable (∀ s < t.size, ∀ u < t.size, f s = f u →
    t.isAccepting s = t.isAccepting u ∧
      ∀ k < t.width, (t.target? s k).map f = (t.target? u k).map f))

/-- The states with the same number are congruent. -/
theorem Respects.isCongruence (hf : t.Respects f) (ht : t.Coherent) :
    t.IsCongruence fun s u => s < t.size ∧ u < t.size ∧ f s = f u where
  lt_size s u hsu := ⟨hsu.1, hsu.2.1⟩
  isAccepting_eq s u hsu := (hf s hsu.1 u hsu.2.1 hsu.2.2).1
  target s u hsu k hk := by
    have hmap := (hf s hsu.1 u hsu.2.1 hsu.2.2).2 k hk
    have hs : ∀ {x}, t.target? s k = some x → x < t.size := ht.target_lt
    have hu : ∀ {x}, t.target? u k = some x → x < t.size := ht.target_lt
    -- Either both states move or none does, for otherwise only one side would have a number.
    generalize t.target? s k = x, t.target? u k = y at hmap hs hu
    cases x with
    | none =>
      cases y with
      | none => exact Option.Rel.none
      | some y => cases hmap
    | some x =>
      cases y with
      | none => cases hmap
      | some y => exact Option.Rel.some ⟨hs rfl, hu rfl, Option.some.inj hmap⟩

end Numberings

/-- Any assignment of the states to blocks that respects acceptance and moves gives an automaton
    with the same words, which is deterministic whatever the assignment. The blocks need not be
    the coarsest ones, and a block may be empty. -/
theorem quotient_accepts (hg : g.Valid) (hd : g.IsDeterministic) (hp : p.Assigns g.size)
    (hrespects : (tableOf g).Respects p.block) :
    ofAutomaton? g = .ok (tableOf g) ∧
      ((tableOf g).quotient p).IsDeterministic ∧
      ((tableOf g).quotient p).size = p.count ∧
      ∀ w, ((tableOf g).quotient p).accepts w = g.accepts w := by
  have htable := tabulates_tableOf hd
  rw [← htable.size_eq] at hp
  have hvalid := valid_quotient htable hg hd hp
  have hcongruence : (tableOf g).IsCongruence p.Joins := by
    have hjoins := hrespects.isCongruence (htable.coherent hg)
    rwa [← hp.size_eq] at hjoins
  refine ⟨ofAutomaton?_eq_ok hg hd, isDeterministic_quotient htable hd p, size_quotient _ p, ?_⟩
  exact (Automaton.accepts_eq_accepts_iff hg hvalid).2
    (language_quotient htable hp hcongruence hg hd)

/-- Three states that lead to each other or themselves, two of which accept. -/
def triplets : Automaton :=
  .ofList [{ edges := [⟨.single 'a', 1⟩, ⟨.single 'b', 2⟩, ⟨.single 'c', 0⟩] },
    { accepting := true, edges := [⟨⟨'a', 'b', by decide⟩, 2⟩] },
    { accepting := true, edges := [⟨.single 'b', 1⟩, ⟨.single 'a', 1⟩] }]

/-- Two of five blocks are used, neither the first nor the last. -/
theorem quotient_accepts_triplets :
    let p : Partition := ⟨#[3, 1, 1], 5⟩
    let t := tableOf triplets
    triplets.Valid ∧ triplets.IsDeterministic ∧ p.Assigns triplets.size ∧ t.Respects p.block ∧
      ofAutomaton? triplets = .ok t ∧
      (t.quotient p).IsDeterministic ∧
      (t.quotient p).size = 5 ∧
      ∀ w, (t.quotient p).accepts w = triplets.accepts w := by
  intro p t
  have hg : triplets.Valid := by decide
  have hd : triplets.IsDeterministic := by decide
  have hp : p.Assigns triplets.size := ⟨rfl, by decide⟩
  have hrespects : t.Respects p.block := by decide +kernel
  exact ⟨hg, hd, hp, hrespects, quotient_accepts hg hd hp hrespects⟩

/-! ## The coarsest congruence -/

/-- Having the same language is a congruence if all states are live. -/
theorem isCongruence_languageFrom (h : t.Tabulates g) (hg : g.Valid) (hd : g.IsDeterministic)
    (hlive : ∀ s < g.size, g.Live s) : t.IsCongruence fun s u =>
      s < g.size ∧ u < g.size ∧ g.languageFrom s = g.languageFrom u where
  lt_size s u hsu := by
    rw [h.size_eq]
    exact ⟨hsu.1, hsu.2.1⟩
  isAccepting_eq s u hsu := by
    rw [h.isAccepting_eq, h.isAccepting_eq]
    exact Automaton.isAccepting_eq_of_languageFrom_eq hd hd hsu.2.2
  target s u hsu k hk := by
    obtain ⟨_, _, heq⟩ := hsu
    obtain ⟨piece, hpiece⟩ : ∃ piece, t.classes[k]? = some piece :=
      ⟨_, List.getElem?_eq_getElem hk⟩
    have hmoves : ∀ {x y}, t.target? x k = some y ↔ g.Moves x piece.lo y :=
      h.target?_eq_some_iff hpiece piece.lo_mem
    have hlt : ∀ {x y}, g.Moves x piece.lo y → y < g.size := fun hy =>
      hg.target_lt hy.mem_targets
    -- A move that only one of the two had would lead to a live state and so to an accepted word.
    cases hs : t.target? s k with
    | some x =>
      have hx := hmoves.1 hs
      obtain ⟨y, hy, hxy⟩ := hx.exists_moves_of_languageFrom_eq hd hd (hlive x (hlt hx)) heq
      rw [hmoves.2 hy]
      exact Option.Rel.some ⟨hlt hx, hlt hy, hxy⟩
    | none =>
      cases hu : t.target? u k with
      | none => exact Option.Rel.none
      | some y =>
        have hy := hmoves.1 hu
        obtain ⟨x, hx, _⟩ :=
          hy.exists_moves_of_languageFrom_eq hd hd (hlive y (hlt hy)) heq.symm
        rw [hmoves.2 hx] at hs
        cases hs

/-- The blocks of the coarsest congruence are told apart by their languages, if the automaton
    has no dead state but possibly an initial one for the empty language. -/
theorem distinguished_quotient (h : t.Tabulates g) (hp : t.IsCoarsest p) (hg : g.Valid)
    (hd : g.IsDeterministic) (hlive : g.Live g.initial → ∀ s < g.size, g.Live s) :
    (t.quotient p).Distinguished := by
  have hstart : (t.quotient p).initial = p.block g.initial := congrArg p.block h.start_eq
  have hstate : ∀ {b}, (t.quotient p).Reachable b → ∃ s, g.Reachable s ∧ p.block s = b := by
    rintro b ⟨w, hw⟩
    rw [hstart] at hw
    obtain ⟨s, hs, _, hsb⟩ :=
      (quotient_simulates h hp.partitions.assigns hp.congruence hg hd).exists_path hw ⟨hg.1, rfl⟩
    exact ⟨s, ⟨w, hs⟩, hsb⟩
  have hlanguage : ∀ {s}, s < g.size → (t.quotient p).languageFrom (p.block s) = g.languageFrom s :=
    languageFrom_quotient h hp.partitions.assigns hp.congruence hg hd
  intro a b ha hb hlivea heq
  obtain ⟨s, hs, rfl⟩ := hstate ha
  obtain ⟨u, hu, rfl⟩ := hstate hb
  have hslt := hs.lt_size hg
  have hult := hu.lt_size hg
  have hslive : g.Live s := hlivea.of_languageFrom_eq (hlanguage hslt)
  rw [hlanguage hslt, hlanguage hult] at heq
  have hcongruence := isCongruence_languageFrom h hg hd (hlive (hs.live_initial hslive))
  exact hp.unites _ hcongruence s u ⟨hslt, hult, heq⟩

end RegularLanguages.ClassTable
