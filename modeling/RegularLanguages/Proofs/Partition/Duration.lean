import Mathlib.Data.List.ProdSigma
import Mathlib.Data.List.Nodup
import RegularLanguages.Proofs.Partition.Hopcroft
import RegularLanguages.Proofs.Partition.Moore

set_option autoImplicit false

/-! # How long the refinements take

Hopcroft's refinement adds to the queue that it works through. A block joins the queue when it is
made, with every class, and nothing else ever joins: what has been queued so far is every block
there is with every class (`queued_eq_splitters`). Nothing leaves but the first splitter, one with
each use, so after `n` uses the queue is what has been queued without the first `n` (`queue_run`).
Blocks are not given up again, and each has a state of its own. Hence the queue is empty after as
many uses as there are blocks and classes in the end, and not before (`run_queue_eq_nil_iff`).

Moore's refinement has no queue: each of its rounds but the last adds a block (`exists_rounds`).

Neither argument asks where the table comes from. -/

namespace RegularLanguages

namespace Hopcroft

variable {t : ClassTable} {r r' r'' : Refinement}

/-! ## What joins the queue -/

/-- The first blocks with every class, in the order of the queue. -/
def splitters (t : ClassTable) (count : Nat) : List (Nat × Nat) :=
  List.range count ×ˢ List.range t.width

theorem mem_splitters {count b k : Nat} :
    (b, k) ∈ splitters t count ↔ b < count ∧ k < t.width := by
  rw [splitters, List.mem_product, List.mem_range, List.mem_range]

theorem length_splitters (t : ClassTable) (count : Nat) :
    (splitters t count).length = count * t.width := by
  rw [splitters, List.length_product, List.length_range, List.length_range]

theorem nodup_splitters (t : ClassTable) (count : Nat) : (splitters t count).Nodup :=
  List.nodup_range.product List.nodup_range

theorem splitters_succ (t : ClassTable) (count : Nat) :
    splitters t (count + 1) = splitters t count ++ splittersOf t count := by
  unfold splitters
  rw [List.range_succ]
  exact List.flatMap_append.trans (congrArg _ (List.flatMap_singleton _ _))

/-- What cuts do: nothing leaves the queue, each new block joins it with every class, and no block
    is given up. -/
structure Grows (t : ClassTable) (r r' : Refinement) : Prop where
  exists_joined : ∃ joined, r'.queue = r.queue ++ joined ∧
    splitters t r'.partition.count = splitters t r.partition.count ++ joined
  partitions : ∀ n, r.partition.Partitions n → r'.partition.Partitions n

theorem Grows.refl (t : ClassTable) (r : Refinement) : Grows t r r where
  exists_joined := ⟨[], (List.append_nil _).symm, (List.append_nil _).symm⟩
  partitions _ hp := hp

theorem Grows.trans (h : Grows t r r') (h' : Grows t r' r'') : Grows t r r'' where
  exists_joined := by
    obtain ⟨joined, hqueue, hsplitters⟩ := h.exists_joined
    obtain ⟨joined', hqueue', hsplitters'⟩ := h'.exists_joined
    refine ⟨joined ++ joined', ?_, ?_⟩
    · rw [hqueue', hqueue, List.append_assoc]
    · rw [hsplitters', hsplitters, List.append_assoc]
  partitions n hp := h'.partitions n (h.partitions n hp)

theorem grows_cut (t : ClassTable) (marked : List StateId) (r : Refinement) (block : Nat) :
    Grows t r (cut t marked r block) := by
  rcases cut_cases t marked r block with ⟨heq, _⟩ | ⟨moved, hhalves, _, heq⟩
  · rw [heq]
    exact Grows.refl t r
  · rw [heq]
    exact
      { exists_joined := ⟨splittersOf t r.partition.count, rfl, splitters_succ t _⟩
        partitions := fun n hp => hhalves.partitions_separate hp }

theorem grows_foldl_cut (t : ClassTable) (marked : List StateId) (r : Refinement)
    (todo : List Nat) : Grows t r (todo.foldl (cut t marked) r) := by
  induction todo generalizing r with
  | nil => exact Grows.refl t r
  | cons block todo ih => exact (grows_cut t marked r block).trans (ih _)

/-- Apart from the splitter that is used the queue only grows. -/
theorem grows_step (t : ClassTable) (r : Refinement) :
    Grows t { r with queue := r.queue.tail } (step t r) := by
  obtain ⟨p, queue⟩ := r
  cases queue with
  | nil => exact Grows.refl t _
  | cons splitter rest =>
    obtain ⟨block, column⟩ := splitter
    rw [step_cons]
    exact grows_foldl_cut t _ ⟨p, rest⟩ _

/-- What the next use puts into the queue, behind the splitters that still wait. -/
def arrivals (t : ClassTable) (r : Refinement) : List (Nat × Nat) :=
  (step t r).queue.drop r.queue.tail.length

theorem queue_step (t : ClassTable) (r : Refinement) :
    (step t r).queue = r.queue.tail ++ arrivals t r := by
  obtain ⟨joined, hqueue, _⟩ := (grows_step t r).exists_joined
  rw [arrivals, hqueue, List.drop_left]

/-- The arrivals are the new blocks with every class. -/
theorem splitters_step (t : ClassTable) (r : Refinement) :
    splitters t (step t r).partition.count =
      splitters t r.partition.count ++ arrivals t r := by
  obtain ⟨joined, hqueue, hsplitters⟩ := (grows_step t r).exists_joined
  rw [arrivals, hqueue, List.drop_left, hsplitters]

/-! ## The run, use by use -/

theorem step_of_queue_eq_nil (h : r.queue = []) : step t r = r := by
  obtain ⟨p, queue⟩ := r
  subst h
  rfl

theorem run_eq_iterate (t : ClassTable) (n : Nat) (r : Refinement) :
    run t n r = (step t)^[n] r := by
  induction n generalizing r with
  | zero => rfl
  | succ n ih =>
    unfold run
    split
    · rename_i hqueue
      exact (Function.iterate_fixed (step_of_queue_eq_nil hqueue) _).symm
    · exact ih (step t r)

theorem run_succ (t : ClassTable) (n : Nat) (r : Refinement) :
    run t (n + 1) r = step t (run t n r) := by
  rw [run_eq_iterate, run_eq_iterate, Function.iterate_succ_apply']

/-- When the queue is empty, the run is over. -/
theorem run_eq_of_le {m n : Nat} (h : (run t m r).queue = []) (hle : m ≤ n) :
    run t n r = run t m r := by
  induction n, hle using Nat.le_induction with
  | base => rfl
  | succ n _ ih => rw [run_succ, ih, step_of_queue_eq_nil h]

/-- A run ends in one way. -/
theorem run_eq_run {m n : Nat} (hm : (run t m r).queue = []) (hn : (run t n r).queue = []) :
    run t m r = run t n r := by
  rcases Nat.le_total m n with hle | hle
  · exact (run_eq_of_le hm hle).symm
  · exact run_eq_of_le hn hle

theorem partitions_run (t : ClassTable) (n : Nat) :
    (run t n (start t)).partition.Partitions t.size := by
  induction n with
  | zero => exact (approximates_start t).partitions
  | succ n ih =>
    rw [run_succ]
    exact (grows_step t _).partitions t.size ih

/-- All that has been put into the queue after `n` uses, in order: what was there at the start and
    what each use has added. -/
def queued (t : ClassTable) : Nat → List (Nat × Nat)
  | 0 => (start t).queue
  | n + 1 => queued t n ++ arrivals t (run t n (start t))

/-- What has been queued is every block that has been made, with every class. -/
theorem queued_eq_splitters (t : ClassTable) (n : Nat) :
    queued t n = splitters t (run t n (start t)).partition.count := by
  induction n with
  | zero => rfl
  | succ n ih => rw [queued, ih, run_succ, splitters_step]

/-- The queue is first in, first out. -/
theorem queue_run (t : ClassTable) (n : Nat) :
    (run t n (start t)).queue = (queued t n).drop n := by
  induction n with
  | zero => rfl
  | succ n ih =>
    rw [run_succ, queue_step, ih, List.tail_drop, queued, List.drop_append]
    congr 1
    by_cases hle : (queued t n).length ≤ n
    · -- The run was over, and nothing arrives any more.
      have hempty : (run t n (start t)).queue = [] := ih.trans (List.drop_eq_nil_iff.2 hle)
      rw [arrivals, step_of_queue_eq_nil hempty, hempty, List.drop_nil, List.drop_nil]
    · rw [Nat.sub_eq_zero_of_le (by omega), List.drop_zero]

theorem length_queued (t : ClassTable) (n : Nat) :
    (queued t n).length = (run t n (start t)).partition.count * t.width := by
  rw [queued_eq_splitters, length_splitters]

theorem length_queued_le {m n : Nat} (h : m ≤ n) :
    (queued t m).length ≤ (queued t n).length := by
  induction n, h using Nat.le_induction with
  | base => exact Nat.le_refl _
  | succ n _ ih =>
    rw [queued, List.length_append]
    omega

theorem queue_run_eq_nil_iff {n : Nat} :
    (run t n (start t)).queue = [] ↔ (queued t n).length ≤ n := by
  rw [queue_run, List.drop_eq_nil_iff]

/-- The budget of the refinement is enough: there are no more blocks than states. -/
theorem queue_run_budget (t : ClassTable) : (run t (t.size * t.width) (start t)).queue = [] := by
  rw [queue_run_eq_nil_iff, length_queued]
  exact Nat.mul_le_mul_right t.width (partitions_run t _).count_le

theorem length_queued_budget (t : ClassTable) :
    (queued t (t.size * t.width)).length = (refine t).count * t.width :=
  length_queued t _

/-- The queue is empty after as many uses as there are blocks and classes, and not before. -/
theorem run_queue_eq_nil_iff (t : ClassTable) (n : Nat) :
    (run t n (start t)).queue = [] ↔ (refine t).count * t.width ≤ n := by
  have hbudget := queue_run_budget t
  rw [← length_queued_budget]
  rcases Nat.le_total n (t.size * t.width) with hle | hle
  · constructor
    · intro h
      rw [length_queued, run_eq_of_le h hle, ← length_queued]
      exact queue_run_eq_nil_iff.1 h
    · intro h
      exact queue_run_eq_nil_iff.2 ((length_queued_le hle).trans h)
  · refine iff_of_true ?_ ((queue_run_eq_nil_iff.1 hbudget).trans hle)
    rw [run_eq_of_le hbudget hle]
    exact hbudget

/-- What the run returns does not depend on the budget, if it is large enough. -/
theorem run_eq_refine {n : Nat} (h : (refine t).count * t.width ≤ n) :
    run t n (start t) = ⟨refine t, []⟩ := by
  have hempty := (run_queue_eq_nil_iff t n).2 h
  have heq : run t n (start t) = run t (t.size * t.width) (start t) :=
    run_eq_run hempty (queue_run_budget t)
  rw [heq, ← queue_run_budget t]
  rfl

end Hopcroft

/-- On every table both refinements end. The queue of Hopcroft's gives out its splitters in the
    order in which they joined; it is empty after as many uses as there are blocks and classes in
    the end, and not before; by then each block has been queued exactly once with each class, and
    nothing is queued later. Moore's makes at least one round and, if there are states, no more
    rounds than states; each but the last adds a block, and the last one none. -/
theorem ClassTable.refine_duration (t : ClassTable) :
    let uses := (Hopcroft.refine t).count * t.width
    let rounds := fun n => (Moore.round t)^[n] t.byAcceptance
    (∀ n, (Hopcroft.run t n (Hopcroft.start t)).queue = (Hopcroft.queued t n).drop n) ∧
      (∀ n, (Hopcroft.run t n (Hopcroft.start t)).queue = [] ↔ uses ≤ n) ∧
      (∀ more, Hopcroft.run t (uses + more) (Hopcroft.start t) = ⟨Hopcroft.refine t, []⟩ ∧
        (Hopcroft.queued t (uses + more)).Nodup ∧
        ∀ b k, (b, k) ∈ Hopcroft.queued t (uses + more) ↔
          b < (Hopcroft.refine t).count ∧ k < t.width) ∧
      ∃ last < max 1 t.size,
        (∀ n < last, (rounds n).count < (rounds (n + 1)).count) ∧
        (rounds (last + 1)).count = (rounds last).count ∧
        (∀ budget, Moore.settle? t budget t.byAcceptance =
          if last < budget then some (rounds (last + 1)) else none) ∧
        Moore.refine t = rounds (last + 1) := by
  intro uses rounds
  refine ⟨Hopcroft.queue_run t, Hopcroft.run_queue_eq_nil_iff t, fun more => ?_, ?_⟩
  · have hrun := Hopcroft.run_eq_refine (t := t) (Nat.le_add_right uses more)
    have hqueued := Hopcroft.queued_eq_splitters t (uses + more)
    rw [hrun] at hqueued
    rw [hqueued]
    exact ⟨hrun, Hopcroft.nodup_splitters t _, fun b k => Hopcroft.mem_splitters⟩
  · exact Moore.exists_refine_eq t

/-- Three states in a row end in three blocks, and with one class the queue lasts for three uses. -/
example :
    let t : ClassTable := [(⟨0, 0⟩, 1), (⟨1, 0⟩, 2)].foldl ClassTable.addMove
      { size := 3, start := 0, acceptance := #[false, false, true], classes := [.single 'a'] }
    (Hopcroft.refine t).count = 3 ∧ (Hopcroft.run t 2 (Hopcroft.start t)).queue = [(2, 0)] ∧
      Hopcroft.queued t 3 = [(0, 0), (1, 0), (2, 0)] := by
  decide +kernel

end RegularLanguages
