import CS111.Lib.Fallible
import CS111.Lib.Rotation
import CS111.Schedos.Queues

/-!
# Priorities in SchedOS

Algorithm 2 runs a process of the lowest priority number, and takes turns among them. A run of the
kernel is written down here with the process that each interrupt takes the processor from.
-/

namespace CS111.Schedos

set_option autoImplicit false

open Fuel

variable {k k' : Kernel} {p q : Pid} {fuel : Nat} {e : Event}

/-! ## The sequence of dispatches -/

/-- What a process has of the processor in one go, and the interrupt that ends it. -/
structure Slice where
  pid : Pid
  event : Event
  deriving Repr, DecidableEq

/-- The interrupts that leave the process runnable and go on to the next one. -/
def Event.yields : Event → Bool
  | .yield | .clock => true
  | _ => false

def SliceStep (k : Kernel) (slice : Slice) (k' : Kernel) : Prop :=
  slice.pid = k.current ∧ Step k slice.event k'

/-- The processes dispatched in a run, with the one that runs now. -/
def dispatched (slices : List Slice) (k : Kernel) : List Pid :=
  slices.map Slice.pid ++ [k.current]

theorem step_of_yields (he : e.yields = true) (h : Step k e k') :
    ∃ fuel, schedule fuel k = some k' := by
  obtain ⟨fuel, h⟩ := h
  cases e with
  | yield | clock => exact ⟨fuel, h⟩
  | exit | priority | share | queue => cases he

/-! ## The choice of algorithm 2 -/

/-- Runnable, and no runnable process has a lower priority number. -/
def Kernel.minimal (k : Kernel) (p : Pid) : Bool :=
  k.runnable p && decide (∀ q, k.runnable q = true → k.priority p ≤ k.priority q)

/-- A table for algorithm 2 whose running process is still runnable. -/
structure Kernel.Prioritized (k : Kernel) : Prop where
  algorithm : k.schedulingAlgorithm = 2
  unused : k.state 0 = .empty
  current : k.runnable k.current = true

def Kernel.smallest (k : Kernel) : Int :=
  lowest k.runnable k.priority (k.priority k.current) processes

namespace Kernel.Prioritized

theorem ne_zero (h : k.Prioritized) (hp : k.runnable p = true) : p ≠ 0 := by
  rintro rfl
  simp only [Kernel.runnable, h.unused] at hp
  exact absurd hp (by decide)

theorem smallest_le (h : k.Prioritized) (hp : k.runnable p = true) : k.smallest ≤ k.priority p :=
  lowest_le (mem_processes.mpr (h.ne_zero hp)) hp

/-- The loop starts with the entry of the running process, so that its value is one of a runnable
process. -/
theorem smallest_attained (h : k.Prioritized) :
    ∃ p, k.runnable p = true ∧ k.priority p = k.smallest := by
  rcases lowest_attained (P := k.runnable) (f := k.priority) (s := k.priority k.current)
    (l := processes) with hstart | ⟨p, -, hp, hvalue⟩
  · exact ⟨k.current, h.current, hstart.symm⟩
  · exact ⟨p, hp, hvalue.symm⟩

theorem minimal_eq (h : k.Prioritized) :
    (fun p => k.runnable p && decide (k.priority p ≤ k.smallest)) = k.minimal := by
  funext p
  simp only [Kernel.minimal]
  congr 2
  apply propext
  constructor
  · intro hle q hq
    exact Int.le_trans hle (h.smallest_le hq)
  · intro hle
    obtain ⟨q, hq, hvalue⟩ := h.smallest_attained
    exact hvalue ▸ hle q hq

theorem exists_minimal (h : k.Prioritized) : ∃ p, k.minimal p = true := by
  obtain ⟨p, hp, hvalue⟩ := h.smallest_attained
  refine ⟨p, ?_⟩
  simp only [← h.minimal_eq, hp, hvalue, Int.le_refl, decide_true, Bool.and_self]

theorem schedule_eq (h : k.Prioritized) : schedule (fuel + 1) k =
    (RoundRobin.seek k.minimal (fuel + 1) k.current).map (run k) := by
  have hended : k.ended k.current = false := by
    have hstate : k.state k.current = .runnable := eq_of_beq h.current
    simp only [Kernel.ended, hstate]
    rfl
  have hstart : startOfPriorities k k.current (fuel + 1) k.current = some k.current := by
    simp only [startOfPriorities, hended, Bool.false_eq_true, if_false]
  have hsearch := h.minimal_eq
  unfold Kernel.smallest at hsearch
  simp only [schedule, h.algorithm, byPriority, hstart, hsearch]
  rfl

theorem next_of_schedule (h : k.Prioritized) (hs : schedule fuel k = some k') :
    RoundRobin.IsNext k.minimal k.current k'.current ∧ k' = run k k'.current := by
  cases fuel with
  | zero => cases hs
  | succ fuel =>
    rw [h.schedule_eq] at hs
    obtain ⟨p, hp, rfl⟩ := Option.map_eq_some_iff.mp hs
    exact ⟨RoundRobin.seek_isNext hp, rfl⟩

theorem schedule_returns (h : k.Prioritized) :
    ∃ p, RoundRobin.IsNext k.minimal k.current p ∧
      Returns (fun fuel => schedule fuel k) (run k p) := by
  obtain ⟨q, hq⟩ := h.exists_minimal
  obtain ⟨p, hp⟩ := RoundRobin.seek_finds (p := k.current) hq (Nat.le_refl 5)
  have hnext := RoundRobin.seek_isNext hp
  refine ⟨p, hnext, ⟨5, ?_⟩, ?_⟩
  · simp only [h.schedule_eq, hp, Option.map_some]
  · intro fuel k' hs
    obtain ⟨hnext', hk'⟩ := h.next_of_schedule hs
    rw [hk', hnext.unique hnext']

theorem run (h : k.Prioritized) (hp : k.minimal p = true) : (Schedos.run k p).Prioritized where
  algorithm := h.algorithm
  unused := h.unused
  current := (Bool.and_eq_true_iff.mp hp).1

end Kernel.Prioritized

/-! ## Turns among the processes of minimal priority -/

theorem dispatched_snoc {slices : List Slice} {slice : Slice} (hpid : slice.pid = k.current) :
    dispatched (slices ++ [slice]) k' = dispatched slices k ++ [k'.current] := by
  simp only [dispatched, List.map_append, List.map_cons, List.map_nil, hpid]

/-- In a run of interrupts that leave their process runnable each dispatch is the next one. -/
theorem dispatched_chain {slices : List Slice} (h : k.Prioritized) (hrun : Run SliceStep k slices k')
    (hyields : ∀ slice ∈ slices, slice.event.yields = true) :
    List.IsChain (RoundRobin.IsNext k.minimal) (dispatched slices k') ∧ k'.Prioritized ∧
      k'.minimal = k.minimal := by
  induction hrun with
  | start => exact ⟨List.isChain_singleton _, h, rfl⟩
  | @snoc k₁ k₂ slices slice _ hstep ih =>
    obtain ⟨hchain, hk₁, hminimal⟩ := ih fun s hs => hyields s (List.mem_append_left _ hs)
    obtain ⟨hpid, hstep⟩ := hstep
    have hyield := hyields slice (List.mem_append_right _ List.mem_cons_self)
    obtain ⟨fuel, hs⟩ := step_of_yields hyield hstep
    obtain ⟨hnext, hk₂⟩ := hk₁.next_of_schedule hs
    refine ⟨?_, ?_, ?_⟩
    · rw [dispatched_snoc hpid]
      apply List.isChain_append.mpr
      refine ⟨hchain, List.isChain_singleton _, ?_⟩
      intro p hp q hq
      simp only [dispatched, List.getLast?_concat, Option.mem_some] at hp
      simp only [List.head?_cons, Option.mem_some] at hq
      rw [← hp, ← hq, ← hminimal]
      exact hnext
    · rw [hk₂]
      exact hk₁.run hnext.holds
    · rw [hk₂, ← hminimal]
      rfl

/-- `schedule` runs the next process of minimal priority. As long as these keep yielding, each of them
is dispatched once between two successive dispatches of another one. -/
theorem priorities_rotate (k : Kernel) (halg : k.schedulingAlgorithm = 2)
    (hunused : k.state 0 = .empty) (hcurrent : k.state k.current = .runnable) :
    (∃ p, RoundRobin.IsNext k.minimal k.current p ∧
      Returns (fun fuel => schedule fuel k) (run k p)) ∧
    ∀ (slices : List Slice) (k' : Kernel), Run SliceStep k slices k' →
      (∀ slice ∈ slices, slice.event.yields = true) →
      ∀ (p : Pid) (before between after : List Pid),
        dispatched slices k' = before ++ p :: (between ++ p :: after) → p ∉ between →
        ∀ q, k.minimal q = true → q ≠ p → between.count q = 1 := by
  have h : k.Prioritized := ⟨halg, hunused, by simp only [Kernel.runnable, hcurrent]; rfl⟩
  refine ⟨h.schedule_returns, ?_⟩
  intro slices k' hrun hyields p before between after hsplit hbetween q hq hqp
  obtain ⟨hchain, -, -⟩ := dispatched_chain h hrun hyields
  rw [hsplit] at hchain
  have hround : List.IsChain (RoundRobin.IsNext k.minimal) (p :: (between ++ [p])) := by
    apply hchain.infix
    exact ⟨before, after, by simp⟩
  exact RoundRobin.visited_once hround hbetween hq hqp

/-- The first two processes have a lower priority than the others, which take turns. -/
def twoLevels : Kernel :=
  { start 2 with
    procArray := fun p => { (start 2).procArray p with priority := if p ≤ 2 then 7 else -3 } }

theorem priorities_rotate_twoLevels :
    ∃ p, RoundRobin.IsNext twoLevels.minimal twoLevels.current p ∧
      Returns (fun fuel => schedule fuel twoLevels) (run twoLevels p) :=
  (priorities_rotate twoLevels rfl rfl rfl).1

end CS111.Schedos
