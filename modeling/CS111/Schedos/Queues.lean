import Mathlib.Order.Fin.Basic
import CS111.Lib.Run
import CS111.Schedos.Kernel

/-!
# The multi-level queue of SchedOS

Algorithm 4 makes the live processes of the lowest queue runnable and blocks the others, and leaves
the choice among them to algorithm 0 or 1, which puts algorithm 4 back.
-/

namespace CS111.Schedos

set_option autoImplicit false

variable {k k' : Kernel} {p q : Pid} {f : Pid → ProcState} {s smallest : Int} {l : List Pid}
  {fuel : Nat} {e : Event}

/-- Neither empty nor a zombie. -/
def Kernel.live (k : Kernel) (p : Pid) : Bool := !k.ended p

def Kernel.withStates (k : Kernel) (f : Pid → ProcState) : Kernel :=
  { k with procArray := fun q => { k.procArray q with state := f q } }

@[simp] theorem state_withStates : (k.withStates f).state q = f q := rfl

@[simp] theorem queue_withStates : (k.withStates f).queue q = k.queue q := rfl

@[simp] theorem runnable_withStates : (k.withStates f).runnable q = (f q == .runnable) := rfl

theorem setState_withStates {s : ProcState} :
    (k.withStates f).setState p s = k.withStates fun q => if q = p then s else f q := by
  simp only [Kernel.setState, Kernel.modify, Kernel.withStates, Kernel.mk.injEq, and_true]
  funext q
  split <;> rfl

/-- What a state is in the eyes of the scheduler. -/
def ProcState.live : ProcState → Bool
  | .runnable | .blocked => true
  | .empty | .zombie => false

theorem live_eq : k.live p = (k.state p).live := by
  unfold Kernel.live Kernel.ended
  cases k.state p <;> rfl

def ProcState.unblocked : ProcState → ProcState
  | .blocked => .runnable
  | s => s

theorem unblocked_runnable {s : ProcState} : (s.unblocked == .runnable) = s.live := by
  cases s <;> rfl

theorem unblocked_live {s : ProcState} : s.unblocked.live = s.live := by
  cases s <;> rfl

theorem unblocked_unblocked {s : ProcState} : s.unblocked.unblocked = s.unblocked := by
  cases s <;> rfl

theorem raise_withStates : (if (k.withStates f).state p = .blocked then
    (k.withStates f).setState p .runnable else k.withStates f) =
    k.withStates fun q => if q = p then (f q).unblocked else f q := by
  rw [setState_withStates, state_withStates]
  split
  · next hp =>
    congr 1
    funext q
    split
    · next hq => rw [hq, hp]; rfl
    · rfl
  · next hp =>
    congr 1
    funext q
    split
    · next hq =>
      subst hq
      cases hf : f q <;> first | rfl | exact absurd hf hp
    · rfl

theorem lowestQueue_withStates : lowestQueue (k.withStates f, s) l =
    (k.withStates fun q => if q ∈ l then (f q).unblocked else f q,
      lowest (fun q => (f q).live) k.queue s l) := by
  induction l generalizing f s with
  | nil => simp [lowestQueue, lowest]
  | cons i l ih =>
    have hlive : (fun q => (if q = i then (f q).unblocked else f q).live) =
        fun q => (f q).live := by
      funext q
      split
      · exact unblocked_live
      · rfl
    simp only [lowestQueue, raise_withStates, runnable_withStates, queue_withStates, if_true,
      unblocked_runnable, ih, hlive, lowest]
    congr 2
    funext q
    by_cases hq : q = i <;> by_cases hl : q ∈ l <;> simp [hq, hl, unblocked_unblocked]

/-- What becomes of a state, if the process is in another queue than the lowest one. -/
def ProcState.restricted (other : Bool) : ProcState → ProcState
  | .runnable => if other then .blocked else .runnable
  | s => s

theorem restricted_restricted {other : Bool} {s : ProcState} :
    (s.restricted other).restricted other = s.restricted other := by
  cases s <;> cases other <;> rfl

theorem block_withStates : (if (k.withStates f).runnable p ∧ (k.withStates f).queue p ≠ smallest then
    (k.withStates f).setState p .blocked else k.withStates f) =
    k.withStates fun q => if q = p then (f q).restricted (k.queue q ≠ smallest) else f q := by
  rw [setState_withStates]
  simp only [runnable_withStates, queue_withStates, beq_iff_eq]
  split
  · next hp =>
    congr 1
    funext q
    split
    · next hq => rw [hq, hp.1, decide_eq_true hp.2]; rfl
    · rfl
  · next hp =>
    congr 1
    funext q
    split
    · next hq =>
      subst hq
      cases hf : f q with
      | runnable => rw [decide_eq_false fun hother => hp ⟨hf, hother⟩]; rfl
      | empty | blocked | zombie => rfl
    · rfl

theorem blockOthers_withStates : blockOthers smallest (k.withStates f) l =
    k.withStates fun q => if q ∈ l then (f q).restricted (k.queue q ≠ smallest) else f q := by
  induction l generalizing f with
  | nil => simp [blockOthers]
  | cons i l ih =>
    rw [blockOthers, block_withStates, ih]
    congr 1
    funext q
    by_cases hq : q = i <;> by_cases hl : q ∈ l <;> simp [hq, hl, restricted_restricted]

/-! ## The choice of the queue -/

theorem mem_processes : ∀ {p : Pid}, p ∈ processes ↔ p ≠ 0 := by decide

/-- `s` is the lowest queue number of the live processes. -/
def Kernel.IsLowest (k : Kernel) (s : Int) : Prop :=
  (∃ p, k.live p = true ∧ k.queue p = s) ∧ ∀ p, k.live p = true → s ≤ k.queue p

/-- The live processes of one queue are runnable, the others blocked. -/
def Kernel.onlyQueue (k : Kernel) (s : Int) : Kernel :=
  k.withStates fun q =>
    if k.live q then if k.queue q = s then .runnable else .blocked else k.state q

theorem skipEnded_live (h : skipEnded k fuel p = some q) : k.live q = true := by
  induction fuel generalizing p with
  | zero => cases h
  | succ fuel ih =>
    rw [skipEnded] at h
    split at h
    · exact ih h
    · next hended =>
      cases h
      rw [Kernel.live, Bool.eq_false_iff.mpr hended]
      rfl

theorem skipEnded_eq : skipEnded k (fuel + 1) p =
    if k.ended p then RoundRobin.seek k.live fuel p else some p := by
  induction fuel generalizing p with
  | zero => rfl
  | succ fuel ih =>
    rw [skipEnded, ih, RoundRobin.seek]
    split
    · by_cases hnext : k.ended (p + 1) = true
      · simp [Kernel.live, hnext]
      · simp [Kernel.live, hnext]
    · rfl

theorem skipEnded_finds (hq : k.live q = true) (hfuel : 5 < fuel) :
    ∃ q', skipEnded k fuel p = some q' := by
  obtain ⟨fuel, rfl⟩ := Nat.exists_eq_add_of_lt (Nat.lt_of_le_of_lt (Nat.zero_le 5) hfuel)
  rw [Nat.zero_add, skipEnded_eq]
  split
  · exact RoundRobin.seek_finds hq (by omega)
  · exact ⟨p, rfl⟩

theorem lowest_isLowest (h0 : k.state 0 = .empty) (hp : k.live p = true) :
    k.IsLowest (lowest k.live k.queue (k.queue p) processes) := by
  refine ⟨?_, fun q hq => lowest_le (mem_processes.mpr ?_) hq⟩
  · rcases lowest_attained (P := k.live) (f := k.queue) (s := k.queue p) (l := processes) with
      h | ⟨q, -, hq, h⟩
    · exact ⟨p, hp, h.symm⟩
    · exact ⟨q, hq, h.symm⟩
  · rintro rfl
    rw [live_eq, h0] at hq
    cases hq

theorem IsLowest_unique {s' : Int} (h : k.IsLowest s) (h' : k.IsLowest s') : s = s' := by
  obtain ⟨⟨p, hp, rfl⟩, hle⟩ := h
  obtain ⟨⟨q, hq, rfl⟩, hle'⟩ := h'
  exact Int.le_antisymm (hle q hq) (hle' p hp)

/-- The two passes over the table. -/
theorem passes_eq (h0 : k.state 0 = .empty) : blockOthers smallest
    (lowestQueue (k, s) processes).1 processes = k.onlyQueue smallest := by
  have hk : k = k.withStates k.state := rfl
  rw [hk, lowestQueue_withStates, blockOthers_withStates, Kernel.onlyQueue]
  congr 1
  funext q
  simp only [← hk, live_eq]
  by_cases hq : q = 0
  · have hmem : q ∉ processes := fun hmem => mem_processes.mp hmem hq
    rw [if_neg hmem, if_neg hmem, hq, h0]
    rfl
  · have hmem : q ∈ processes := mem_processes.mpr hq
    rw [if_pos hmem, if_pos hmem]
    by_cases hqueue : k.queue q = smallest
    · cases hstate : k.state q <;>
        simp [ProcState.unblocked, ProcState.restricted, ProcState.live, hqueue]
    · cases hstate : k.state q <;>
        simp [ProcState.unblocked, ProcState.restricted, ProcState.live, hqueue]

theorem chooseQueue_eq (h0 : k.state 0 = .empty) (hs : k.IsLowest s) :
    chooseQueue fuel k = (skipEnded k fuel k.current).map fun _ => (k.onlyQueue s, s) := by
  have hk : k = k.withStates k.state := rfl
  have hlive : (fun q => (k.state q).live) = k.live := funext fun q => live_eq.symm
  unfold chooseQueue
  cases hq : skipEnded k fuel k.current with
  | none => rfl
  | some q =>
    have hpass : (lowestQueue (k, k.queue q) processes).2 = s := by
      rw [hk, lowestQueue_withStates, hlive]
      exact IsLowest_unique (lowest_isLowest h0 (skipEnded_live hq)) hs
    dsimp only
    rw [hpass, passes_eq h0]
    rfl

/-! ## The choice of the process -/

/-- The live processes of a queue. -/
def Kernel.inQueue (k : Kernel) (s : Int) (p : Pid) : Bool := k.live p && decide (k.queue p = s)

theorem runnable_onlyQueue : (k.onlyQueue s).runnable = k.inQueue s := by
  funext p
  simp only [Kernel.onlyQueue, runnable_withStates, Kernel.inQueue]
  by_cases hp : k.live p = true
  · by_cases hs : k.queue p = s <;> simp [hp, hs]
  · rw [if_neg hp, Bool.eq_false_iff.mpr hp, Bool.false_and]
    rw [live_eq] at hp
    cases hstate : k.state p with
    | runnable | blocked => rw [hstate] at hp; exact absurd rfl hp
    | empty | zombie => rfl

/-- A process of the lowest queue runs: the next one in the round of queue 0, the one with the
lowest pid of queue 1. -/
structure Kernel.Chooses (k : Kernel) (s : Int) (k' : Kernel) : Prop where
  eq : k' = run (k.onlyQueue s) k'.current
  inQueue : k.inQueue s k'.current = true
  next : s = 0 → RoundRobin.IsNext (k.inQueue 0) k.current k'.current
  first : s = 1 → ∀ p, k.inQueue 1 p = true → k'.current ≤ p

theorem redirected_onlyQueue (h4 : k.schedulingAlgorithm = 4) (hm : k.multiLevelQueue = true) :
    redirected { k.onlyQueue s with schedulingAlgorithm := s } = k.onlyQueue s := by
  obtain ⟨procArray, current, schedulingAlgorithm, multiLevelQueue⟩ := k
  cases h4
  cases hm
  rfl

theorem find?_processes {P : Pid → Bool} (h0 : P 0 = false) (h : processes.find? P = some p) :
    ∀ q, P q = true → p ≤ q := by
  have hsorted : processes.Pairwise (· < ·) := by decide
  intro q hq
  have hmem : q ∈ processes := by
    refine mem_processes.mpr ?_
    rintro rfl
    rw [h0] at hq
    cases hq
  exact find?_le_of_pairwise hsorted h hmem hq

section Multilevel
variable (h4 : k.schedulingAlgorithm = 4) (hm : k.multiLevelQueue = true)
  (h0 : k.state 0 = .empty) (hs : k.IsLowest s)
include h4

theorem schedule_redirected (hm : k.multiLevelQueue = true) (hs' : s = 0 ∨ s = 1) :
    schedule (fuel + 1) { k.onlyQueue s with schedulingAlgorithm := s } =
      if s = 0 then
        (RoundRobin.seek (k.inQueue s) (fuel + 1) k.current).map (run (k.onlyQueue s))
      else (processes.find? (k.inQueue s)).map (run (k.onlyQueue s)) := by
  have hrunnable : Kernel.runnable { k.onlyQueue s with schedulingAlgorithm := s } =
      k.inQueue s := runnable_onlyQueue
  have hredirected := redirected_onlyQueue (s := s) h4 hm
  rw [schedule]
  rcases hs' with rfl | rfl
  · simp only [if_true, roundRobin, hrunnable, hredirected]
    rfl
  · simp only [show ¬ (1 : Int) = 0 by decide, if_false, if_true, lowestPid, hrunnable, hredirected]

include h0 hs

theorem schedule_multilevel : schedule (fuel + 1) k =
    (skipEnded k (fuel + 1) k.current).bind fun _ =>
      if s = 0 ∨ s = 1 then schedule fuel { k.onlyQueue s with schedulingAlgorithm := s }
      else none := by
  rw [schedule, h4, chooseQueue_eq h0 hs]
  simp only [show ¬ (4 : Int) = 0 by decide, show ¬ (4 : Int) = 1 by decide,
    show ¬ (4 : Int) = 2 by decide, show ¬ (4 : Int) = 3 by decide, if_false, if_true]
  cases skipEnded k (fuel + 1) k.current <;> rfl

include hm

/-- A process that algorithm 4 runs is one of the lowest queue. -/
theorem schedule_chooses (h : schedule fuel k = some k') :
    (s = 0 ∨ s = 1) ∧ k.Chooses s k' := by
  cases fuel with
  | zero => cases h
  | succ fuel =>
    rw [schedule_multilevel h4 h0 hs] at h
    obtain ⟨-, -, h⟩ := Option.bind_eq_some_iff.mp h
    split at h
    · next hs' =>
      refine ⟨hs', ?_⟩
      cases fuel with
      | zero => cases h
      | succ fuel =>
        rw [schedule_redirected h4 hm hs'] at h
        split at h
        · next hzero =>
          subst hzero
          obtain ⟨p, hp, rfl⟩ := Option.map_eq_some_iff.mp h
          have hnext := RoundRobin.seek_isNext hp
          obtain ⟨-, -, hin, -⟩ := RoundRobin.seek_isNext hp
          exact ⟨rfl, hin, fun _ => hnext, fun hone => absurd hone (by decide)⟩
        · next hzero =>
          have hone := hs'.resolve_left hzero
          subst hone
          obtain ⟨p, hp, rfl⟩ := Option.map_eq_some_iff.mp h
          have hzero' : k.inQueue 1 0 = false := by
            rw [Kernel.inQueue, live_eq, h0]
            rfl
          exact ⟨rfl, List.find?_some hp, fun hzero => absurd hzero (by decide),
            fun _ => find?_processes hzero' hp⟩
    · cases h

/-- One of them is found. -/
theorem exists_chosen (hs' : s = 0 ∨ s = 1) : ∃ k', schedule 7 k = some k' := by
  obtain ⟨p, hp, hqueue⟩ := hs.1
  have hin : k.inQueue s p = true := by
    rw [Kernel.inQueue, hp, hqueue, decide_eq_true rfl]
    rfl
  obtain ⟨q, hq⟩ := skipEnded_finds (p := k.current) hp (by decide : 5 < 7)
  rw [schedule_multilevel h4 h0 hs, hq, Option.bind_some, if_pos hs',
    schedule_redirected h4 hm hs']
  split
  · obtain ⟨q', hq'⟩ := RoundRobin.seek_finds (p := k.current) hin (by decide : 5 ≤ 6)
    exact ⟨_, by rw [hq']; rfl⟩
  · have hsome : (processes.find? (k.inQueue s)).isSome = true := by
      rw [List.find?_isSome]
      refine ⟨p, mem_processes.mpr ?_, hin⟩
      rintro rfl
      rw [live_eq, h0] at hp
      cases hp
    obtain ⟨q', hq'⟩ := Option.isSome_iff_exists.mp hsome
    exact ⟨_, by rw [hq']; rfl⟩

end Multilevel

end CS111.Schedos
