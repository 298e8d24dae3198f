import CS111.Schedos.Dispatch

/-!
# The multi-level queue loses no process

With queue numbers that are not negative, every entry of `schedule` under algorithm 4 considers all
live processes, and none of them ends but by its own exit.
-/

namespace CS111.Schedos

set_option autoImplicit false

variable {k k' k₁ : Kernel} {p q : Pid} {s : Int} {fuel : Nat} {e : Event} {events : List Event}

/-- Queue numbers are only set to values that are not negative. -/
def Event.SetsNonneg : Event → Prop
  | .queue v => 0 ≤ int32 v
  | _ => True

instance : DecidablePred Event.SetsNonneg
  | .queue _ => inferInstanceAs (Decidable (_ ≤ _))
  | .yield | .exit _ | .priority _ | .share _ | .clock => inferInstanceAs (Decidable True)

def QueueStep (k : Kernel) (e : Event) (k' : Kernel) : Prop := Step k e k' ∧ e.SetsNonneg

structure Queued (k : Kernel) : Prop where
  booted : Booted 4 k
  nonneg : ∀ p, 0 ≤ k.queue p

/-- What an entry of `schedule` makes of the table, with the lowest queue number `s`. -/
structure Kernel.Redirects (k : Kernel) (s : Int) (k' : Kernel) : Prop where
  lowest : k.IsLowest s
  chooses : k.Chooses s k'
  algorithm : k'.schedulingAlgorithm = 4
  reconsidered : ∀ p, k.live p = true → k'.state p = if k.queue p = s then .runnable else .blocked

theorem state_onlyQueue (hp : k.live p = true) :
    (k.onlyQueue s).state p = if k.queue p = s then .runnable else .blocked := by
  rw [Kernel.onlyQueue, state_withStates, if_pos hp]

theorem Queued.redirects (h : Queued k) (hs : schedule fuel k = some k') :
    ∃ s, k.Redirects s k' := by
  have hb := h.booted
  obtain ⟨p, hp⟩ := exists_live_of_schedule hb.algorithm hs
  obtain ⟨s, hlowest⟩ := exists_lowest hb.unused hp
  obtain ⟨-, hchosen⟩ := schedule_chooses hb.algorithm hb.multiLevel hb.unused hlowest hs
  refine ⟨s, hlowest, hchosen, ?_, fun p hp => ?_⟩
  · rw [hchosen.eq]
    exact hb.algorithm
  · rw [hchosen.eq]
    exact state_onlyQueue hp

theorem Kernel.Redirects.live (h : k.Redirects s k') (hp : k.live p = true) : k'.live p = true := by
  rw [live_eq, h.reconsidered p hp]
  split <;> rfl

theorem Queued.schedule (h : Queued k) (hs : schedule fuel k = some k') : Queued k' := by
  obtain ⟨s, hr⟩ := h.redirects hs
  refine ⟨(schedule_booted h.booted hs).1, fun p => ?_⟩
  rw [hr.chooses.eq]
  exact h.nonneg p

theorem queue_of_entered (he : entered k e = some k₁) : k₁.queue p = k.queue p := by
  cases e with
  | yield | clock => cases he; rfl
  | priority | share | queue => cases he
  | exit v =>
    cases he
    simp only [Kernel.queue, Kernel.modify]
    split <;> rfl

theorem Queued.entered (h : Queued k) (hc : k.runnable k.current = true)
    (he : entered k e = some k₁) : Queued k₁ :=
  ⟨h.booted.entered hc he, fun p => queue_of_entered he ▸ h.nonneg p⟩

theorem step_queued (h : Queued k ∧ k.runnable k.current = true) (hs : QueueStep k e k') :
    Queued k' ∧ k'.runnable k'.current = true := by
  obtain ⟨hs, hset⟩ := hs
  obtain ⟨hq, hc⟩ := h
  obtain ⟨hb', hc'⟩ := step_booted ⟨hq.booted, hc⟩ hs
  refine ⟨⟨hb', ?_⟩, hc'⟩
  obtain ⟨fuel, hs⟩ := hs
  cases e with
  | yield | clock => exact (hq.schedule hs).nonneg
  | exit v =>
    have hs : (entered k (.exit v)).bind (schedule fuel) = some k' := hs
    obtain ⟨k₁, he, hs⟩ := Option.bind_eq_some_iff.mp hs
    exact ((hq.entered hc he).schedule hs).nonneg
  | priority v | share v =>
    cases hs
    intro p
    simp only [Kernel.queue, Kernel.modify, run]
    split <;> exact hq.nonneg p
  | queue v =>
    cases hs
    intro p
    simp only [Kernel.queue, Kernel.modify, run]
    split
    · exact hset
    · exact hq.nonneg p

theorem start_queued : Queued (start 4) := by
  refine ⟨start_booted 4, fun p => ?_⟩
  simp only [Kernel.queue, start]
  split <;> decide

theorem live_of_entered (he : entered k e = some k₁) (hp : k.live p = true) :
    k₁.live p = true ∨ (∃ v, e = .exit v) ∧ p = k.current := by
  cases e with
  | yield | clock =>
    cases he
    exact .inl hp
  | priority | share | queue => cases he
  | exit v =>
    by_cases hpc : p = k.current
    · exact .inr ⟨⟨v, rfl⟩, hpc⟩
    · cases he
      refine .inl ?_
      rw [live_eq] at hp ⊢
      simp only [Kernel.state, Kernel.modify, if_neg hpc]
      exact hp

/-- A process ends by its own exit only. -/
theorem Queued.live_of_step (h : Queued k) (hc : k.runnable k.current = true) (hs : Step k e k')
    (hp : k.live p = true) : k'.live p = true ∨ (∃ v, e = .exit v) ∧ p = k.current := by
  obtain ⟨fuel, hs⟩ := hs
  have hscheduled : ∀ k₁, Schedos.entered k e = some k₁ → Schedos.schedule fuel k₁ = some k' →
      k'.live p = true ∨ (∃ v, e = .exit v) ∧ p = k.current := by
    intro k₁ he hs
    refine (live_of_entered he hp).imp_left fun hp => ?_
    obtain ⟨s, hr⟩ := (h.entered hc he).redirects hs
    exact hr.live hp
  have hset : ∀ f : Process → Process, (∀ proc, (f proc).state = proc.state) →
      (k.modify k.current f).live p = true := by
    intro f hf
    rw [live_eq, state_modify hf, ← live_eq]
    exact hp
  cases e with
  | yield | clock => exact hscheduled k rfl hs
  | exit v =>
    have hs : (Schedos.entered k (.exit v)).bind (Schedos.schedule fuel) = some k' := hs
    obtain ⟨k₁, he, hs⟩ := Option.bind_eq_some_iff.mp hs
    exact hscheduled k₁ he hs
  | priority v =>
    cases hs
    exact .inl (hset (fun proc => { proc with priority := int32 v }) fun _ => rfl)
  | share v =>
    cases hs
    exact .inl (hset (fun proc => { proc with share := int32 v }) fun _ => rfl)
  | queue v =>
    cases hs
    exact .inl (hset (fun proc => { proc with queue := int32 v }) fun _ => rfl)

/-- Every live process stays live until its own exit, and every entry of `schedule` with a process in
queue 0 or 1 runs one of the lowest queue. -/
theorem multilevel_loses_no_process (events : List Event) (k : Kernel)
    (hrun : Run QueueStep (start 4) events k) :
    (∀ e k', QueueStep k e k' → ∀ p, k.live p = true →
      k'.live p = true ∨ (∃ v, e = .exit v) ∧ p = k.current) ∧
    ∀ e k₁, entered k e = some k₁ →
      (∃ p, k₁.live p = true ∧ (k₁.queue p = 0 ∨ k₁.queue p = 1)) →
      (∃ fuel k', schedule fuel k₁ = some k') ∧
        ∀ fuel k', schedule fuel k₁ = some k' → ∃ s, k₁.Redirects s k' := by
  obtain ⟨hq, hc⟩ := hrun.invariant (P := fun k => Queued k ∧ k.runnable k.current = true)
    step_queued ⟨start_queued, rfl⟩
  refine ⟨fun e k' hs p hp => hq.live_of_step hc hs.1 hp, fun e k₁ he hlive => ?_⟩
  have hq₁ := hq.entered hc he
  refine ⟨(multilevel_dispatches hq₁.booted hlive).mpr fun p _ => hq₁.nonneg p, ?_⟩
  exact fun fuel k' hs => hq₁.redirects hs

/-- Process 1 moves to queue 1 and yields, and process 3 of queue 0 runs. -/
theorem multilevel_loses_no_process_yield : ∃ k k' : Kernel,
    Run QueueStep (start 4) [.queue 1] k ∧ schedule 7 k = some k' ∧ k'.current = 3 ∧
      ∃ s, k.Redirects s k' := by
  obtain ⟨k, hrun, hk⟩ := Run.of_guarded (interrupt 7) (fun _ e => Event.SetsNonneg e)
    (fun k => (k.live 3 = true ∧ k.queue 3 = 0) ∧
      (schedule 7 k).any (fun k' => decide (k'.current = 3)) = true)
    (start 4) [.queue 1] (by decide +kernel)
  obtain ⟨hlive, hnext⟩ := hk
  have hrun : Run QueueStep (start 4) [.queue 1] k := hrun.mono fun h => ⟨⟨7, h.1⟩, h.2⟩
  have hredirects := (multilevel_loses_no_process _ k hrun).2 .yield k rfl
    ⟨3, hlive.1, .inl hlive.2⟩
  cases hs : schedule 7 k with
  | none =>
    rw [hs] at hnext
    cases hnext
  | some k' =>
    rw [hs] at hnext
    exact ⟨k, k', hrun, hs, of_decide_eq_true hnext, hredirects.2 7 k' hs⟩

end CS111.Schedos
