import CS111.Schedos.Queues

/-!
# SchedOS and its search loops

Each scheduling algorithm searches the table until it can run a process. This module says for which
tables the search ends, and what a run of the kernel keeps.
-/

namespace CS111.Schedos

set_option autoImplicit false

variable {k k' k₁ : Kernel} {p q pid : Pid} {s alg : Int} {fuel : Nat} {e : Event} {events : List Event}

/-- The condition under which a process is found. -/
def Dispatches (alg : Int) (k : Kernel) : Prop :=
  if alg = 2 then k.live k.current = true
  else if alg = 3 then ∃ p, k.live p = true ∧ 0 < k.share p
  else if alg = 4 then ∀ p, k.live p = true → 0 ≤ k.queue p
  else True

/-- What holds whenever a process runs or `schedule` is entered. -/
structure Booted (alg : Int) (k : Kernel) : Prop where
  algorithm : k.schedulingAlgorithm = alg
  multiLevel : k.multiLevelQueue = decide (alg = 4)
  unused : k.state 0 = .empty
  unblocked : alg ≠ 4 → ∀ p, k.state p ≠ .blocked
  runs : ∀ p, 0 ≤ k.shareRuns p

theorem Booted.run (h : Booted alg k) : Booted alg (run k p) :=
  ⟨h.algorithm, h.multiLevel, h.unused, h.unblocked, h.runs⟩

theorem Booted.runnable_iff (h : Booted alg k) (halg : alg ≠ 4) :
    k.runnable p = true ↔ k.live p = true := by
  have hblocked := h.unblocked halg p
  rw [live_eq, Kernel.runnable]
  cases hstate : k.state p with
  | blocked => exact absurd hstate hblocked
  | empty | runnable | zombie => decide

theorem Booted.redirected (h : Booted alg k) (halg : alg ≠ 4) : redirected k = k := by
  rw [Schedos.redirected, h.multiLevel, decide_eq_false halg]
  rfl

/-! ## Algorithms 0, 1 and 2 -/

theorem roundRobin_finds (hq : k.runnable q = true) :
    ∃ p, k.runnable p = true ∧ roundRobin 5 k = some (run (redirected k) p) := by
  obtain ⟨p, hp⟩ := RoundRobin.seek_finds (p := k.current) hq (Nat.le_refl 5)
  obtain ⟨-, -, hrunnable, -⟩ := RoundRobin.seek_isNext hp
  exact ⟨p, hrunnable, by rw [roundRobin, hp]; rfl⟩

theorem lowestPid_finds (hq : k.runnable q = true) (hq0 : q ≠ 0) :
    ∃ p, k.runnable p = true ∧ lowestPid k = some (run (redirected k) p) := by
  have hsome : (processes.find? k.runnable).isSome = true :=
    List.find?_isSome.mpr ⟨q, mem_processes.mpr hq0, hq⟩
  obtain ⟨p, hp⟩ := Option.isSome_iff_exists.mp hsome
  exact ⟨p, List.find?_some hp, by rw [lowestPid, hp]; rfl⟩

theorem startOfPriorities_live (h : k.live p = true) :
    startOfPriorities k p (fuel + 1) q = some q := by
  rw [startOfPriorities, if_neg]
  intro hended
  rw [Kernel.live, hended] at h
  cases h

theorem startOfPriorities_ended (h : k.live p ≠ true) : startOfPriorities k p fuel q = none := by
  induction fuel generalizing q with
  | zero => rfl
  | succ fuel ih =>
    rw [startOfPriorities, ih, ite_eq_left_iff]
    intro hended
    rw [Kernel.live, Bool.eq_false_iff.mpr hended] at h
    exact absurd rfl h

/-- A current process that is runnable bounds the search. -/
theorem byPriority_finds (hc : k.runnable k.current = true) (hlive : k.live k.current = true) :
    ∃ p, k.runnable p = true ∧ byPriority 5 k = some (run k p) := by
  have hstart : startOfPriorities k k.current 5 k.current = some k.current :=
    startOfPriorities_live hlive
  have hfound : ∃ q, (k.runnable q && decide (k.priority q ≤
      lowest k.runnable k.priority (k.priority k.current) processes)) = true := by
    rcases lowest_attained (P := k.runnable) (f := k.priority) (s := k.priority k.current)
      (l := processes) with h | ⟨q, -, hq, h⟩
    · exact ⟨k.current, by rw [hc, h]; exact decide_eq_true (Int.le_refl _)⟩
    · exact ⟨q, by rw [hq, h]; exact decide_eq_true (Int.le_refl _)⟩
  obtain ⟨q, hq⟩ := hfound
  obtain ⟨p, hp⟩ := RoundRobin.seek_finds (P := fun q => k.runnable q && decide (k.priority q ≤
    lowest k.runnable k.priority (k.priority k.current) processes)) (p := k.current) hq
    (Nat.le_refl 5)
  obtain ⟨-, -, hrunnable, -⟩ := RoundRobin.seek_isNext hp
  exact ⟨p, (Bool.and_eq_true_iff.mp hrunnable).1, by rw [byPriority, hstart]; dsimp only; rw [hp]; rfl⟩

/-! ## Algorithm 3 -/

@[simp] theorem state_setShareRuns {v : Int} : (k.setShareRuns p v).state q = k.state q := by
  simp only [Kernel.state, Kernel.setShareRuns, Kernel.modify]
  split <;> rfl

@[simp] theorem share_setShareRuns {v : Int} : (k.setShareRuns p v).share q = k.share q := by
  simp only [Kernel.share, Kernel.setShareRuns, Kernel.modify]
  split <;> rfl

theorem shareRuns_setShareRuns {v : Int} :
    (k.setShareRuns p v).shareRuns q = if q = p then v else k.shareRuns q := by
  simp only [Kernel.shareRuns, Kernel.setShareRuns, Kernel.modify]
  split <;> rfl

@[simp] theorem runnable_setShareRuns {v : Int} :
    (k.setShareRuns p v).runnable q = k.runnable q := by
  simp only [Kernel.runnable, state_setShareRuns]

/-- `p` can run its share, of which it has run `runs`. -/
structure Sharing (k : Kernel) (p : Pid) (runs : Int) : Prop where
  runnable : k.runnable p = true
  share : 0 < k.share p
  runs : k.shareRuns p = runs

theorem Sharing.setShareRuns {runs v : Int} (h : Sharing k p runs) (hq : q ≠ p) :
    Sharing (k.setShareRuns q v) p runs :=
  ⟨by simpa using h.runnable, by simpa using h.share, by
    rw [shareRuns_setShareRuns, if_neg (Ne.symm hq)]
    exact h.runs⟩

def SharesOut (k : Kernel) (pid : Pid) : Prop := ∃ fuel k', byShare fuel k pid = some k'

theorem SharesOut.of_next (hpid : k.runnable pid = true → k.share pid ≤ k.shareRuns pid →
    SharesOut (k.setShareRuns pid 0) (pid + 1)) (hskip : k.runnable pid ≠ true →
    SharesOut k (pid + 1)) : SharesOut k pid := by
  by_cases hrunnable : k.runnable pid = true
  · by_cases hruns : k.share pid ≤ k.shareRuns pid
    · obtain ⟨fuel, k', h⟩ := hpid hrunnable hruns
      exact ⟨fuel + 1, k', by rw [byShare, if_pos hrunnable, if_pos hruns, h]⟩
    · exact ⟨1, _, by rw [byShare, if_pos hrunnable, if_neg hruns]⟩
  · obtain ⟨fuel, k', h⟩ := hskip hrunnable
    exact ⟨fuel + 1, k', by rw [byShare, if_neg hrunnable, h]⟩

/-- From anywhere the search comes to `p`, unless it finds another process before. -/
theorem sharesOut_of_ahead {runs : Int} (hat : ∀ k, Sharing k p runs → SharesOut k p) {d : Nat}
    (hd : RoundRobin.ahead pid d = p) (h : Sharing k p runs) : SharesOut k pid := by
  induction d generalizing k pid with
  | zero =>
    have hpid : pid = p := by rw [← hd, RoundRobin.ahead_zero]
    exact hpid ▸ hat k h
  | succ d ih =>
    by_cases hpid : pid = p
    · exact hpid ▸ hat k h
    · rw [← RoundRobin.ahead_succ] at hd
      exact .of_next (fun _ _ => ih hd (h.setShareRuns hpid)) (fun _ => ih hd h)

theorem Sharing.sharesOut_reset (h : Sharing k p 0) : SharesOut k p := by
  refine .of_next (fun _ hle => ?_) (fun hnot => absurd h.runnable hnot)
  rw [h.runs] at hle
  exact absurd h.share (Int.not_lt.mpr hle)

theorem Sharing.sharesOut {runs : Int} (h : Sharing k p runs) : SharesOut k p := by
  refine .of_next (fun _ _ => ?_) (fun hnot => absurd h.runnable hnot)
  obtain ⟨d, -, hd⟩ := RoundRobin.exists_ahead (p + 1) p
  refine sharesOut_of_ahead (fun k hk => hk.sharesOut_reset) hd ⟨?_, ?_, ?_⟩
  · simpa using h.runnable
  · simpa using h.share
  · rw [shareRuns_setShareRuns, if_pos rfl]

theorem byShare_finds (hp : k.runnable p = true) (hshare : 0 < k.share p) : SharesOut k pid := by
  obtain ⟨d, -, hd⟩ := RoundRobin.exists_ahead pid p
  exact sharesOut_of_ahead (fun _ hk => hk.sharesOut) hd ⟨hp, hshare, rfl⟩

/-- Without a positive share the search resets counters for ever. -/
theorem byShare_eq_none (hshare : ∀ p, k.runnable p = true → k.share p ≤ 0)
    (hruns : ∀ p, 0 ≤ k.shareRuns p) : byShare fuel k pid = none := by
  induction fuel generalizing k pid with
  | zero => rfl
  | succ fuel ih =>
    rw [byShare]
    split
    · next hrunnable =>
      rw [if_pos (Int.le_trans (hshare pid hrunnable) (hruns pid))]
      refine ih (fun p hp => ?_) (fun p => ?_)
      · rw [share_setShareRuns]
        exact hshare p (by simpa using hp)
      · rw [shareRuns_setShareRuns]
        split
        · exact Int.le_refl 0
        · exact hruns p
    · exact ih hshare hruns

theorem Booted.setShareRuns {v : Int} (h : Booted alg k) (hv : 0 ≤ v) :
    Booted alg (k.setShareRuns p v) where
  algorithm := h.algorithm
  multiLevel := h.multiLevel
  unused := by rw [state_setShareRuns, h.unused]
  unblocked halg q := by
    rw [state_setShareRuns]
    exact h.unblocked halg q
  runs q := by
    rw [shareRuns_setShareRuns]
    split
    · exact hv
    · exact h.runs q

theorem byShare_booted (h : Booted alg k) (hshare : byShare fuel k pid = some k') :
    Booted alg k' ∧ k'.runnable k'.current = true := by
  induction fuel generalizing k pid with
  | zero => cases hshare
  | succ fuel ih =>
    rw [byShare] at hshare
    split at hshare
    · next hrunnable =>
      split at hshare
      · exact ih (h.setShareRuns (Int.le_refl 0)) hshare
      · cases hshare
        refine ⟨(h.setShareRuns ?_).run, ?_⟩
        · exact Int.le_trans (h.runs pid) (Int.le_add_one (Int.le_refl _))
        · show (k.setShareRuns pid _).runnable pid = true
          rw [runnable_setShareRuns]
          exact hrunnable
    · exact ih h hshare

/-! ## Runs -/

theorem schedule_of_ne_four (h : Booted alg k) (halg : alg ≠ 4) : schedule (fuel + 1) k =
    if alg = 0 then roundRobin (fuel + 1) k
    else if alg = 1 then lowestPid k
    else if alg = 2 then byPriority (fuel + 1) k
    else if alg = 3 then byShare (fuel + 1) k k.current
    else none := by
  rw [schedule, h.algorithm, if_neg halg]

theorem byPriority_runnable (h : byPriority fuel k = some k') :
    ∃ p, k.runnable p = true ∧ k' = run k p := by
  unfold byPriority at h
  split at h
  · cases h
  · obtain ⟨p, hp, rfl⟩ := Option.map_eq_some_iff.mp h
    obtain ⟨-, -, hrunnable, -⟩ := RoundRobin.seek_isNext hp
    exact ⟨p, (Bool.and_eq_true_iff.mp hrunnable).1, rfl⟩

theorem exists_lowest (h0 : k.state 0 = .empty) (hp : k.live p = true) : ∃ s, k.IsLowest s :=
  ⟨_, lowest_isLowest h0 hp⟩

/-- Algorithm 4 finds nothing where no process is live. -/
theorem exists_live_of_schedule (h4 : k.schedulingAlgorithm = 4) (h : schedule fuel k = some k') :
    ∃ p, k.live p = true := by
  cases fuel with
  | zero => cases h
  | succ fuel =>
    rw [schedule, h4] at h
    simp only [show ¬ (4 : Int) = 0 by decide, show ¬ (4 : Int) = 1 by decide,
      show ¬ (4 : Int) = 2 by decide, show ¬ (4 : Int) = 3 by decide, if_false, if_true] at h
    cases hskip : skipEnded k (fuel + 1) k.current with
    | none =>
      rw [chooseQueue, hskip] at h
      cases h
    | some p => exact ⟨p, skipEnded_live hskip⟩

theorem Booted.onlyQueue (h : Booted 4 k) : Booted 4 (k.onlyQueue s) where
  algorithm := h.algorithm
  multiLevel := h.multiLevel
  unused := by
    rw [Kernel.onlyQueue, state_withStates, if_neg, h.unused]
    rw [live_eq, h.unused]
    decide
  unblocked h4 := absurd rfl h4
  runs := h.runs

/-- A call of `run` is one on a runnable process. -/
theorem schedule_booted (h : Booted alg k) (hs : schedule fuel k = some k') :
    Booted alg k' ∧ k'.runnable k'.current = true := by
  by_cases h4 : alg = 4
  · subst h4
    obtain ⟨p, hp⟩ := exists_live_of_schedule h.algorithm hs
    obtain ⟨s, hlowest⟩ := exists_lowest h.unused hp
    obtain ⟨-, hchosen⟩ := schedule_chooses h.algorithm h.multiLevel h.unused hlowest hs
    have hin := hchosen.inQueue
    rw [hchosen.eq]
    refine ⟨h.onlyQueue.run, ?_⟩
    show (k.onlyQueue s).runnable k'.current = true
    rw [runnable_onlyQueue]
    exact hin
  · cases fuel with
    | zero => cases hs
    | succ fuel =>
      rw [schedule_of_ne_four h h4] at hs
      split at hs
      · obtain ⟨p, hp, rfl⟩ := Option.map_eq_some_iff.mp hs
        obtain ⟨-, -, hrunnable, -⟩ := RoundRobin.seek_isNext hp
        rw [h.redirected h4]
        exact ⟨h.run, hrunnable⟩
      · split at hs
        · obtain ⟨p, hp, rfl⟩ := Option.map_eq_some_iff.mp hs
          rw [h.redirected h4]
          exact ⟨h.run, List.find?_some hp⟩
        · split at hs
          · obtain ⟨p, hp, rfl⟩ := byPriority_runnable hs
            exact ⟨h.run, hp⟩
          · split at hs
            · exact byShare_booted h hs
            · cases hs

theorem state_modify {f : Process → Process} (hf : ∀ proc, (f proc).state = proc.state) :
    (k.modify p f).state q = k.state q := by
  simp only [Kernel.state, Kernel.modify]
  split
  · exact hf _
  · rfl

theorem Booted.modify {f : Process → Process} (h : Booted alg k)
    (hf : ∀ proc, (f proc).state = proc.state ∧ (f proc).shareRuns = proc.shareRuns) :
    Booted alg (k.modify p f) where
  algorithm := h.algorithm
  multiLevel := h.multiLevel
  unused := by rw [state_modify fun proc => (hf proc).1, h.unused]
  unblocked halg q := by
    rw [state_modify fun proc => (hf proc).1]
    exact h.unblocked halg q
  runs q := by
    simp only [Kernel.shareRuns, Kernel.modify]
    split
    · rw [(hf _).2]
      exact h.runs q
    · exact h.runs q

theorem current_ne_zero (h : Booted alg k) (hc : k.runnable k.current = true) : k.current ≠ 0 := by
  intro h0
  rw [h0, Kernel.runnable, h.unused] at hc
  cases hc

theorem runnable_exit {v : UInt32} (he : entered k (.exit v) = some k₁) :
    k₁.runnable q = (q ≠ k.current && k.runnable q) := by
  cases he
  simp only [Kernel.runnable, Kernel.state, Kernel.modify]
  by_cases hq : q = k.current
  · simp only [hq, if_true, ne_eq, not_true_eq_false, decide_false, Bool.false_and]
    rfl
  · simp only [hq, if_false, decide_not, decide_false, Bool.not_false, Bool.true_and]

theorem Booted.entered (h : Booted alg k) (hc : k.runnable k.current = true)
    (he : entered k e = some k₁) : Booted alg k₁ := by
  cases e with
  | yield | clock =>
    cases he
    exact h
  | priority | share | queue => cases he
  | exit v =>
    cases he
    refine ⟨h.algorithm, h.multiLevel, ?_, fun halg q => ?_, fun q => ?_⟩
    · simp only [Kernel.state, Kernel.modify]
      rw [if_neg (current_ne_zero h hc).symm]
      exact h.unused
    · simp only [Kernel.state, Kernel.modify]
      split
      · exact ProcState.noConfusion
      · exact h.unblocked halg q
    · simp only [Kernel.shareRuns, Kernel.modify]
      split <;> exact h.runs q

theorem step_booted (h : Booted alg k ∧ k.runnable k.current = true) (hs : Step k e k') :
    Booted alg k' ∧ k'.runnable k'.current = true := by
  obtain ⟨fuel, hs⟩ := hs
  obtain ⟨hb, hc⟩ := h
  have hset : ∀ f : Process → Process,
      (∀ proc, (f proc).state = proc.state ∧ (f proc).shareRuns = proc.shareRuns) →
      Booted alg (run (k.modify k.current f) k.current) ∧
        (k.modify k.current f).runnable k.current = true := by
    intro f hf
    refine ⟨(hb.modify hf).run, ?_⟩
    rw [Kernel.runnable, state_modify fun proc => (hf proc).1]
    exact hc
  cases e with
  | priority v =>
    cases hs
    exact hset (fun proc => { proc with priority := int32 v }) fun _ => ⟨rfl, rfl⟩
  | share v =>
    cases hs
    exact hset (fun proc => { proc with share := int32 v }) fun _ => ⟨rfl, rfl⟩
  | queue v =>
    cases hs
    exact hset (fun proc => { proc with queue := int32 v }) fun _ => ⟨rfl, rfl⟩
  | yield | clock => exact schedule_booted hb hs
  | exit v =>
    have hs : (entered k (.exit v)).bind (schedule fuel) = some k' := hs
    obtain ⟨k₁, he, hs⟩ := Option.bind_eq_some_iff.mp hs
    exact schedule_booted (hb.entered hc he) hs

theorem start_booted (alg : Int) : Booted alg (start alg) where
  algorithm := rfl
  multiLevel := rfl
  unused := rfl
  unblocked _ p := by
    simp only [Kernel.state, start]
    split <;> exact ProcState.noConfusion
  runs p := by
    simp only [Kernel.shareRuns, start]
    split <;> decide

theorem run_booted (h : Run Step (start alg) events k) :
    Booted alg k ∧ k.runnable k.current = true :=
  h.invariant (P := fun k => Booted alg k ∧ k.runnable k.current = true) step_booted
    ⟨start_booted alg, rfl⟩

/-! ## Which entries of `schedule` end in a call of `run` -/

theorem not_schedule_of_lowest (h : Booted 4 k) (hp : k.live p = true) (hneg : k.queue p < 0) :
    schedule fuel k = none := by
  obtain ⟨s, hs⟩ := exists_lowest h.unused hp
  cases hsched : schedule fuel k with
  | none => rfl
  | some k' =>
    obtain ⟨hs', -⟩ := schedule_chooses h.algorithm h.multiLevel h.unused hs hsched
    have hle := hs.2 p hp
    omega

theorem multilevel_dispatches (h : Booted 4 k)
    (hlive : ∃ p, k.live p = true ∧ (k.queue p = 0 ∨ k.queue p = 1)) :
    (∃ fuel k', schedule fuel k = some k') ↔ ∀ p, k.live p = true → 0 ≤ k.queue p := by
  constructor
  · rintro ⟨fuel, k', hsched⟩ p hp
    refine Int.not_lt.mp fun hneg => ?_
    rw [not_schedule_of_lowest h hp hneg] at hsched
    cases hsched
  · intro hnonneg
    obtain ⟨p, hp, hqueue⟩ := hlive
    obtain ⟨s, hs⟩ := exists_lowest h.unused hp
    have hs' : s = 0 ∨ s = 1 := by
      obtain ⟨q, hq, heq⟩ := hs.1
      have h0 := hnonneg q hq
      have hle := hs.2 p hp
      omega
    exact ⟨7, exists_chosen h.algorithm h.multiLevel h.unused hs hs'⟩

theorem byPriority_dispatches (h : Booted 2 k) :
    (∃ fuel k', schedule fuel k = some k') ↔ k.live k.current = true := by
  constructor
  · rintro ⟨fuel, k', hsched⟩
    refine Classical.not_not.mp fun hended => ?_
    cases fuel with
    | zero => cases hsched
    | succ fuel =>
      rw [schedule_of_ne_four h (by decide)] at hsched
      simp only [show ¬ (2 : Int) = 0 by decide, show ¬ (2 : Int) = 1 by decide, if_false, if_true,
        byPriority, startOfPriorities_ended hended] at hsched
      cases hsched
  · intro hlive
    obtain ⟨p, -, hp⟩ := byPriority_finds ((h.runnable_iff (by decide)).mpr hlive) hlive
    refine ⟨5, _, (schedule_of_ne_four h (by decide)).trans hp⟩

theorem byShare_dispatches (h : Booted 3 k) :
    (∃ fuel k', schedule fuel k = some k') ↔ ∃ p, k.live p = true ∧ 0 < k.share p := by
  have hsched : ∀ fuel, schedule (fuel + 1) k = byShare (fuel + 1) k k.current :=
    fun fuel => schedule_of_ne_four h (by decide)
  constructor
  · rintro ⟨fuel, k', hk'⟩
    refine Classical.not_not.mp fun hnone => ?_
    cases fuel with
    | zero => cases hk'
    | succ fuel =>
      rw [hsched, byShare_eq_none (fun p hp => ?_) h.runs] at hk'
      · cases hk'
      · refine Int.not_lt.mp fun hpos => hnone ⟨p, ?_, hpos⟩
        exact (h.runnable_iff (by decide)).mp hp
  · rintro ⟨p, hp, hshare⟩
    have hrunnable : k.runnable p = true := (h.runnable_iff (by decide)).mpr hp
    have hshares : SharesOut k k.current := byShare_finds hrunnable hshare
    obtain ⟨fuel, k', hk'⟩ := hshares
    cases fuel with
    | zero => cases hk'
    | succ fuel => exact ⟨fuel + 1, k', (hsched fuel).trans hk'⟩

theorem roundRobin_dispatches (h : Booted 0 k) (hp : k.live p = true) :
    ∃ fuel k', schedule fuel k = some k' := by
  obtain ⟨q, -, hq⟩ := roundRobin_finds ((h.runnable_iff (by decide)).mpr hp)
  exact ⟨5, _, (schedule_of_ne_four h (by decide)).trans hq⟩

theorem lowestPid_dispatches (h : Booted 1 k) (hp : k.live p = true) :
    ∃ fuel k', schedule fuel k = some k' := by
  have hp0 : p ≠ 0 := by
    rintro rfl
    rw [live_eq, h.unused] at hp
    cases hp
  obtain ⟨q, -, hq⟩ := lowestPid_finds ((h.runnable_iff (by decide)).mpr hp) hp0
  exact ⟨1, _, (schedule_of_ne_four h (by decide)).trans hq⟩

/-- When an entry of `schedule` with a live process comes to run one. -/
theorem schedule_dispatches_iff (alg : Int) (halg : 0 ≤ alg ∧ alg ≤ 4) (events : List Event)
    (k k₁ : Kernel) (e : Event) (hrun : Run Step (start alg) events k)
    (hentered : entered k e = some k₁)
    (hlive : ∃ p, k₁.live p = true ∧ (alg = 4 → k₁.queue p = 0 ∨ k₁.queue p = 1)) :
    (∃ fuel k', schedule fuel k₁ = some k' ∧ k'.state k'.current = .runnable) ↔
      Dispatches alg k₁ := by
  obtain ⟨hb, hc⟩ := run_booted hrun
  have hb := hb.entered hc hentered
  have hrunnable : (∃ fuel k', schedule fuel k₁ = some k' ∧ k'.state k'.current = .runnable) ↔
      ∃ fuel k', schedule fuel k₁ = some k' := by
    constructor
    · rintro ⟨fuel, k', h, -⟩
      exact ⟨fuel, k', h⟩
    · rintro ⟨fuel, k', h⟩
      exact ⟨fuel, k', h, eq_of_beq (schedule_booted hb h).2⟩
  rw [hrunnable, Dispatches]
  obtain ⟨p, hp, hqueue⟩ := hlive
  obtain rfl | rfl | rfl | rfl | rfl : alg = 0 ∨ alg = 1 ∨ alg = 2 ∨ alg = 3 ∨ alg = 4 := by omega
  · exact iff_of_true (roundRobin_dispatches hb hp) trivial
  · exact iff_of_true (lowestPid_dispatches hb hp) trivial
  · exact byPriority_dispatches hb
  · exact byShare_dispatches hb
  · exact multilevel_dispatches hb ⟨p, hp, hqueue rfl⟩

/-- A run by evaluation. -/
theorem step_of_interrupt (h : interrupt fuel k e = some k' ∧ True) : Step k e k' := ⟨fuel, h.1⟩

/-- The first process gives itself a share of 2 under algorithm 3, and yields. -/
theorem schedule_dispatches_iff_share : ∃ k : Kernel,
    Run Step (start 3) [.share 2] k ∧ ∃ fuel k', schedule fuel k = some k' ∧
      k'.state k'.current = .runnable := by
  obtain ⟨k, hrun, hk⟩ := Run.of_guarded (interrupt 1) (fun _ _ => True)
    (fun k => k.live 1 = true ∧ k.share 1 = 2) (start 3) [.share 2] (by decide +kernel)
  have hrun : Run Step (start 3) [.share 2] k := hrun.mono step_of_interrupt
  refine ⟨k, hrun, (schedule_dispatches_iff 3 (by decide) _ k k .yield hrun rfl
    ⟨1, hk.1, fun h => absurd h (by decide)⟩).mpr ?_⟩
  exact ⟨1, hk.1, by rw [hk.2]; decide⟩

/-- Under algorithm 2 the exit of the first process is the end of the scheduling. -/
theorem exit_never_dispatched : ∃ k₁ : Kernel, entered (start 2) (.exit 0) = some k₁ ∧
    k₁.live 2 = true ∧ ∀ fuel, schedule fuel k₁ = none := by
  refine ⟨_, rfl, rfl, fun fuel => ?_⟩
  have hb := (start_booted 2).entered rfl (e := .exit 0) rfl
  have hiff := byPriority_dispatches hb
  cases hsched : schedule fuel _ with
  | none => rfl
  | some k' => exact absurd (hiff.mp ⟨fuel, k', hsched⟩) (by decide)

end CS111.Schedos
