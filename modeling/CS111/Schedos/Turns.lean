import Mathlib.Algebra.BigOperators.Group.Finset.Basic
import Mathlib.Algebra.Order.BigOperators.Group.Finset
import CS111.Lib.Rotation
import CS111.Schedos.System

/-!
# The turns of the SchedOS applications

A turn of an application is what it executes from when the kernel runs it until it calls the kernel or
the clock interrupts it. A turn with an instruction in it does some of the work there is, unless the
lock is taken.
-/

namespace CS111.Schedos

set_option autoImplicit false

variable {lockedWrite : Bool} {blank : Nat → UInt16} {m m' : Machine Pid} {p q : Pid}
  {owners : List Pid} {t : Option Trap}

section Work

/-- How many instructions of a round are left, at most. -/
def Point.rank : Point → Nat
  | .test => 7
  | .acquire => 6
  | .load => 5
  | .advance _ => 3
  | .release | .write => 2
  | .yield | .leave => 1
  | .exited => 0

def App.work (a : App) : Nat :=
  8 * (runCount - a.i) + a.point.rank + if a.pending.isSome then 1 else 0

def Machine.work (m : Machine Pid) : Nat := ∑ p, (m.app p).work

theorem work_congr (h : m'.app = m.app) : m'.work = m.work := by
  rw [Machine.work, Machine.work, h]

theorem work_setApp_lt {m₁ : Machine Pid} {a : App} (happ : m₁.app = m.app)
    (h : a.work < (m.app p).work) : (m₁.setApp p a).work < m.work := by
  refine Finset.sum_lt_sum (fun q _ => ?_) ⟨p, Finset.mem_univ p, ?_⟩
  · refine forall_setApp (P := fun q b => b.work ≤ (m.app q).work) (Nat.le_of_lt h)
      (fun q _ => ?_) q
    rw [happ]
  · rwa [app_setApp_self]

theorem AppStep.frame (hstep : AppStep lockedWrite printChar m p t m') (hq : q ≠ p) :
    m'.app q = m.app q := by
  cases hstep <;> exact app_setApp_of_ne hq

/-- A step does some of the work, unless it finds the lock taken. -/
theorem AppStep.work (h : Printing lockedWrite printChar blank m owners)
    (hstep : AppStep lockedWrite printChar m p t m') :
    m'.work < m.work ∨
      (m.app p).point = .acquire ∧ m.lock ≠ 0 ∧ m'.lock ≠ 0 ∧ m'.app = m.app := by
  cases hstep with
  | test hp hi =>
    refine .inl (work_setApp_lt rfl ?_)
    simp only [App.work, hp]
    split <;> simp [Point.rank]
  | done hp hi =>
    refine .inl (work_setApp_lt rfl ?_)
    simp [App.work, hp, Point.rank]
  | acquire hp =>
    by_cases hfree : m.lock = 0
    · refine .inl (work_setApp_lt rfl ?_)
      simp [App.work, hp, Point.rank, hfree]
    · refine .inr ⟨hp, hfree, show (1 : UInt32) ≠ 0 by decide, ?_⟩
      rw [if_neg hfree]
      funext q
      exact forall_setApp (a := { m.app p with point := .acquire }) (P := fun q b => b = m.app q)
        (by rw [← hp]) (fun _ _ => rfl) q
  | load hp =>
    refine .inl (work_setApp_lt rfl ?_)
    have hpending := (h.sound_at hp).2
    simp [App.work, hp, Point.rank, hpending]
  | advance hp =>
    refine .inl (work_setApp_lt rfl ?_)
    simp [App.work, hp, Point.rank]
  | release hp =>
    refine .inl (work_setApp_lt rfl ?_)
    simp [App.work, hp, Point.rank]
  | write hp =>
    refine .inl (work_setApp_lt rfl ?_)
    simp [App.work, hp, Point.rank]
  | store hp =>
    refine .inl (work_setApp_lt rfl ?_)
    simp [App.work, hp]
  | yield hp hpending =>
    refine .inl (work_setApp_lt rfl ?_)
    have hi : (m.app p).i < runCount := (h.sound_at hp).1
    simp only [App.work, hp, Point.rank, hpending]
    simp
    omega
  | leave hp hpending =>
    refine .inl (work_setApp_lt rfl ?_)
    simp [App.work, hp, Point.rank]

end Work

section Scheduling
variable {k k' : Kernel} {left : Option Kernel} {fuel : Nat} {alg : Int}

/-- Whom the search of algorithm 0 or 1 finds. -/
def Picks (alg : Int) (k : Kernel) (q : Pid) : Prop :=
  if alg = 0 then RoundRobin.IsNext k.runnable k.current q
  else k.runnable q = true ∧ ∀ p, k.runnable p = true → q ≤ p

theorem Picks.runnable (h : Picks alg k q) : k.runnable q = true := by
  unfold Picks at h
  split at h
  · exact h.holds
  · exact h.1

theorem schedule_picks (h : Booted alg k) (halg : alg = 0 ∨ alg = 1)
    (hs : schedule fuel k = some k') : ∃ q, Picks alg k q ∧ k' = run k q := by
  cases fuel with
  | zero => cases hs
  | succ fuel =>
    rcases halg with rfl | rfl
    · have hs : (RoundRobin.seek k.runnable (fuel + 1) k.current).map (run (redirected k)) =
          some k' := (schedule_of_ne_four h (by decide)).symm.trans hs
      obtain ⟨q, hq, rfl⟩ := Option.map_eq_some_iff.mp hs
      exact ⟨q, RoundRobin.seek_isNext hq, by rw [h.redirected (by decide)]⟩
    · have hs : (processes.find? k.runnable).map (run (redirected k)) = some k' :=
        (schedule_of_ne_four h (by decide)).symm.trans hs
      obtain ⟨q, hq, rfl⟩ := Option.map_eq_some_iff.mp hs
      have hzero : k.runnable 0 = false := by rw [Kernel.runnable, h.unused]; rfl
      exact ⟨q, ⟨List.find?_some hq, find?_processes hzero hq⟩, by rw [h.redirected (by decide)]⟩

theorem schedule_spins (h : Booted alg k) (halg : alg = 0 ∨ alg = 1)
    (hs : ∀ fuel, schedule fuel k = none) (p : Pid) : k.runnable p ≠ true := by
  intro hp
  have hfound : ∃ fuel k', schedule fuel k = some k' := by
    rcases halg with rfl | rfl
    · exact roundRobin_dispatches h ((h.runnable_iff (by decide)).mp hp)
    · exact lowestPid_dispatches h ((h.runnable_iff (by decide)).mp hp)
  obtain ⟨fuel, k', hk'⟩ := hfound
  rw [hs fuel] at hk'
  cases hk'

/-- The kernel and the applications agree about who is still there. -/
structure Serving (alg : Int) (k : Kernel) (m : Machine Pid) : Prop where
  algorithm : alg = 0 ∨ alg = 1
  booted : Booted alg k
  current : k.runnable k.current = true
  alive : ∀ p, k.runnable p = true ↔ p ≠ 0 ∧ (m.app p).point ≠ .exited

theorem Serving.present (h : Serving alg k m) : (m.app k.current).point ≠ .exited :=
  ((h.alive k.current).mp h.current).2

/-- What the applications do without the kernel. -/
theorem Serving.congr (h : Serving alg k m)
    (hpoint : ∀ p, (m'.app p).point = .exited ↔ (m.app p).point = .exited) : Serving alg k m' where
  algorithm := h.algorithm
  booted := h.booted
  current := h.current
  alive p := by rw [h.alive p, ne_eq, ne_eq, ne_eq, hpoint p]

theorem AppStep.present (hstep : AppStep lockedWrite printChar m p t m')
    (hp : (m.app p).point ≠ .exited) (ht : t ≠ some .exit) (q : Pid) :
    (m'.app q).point = .exited ↔ (m.app q).point = .exited := by
  have hset : ∀ m₁ : Machine Pid, m₁.app = m.app → ∀ b : App, b.point ≠ .exited →
      (((m₁.setApp p b).app q).point = .exited ↔ (m.app q).point = .exited) := by
    intro m₁ hm₁ b hb
    refine forall_setApp (P := fun q b => b.point = .exited ↔ (m.app q).point = .exited)
      (iff_of_false hb hp) (fun q _ => ?_) q
    rw [hm₁]
  cases hstep with
  | test | acquire =>
    refine hset _ rfl _ ?_
    show (if _ then _ else _) ≠ Point.exited
    split <;> exact Point.noConfusion
  | done | advance | release | write => exact hset _ rfl _ Point.noConfusion
  | load => exact hset m rfl ⟨_, .advance m.cursorpos, _⟩ Point.noConfusion
  | store => exact hset _ rfl ⟨_, (m.app p).point, none⟩ hp
  | yield => exact hset m rfl ⟨_, .test, _⟩ Point.noConfusion
  | leave => exact absurd rfl ht

theorem leaves_entered {e : Event} {k₁ : Kernel} (he : entered k e = some k₁)
    (h : Leaves k e left) :
    (∃ fuel k', left = some k' ∧ schedule fuel k₁ = some k') ∨
      left = none ∧ ∀ fuel, schedule fuel k₁ = none := by
  have hinterrupt : ∀ fuel, interrupt fuel k e = schedule fuel k₁ := by
    intro fuel
    cases e with
    | yield | clock | exit => simp only [interrupt, he, Option.bind_some]
    | priority | share | queue => cases he
  cases h with
  | runs h =>
    obtain ⟨fuel, hk'⟩ := h
    exact .inl ⟨fuel, _, rfl, hinterrupt fuel ▸ hk'⟩
  | spins h => exact .inr ⟨rfl, fun fuel => hinterrupt fuel ▸ h fuel⟩

theorem exists_leaves (k : Kernel) (e : Event) : ∃ left, Leaves k e left := by
  by_cases h : ∃ k', Step k e k'
  · obtain ⟨k', hk'⟩ := h
    exact ⟨some k', .runs hk'⟩
  · refine ⟨none, .spins fun fuel => ?_⟩
    cases hk' : interrupt fuel k e with
    | none => rfl
    | some k' => exact absurd ⟨k', fuel, hk'⟩ h

/-- The processor goes to one who is still there. -/
theorem Serving.leaves {e : Event} {k₁ : Kernel} (halg : alg = 0 ∨ alg = 1) (hb : Booted alg k₁)
    (halive : ∀ p, k₁.runnable p = true ↔ p ≠ 0 ∧ (m.app p).point ≠ .exited)
    (he : entered k e = some k₁) (h : Leaves k e left) :
    (∃ q, Picks alg k₁ q ∧ left = some (run k₁ q) ∧ Serving alg (run k₁ q) m) ∨
      left = none ∧ ∀ p, p ≠ 0 → (m.app p).point = .exited := by
  rcases leaves_entered he h with ⟨fuel, k', rfl, hs⟩ | ⟨rfl, hs⟩
  · obtain ⟨q, hq, rfl⟩ := schedule_picks hb halg hs
    exact .inl ⟨q, hq, rfl, halg, hb.run, hq.runnable, halive⟩
  · refine .inr ⟨rfl, fun p hp => Classical.not_not.mp fun hpresent => ?_⟩
    exact schedule_spins hb halg hs p ((halive p).mpr ⟨hp, hpresent⟩)

theorem Serving.clock (h : Serving alg k m) (hleft : Leaves k .clock left) :
    ∃ q, Picks alg k q ∧ left = some (run k q) ∧ Serving alg (run k q) m := by
  rcases Serving.leaves h.algorithm h.booted h.alive rfl hleft with hnext | ⟨-, hexited⟩
  · exact hnext
  · obtain ⟨hzero, hpresent⟩ := (h.alive k.current).mp h.current
    exact absurd (hexited _ hzero) hpresent

/-- A call of the process that runs. -/
theorem Serving.trap (h : Serving alg k m) {call : Trap}
    (hstep : Schedos.trap k.current m = some (call, m')) (hleft : Leaves k call.event left) :
    (∃ k₁ q, entered k call.event = some k₁ ∧ Picks alg k₁ q ∧ left = some (run k₁ q) ∧
      Serving alg (run k₁ q) m') ∨
      left = none ∧ ∀ p, p ≠ 0 → (m'.app p).point = .exited := by
  have hdrop : ∀ {k₁ : Kernel}, Booted alg k₁ →
      (∀ p, k₁.runnable p = true ↔ p ≠ 0 ∧ (m'.app p).point ≠ .exited) →
      entered k call.event = some k₁ →
      (∃ k₁ q, entered k call.event = some k₁ ∧ Picks alg k₁ q ∧ left = some (run k₁ q) ∧
        Serving alg (run k₁ q) m') ∨
        left = none ∧ ∀ p, p ≠ 0 → (m'.app p).point = .exited := by
    intro k₁ hb halive he
    refine (Serving.leaves h.algorithm hb halive he hleft).imp_left ?_
    rintro ⟨q, hq, hleft, hk'⟩
    exact ⟨k₁, q, he, hq, hleft, hk'⟩
  have happ : AppStep true printChar m k.current (some call) m' := .of_trap hstep
  cases call with
  | yield =>
    exact hdrop h.booted (h.congr (happ.present h.present nofun)).alive rfl
  | exit =>
    refine hdrop (h.booted.entered h.current (e := .exit 0) rfl) (fun p => ?_) rfl
    rw [runnable_exit (k := k) (v := 0) rfl, Bool.and_eq_true, decide_eq_true_iff, h.alive p]
    cases happ with
    | leave hp hpending =>
      by_cases hq : p = k.current
      · subst hq
        refine iff_of_false (fun hne => hne.1 rfl) fun hpresent => hpresent.2 ?_
        exact congrArg App.point app_setApp_self
      · rw [Machine.goto, app_setApp_of_ne hq]
        exact and_iff_right hq

end Scheduling

section Turns
variable {k : Kernel} {s s' : System} {instrs : List Instr} {alg : Int}

/-- The instructions that the application executes in one go. -/
abbrev Executes (lockedWrite : Bool) (k : Kernel) : Machine Pid → List Instr → Machine Pid → Prop :=
  Run fun m instr m' => exec lockedWrite printChar k.current m instr = some m'

/-- One turn of an application: it ends with a call, or with the clock when there was at least one
instruction. -/
inductive Turn (lockedWrite : Bool) : System → List Instr → System → Prop
  | called {k : Kernel} {m m₁ m' : Machine Pid} {instrs : List Instr} {call : Trap}
      {left : Option Kernel} (hexec : Executes lockedWrite k m instrs m₁)
      (hcall : trap k.current m₁ = some (call, m')) (hleft : Leaves k call.event left) :
      Turn lockedWrite ⟨some k, m⟩ instrs ⟨left, m'⟩
  | interrupted {k : Kernel} {m m' : Machine Pid} {instrs : List Instr} {left : Option Kernel}
      (hexec : Executes lockedWrite k m instrs m') (hsome : instrs ≠ [])
      (hleft : Leaves k .clock left) : Turn lockedWrite ⟨some k, m⟩ instrs ⟨left, m'⟩

theorem Executes.systemRun (h : Executes lockedWrite k m instrs m') :
    Run (SystemStep lockedWrite) ⟨some k, m⟩ (instrs.map .exec) ⟨some k, m'⟩ := by
  induction h with
  | start => exact .start _
  | snoc _ hstep ih =>
    rw [List.map_append, List.map_singleton]
    exact ih.snoc (.exec hstep)

/-- Turns are runs of the system. -/
theorem Turn.systemRun (h : Turn lockedWrite s instrs s') :
    ∃ actions, Run (SystemStep lockedWrite) s actions s' := by
  cases h with
  | called hexec hcall hleft => exact ⟨_, hexec.systemRun.snoc (.trap hcall hleft)⟩
  | interrupted hexec _ hleft => exact ⟨_, hexec.systemRun.snoc (.clock hleft)⟩

theorem systemRun_of_turns {turns : List (List Instr)} (h : Run (Turn lockedWrite) s turns s') :
    ∃ actions, Run (SystemStep lockedWrite) s actions s' := by
  induction h with
  | start => exact ⟨[], .start _⟩
  | snoc _ hturn ih =>
    obtain ⟨actions, hrun⟩ := ih
    obtain ⟨later, hlater⟩ := hturn.systemRun
    exact ⟨actions ++ later, hrun.trans hlater⟩

/-- The machine while process 0 does not run. -/
structure Attended (lockedWrite : Bool) (blank : Nat → UInt16) (m : Machine Pid) : Prop where
  printing : ∃ owners, Printing lockedWrite printChar blank m owners
  unused : m.app 0 = ⟨0, .test, none⟩

theorem Attended.step (h : Attended lockedWrite blank m)
    (hstep : AppStep lockedWrite printChar m p t m') (hp : p ≠ 0) :
    Attended lockedWrite blank m' := by
  obtain ⟨owners, hprinting⟩ := h.printing
  obtain ⟨more, -, hprinting'⟩ := hprinting.step hstep
  exact ⟨⟨owners ++ more, hprinting'⟩, (hstep.frame hp.symm).trans h.unused⟩

/-- What the instructions of a turn come to: some work is done, or all of them tried for the lock. -/
theorem Attended.executes (h : Attended lockedWrite blank m) (hk : Serving alg k m)
    (hexec : Executes lockedWrite k m instrs m') :
    Attended lockedWrite blank m' ∧ Serving alg k m' ∧
      (m'.work < m.work ∨ m'.app = m.app ∧
        (instrs ≠ [] → (m.app k.current).point = .acquire ∧ m'.lock ≠ 0)) := by
  have hzero : k.current ≠ 0 := ((hk.alive k.current).mp hk.current).1
  induction hexec with
  | start => exact ⟨h, hk, .inr ⟨rfl, fun hne => absurd rfl hne⟩⟩
  | snoc _ hstep ih =>
    obtain ⟨h₁, hk₁, hwork⟩ := ih
    have happ := AppStep.of_exec hstep
    obtain ⟨owners, hprinting⟩ := h₁.printing
    refine ⟨h₁.step happ hzero, hk₁.congr (happ.present hk₁.present nofun), ?_⟩
    rcases happ.work hprinting with hless | ⟨hpoint, -, hlock, hsame⟩
    · rcases hwork with hwork | ⟨hsame, -⟩
      · exact .inl (Nat.lt_trans hless hwork)
      · exact .inl (hless.trans_eq (work_congr hsame))
    · rcases hwork with hwork | ⟨hsame', -⟩
      · exact .inl ((work_congr hsame).trans_lt hwork)
      · exact .inr ⟨hsame.trans hsame', fun _ => ⟨hsame' ▸ hpoint, hlock⟩⟩

/-- An application can execute an instruction or make its call. -/
theorem exists_turn (hk : Serving alg k m) :
    ∃ instrs s', Turn lockedWrite ⟨some k, m⟩ instrs s' := by
  have hof : ∀ instr : Instr, (exec lockedWrite printChar k.current m instr).isSome = true →
      ∃ instrs s', Turn lockedWrite ⟨some k, m⟩ instrs s' := by
    intro instr hexec
    obtain ⟨m', hexec⟩ := Option.isSome_iff_exists.mp hexec
    obtain ⟨left, hleft⟩ := exists_leaves k .clock
    exact ⟨[instr], _, .interrupted (.single hexec) (List.cons_ne_nil _ _) hleft⟩
  have hcalls : (trap k.current m).isSome = true →
      ∃ instrs s', Turn lockedWrite ⟨some k, m⟩ instrs s' := by
    intro hcall
    obtain ⟨⟨call, m'⟩, hcall⟩ := Option.isSome_iff_exists.mp hcall
    obtain ⟨left, hleft⟩ := exists_leaves k call.event
    exact ⟨[], _, .called (.start m) hcall hleft⟩
  cases hpending : (m.app k.current).pending with
  | some pos => exact hof .store (by simp only [exec, execStore, hpending, Option.isSome_some])
  | none =>
    cases hpoint : (m.app k.current).point with
    | test =>
      refine hof .next ?_
      simp only [exec, execNext, hpoint]
      split <;> rfl
    | acquire | load | advance | release | write =>
      exact hof .next (by simp only [exec, execNext, hpoint, Option.isSome_some])
    | yield | leave => exact hcalls (by simp only [trap, hpoint, hpending, Option.isSome_some])
    | exited => exact absurd hpoint hk.present

/-- What these applications print, one after the other. -/
def outputOf (l : List Pid) : List Pid := l.flatMap fun p => List.replicate runCount p

theorem count_outputOf (l : List Pid) (p : Pid) : (outputOf l).count p = runCount * l.count p := by
  unfold outputOf
  induction l with
  | nil => rfl
  | cons q l ih =>
    rw [List.flatMap_cons, List.count_append, ih, List.count_replicate, List.count_cons, Nat.mul_add,
      Nat.add_comm]
    congr 1
    split <;> simp

def wholeOutput : List Pid := outputOf processes

theorem count_wholeOutput (p : Pid) : wholeOutput.count p = if p = 0 then 0 else runCount := by
  have hcount : processes.count p = if p = 0 then 0 else 1 := by
    revert p
    decide
  rw [wholeOutput, count_outputOf, hcount]
  split
  · rfl
  · exact Nat.mul_one runCount

theorem length_wholeOutput : wholeOutput.length = 4 * runCount := by
  simp only [wholeOutput, outputOf, processes, List.flatMap_cons, List.flatMap_nil,
    List.length_append, List.length_replicate, List.length_nil]
  omega

/-- An application that has come to its end. -/
theorem Printing.exited (h : Printing lockedWrite printChar blank m owners)
    (hp : (m.app p).point = .exited) :
    (m.app p).pending = none ∧ (m.app p).printed = runCount := by
  obtain ⟨hi, hpending⟩ := h.sound_at hp
  exact ⟨hpending, by rw [App.printed, hp, hi]; rfl⟩

theorem Attended.stored (h : Attended lockedWrite blank m)
    (hexited : ∀ p, p ≠ 0 → (m.app p).point = .exited) (p : Pid) : (m.app p).pending = none := by
  obtain ⟨owners, hprinting⟩ := h.printing
  by_cases hp : p = 0
  · rw [hp, h.unused]
  · exact (hprinting.exited (hexited p hp)).1

/-- The console when there is nobody left. -/
theorem Attended.exited (h : Attended lockedWrite blank m)
    (hexited : ∀ p, p ≠ 0 → (m.app p).point = .exited) :
    m.cursorpos = 4 * runCount ∧
      ((List.range m.cursorpos).map m.screen).Perm (wholeOutput.map printChar) ∧
      ∀ k, m.cursorpos ≤ k → m.screen k = blank k := by
  obtain ⟨owners, hprinting⟩ := h.printing
  have hperm : owners.Perm wholeOutput := by
    refine List.perm_iff_count.mpr fun p => ?_
    rw [hprinting.counts p, count_wholeOutput]
    by_cases hp : p = 0
    · rw [hp, h.unused]
      rfl
    · rw [(hprinting.exited (hexited p hp)).2, if_neg hp]
  refine ⟨?_, ?_, fun k hk => hprinting.rest k hk fun p hadvance => ?_⟩
  · rw [hprinting.cursor, hperm.length_eq, length_wholeOutput]
  · rw [hprinting.shown (h.stored hexited)]
    exact hperm.map printChar
  · by_cases hp : p = 0
    · rw [hp, h.unused] at hadvance
      cases hadvance
    · rw [hexited p hp] at hadvance
      cases hadvance

end Turns

end CS111.Schedos
