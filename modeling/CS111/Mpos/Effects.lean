import CS111.Mpos.Kernel

/-!
# What a system call does

`Kernel.effect` tells the calls apart, and four lemmas say what each does to every process. The
invariants of the runs follow from these lemmas.
-/

namespace CS111.Mpos

set_option autoImplicit false

inductive Effect where
  | passes
  | answers (v : UInt32)
  | killFails
  | spawns (child : Pid)
  | collects (p : Pid)
  | waits (p : Pid)
  | ends (t : Pid) (status : UInt32)
  deriving Repr, DecidableEq

namespace Kernel
variable (k : Kernel)

def spawnEffect : Effect := match firstEmpty k with
  | none => .answers minusOne
  | some child => .spawns child

def effect (reg : Registers) : Syscall → Effect
  | .thread | .fork => k.spawnEffect
  | .kill => match inRange reg.eax with
    | none => .killFails
    | some p => if k.state p = .empty then .killFails else .ends p minusOne
  | .getpid => .answers (pidWord k.current)
  | .yield => .passes
  | .exit => .ends k.current reg.eax
  | .wait => match inRange reg.eax with
    | none => .answers minusOne
    | some p =>
      if p = k.current ∨ k.state p = .empty then .answers minusOne
      else if k.state p = .zombie then .collects p
      else .waits p

end Kernel

namespace Effect
variable (k : Kernel) (q : Pid)

def state : Effect → ProcState
  | .spawns child => if q = child then .runnable else k.state q
  | .waits _ => if q = k.current then .blocked else k.state q
  | .ends t _ =>
    if k.wait t = 0 then if q = t then .zombie else k.state q
    else if q = t then .empty else if q = k.wait t then .runnable else k.state q
  | _ => k.state q

def wait : Effect → Pid
  | .waits p => if q = p then k.current else k.wait q
  | _ => k.wait q

def exitStatus : Effect → UInt32
  | .spawns child => if q = child then 0 else k.exitStatus q
  | .ends t status => if q = t then status else k.exitStatus q
  | _ => k.exitStatus q

/-- `k` has the registers of the call. -/
def eax : Effect → UInt32
  | .answers v => if q = k.current then v else k.eax q
  | .spawns child =>
    if q = k.current then pidWord child else if q = child then 0 else k.eax q
  | .collects p => if q = k.current then k.exitStatus p else k.eax q
  | .ends t status => if k.wait t ≠ 0 ∧ q = k.wait t then status else k.eax q
  | _ => k.eax q

end Effect

/-- `k` has the registers of the call, and `k'` is the kernel at the next resumption. -/
structure Effect.Does (e : Effect) (k k' : Kernel) : Prop where
  state : ∀ q, k'.state q = e.state k q
  wait : ∀ q, k'.wait q = e.wait k q
  exitStatus : ∀ q, k'.exitStatus q = e.exitStatus k q
  eax : ∀ q, k'.eax q = e.eax k q

variable {k k' : Kernel} {p q t child : Pid} {s : ProcState} {v : UInt32} {reg : Registers}
  {e : Effect} {call : Syscall}

section Modified
variable {f : Process → Process}

@[simp] theorem procArray_state : (k.procArray p).state = k.state p := rfl

@[simp] theorem procArray_wait : (k.procArray p).wait = k.wait p := rfl

@[simp] theorem procArray_exitStatus : (k.procArray p).exitStatus = k.exitStatus p := rfl

@[simp] theorem procArray_eax : (k.procArray p).registers.eax = k.eax p := rfl

@[simp] theorem state_modify :
    (k.modify p f).state q = if q = p then (f (k.procArray q)).state else k.state q :=
  apply_ite Process.state _ _ _

@[simp] theorem wait_modify :
    (k.modify p f).wait q = if q = p then (f (k.procArray q)).wait else k.wait q :=
  apply_ite Process.wait _ _ _

@[simp] theorem exitStatus_modify :
    (k.modify p f).exitStatus q = if q = p then (f (k.procArray q)).exitStatus else k.exitStatus q :=
  apply_ite Process.exitStatus _ _ _

@[simp] theorem eax_modify :
    (k.modify p f).eax q = if q = p then (f (k.procArray q)).registers.eax else k.eax q :=
  apply_ite (fun proc : Process => proc.registers.eax) _ _ _

@[simp] theorem current_modify : (k.modify p f).current = k.current := rfl

@[simp] theorem current_run : (run k p).current = p := rfl

@[simp] theorem state_run : (run k p).state q = k.state q := rfl

@[simp] theorem wait_run : (run k p).wait q = k.wait q := rfl

@[simp] theorem exitStatus_run : (run k p).exitStatus q = k.exitStatus q := rfl

@[simp] theorem eax_run : (run k p).eax q = k.eax q := rfl

end Modified

theorem Effect.Does.of_procArray {k₁ : Kernel} (h : e.Does k k₁) (heq : k'.procArray = k₁.procArray) :
    e.Does k k' := by
  obtain ⟨procArray, current⟩ := k'
  cases heq
  exact ⟨h.state, h.wait, h.exitStatus, h.eax⟩

theorem schedule_procArray (h : schedule k = some k') : k'.procArray = k.procArray := by
  obtain ⟨p, _, rfl⟩ := Option.map_eq_some_iff.mp h
  rfl

theorem schedule_current (h : schedule k = some k') : k'.state k'.current = .runnable := by
  obtain ⟨p, hp, rfl⟩ := Option.map_eq_some_iff.mp h
  obtain ⟨_, _, hrunnable, _⟩ := RoundRobin.seek_isNext hp
  exact eq_of_beq hrunnable

section Tables

attribute [local simp] Effect.state Effect.wait Effect.exitStatus Effect.eax

theorem endProcess_does {status : UInt32} (h : endProcess k t status = some k') :
    Effect.Does (.ends t status) k k' := by
  unfold endProcess at h
  by_cases hw : k.wait t = 0
  · simp only [Kernel.setExitStatus, Kernel.setState, wait_modify, procArray_wait, ite_self, hw,
      ne_eq, not_true_eq_false, if_false] at h
    refine Effect.Does.of_procArray ?_ (schedule_procArray h)
    constructor <;> intro q <;> by_cases hq : q = t <;>
      simp [hw, hq]
  · simp only [Kernel.setExitStatus, Kernel.setState, Kernel.setEax, wait_modify, procArray_wait,
      ite_self, hw, ne_eq, not_false_eq_true, if_true, Option.some.injEq] at h
    cases h
    constructor <;> intro q <;> by_cases hq : q = t <;>
      simp [hw, hq]

theorem answer_does : Effect.Does (.answers v) k (k.setEax k.current v) := by
  constructor <;> intro q <;>
    simp [Kernel.setEax]

theorem collect_does : Effect.Does (.collects p) k (k.setEax k.current (k.exitStatus p)) := by
  constructor <;> intro q <;>
    simp [Kernel.setEax]

theorem wait_does :
    Effect.Does (.waits p) k ((k.setState k.current .blocked).setWait p k.current) := by
  constructor <;> intro q <;>
    simp [Kernel.setState, Kernel.setWait]

theorem spawn_does :
    Effect.Does (.spawns child) k ((spawn k child reg).setEax k.current (pidWord child)) := by
  constructor <;> intro q <;> by_cases hq : q = child <;> by_cases hc : q = k.current <;>
    simp [spawn, Kernel.setEax, hq, hc]

end Tables

theorem Effect.Does.passes : Effect.Does .passes k k :=
  ⟨fun _ => rfl, fun _ => rfl, fun _ => rfl, fun _ => rfl⟩

theorem Effect.Does.killFails : Effect.Does .killFails k k :=
  ⟨fun _ => rfl, fun _ => rfl, fun _ => rfl, fun _ => rfl⟩

@[simp] theorem state_saved : (k.saved reg).state q = k.state q := by simp [Kernel.saved]

@[simp] theorem wait_saved : (k.saved reg).wait q = k.wait q := by simp [Kernel.saved]

@[simp] theorem exitStatus_saved : (k.saved reg).exitStatus q = k.exitStatus q := by
  simp [Kernel.saved]

@[simp] theorem eax_saved :
    (k.saved reg).eax q = if q = k.current then reg.eax else k.eax q := by
  simp [Kernel.saved]

@[simp] theorem current_saved : (k.saved reg).current = k.current := rfl

@[simp] theorem firstEmpty_saved : firstEmpty (k.saved reg) = firstEmpty k := by
  simp [firstEmpty]

/-- The results of `do_fork` and `do_thread`. -/
def Spawns (k : Kernel) (r : Kernel × UInt32) : Prop :=
  (firstEmpty k = none ∧ r = (k, minusOne)) ∨
    ∃ child reg, firstEmpty k = some child ∧ r = (spawn k child reg, pidWord child)

theorem doFork_spawns : Spawns k (doFork k p) := by
  unfold doFork
  cases hfirst : firstEmpty k with
  | none => exact .inl ⟨hfirst, rfl⟩
  | some child => exact .inr ⟨child, _, hfirst, rfl⟩

theorem doThread_spawns : Spawns k (doThread k p) := by
  unfold doThread
  cases hfirst : firstEmpty k with
  | none => exact .inl ⟨hfirst, rfl⟩
  | some child => exact .inr ⟨child, _, hfirst, rfl⟩

theorem Spawns.does {r : Kernel × UInt32} (hr : Spawns (k.saved reg) r)
    (h : some (run (r.1.setEax r.1.current r.2) r.1.current) = some k') :
    Effect.Does k.spawnEffect (k.saved reg) k' := by
  have htable := congrArg Kernel.procArray (Option.some.inj h).symm
  unfold Kernel.spawnEffect
  rcases hr with ⟨hfirst, rfl⟩ | ⟨child, reg', hfirst, rfl⟩
  · rw [firstEmpty_saved] at hfirst
    rw [hfirst]
    exact answer_does.of_procArray htable
  · rw [firstEmpty_saved] at hfirst
    rw [hfirst]
    exact spawn_does.of_procArray htable

theorem kill_does (h : interrupt k reg .kill = some k') :
    Effect.Does (k.effect reg .kill) (k.saved reg) k' := by
  simp only [interrupt, doKill, eax_saved, current_saved, if_true, state_saved] at h
  unfold Kernel.effect
  cases hp : inRange reg.eax with
  | none =>
    rw [hp] at h
    exact Effect.Does.killFails.of_procArray (schedule_procArray h)
  | some p =>
    rw [hp] at h
    dsimp only at h ⊢
    split
    · next hempty =>
      rw [if_pos hempty] at h
      exact Effect.Does.killFails.of_procArray (schedule_procArray h)
    · next hempty =>
      rw [if_neg hempty] at h
      exact endProcess_does h

theorem syscall_wait_does (h : interrupt k reg .wait = some k') :
    Effect.Does (k.effect reg .wait) (k.saved reg) k' := by
  simp only [interrupt, doWait, eax_saved, current_saved, if_true, state_saved] at h
  unfold Kernel.effect
  cases hp : inRange reg.eax with
  | none =>
    rw [hp] at h
    exact answer_does.of_procArray (schedule_procArray h)
  | some p =>
    rw [hp] at h
    dsimp only at h ⊢
    split
    · next hrefused =>
      rw [if_pos hrefused] at h
      exact answer_does.of_procArray (schedule_procArray h)
    · next hrefused =>
      rw [if_neg hrefused] at h
      split
      · next hzombie =>
        rw [if_pos hzombie] at h
        exact collect_does.of_procArray (schedule_procArray h)
      · next hzombie =>
        rw [if_neg hzombie] at h
        exact wait_does.of_procArray (schedule_procArray h)

/-- What every call does to the table. -/
theorem interrupt_does (h : interrupt k reg call = some k') :
    (k.effect reg call).Does (k.saved reg) k' := by
  cases call with
  | fork => exact doFork_spawns.does h
  | thread => exact doThread_spawns.does h
  | kill => exact kill_does h
  | wait => exact syscall_wait_does h
  | yield => exact Effect.Does.passes.of_procArray (schedule_procArray h)
  | getpid => exact answer_does.of_procArray (congrArg Kernel.procArray (Option.some.inj h).symm)
  | exit =>
    have hstatus : (k.saved reg).eax k.current = reg.eax := by rw [eax_saved, if_pos rfl]
    unfold Kernel.effect
    rw [← hstatus]
    exact endProcess_does h

theorem interrupt_state (h : interrupt k reg call = some k') (q : Pid) :
    k'.state q = (k.effect reg call).state k q := by
  rw [(interrupt_does h).state]
  cases k.effect reg call <;> simp [Effect.state]

theorem interrupt_wait (h : interrupt k reg call = some k') (q : Pid) :
    k'.wait q = (k.effect reg call).wait k q := by
  rw [(interrupt_does h).wait]
  cases k.effect reg call <;> simp [Effect.wait]

theorem interrupt_exitStatus (h : interrupt k reg call = some k') (q : Pid) :
    k'.exitStatus q = (k.effect reg call).exitStatus k q := by
  rw [(interrupt_does h).exitStatus]
  cases k.effect reg call <;> simp [Effect.exitStatus]

/-! ## What the calls check -/

def Effect.Checked (k : Kernel) (reg : Registers) (call : Syscall) : Effect → Prop
  | .spawns child => k.state child = .empty ∧ child ≠ 0
  | .collects p => pidWord p = reg.eax ∧ p ≠ k.current ∧ k.state p = .zombie
  | .waits p =>
    pidWord p = reg.eax ∧ p ≠ 0 ∧ p ≠ k.current ∧ k.state p ≠ .empty ∧ k.state p ≠ .zombie
  | .ends t status =>
    call = .exit ∧ t = k.current ∧ status = reg.eax ∨
      call = .kill ∧ pidWord t = reg.eax ∧ t ≠ 0 ∧ k.state t ≠ .empty ∧ status = minusOne
  | _ => True

theorem inRange_eq_some (h : inRange v = some p) : pidWord p = v ∧ p ≠ 0 := by
  simp only [inRange, Option.dite_none_right_eq_some, Option.some.injEq] at h
  obtain ⟨⟨hpos, hlt⟩, rfl⟩ := h
  have hval : (toInt32 v.toNat).toNat = v.toNat := by
    have hv : v.toNat < 4294967296 := v.toNat_lt
    unfold toInt32 at hpos ⊢
    split at hpos
    · next hsmall =>
      rw [if_pos hsmall]
      omega
    · omega
  refine ⟨?_, Fin.ne_of_val_ne ?_⟩
  · simp only [pidWord, hval, UInt32.ofNat_toNat]
  · show (toInt32 v.toNat).toNat ≠ 0
    omega

theorem firstEmpty_eq_some (h : firstEmpty k = some child) :
    k.state child = .empty ∧ child ≠ 0 := by
  unfold firstEmpty at h
  have hempty := List.find?_some h
  refine ⟨eq_of_beq hempty, fun h0 => ?_⟩
  have hmem := List.mem_of_find?_eq_some h
  rw [h0] at hmem
  exact absurd hmem (by decide)

theorem spawnEffect_checked : k.spawnEffect.Checked k reg call := by
  unfold Kernel.spawnEffect
  split
  · trivial
  · next hfirst => exact firstEmpty_eq_some hfirst

theorem effect_checked (k : Kernel) (reg : Registers) (call : Syscall) :
    (k.effect reg call).Checked k reg call := by
  cases call with
  | fork | thread => exact spawnEffect_checked
  | getpid | yield => trivial
  | exit => exact .inl ⟨rfl, rfl, rfl⟩
  | kill =>
    simp only [Kernel.effect]
    split
    · trivial
    · next p hp =>
      obtain ⟨hword, h0⟩ := inRange_eq_some hp
      split
      · trivial
      · next hempty => exact .inr ⟨rfl, hword, h0, hempty, rfl⟩
  | wait =>
    simp only [Kernel.effect]
    split
    · trivial
    · next p hp =>
      obtain ⟨hword, h0⟩ := inRange_eq_some hp
      split
      · trivial
      · next hother =>
        obtain ⟨hself, hempty⟩ := not_or.mp hother
        split
        · next hzombie => exact ⟨hword, hself, hzombie⟩
        · next hzombie => exact ⟨hword, h0, hself, hempty, hzombie⟩

theorem spawnEffect_ne_ends {status : UInt32} : k.spawnEffect ≠ .ends t status := by
  unfold Kernel.spawnEffect
  split <;> exact Effect.noConfusion

theorem interrupt_of_ends {status : UInt32} (h : k.effect reg call = .ends t status) :
    interrupt k reg call = endProcess (k.saved reg) t status := by
  cases call with
  | fork | thread => exact absurd h spawnEffect_ne_ends
  | getpid | yield => cases h
  | exit =>
    cases h
    simp only [interrupt, eax_saved, current_saved, if_true]
  | kill =>
    simp only [Kernel.effect] at h
    simp only [interrupt, doKill, eax_saved, current_saved, if_true, state_saved]
    cases hp : inRange reg.eax with
    | none =>
      rw [hp] at h
      cases h
    | some p =>
      rw [hp] at h
      dsimp only at h ⊢
      split at h
      · cases h
      · next hempty =>
        cases h
        exact if_neg hempty
  | wait =>
    simp only [Kernel.effect] at h
    split at h
    · cases h
    · split at h
      · cases h
      · split at h <;> cases h

/-! ## What holds in every run -/

structure Kernel.Valid (k : Kernel) : Prop where
  current : k.state k.current = .runnable
  unused : k.state 0 = .empty
  noSelf : ∀ q, k.wait q = q → q = 0
  zombie : ∀ q, k.state q = .zombie → k.wait q = 0

theorem start_valid (entryPoint : UInt32) : (start entryPoint).Valid where
  current := rfl
  unused := rfl
  noSelf q h := by
    have h0 : (start entryPoint).wait q = 0 := by
      simp only [Kernel.wait, start]
      split <;> rfl
    rw [← h, h0]
  zombie q _ := by
    simp only [Kernel.wait, start]
    split <;> rfl

theorem Kernel.Valid.current_ne_zero (hv : k.Valid) : k.current ≠ 0 := by
  intro h0
  have h := hv.current
  rw [h0, hv.unused] at h
  cases h

theorem Kernel.Valid.ended_ne_zero {status : UInt32} (hv : k.Valid)
    (h : k.effect reg call = .ends t status) : t ≠ 0 ∧ k.state t ≠ .empty := by
  have hchecked := effect_checked k reg call
  rw [h] at hchecked
  rcases hchecked with ⟨_, rfl, _⟩ | ⟨_, _, h0, hempty, _⟩
  · refine ⟨hv.current_ne_zero, ?_⟩
    rw [hv.current]
    decide
  · exact ⟨h0, hempty⟩

theorem Kernel.Valid.saved (hv : k.Valid) : (k.saved reg).Valid where
  current := by simpa using hv.current
  unused := by simpa using hv.unused
  noSelf q h := hv.noSelf q (by simpa using h)
  zombie q h := by simpa using hv.zombie q (by simpa using h)

theorem endProcess_resumes {status : UInt32} (hv : k.Valid) (h : endProcess k t status = some k') :
    k'.state k'.current = .runnable := by
  have hdoes := endProcess_does h
  unfold endProcess at h
  by_cases hw : k.wait t = 0
  · simp only [Kernel.setExitStatus, Kernel.setState, wait_modify, procArray_wait, ite_self, hw,
      ne_eq, not_true_eq_false, if_false] at h
    exact schedule_current h
  · simp only [Kernel.setExitStatus, Kernel.setState, Kernel.setEax, wait_modify, procArray_wait,
      ite_self, hw, ne_eq, not_false_eq_true, if_true, Option.some.injEq] at h
    have hcurrent : k'.current = k.wait t := by rw [← h]; rfl
    have hself : k.wait t ≠ t := fun heq => hw (by rw [heq]; exact hv.noSelf t heq)
    rw [hdoes.state, hcurrent]
    simp [Effect.state, hw, hself]

theorem Spawns.resumes {r : Kernel × UInt32} (hv : k.Valid) (hr : Spawns k r)
    (h : some (run (r.1.setEax r.1.current r.2) r.1.current) = some k') :
    k'.state k'.current = .runnable := by
  cases h
  rcases hr with ⟨_, rfl⟩ | ⟨child, reg', _, rfl⟩
  · simpa [Kernel.setEax] using hv.current
  · simp [spawn, Kernel.setEax, hv.current]

/-- The process that runs next is runnable. -/
theorem interrupt_resumes (hv : k.Valid) (h : interrupt k reg call = some k') :
    k'.state k'.current = .runnable := by
  cases call with
  | yield => exact schedule_current h
  | getpid =>
    cases h
    simpa [Kernel.setEax] using hv.current
  | exit => exact endProcess_resumes hv.saved h
  | fork => exact doFork_spawns.resumes hv.saved h
  | thread => exact doThread_spawns.resumes hv.saved h
  | kill =>
    simp only [interrupt, doKill] at h
    split at h
    · exact schedule_current h
    · split at h
      · exact schedule_current h
      · exact endProcess_resumes hv.saved h
  | wait =>
    simp only [interrupt, doWait] at h
    split at h
    · exact schedule_current h
    · split at h
      · exact schedule_current h
      · split at h <;> exact schedule_current h

theorem interrupt_valid (hv : k.Valid) (h : interrupt k reg call = some k') : k'.Valid := by
  have hchecked := effect_checked k reg call
  refine ⟨interrupt_resumes hv h, ?_, fun q hq => ?_, fun q hq => ?_⟩
  · rw [interrupt_state h]
    cases he : k.effect reg call with
    | passes | killFails | answers | collects => exact hv.unused
    | spawns child =>
      rw [he] at hchecked
      simp [Effect.state, hv.unused, hchecked.2.symm]
    | waits p => simp [Effect.state, hv.unused, hv.current_ne_zero.symm]
    | ends t status =>
      obtain ⟨h0, -⟩ := hv.ended_ne_zero he
      by_cases hw : k.wait t = 0
      · simp [Effect.state, hw, h0.symm, hv.unused]
      · simp [Effect.state, hw, h0.symm, hv.unused, Ne.symm hw]
  · rw [interrupt_wait h] at hq
    cases he : k.effect reg call with
    | waits p =>
      rw [he] at hq hchecked
      simp only [Effect.wait] at hq
      split at hq
      · next hqp => exact absurd (hqp.symm.trans hq.symm) hchecked.2.2.1
      · exact hv.noSelf q hq
    | passes | killFails | answers | collects | spawns | ends =>
      rw [he] at hq
      exact hv.noSelf q hq
  · rw [interrupt_state h] at hq
    rw [interrupt_wait h]
    cases he : k.effect reg call with
    | passes | killFails | answers | collects =>
      rw [he] at hq
      exact hv.zombie q hq
    | spawns child =>
      rw [he] at hq
      simp only [Effect.state] at hq
      split at hq
      · cases hq
      · exact hv.zombie q hq
    | waits p =>
      rw [he] at hq hchecked
      simp only [Effect.state] at hq
      split at hq
      · cases hq
      · have hqp : q ≠ p := fun heq => hchecked.2.2.2.2 (heq ▸ hq)
        simpa [Effect.wait, hqp] using hv.zombie q hq
    | ends t status =>
      rw [he] at hq
      simp only [Effect.state] at hq
      split at hq
      · next hw =>
        split at hq
        · next hqt => simpa [Effect.wait, hqt] using hw
        · exact hv.zombie q hq
      · split at hq
        · cases hq
        · split at hq
          · cases hq
          · exact hv.zombie q hq

end CS111.Mpos
