import CS111.Mpos.History

/-!
# Results of the system calls

Every runnable process finds its answer in `%eax`, whoever else has run since its call, as long as
only recorded waiters are woken and `sys_kill` leaves zombies alone. The one result that never arrives
is the `-1` of `sys_kill`.
-/

namespace CS111.Mpos

set_option autoImplicit false

/-- `q` finds the answer to its call. -/
def Answered (k : Kernel) (h : History) (q : Pid) : Prop :=
  match h.answer q with
  | .nothing => True
  | .value v => k.eax q = v
  | .exitOf _ _ => False

/-- Every `sys_kill` that finds no process has `-1` as its argument, and every one that finds a zombie
finds `-1` as its exit status. -/
def Effect.KillsProcess (k : Kernel) (reg : Registers) : Effect → Prop
  | .killFails => reg.eax = minusOne
  | .ends t _ => k.state t = .zombie → k.exitStatus t = minusOne
  | _ => True

instance {k : Kernel} {reg : Registers} : DecidablePred (Effect.KillsProcess k reg)
  | .killFails => inferInstanceAs (Decidable (_ = _))
  | .ends _ _ => inferInstanceAs (Decidable (_ → _))
  | .passes | .answers _ | .collects _ | .spawns _ | .waits _ => inferInstanceAs (Decidable True)

def AnsweringStep (s : Observed) (e : Call) (t : Observed) : Prop :=
  FreshStep s e t ∧ (s.effect e).KillsProcess s.kernel e.reg

def Settled (k : Kernel) (h : History) : Prop := ∀ q, k.state q = .runnable → Answered k h q

variable {k k' : Kernel} {h h' : History} {e : Effect} {p q t child : Pid} {status v : UInt32}
  {reg : Registers} {a : Answer}

theorem Answered.of_eq (hq : Answered k h q) (hanswer : h'.answer q = h.answer q)
    (heax : k'.eax q = k.eax q) : Answered k' h' q := by
  unfold Answered at hq ⊢
  rwa [hanswer, heax]

theorem answered_value (hanswer : h.answer q = .value v) (heax : k.eax q = v) : Answered k h q := by
  unfold Answered
  rw [hanswer]
  exact heax

theorem Answered.ne_exitOf {n : Nat} (hq : Answered k h q) : h.answer q ≠ .exitOf t n := by
  intro hanswer
  unfold Answered at hq
  rwa [hanswer] at hq

theorem History.answers_self {c : Pid} : (h.answers c a).answer c = a := Function.update_self _ _ _

section Steps
variable (hs : Settled k h) (hstate : ∀ q, k'.state q = e.state k q)
  (heax : ∀ q, k'.eax q = e.eax (k.saved reg) q)
include hs hstate heax

/-- A call that only answers its caller. -/
theorem Settled.answered (hstate' : ∀ q, e.state k q = k.state q)
    (heax' : ∀ q, q ≠ k.current → e.eax (k.saved reg) q = k.eax q)
    (hcaller : Answered k' (h.answers k.current a) k.current) :
    Settled k' (h.answers k.current a) := by
  intro q hq
  by_cases hc : q = k.current
  · rwa [hc]
  · rw [hstate, hstate'] at hq
    exact (hs q hq).of_eq (History.answers_of_ne hc) (by rw [heax, heax' q hc])

theorem Settled.spawned (he : e = .spawns child) (hempty : k.state child = .empty)
    (hc : k.state k.current = .runnable) : Settled k' (h.after k e) := by
  subst he
  have hchild : child ≠ k.current := by
    rintro rfl
    rw [hempty] at hc
    cases hc
  intro q hq
  by_cases hqc : q = k.current
  · subst hqc
    refine answered_value (v := pidWord child) (Function.update_self _ _ _) ?_
    rw [heax]
    simp [Effect.eax]
  · by_cases hqchild : q = child
    · subst hqchild
      refine answered_value (v := 0) ?_ ?_
      · show (History.answers _ _ _).answer q = _
        rw [History.answers_of_ne hqc, History.answers_self]
      · rw [heax]
        simp [Effect.eax, hqc]
    · rw [hstate] at hq
      simp only [Effect.state, if_neg hqchild] at hq
      refine (hs q hq).of_eq ?_ ?_
      · show (History.answers _ _ _).answer q = _
        rw [History.answers_of_ne hqc, History.answers_of_ne hqchild]
      · rw [heax]
        simp [Effect.eax, hqc, hqchild]

theorem Settled.waited (he : e = .waits p) : Settled k' (h.after k e) := by
  subst he
  intro q hq
  rw [hstate] at hq
  simp only [Effect.state] at hq
  split at hq
  · cases hq
  · next hc =>
    refine (hs q hq).of_eq (History.answers_of_ne hc) ?_
    rw [heax]
    simp [Effect.eax, hc]

/-- The caller is the process that ends, or it has the pid of that process in `%eax`. -/
theorem Settled.ended (he : e = .ends t status) (hr : Recorded k h)
    (hfresh : k.wait t ≠ 0 → h.recorded t = true)
    (hcaller : t = k.current ∨ reg.eax = pidWord t) : Settled k' (h.after k e) := by
  subst he
  intro q hq
  rw [hstate] at hq
  have hqt : q ≠ t := by
    rintro rfl
    simp only [Effect.state, if_true] at hq
    split at hq <;> cases hq
  have hnotWoken : k.state q = .runnable → ¬ (k.wait t ≠ 0 ∧ q = k.wait t) →
      Answered k' (h.after k (.ends t status)) q := by
    intro hrunnable hwoken
    have hanswered := hs q hrunnable
    by_cases hqc : q = k.current
    · refine answered_value (v := pidWord t) ?_ ?_
      · simp only [History.after, History.answersAtEnd, if_neg hanswered.ne_exitOf, if_pos hqc]
      · rw [heax]
        simp only [Effect.eax, wait_saved, if_neg hwoken, eax_saved, if_pos hqc]
        exact hcaller.resolve_left fun heq => hqt (hqc.trans heq.symm)
    · refine hanswered.of_eq ?_ ?_
      · simp only [History.after, History.answersAtEnd, if_neg hanswered.ne_exitOf, if_neg hqc]
      · rw [heax]
        simp only [Effect.eax, wait_saved, if_neg hwoken, eax_saved, if_neg hqc]
  by_cases hw : k.wait t = 0
  · simp only [Effect.state, if_pos hw, if_neg hqt] at hq
    exact hnotWoken hq fun hwoken => hwoken.1 hw
  · by_cases hqw : q = k.wait t
    · subst hqw
      refine answered_value (v := status) ?_ ?_
      · simp only [History.after, History.answersAtEnd, if_pos (hr t (hfresh hw)).2.2]
      · rw [heax]
        simp [Effect.eax, hw]
    · simp only [Effect.state, if_neg hw, if_neg hqt, if_neg hqw] at hq
      exact hnotWoken hq fun hwoken => hqw hwoken.2

end Steps

/-! ## The status of a zombie -/

/-- The entry of a zombie holds the status that it ended with. -/
def StatusKept (k : Kernel) (h : History) : Prop :=
  ∀ t, k.state t = .zombie → h.ended t (h.incarnation t) = some (k.exitStatus t)

section Zombies
variable (hz : StatusKept k h) (hstate : ∀ q, k'.state q = e.state k q)
  (hstatus : ∀ q, k'.exitStatus q = e.exitStatus k q)
include hz

theorem StatusKept.of_eq (hstate : ∀ q, k'.state q = .zombie → k.state q = .zombie)
    (hstatus : ∀ q, k'.exitStatus q = k.exitStatus q) (hincarnation : h'.incarnation = h.incarnation)
    (hended : h'.ended = h.ended) : StatusKept k' h' := by
  intro t ht
  rw [hended, hincarnation, hstatus]
  exact hz t (hstate t ht)

include hstate hstatus

theorem StatusKept.spawned (he : e = .spawns child) : StatusKept k' (h.after k e) := by
  subst he
  intro t ht
  rw [hstate] at ht
  rw [hstatus]
  simp only [Effect.state] at ht
  split at ht
  · cases ht
  · next htchild =>
    simp only [Effect.exitStatus, History.after, if_neg htchild, Function.update_of_ne htchild]
    exact hz t ht

/-- A status is kept where none was noted before, or where `sys_kill` writes the same one again. -/
theorem StatusKept.ended (he : e = .ends t status) (ht : Timely k h) (hempty : k.state t ≠ .empty)
    (hagain : k.state t = .zombie → k.exitStatus t = status) : StatusKept k' (h.after k e) := by
  subst he
  intro u hu
  rw [hstate] at hu
  rw [hstatus]
  change h.endOf t status u (h.incarnation u) = _
  by_cases hut : u = t
  · subst hut
    rw [History.endOf_self]
    simp only [Effect.exitStatus, if_true]
    by_cases hzombie : k.state u = .zombie
    · rw [hz u hzombie, hagain hzombie]
      rfl
    · rw [ht.not_ended hempty hzombie]
      rfl
  · rw [History.endOf_of_ne (.inl hut)]
    simp only [Effect.exitStatus, if_neg hut]
    refine hz u ?_
    by_cases hw : k.wait t = 0
    · simpa only [Effect.state, if_pos hw, if_neg hut] using hu
    · simp only [Effect.state, if_neg hw, if_neg hut] at hu
      split at hu
      · cases hu
      · exact hu

end Zombies

/-- A recorded waiter is blocked, so that its wake-up revives nobody. -/
theorem Recorded.revivesNobody {s : Observed} (hr : Recorded s.kernel s.history) {e : Effect}
    (hfresh : e.Fresh s) : e.RevivesNobody s.kernel := by
  cases e with
  | ends t status =>
    intro hw hended
    have hblocked := (hr t (hfresh hw)).2.1
    rcases hended with hended | hended <;> rw [hblocked] at hended <;> cases hended
  | passes | killFails | answers | collects | spawns | waits => trivial

theorem StatusKept.step {s t : Observed} {e : Call} (hv : s.kernel.Valid)
    (ht : Timely s.kernel s.history) (hz : StatusKept s.kernel s.history)
    (hstep : AnsweringStep s e t) : StatusKept t.kernel t.history := by
  obtain ⟨⟨hstep, -⟩, hkills⟩ := hstep
  obtain ⟨hk, hh⟩ := Observed.step_iff.mp hstep
  rw [hh]
  have hchecked := effect_checked s.kernel e.reg e.call
  have hstate := interrupt_state hk
  have hstatus := interrupt_exitStatus hk
  unfold Observed.effect at hkills ⊢
  cases he : s.kernel.effect e.reg e.call with
  | passes | killFails | answers | collects =>
    rw [he] at hstate hstatus
    exact hz.of_eq (fun q hq => (hstate q).symm.trans hq) hstatus rfl rfl
  | spawns child =>
    rw [he] at hstate hstatus
    exact hz.spawned hstate hstatus rfl
  | waits p =>
    rw [he] at hstate hstatus
    refine hz.of_eq (fun q hq => ?_) hstatus rfl rfl
    rw [hstate] at hq
    simp only [Effect.state] at hq
    split at hq
    · cases hq
    · exact hq
  | ends p status =>
    obtain ⟨-, hempty⟩ := hv.ended_ne_zero he
    rw [he] at hstate hstatus hkills hchecked
    refine hz.ended hstate hstatus rfl ht hempty fun hzombie => ?_
    rcases hchecked with ⟨-, rfl, -⟩ | ⟨-, -, -, -, hminus⟩
    · rw [hv.current] at hzombie
      cases hzombie
    · rw [hkills hzombie, hminus]

/-! ## The answers -/

theorem answered_nothing (hanswer : h.answer q = .nothing) : Answered k h q := by
  unfold Answered
  rw [hanswer]
  trivial

/-- What one call leaves behind. -/
theorem Settled.step {s t : Observed} {e : Call} (hv : s.kernel.Valid)
    (hr : Recorded s.kernel s.history) (hz : StatusKept s.kernel s.history)
    (hs : Settled s.kernel s.history) (hstep : AnsweringStep s e t) :
    Settled t.kernel t.history := by
  obtain ⟨⟨hstep, hfresh⟩, hkills⟩ := hstep
  obtain ⟨hk, hh⟩ := Observed.step_iff.mp hstep
  rw [hh]
  have hchecked := effect_checked s.kernel e.reg e.call
  have hstate := interrupt_state hk
  have heax := (interrupt_does hk).eax
  unfold Observed.effect at hfresh hkills ⊢
  cases he : s.kernel.effect e.reg e.call with
  | passes =>
    rw [he] at hstate heax
    refine hs.answered hstate heax (fun _ => rfl) (fun q hq => ?_)
      (answered_nothing History.answers_self)
    simp [Effect.eax, hq]
  | killFails =>
    rw [he] at hstate heax hkills
    refine hs.answered hstate heax (fun _ => rfl) (fun q hq => ?_)
      (answered_value History.answers_self ?_)
    · simp [Effect.eax, hq]
    · rw [heax]
      simp only [Effect.eax, eax_saved, if_true]
      exact hkills
  | answers v =>
    rw [he] at hstate heax
    refine hs.answered hstate heax (fun _ => rfl) (fun q hq => ?_)
      (answered_value History.answers_self ?_)
    · simp [Effect.eax, hq]
    · rw [heax]
      simp [Effect.eax]
  | collects p =>
    rw [he] at hstate heax hchecked
    refine hs.answered hstate heax (fun _ => rfl) (fun q hq => ?_)
      (answered_value (v := s.kernel.exitStatus p) ?_ ?_)
    · simp [Effect.eax, hq]
    · rw [History.answers_self, hz p hchecked.2.2]
      rfl
    · rw [heax]
      simp [Effect.eax]
  | spawns child =>
    rw [he] at hstate heax hchecked
    exact hs.spawned hstate heax rfl hchecked.1 hv.current
  | waits p =>
    rw [he] at hstate heax
    exact hs.waited hstate heax rfl
  | ends t status =>
    rw [he] at hstate heax hfresh hchecked
    refine hs.ended hstate heax rfl hr hfresh ?_
    rcases hchecked with ⟨_, ht, _⟩ | ⟨_, hword, _⟩
    · exact .inl ht
    · exact .inr hword.symm

theorem start_settled {entryPoint : UInt32} :
    Settled (Observed.start entryPoint).kernel (Observed.start entryPoint).history :=
  fun _ _ => answered_nothing rfl

/-- What every step keeps. -/
structure Answering (s : Observed) : Prop where
  valid : s.kernel.Valid
  recorded : Recorded s.kernel s.history
  timely : Timely s.kernel s.history
  status : StatusKept s.kernel s.history
  settled : Settled s.kernel s.history

theorem start_answering (entryPoint : UInt32) : Answering (.start entryPoint) where
  valid := start_valid entryPoint
  recorded _ h := Bool.noConfusion h
  timely := start_timely
  status t ht := by
    simp only [Observed.start, Kernel.state, Mpos.start] at ht
    split at ht <;> cases ht
  settled := start_settled

theorem Answering.step {s t : Observed} {e : Call} (h : Answering s) (hstep : AnsweringStep s e t) :
    Answering t := by
  obtain ⟨hk, hh⟩ := Observed.step_iff.mp hstep.1.1
  have htimely := h.timely.step h.valid (interrupt_state hk) (h.recorded.revivesNobody hstep.1.2)
  exact ⟨interrupt_valid h.valid hk, h.recorded.step h.valid hstep.1.1 hstep.1.2, hh ▸ htimely,
    h.status.step h.valid h.timely hstep, h.settled.step h.valid h.recorded h.status hstep⟩

/-- The process that a run resumes finds its answer. -/
theorem results_reach_callers (entryPoint : UInt32) (calls : List Call) (s : Observed)
    (hrun : Run AnsweringStep (.start entryPoint) calls s) :
    Answered s.kernel s.history s.kernel.current := by
  have h := hrun.invariant (fun h hstep => h.step hstep) (start_answering entryPoint)
  exact h.settled _ h.valid.current

/-- The first child has left status 7 behind when its parent waits for it, and the second one exits with
status 9 while its parent waits. -/
theorem results_reach_callers_wait : ∃ s : Observed,
    Run AnsweringStep (.start 0) [.of .fork 0, .of .yield 0, .of .exit 7, .of .wait 2, .of .fork 0,
      .of .wait 3, .of .exit 9] s ∧
      s.kernel.current = 1 ∧ s.history.answer 1 = .value 9 ∧
      Answered s.kernel s.history s.kernel.current := by
  obtain ⟨s, hrun, hs⟩ := Run.of_guarded Observed.next
    (fun s e => (s.effect e).Fresh s ∧ (s.effect e).KillsProcess s.kernel e.reg)
    (fun s => s.kernel.current = 1 ∧ s.history.answer 1 = .value 9)
    (.start 0) [.of .fork 0, .of .yield 0, .of .exit 7, .of .wait 2, .of .fork 0, .of .wait 3,
      .of .exit 9] (by decide +kernel)
  have hrun : Run AnsweringStep _ _ s := hrun.mono fun h => ⟨⟨h.1, h.2.1⟩, h.2.2⟩
  exact ⟨s, hrun, hs.1, hs.2, results_reach_callers 0 _ s hrun⟩

/-- `sys_kill(0)` gives 0. -/
theorem refused_kill_unanswered : ∃ s : Observed,
    Run Observed.Step (.start 0) [.of .kill 0] s ∧ s.kernel.current = 1 ∧
      s.history.answer 1 = .value minusOne ∧ s.kernel.eax 1 = 0 := by
  obtain ⟨s, hrun, hs⟩ := Run.of_guarded Observed.next (fun _ _ => True)
    (fun s => s.kernel.current = 1 ∧ s.history.answer 1 = .value minusOne ∧ s.kernel.eax 1 = 0)
    (.start 0) [.of .kill 0] (by decide +kernel)
  exact ⟨s, hrun.mono And.left, hs⟩

end CS111.Mpos
