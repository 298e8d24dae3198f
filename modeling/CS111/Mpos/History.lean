import Mathlib.Logic.Function.Basic
import CS111.Mpos.Waiters

/-!
# The history of MiniprocOS

What the calls so far have promised, kept beside the kernel: how often each entry of the table was
given to a child, what each caller is to find in `%eax`, and with which status each process has ended.
-/

namespace CS111.Mpos

set_option autoImplicit false

/-- What a process is to find in `%eax` when it runs again. -/
inductive Answer where
  | nothing
  | value (v : UInt32)
  | exitOf (t : Pid) (incarnation : Nat)
  deriving Repr, DecidableEq

/-- `recorded t` says that the waiter which called last for this incarnation of `t` is alive and not
yet woken. -/
structure History where
  incarnation : Pid → Nat
  answer : Pid → Answer
  recorded : Pid → Bool
  ended : Pid → Nat → Option UInt32

def History.start : History where
  incarnation _ := 0
  answer _ := .nothing
  recorded _ := false
  ended _ _ := none

namespace History
variable (h : History)

def answers (q : Pid) (a : Answer) : History := { h with answer := Function.update h.answer q a }

/-- The first status counts. -/
def endOf (t : Pid) (status : UInt32) : Pid → Nat → Option UInt32 :=
  Function.update h.ended t <| Function.update (h.ended t) (h.incarnation t) <|
    (h.ended t (h.incarnation t)).or (some status)

/-- The answers after the end of `t`: those who wait for it are to find its status, and `sys_kill`
has the pid as its result. -/
def answersAtEnd (caller t : Pid) (status : UInt32) (q : Pid) : Answer :=
  if h.answer q = .exitOf t (h.incarnation t) then .value status
  else if q = caller then .value (pidWord t)
  else h.answer q

/-- The history behind a call that finds the kernel `k`. The answer to a `sys_wait` for a zombie is the
status that it ended with, whatever its entry holds now. -/
def after (k : Kernel) : Effect → History
  | .passes => h.answers k.current .nothing
  | .answers v => h.answers k.current (.value v)
  | .killFails => h.answers k.current (.value minusOne)
  | .spawns child =>
    { (h.answers child (.value 0)).answers k.current (.value (pidWord child)) with
      incarnation := Function.update h.incarnation child (h.incarnation child + 1)
      recorded := Function.update h.recorded child false }
  | .collects p => h.answers k.current ((h.ended p (h.incarnation p)).elim .nothing .value)
  | .waits p =>
    { h.answers k.current (.exitOf p (h.incarnation p)) with
      recorded := Function.update h.recorded p true }
  | .ends t status =>
    { h with
      answer := h.answersAtEnd k.current t status
      recorded := fun u => h.recorded u && decide (u ≠ t ∧ k.wait u ≠ t)
      ended := h.endOf t status }

end History

/-- The kernel with its history. -/
structure Observed where
  kernel : Kernel
  history : History

namespace Observed

def start (entryPoint : UInt32) : Observed := ⟨Mpos.start entryPoint, .start⟩

def effect (s : Observed) (e : Call) : Effect := s.kernel.effect e.reg e.call

def next (s : Observed) (e : Call) : Option Observed :=
  (s.kernel.next e).map fun k => ⟨k, s.history.after s.kernel (s.effect e)⟩

def Step (s : Observed) (e : Call) (t : Observed) : Prop := s.next e = some t

end Observed

variable {s t : Observed} {e : Call} {calls : List Call} {entryPoint : UInt32}

theorem Observed.step_iff : s.Step e t ↔
    Mpos.Step s.kernel e t.kernel ∧ t.history = s.history.after s.kernel (s.effect e) := by
  simp only [Observed.Step, Observed.next, Option.map_eq_some_iff, Mpos.Step]
  constructor
  · rintro ⟨k, hk, rfl⟩
    exact ⟨hk, rfl⟩
  · rintro ⟨hk, hh⟩
    exact ⟨t.kernel, hk, by rw [← hh]⟩

/-- Every run of the kernel has its history. -/
theorem exists_history {k : Kernel} (h : Run Step (start entryPoint) calls k) :
    ∃ history, Run Observed.Step (.start entryPoint) calls ⟨k, history⟩ := by
  refine h.invariant_history (P := fun calls k =>
    ∃ history, Run Observed.Step (.start entryPoint) calls ⟨k, history⟩) ?_ ⟨.start, .start _⟩
  rintro calls k e k' ⟨history, hrun⟩ hstep
  exact ⟨_, hrun.snoc (Observed.step_iff.mpr ⟨hstep, rfl⟩)⟩

/-! ## The ends -/

def ProcState.Ended (s : ProcState) : Prop := s = .empty ∨ s = .zombie

/-- Nobody who has ended is woken. -/
def Effect.RevivesNobody (k : Kernel) : Effect → Prop
  | .ends t _ => k.wait t ≠ 0 → ¬ (k.state (k.wait t)).Ended
  | _ => True

/-- A process that has ended is out of the way, and none has ended before it was there. -/
structure Timely (k : Kernel) (h : History) : Prop where
  alive : ∀ t, h.ended t (h.incarnation t) ≠ none → (k.state t).Ended
  future : ∀ t n, h.incarnation t < n → h.ended t n = none

section Ends
variable {k k' : Kernel} {h h' : History} {e : Effect} {p q t child : Pid} {status : UInt32}
  {reg : Registers} {call : Syscall}

theorem History.endOf_of_ne {u : Pid} {n : Nat} (hne : u ≠ t ∨ n ≠ h.incarnation t) :
    h.endOf t status u n = h.ended u n := by
  unfold History.endOf
  by_cases hu : u = t
  · subst hu
    rw [Function.update_self, Function.update_of_ne (hne.resolve_left fun hne => hne rfl)]
  · rw [Function.update_of_ne hu]

theorem History.endOf_self :
    h.endOf t status t (h.incarnation t) = (h.ended t (h.incarnation t)).or (some status) := by
  unfold History.endOf
  rw [Function.update_self, Function.update_self]

/-- A status stays the one that was noted first. -/
theorem History.endOf_some {u : Pid} {n : Nat} {v : UInt32} (hv : h.ended u n = some v) :
    h.endOf t status u n = some v := by
  by_cases hself : u = t ∧ n = h.incarnation t
  · obtain ⟨rfl, rfl⟩ := hself
    rw [History.endOf_self, hv]
    rfl
  · rw [History.endOf_of_ne (Classical.not_and_iff_not_or_not.mp hself), hv]

theorem start_timely : Timely k .start := ⟨fun _ ht => absurd rfl ht, fun _ _ _ => rfl⟩

/-- A process that is neither empty nor a zombie has not ended yet. -/
theorem Timely.not_ended (ht : Timely k h) (hempty : k.state t ≠ .empty) (hzombie : k.state t ≠ .zombie) :
    h.ended t (h.incarnation t) = none :=
  Classical.not_not.mp fun hended => (ht.alive t hended).elim hempty hzombie

/-- A step in which nothing begins or ends. -/
theorem Timely.of_eq (ht : Timely k h) (hincarnation : h'.incarnation = h.incarnation)
    (hended : h'.ended = h.ended) (hdead : ∀ q, (k.state q).Ended → (k'.state q).Ended) :
    Timely k' h' where
  alive t hne := by
    rw [hended, hincarnation] at hne
    exact hdead t (ht.alive t hne)
  future := by rw [hended, hincarnation]; exact ht.future

theorem Timely.spawned (ht : Timely k h)
    (hstate : ∀ q, k'.state q = Effect.state k q (.spawns child)) :
    Timely k' (h.after k (.spawns child)) where
  alive t hne := by
    simp only [History.after, Function.update_apply] at hne
    split at hne
    · next hchild =>
      subst hchild
      exact absurd (ht.future t _ (Nat.lt_succ_self _)) hne
    · next hchild =>
      rw [hstate]
      simp only [Effect.state, if_neg hchild]
      exact ht.alive t hne
  future t n hn := by
    simp only [History.after, Function.update_apply] at hn
    refine ht.future t n ?_
    split at hn
    · next hchild => exact hchild ▸ Nat.lt_of_succ_lt hn
    · exact hn

theorem Effect.RevivesNobody.keepsEnded (hrevives : Effect.RevivesNobody k (.ends t status))
    (hstate : ∀ q, k'.state q = Effect.state k q (.ends t status)) (hq : (k.state q).Ended) :
    (k'.state q).Ended := by
  rw [hstate]
  by_cases hqt : q = t
  · by_cases hw : k.wait t = 0
    · exact .inr (by simp [Effect.state, hw, hqt])
    · exact .inl (by simp [Effect.state, hw, hqt])
  · by_cases hw : k.wait t = 0
    · simpa [Effect.state, hw, hqt] using hq
    · have hqw : q ≠ k.wait t := by
        rintro rfl
        exact hrevives hw hq
      simpa [Effect.state, hw, hqt, hqw] using hq

theorem Timely.ended (ht : Timely k h) (hrevives : Effect.RevivesNobody k (.ends t status))
    (hstate : ∀ q, k'.state q = Effect.state k q (.ends t status)) :
    Timely k' (h.after k (.ends t status)) where
  alive u hne := by
    change h.endOf t status u (h.incarnation u) ≠ none at hne
    by_cases hut : u = t
    · rw [hstate]
      by_cases hw : k.wait t = 0
      · exact .inr (by simp [Effect.state, hw, hut])
      · exact .inl (by simp [Effect.state, hw, hut])
    · rw [History.endOf_of_ne (.inl hut)] at hne
      exact hrevives.keepsEnded hstate (ht.alive u hne)
  future u n hn := by
    change h.endOf t status u n = none
    rw [History.endOf_of_ne, ht.future u n hn]
    by_cases hut : u = t
    · subst hut
      exact .inr (Nat.ne_of_gt hn)
    · exact .inl hut

theorem Timely.step (hv : k.Valid) (ht : Timely k h) (hstate : ∀ q, k'.state q = e.state k q)
    (hrevives : e.RevivesNobody k) : Timely k' (h.after k e) := by
  cases e with
  | passes | killFails | answers | collects => exact ht.of_eq rfl rfl fun q hq => (hstate q).symm ▸ hq
  | spawns child => exact ht.spawned hstate
  | waits p =>
    refine ht.of_eq rfl rfl fun q hq => ?_
    have hqc : q ≠ k.current := by
      rintro rfl
      rw [hv.current] at hq
      rcases hq with hq | hq <;> cases hq
    rw [hstate]
    simpa only [Effect.state, if_neg hqc] using hq
  | ends t status => exact ht.ended hrevives hstate

end Ends

/-! ## Recorded waiters -/

/-- No process ends while its `p_wait` is left over from an earlier incarnation, or names a waiter
that has ended since. -/
def Effect.Fresh (s : Observed) : Effect → Prop
  | .ends t _ => s.kernel.wait t ≠ 0 → s.history.recorded t = true
  | _ => True

instance : DecidablePred (Effect.Fresh s)
  | .ends _ _ => inferInstanceAs (Decidable (_ → _))
  | .passes | .killFails | .answers _ | .collects _ | .spawns _ | .waits _ =>
    inferInstanceAs (Decidable True)

def FreshStep (s : Observed) (e : Call) (t : Observed) : Prop := s.Step e t ∧ (s.effect e).Fresh s

/-- `w` is blocked in a `sys_wait` for this incarnation of `t`. -/
def AwaitedBy (k : Kernel) (h : History) (t w : Pid) : Prop :=
  k.state w = .blocked ∧ h.answer w = .exitOf t (h.incarnation t)

def Recorded (k : Kernel) (h : History) : Prop :=
  ∀ t, h.recorded t = true → k.wait t ≠ 0 ∧ AwaitedBy k h t (k.wait t)

section Steps
variable {k k' : Kernel} {h : History} {e : Effect} {p child t : Pid} {status : UInt32} {a : Answer}

theorem History.answers_of_ne {q c : Pid} (hq : q ≠ c) : (h.answers c a).answer q = h.answer q :=
  Function.update_of_ne hq _ _

variable (hv : k.Valid) (hr : Recorded k h) (hstate : ∀ q, k'.state q = e.state k q)
  (hwait : ∀ q, k'.wait q = e.wait k q)
include hv hr

theorem Recorded.waiter_ne_current (ht : h.recorded t = true) : k.wait t ≠ k.current := by
  intro heq
  have hblocked := (hr t ht).2.1
  rw [heq, hv.current] at hblocked
  cases hblocked

theorem Recorded.answered (hstate : ∀ q, k'.state q = k.state q)
    (hwait : ∀ q, k'.wait q = k.wait q) : Recorded k' (h.answers k.current a) := by
  intro t ht
  obtain ⟨hw, hblocked, hanswer⟩ := hr t ht
  have hcurrent := hr.waiter_ne_current hv ht
  refine ⟨by rwa [hwait], by rwa [hstate, hwait], ?_⟩
  rw [hwait, History.answers_of_ne hcurrent]
  exact hanswer

include hstate hwait

theorem Recorded.spawned (he : e = .spawns child) (hempty : k.state child = .empty) :
    Recorded k' (h.after k e) := by
  subst he
  intro t ht
  simp only [History.after, Function.update_apply] at ht
  split at ht
  · cases ht
  · next htchild =>
    obtain ⟨hw, hblocked, hanswer⟩ := hr t ht
    have hcurrent := hr.waiter_ne_current hv ht
    have hchild : k.wait t ≠ child := by
      intro heq
      rw [heq, hempty] at hblocked
      cases hblocked
    simp only [AwaitedBy, hstate, hwait, Effect.state, Effect.wait, History.after]
    refine ⟨hw, by rwa [if_neg hchild], ?_⟩
    rw [Function.update_of_ne htchild, History.answers_of_ne hcurrent,
      History.answers_of_ne hchild]
    exact hanswer

theorem Recorded.waited (he : e = .waits p) (hp : p ≠ k.current) : Recorded k' (h.after k e) := by
  subst he
  intro t ht
  simp only [AwaitedBy, hstate, hwait, Effect.state, Effect.wait, History.after]
  by_cases htp : t = p
  · subst htp
    simp only [if_true]
    exact ⟨hv.current_ne_zero, trivial, Function.update_self _ _ _⟩
  · simp only [History.after, Function.update_of_ne htp] at ht
    obtain ⟨hw, hblocked, hanswer⟩ := hr t ht
    have hcurrent := hr.waiter_ne_current hv ht
    rw [if_neg htp, if_neg hcurrent, History.answers_of_ne hcurrent]
    exact ⟨hw, hblocked, hanswer⟩

theorem Recorded.ended (he : e = .ends p status) (hfresh : k.wait p ≠ 0 → h.recorded p = true) :
    Recorded k' (h.after k e) := by
  subst he
  intro t ht
  simp only [History.after, Bool.and_eq_true, decide_eq_true_eq] at ht
  obtain ⟨ht, htp, hwp⟩ := ht
  obtain ⟨hw, hblocked, hanswer⟩ := hr t ht
  have hcurrent := hr.waiter_ne_current hv ht
  have hother : h.answer (k.wait t) ≠ .exitOf p (h.incarnation p) := by
    rw [hanswer]
    intro heq
    injection heq with heq
    exact htp heq
  have hwaiter : k.wait p ≠ 0 → k.wait t ≠ k.wait p := by
    intro hw' heq
    rw [heq] at hother
    exact hother (hr p (hfresh hw')).2.2
  simp only [AwaitedBy, hstate, hwait, Effect.state, Effect.wait, History.after,
    History.answersAtEnd]
  refine ⟨hw, ?_, ?_⟩
  · by_cases hw' : k.wait p = 0
    · rwa [if_pos hw', if_neg hwp]
    · rwa [if_neg hw', if_neg hwp, if_neg (hwaiter hw')]
  · rw [if_neg hother, if_neg hcurrent]
    exact hanswer

end Steps

/-- A step that ends no process with a stale entry keeps the recorded waiters. -/
theorem Recorded.step (hv : s.kernel.Valid) (hr : Recorded s.kernel s.history) (hstep : s.Step e t)
    (hfresh : (s.effect e).Fresh s) : Recorded t.kernel t.history := by
  obtain ⟨hk, hh⟩ := Observed.step_iff.mp hstep
  rw [hh]
  have hchecked := effect_checked s.kernel e.reg e.call
  have hstate := interrupt_state hk
  have hwait := interrupt_wait hk
  unfold Observed.effect at hfresh ⊢
  cases he : s.kernel.effect e.reg e.call with
  | passes | killFails | answers | collects =>
    rw [he] at hstate hwait
    exact hr.answered hv hstate hwait
  | spawns child =>
    rw [he] at hstate hwait hchecked
    exact hr.spawned hv hstate hwait rfl hchecked.1
  | waits p =>
    rw [he] at hstate hwait hchecked
    exact hr.waited hv hstate hwait rfl hchecked.2.2.1
  | ends t status =>
    rw [he] at hstate hwait hfresh
    exact hr.ended hv hstate hwait rfl hfresh

/-! ## Wake-ups -/

theorem fresh_run_recorded (h : Run FreshStep (.start entryPoint) calls s) :
    s.kernel.Valid ∧ Recorded s.kernel s.history := by
  refine h.invariant (P := fun s => s.kernel.Valid ∧ Recorded s.kernel s.history) ?_
    ⟨start_valid entryPoint, fun _ h => Bool.noConfusion h⟩
  rintro s e t ⟨hv, hr⟩ ⟨hstep, hfresh⟩
  exact ⟨interrupt_valid hv (Observed.step_iff.mp hstep).1, hr.step hv hstep hfresh⟩

/-- The end of a process changes that process and the one in its `p_wait`. -/
theorem endProcess_frame {k k' : Kernel} {t w : Pid} {status : UInt32}
    (h : endProcess k t status = some k') (ht : w ≠ t) (hw : k.wait t = 0 ∨ w ≠ k.wait t) :
    k'.procArray w = k.procArray w := by
  unfold endProcess at h
  simp only [Kernel.setExitStatus, Kernel.setState, Kernel.setEax, wait_modify, procArray_wait,
    ite_self] at h
  split at h
  · next hw' =>
    cases h
    simp [run, Kernel.modify, ht, hw.resolve_left hw']
  · rw [schedule_procArray h]
    simp [Kernel.modify, ht]

/-- A process that the end of `t` changes is blocked in a `sys_wait` for this incarnation of it. -/
theorem only_waiters_woken (entryPoint : UInt32) (calls : List Call) (s s' : Observed)
    (hrun : Run FreshStep (.start entryPoint) calls s) (e : Call) (hstep : FreshStep s e s')
    (t : Pid) (status : UInt32) (hend : s.effect e = .ends t status) (w : Pid) (hw : w ≠ t)
    (hchanged : s'.kernel.procArray w ≠ (s.kernel.saved e.reg).procArray w) :
    AwaitedBy s.kernel s.history t w := by
  obtain ⟨hv, hr⟩ := fresh_run_recorded hrun
  obtain ⟨hstep, hfresh⟩ := hstep
  have hk := (Observed.step_iff.mp hstep).1
  rw [Step, Kernel.next, interrupt_of_ends hend] at hk
  rw [hend] at hfresh
  have hnamed : s.kernel.wait t ≠ 0 ∧ w = s.kernel.wait t := by
    refine Classical.not_not.mp fun hnot => hchanged (endProcess_frame hk hw ?_)
    rw [wait_saved]
    exact (Classical.em _).imp_right fun hw' heq => hnot ⟨hw', heq⟩
  obtain ⟨hw', rfl⟩ := hnamed
  exact (hr t (hfresh hw')).2

/-- Process 1 forks and waits for its child, which exits with status 7. -/
theorem only_waiters_woken_exit : ∃ s s' : Observed,
    Run FreshStep (.start 0) [.of .fork 0, .of .wait 2] s ∧ FreshStep s (.of .exit 7) s' ∧
      s'.kernel.procArray 1 ≠ s.kernel.procArray 1 ∧ AwaitedBy s.kernel s.history 2 1 := by
  obtain ⟨s, hrun, hs⟩ := Run.of_guarded Observed.next (fun s e => (s.effect e).Fresh s)
    (fun s => (s.next (.of .exit 7)).any (fun s' => decide (s.effect (.of .exit 7) = .ends 2 7 ∧
      (s.effect (.of .exit 7)).Fresh s ∧ s'.kernel.procArray 1 ≠ s.kernel.procArray 1 ∧
      s.kernel.current ≠ 1)) = true)
    (.start 0) [.of .fork 0, .of .wait 2] (by decide +kernel)
  cases hnext : s.next (.of .exit 7) with
  | none =>
    rw [hnext] at hs
    cases hs
  | some s' =>
    rw [hnext] at hs
    obtain ⟨hend, hfresh, hchanged, hcurrent⟩ := of_decide_eq_true hs
    refine ⟨s, s', hrun, ⟨hnext, hfresh⟩, hchanged,
      only_waiters_woken 0 _ s s' hrun _ ⟨hnext, hfresh⟩ 2 7 hend 1 (by decide) ?_⟩
    have hsaved : (s.kernel.saved (Call.of .exit 7).reg).procArray 1 = s.kernel.procArray 1 :=
      if_neg (Ne.symm hcurrent)
    rwa [hsaved]

/-- The second child in entry 2 of the table finds the waiter of the first one in its `p_wait`. -/
theorem runnable_process_overwritten : ∃ s s' : Observed,
    Run Observed.Step (.start 0) [.of .fork 0, .of .wait 2, .of .exit 0, .of .fork 0, .of .yield 5] s ∧
      s.Step (.of .exit 7) s' ∧ s.effect (.of .exit 7) = .ends 2 7 ∧
      s.kernel.state 1 = .runnable ∧ s.kernel.eax 1 = 5 ∧ s'.kernel.eax 1 = 7 := by
  obtain ⟨s, hrun, hs⟩ := Run.of_guarded Observed.next (fun _ _ => True)
    (fun s => (s.next (.of .exit 7)).any (fun s' => decide (s.effect (.of .exit 7) = .ends 2 7 ∧
      s.kernel.state 1 = .runnable ∧ s.kernel.eax 1 = 5 ∧ s'.kernel.eax 1 = 7)) = true)
    (.start 0) [.of .fork 0, .of .wait 2, .of .exit 0, .of .fork 0, .of .yield 5]
    (by decide +kernel)
  cases hnext : s.next (.of .exit 7) with
  | none =>
    rw [hnext] at hs
    cases hs
  | some s' =>
    rw [hnext] at hs
    exact ⟨s, s', hrun.mono And.left, hnext, of_decide_eq_true hs⟩

end CS111.Mpos
