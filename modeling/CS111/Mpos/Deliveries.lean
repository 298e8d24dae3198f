import Mathlib.Order.Fin.Basic
import CS111.Lib.Passes
import CS111.Mpos.History

/-!
# Each exit status is delivered once

What every `sys_wait` returns, read off from the `%eax` of its caller when it runs again. A process that
ends while somebody waits for it leaves the table with its status handed over. A `sys_wait` for a zombie
gives the status as well, but the zombie stays.
-/

namespace CS111.Mpos

set_option autoImplicit false

/-- A `sys_wait` is refused, or it is for an incarnation of a process. -/
inductive WaitCall where
  | refused
  | accepted (t : Pid) (incarnation : Nat)
  deriving Repr, DecidableEq

/-- The caller of a `sys_wait` runs again. -/
structure WaitReturn where
  caller : Pid
  call : WaitCall
  eax : UInt32
  deriving Repr, DecidableEq

/-- The kernel with its history, the `sys_wait`s that have not returned, and those that have. -/
structure Waited extends Observed where
  pending : Pid → Option WaitCall
  returned : List WaitReturn

/-- The `sys_wait` that the running process calls. -/
def Observed.waitCall (s : Observed) (reg : Registers) : WaitCall :=
  match inRange reg.eax with
  | none => .refused
  | some p =>
    if p = s.kernel.current ∨ s.kernel.state p = .empty then .refused
    else .accepted p (s.history.incarnation p)

namespace Waited
variable (s : Waited)

def start (entryPoint : UInt32) : Waited := ⟨.start entryPoint, fun _ => none, []⟩

/-- A child has called nothing. -/
def called (e : Call) : Pid → Option WaitCall :=
  match e.call with
  | .wait => Function.update s.pending s.kernel.current (some (s.waitCall e.reg))
  | .fork | .thread =>
    match firstEmpty s.kernel with
    | some child => Function.update s.pending child none
    | none => s.pending
  | _ => s.pending

/-- The process that `k'` resumes returns from its `sys_wait`, if it has called one. -/
def returns (pending : Pid → Option WaitCall) (k' : Kernel) : List WaitReturn :=
  ((pending k'.current).map fun call => ⟨k'.current, call, k'.eax k'.current⟩).toList

def next (e : Call) : Option Waited :=
  (s.toObserved.next e).map fun t =>
    ⟨t, Function.update (s.called e) t.kernel.current none,
      s.returned ++ returns (s.called e) t.kernel⟩

def Step (s : Waited) (e : Call) (t : Waited) : Prop := s.next e = some t

end Waited

/-- No zombie is collected, and a process that ends wakes only one that is blocked in a `sys_wait` for
this incarnation of it, or one that is runnable and has not called `sys_wait`. -/
def Effect.Once (s : Waited) : Effect → Prop
  | .collects _ => False
  | .ends t _ =>
    s.kernel.wait t ≠ 0 →
      (s.kernel.state (s.kernel.wait t) = .blocked ∧
          s.pending (s.kernel.wait t) = some (.accepted t (s.history.incarnation t))) ∨
        (s.kernel.state (s.kernel.wait t) = .runnable ∧ s.pending (s.kernel.wait t) = none)
  | _ => True

instance {s : Waited} : DecidablePred (Effect.Once s)
  | .collects _ => inferInstanceAs (Decidable False)
  | .ends _ _ => inferInstanceAs (Decidable (_ → _))
  | .passes | .killFails | .answers _ | .spawns _ | .waits _ => inferInstanceAs (Decidable True)

def OnceStep (s : Waited) (e : Call) (t : Waited) : Prop :=
  s.Step e t ∧ (s.effect e).Once s

/-- The incarnation whose status a `sys_wait` returns. -/
def WaitReturn.incarnation (r : WaitReturn) : Option (Pid × Nat) :=
  match r.call with
  | .refused => none
  | .accepted t n => some (t, n)

/-- What a return says: a refused `sys_wait` gives `-1`, and any other one the status with which the
incarnation ended; when this is the last one of its process, the process has left the table. -/
def WaitReturn.Right (k : Kernel) (h : History) (r : WaitReturn) : Prop :=
  match r.call with
  | .refused => r.eax = minusOne
  | .accepted t n => t ≠ 0 ∧ n ≤ h.incarnation t ∧ h.ended t n = some r.eax ∧
      (n = h.incarnation t → k.state t = .empty)

variable {s t : Waited} {e : Call} {k k' : Kernel} {p q child : Pid} {status v : UInt32}
  {r : WaitReturn} {call : WaitCall}

theorem Waited.step_iff : s.Step e t ↔
    s.toObserved.Step e t.toObserved ∧
      t.pending = Function.update (s.called e) t.kernel.current none ∧
      t.returned = s.returned ++ Waited.returns (s.called e) t.kernel := by
  unfold Waited.Step Waited.next Observed.Step
  rw [Option.map_eq_some_iff]
  constructor
  · rintro ⟨u, hu, rfl⟩
    exact ⟨hu, rfl, rfl⟩
  · rintro ⟨hu, hpending, hreturned⟩
    refine ⟨t.toObserved, hu, ?_⟩
    rw [← hpending, ← hreturned]

theorem endProcess_current {u : Pid} (hk : endProcess k u status = some k') (hw : k.wait u ≠ 0) :
    k'.current = k.wait u := by
  unfold endProcess at hk
  simp only [Kernel.setExitStatus, Kernel.setState, Kernel.setEax, wait_modify, procArray_wait,
    ite_self, hw, ne_eq, not_false_eq_true, if_true, Option.some.injEq] at hk
  rw [← hk]
  rfl

/-! ## The calls that have not returned -/

/-- A runnable process is behind no `sys_wait`, or behind one that was refused, with `-1` in its `%eax`. -/
def PendingRight (k : Kernel) (pending : Pid → Option WaitCall) : Prop :=
  ∀ q, k.state q = .runnable → ∀ call, pending q = some call → call = .refused ∧ k.eax q = minusOne

/-- A call gives an effect of its own to each of its outcomes. -/
theorem Observed.waitCall_cases (s : Observed) (reg : Registers) :
    (s.waitCall reg = .refused ∧ s.kernel.effect reg .wait = .answers minusOne) ∨
      ∃ p, s.waitCall reg = .accepted p (s.history.incarnation p) ∧
        (s.kernel.effect reg .wait = .collects p ∨ s.kernel.effect reg .wait = .waits p) := by
  unfold Observed.waitCall Kernel.effect
  cases inRange reg.eax with
  | none => exact .inl ⟨rfl, rfl⟩
  | some p =>
    dsimp only
    split
    · exact .inl ⟨rfl, rfl⟩
    · refine .inr ⟨p, rfl, ?_⟩
      split
      · exact .inl rfl
      · exact .inr rfl

/-- The status of a process that ends goes to `q`, which has called `sys_wait` for it. -/
def Effect.HandsOver (s : Waited) (q : Pid) (call : WaitCall) (v : UInt32) : Effect → Prop
  | .ends t status =>
    s.kernel.wait t ≠ 0 ∧ q = s.kernel.wait t ∧ call = .accepted t (s.history.incarnation t) ∧ v = status
  | _ => False

theorem Waited.called_wait (hwait : e.call = .wait) :
    s.called e = Function.update s.pending s.kernel.current (some (s.waitCall e.reg)) := by
  unfold Waited.called
  rw [hwait]

/-- What the calls other than `sys_wait` leave to return. -/
theorem Waited.called_of_ne (hwait : e.call ≠ .wait) :
    s.called e = s.pending ∧ (∀ child, s.effect e ≠ .spawns child) ∨
      ∃ child, s.effect e = .spawns child ∧ s.called e = Function.update s.pending child none := by
  obtain ⟨reg, call⟩ := e
  cases call with
  | wait => exact absurd rfl hwait
  | fork | thread =>
    unfold Waited.called Observed.effect
    simp only [Kernel.effect, Kernel.spawnEffect]
    cases firstEmpty s.kernel with
    | none => exact .inl ⟨rfl, fun _ => Effect.noConfusion⟩
    | some child => exact .inr ⟨child, rfl, rfl⟩
  | getpid | yield | exit => exact .inl ⟨rfl, fun _ => Effect.noConfusion⟩
  | kill =>
    refine .inl ⟨rfl, fun _ => ?_⟩
    unfold Observed.effect
    simp only [Kernel.effect]
    split
    · exact Effect.noConfusion
    · split <;> exact Effect.noConfusion

section Pending
variable (hp : PendingRight s.kernel s.pending) (hidle : s.pending s.kernel.current = none)
include hp hidle

/-- A runnable process that is not in the way of the call. -/
theorem PendingRight.kept (hq : s.kernel.state q = .runnable) (hcall : s.pending q = some call)
    (heax : q ≠ s.kernel.current → k'.eax q = s.kernel.eax q) : call = .refused ∧ k'.eax q = minusOne := by
  have hne : q ≠ s.kernel.current := by
    rintro rfl
    rw [hidle] at hcall
    cases hcall
  rw [heax hne]
  exact hp q hq call hcall

/-- A `sys_wait` that is refused finds its answer, and one that is not blocks its caller. -/
theorem PendingRight.waited (hk : interrupt s.kernel e.reg e.call = some k') (hwait : e.call = .wait)
    (honce : (s.effect e).Once s) (hq : k'.state q = .runnable) (hcall : s.called e q = some call) :
    call = .refused ∧ k'.eax q = minusOne := by
  have hstate := interrupt_state hk q
  have heax := (interrupt_does hk).eax q
  have hcases := s.waitCall_cases e.reg
  unfold Observed.effect at honce
  rw [Waited.called_wait hwait] at hcall
  rw [hwait] at hstate heax honce
  by_cases hqc : q = s.kernel.current
  · subst hqc
    rw [Function.update_self, Option.some.injEq] at hcall
    rcases hcases with ⟨hrefused, heffect⟩ | ⟨p, -, heffect | heffect⟩
    · rw [heax, heffect, ← hcall]
      exact ⟨hrefused, by simp [Effect.eax]⟩
    · rw [heffect] at honce
      exact honce.elim
    · rw [hstate, heffect] at hq
      simp [Effect.state] at hq
  · rw [Function.update_of_ne hqc] at hcall
    refine hp.kept hidle ?_ hcall fun hne => ?_
    · rcases hcases with ⟨-, heffect⟩ | ⟨p, -, heffect | heffect⟩ <;> rw [heffect] at hstate <;>
        simpa [hstate, Effect.state, hqc] using hq
    · rcases hcases with ⟨-, heffect⟩ | ⟨p, -, heffect | heffect⟩ <;> rw [heffect] at heax <;>
        simp [heax, Effect.eax, hqc]

/-- The end of a process hands its status to a waiter, which runs, and changes nothing else. -/
theorem PendingRight.ended (hk : interrupt s.kernel e.reg e.call = some k')
    (he : s.effect e = .ends p status) (honce : (s.effect e).Once s) (hq : k'.state q = .runnable)
    (hcall : s.pending q = some call) :
    (call = .refused ∧ k'.eax q = minusOne) ∨
      (q = k'.current ∧ (s.effect e).HandsOver s q call (k'.eax q)) := by
  have hstate := interrupt_state hk q
  have heax := (interrupt_does hk).eax q
  have hends := interrupt_of_ends he
  rw [he] at honce ⊢
  unfold Observed.effect at he
  rw [he] at hstate heax
  by_cases hwoken : s.kernel.wait p ≠ 0 ∧ q = s.kernel.wait p
  · obtain ⟨hw, rfl⟩ := hwoken
    rw [hk] at hends
    have hcurrent := endProcess_current hends.symm (by rwa [wait_saved])
    rw [wait_saved] at hcurrent
    refine .inr ⟨hcurrent.symm, hw, rfl, ?_, by simp [heax, Effect.eax, hw]⟩
    rcases honce hw with ⟨-, hpending⟩ | ⟨-, hnone⟩
    · exact Option.some.inj (hcall.symm.trans hpending)
    · rw [hnone] at hcall
      cases hcall
  · refine .inl (hp.kept hidle ?_ hcall fun hqc => ?_)
    · rw [hstate] at hq
      simp only [Effect.state] at hq
      split at hq
      · split at hq
        · cases hq
        · exact hq
      · next hw =>
        rw [if_neg fun hqw => hwoken ⟨hw, hqw⟩] at hq
        split at hq
        · cases hq
        · exact hq
    · simp [heax, Effect.eax, hqc, hwoken]

/-- A process that a call leaves runnable is behind a refused `sys_wait`, or it is handed the status that it
has waited for, and runs. -/
theorem PendingRight.called (hk : interrupt s.kernel e.reg e.call = some k')
    (honce : (s.effect e).Once s) (hq : k'.state q = .runnable) (hcall : s.called e q = some call) :
    (call = .refused ∧ k'.eax q = minusOne) ∨
      (q = k'.current ∧ (s.effect e).HandsOver s q call (k'.eax q)) := by
  by_cases hwait : e.call = .wait
  · exact .inl (hp.waited hidle hk hwait honce hq hcall)
  have hstate := interrupt_state hk q
  have heax := (interrupt_does hk).eax q
  rcases s.called_of_ne hwait with ⟨hsame, hspawns⟩ | ⟨child, heffect, hcalled⟩
  · rw [hsame] at hcall
    cases he : s.effect e with
    | ends p status =>
      rw [← he]
      exact hp.ended hidle hk he honce hq hcall
    | spawns child => exact absurd he (hspawns child)
    | collects p =>
      rw [he] at honce
      exact honce.elim
    | passes | killFails | answers | waits =>
      unfold Observed.effect at he
      rw [he] at hstate heax
      refine .inl (hp.kept hidle ?_ hcall fun hqc => by simp [heax, Effect.eax, hqc])
      rw [hstate] at hq
      simp only [Effect.state, ite_eq_iff, reduceCtorEq, and_false, false_or] at hq
      first
      | exact hq
      | exact hq.2
  · rw [hcalled] at hcall
    have hne : q ≠ child := by
      rintro rfl
      rw [Function.update_self] at hcall
      cases hcall
    rw [Function.update_of_ne hne] at hcall
    unfold Observed.effect at heffect
    rw [heffect] at hstate heax
    refine .inl (hp.kept hidle ?_ hcall fun hqc => by simp [heax, Effect.eax, hqc, hne])
    simpa [hstate, Effect.state, hne] using hq

end Pending

/-! ## The returns -/

/-- What the returns so far and the calls that are to return have in common. -/
structure Ledger (s : Waited) : Prop where
  valid : s.kernel.Valid
  timely : Timely s.kernel s.history
  nodup : (s.returned.filterMap WaitReturn.incarnation).Nodup
  right : ∀ r ∈ s.returned, r.Right s.kernel s.history
  pending : PendingRight s.kernel s.pending
  idle : s.pending s.kernel.current = none

theorem start_ledger {entryPoint : UInt32} : Ledger (.start entryPoint) where
  valid := start_valid entryPoint
  timely := start_timely
  nodup := List.nodup_nil
  right _ hr := absurd hr List.not_mem_nil
  pending _ _ _ hcall := by cases hcall
  idle := rfl

theorem Effect.Once.revivesNobody {e : Effect} (honce : e.Once s) : e.RevivesNobody s.kernel := by
  cases e with
  | ends t status =>
    intro hw hended
    rcases honce hw with ⟨hstate, -⟩ | ⟨hstate, -⟩ <;>
      rcases hended with hended | hended <;> rw [hstate] at hended <;> cases hended
  | passes | killFails | answers | collects | spawns | waits => trivial

/-- What a return says stays right. -/
theorem WaitReturn.Right.step (hv : s.kernel.Valid) (hstep : s.Step e t) (honce : (s.effect e).Once s)
    (hr : r.Right s.kernel s.history) : r.Right t.kernel t.history := by
  obtain ⟨hk, hh⟩ := Observed.step_iff.mp (Waited.step_iff.mp hstep).1
  have hstate := interrupt_state hk
  have hchecked := effect_checked s.kernel e.reg e.call
  obtain ⟨caller, call, eax⟩ := r
  cases call with
  | refused => exact hr
  | accepted u n =>
    obtain ⟨h0, hle, hended, hgone⟩ := hr
    rw [hh]
    unfold Observed.effect at honce ⊢
    cases he : s.kernel.effect e.reg e.call with
    | passes | killFails | answers | collects =>
      rw [he] at hstate
      exact ⟨h0, hle, hended, fun hlast => (hstate u).trans (hgone hlast)⟩
    | waits p =>
      rw [he] at hstate
      refine ⟨h0, hle, hended, fun hlast => ?_⟩
      have hne : u ≠ s.kernel.current := by
        rintro rfl
        rw [hv.current] at hgone
        cases hgone hlast
      rw [hstate]
      simpa only [Effect.state, if_neg hne] using hgone hlast
    | spawns child =>
      rw [he] at hstate
      by_cases hchild : u = child
      · subst hchild
        have hincarnation : (s.history.after s.kernel (.spawns u)).incarnation u =
            s.history.incarnation u + 1 := Function.update_self _ _ _
        refine ⟨h0, ?_, hended, fun hlast => ?_⟩
        · rw [hincarnation]
          exact Nat.le_succ_of_le hle
        · rw [hincarnation] at hlast
          omega
      · have hincarnation : (s.history.after s.kernel (.spawns child)).incarnation u =
            s.history.incarnation u := Function.update_of_ne hchild _ _
        refine ⟨h0, by rwa [hincarnation], hended, fun hlast => ?_⟩
        rw [hincarnation] at hlast
        rw [hstate]
        simpa only [Effect.state, if_neg hchild] using hgone hlast
    | ends p status =>
      obtain ⟨-, hempty⟩ := hv.ended_ne_zero he
      rw [he] at hstate honce
      refine ⟨h0, hle, History.endOf_some hended, fun hlast => ?_⟩
      have hu := hgone hlast
      have hup : u ≠ p := fun heq => hempty (heq ▸ hu)
      rw [hstate]
      by_cases hw : s.kernel.wait p = 0
      · simpa only [Effect.state, if_pos hw, if_neg hup] using hu
      · have huw : u ≠ s.kernel.wait p := by
          rintro rfl
          exact honce.revivesNobody hw (.inl hu)
        simpa only [Effect.state, if_neg hw, if_neg hup, if_neg huw] using hu

/-- A status that is handed over is the one that its process ends with, and the first of this incarnation to
be returned. -/
theorem Ledger.handedOver (hl : Ledger s) (hstep : s.Step e t) (hhands : (s.effect e).HandsOver s q call v) :
    ∃ u, call = .accepted u (s.history.incarnation u) ∧
      WaitReturn.Right t.kernel t.history ⟨q, call, v⟩ ∧
      ∀ r ∈ s.returned, r.incarnation ≠ some (u, s.history.incarnation u) := by
  obtain ⟨hk, hh⟩ := Observed.step_iff.mp (Waited.step_iff.mp hstep).1
  have hstate := interrupt_state hk
  unfold Observed.effect at hh hhands
  cases he : s.kernel.effect e.reg e.call with
  | ends u status =>
    obtain ⟨h0, hempty⟩ := hl.valid.ended_ne_zero he
    rw [he] at hstate hh hhands
    obtain ⟨hw, rfl, rfl, rfl⟩ := hhands
    have hzombie : s.kernel.state u ≠ .zombie := fun hzombie => hw (hl.valid.zombie u hzombie)
    have hended : t.history.ended u (s.history.incarnation u) = some v := by
      rw [hh]
      change s.history.endOf u v u (s.history.incarnation u) = some v
      rw [History.endOf_self, hl.timely.not_ended hempty hzombie]
      rfl
    have hincarnation : t.history.incarnation = s.history.incarnation := by rw [hh]; rfl
    have hgone : t.kernel.state u = .empty := by rw [hstate]; simp [Effect.state, hw]
    refine ⟨u, rfl, ⟨h0, Nat.le_of_eq (by rw [hincarnation]), hended, fun _ => hgone⟩, ?_⟩
    rintro ⟨caller, call, eax⟩ hr heq
    have hright := hl.right _ hr
    cases call with
    | refused => cases heq
    | accepted u' n =>
      obtain ⟨rfl, rfl⟩ := Prod.mk.inj (Option.some.inj heq)
      exact hempty (hright.2.2.2 rfl)
  | passes | killFails | answers | collects | spawns | waits =>
    rw [he] at hhands
    exact hhands.elim

theorem Ledger.step (hl : Ledger s) (hstep : OnceStep s e t) : Ledger t := by
  obtain ⟨hstep, honce⟩ := hstep
  obtain ⟨hobserved, hpending, hreturned⟩ := Waited.step_iff.mp hstep
  obtain ⟨hk, hh⟩ := Observed.step_iff.mp hobserved
  have hvalid := interrupt_valid hl.valid hk
  have hcalled := fun q (call : WaitCall) (hq : t.kernel.state q = .runnable)
    (hcall : s.called e q = some call) => hl.pending.called hl.idle hk honce hq hcall
  have hold : ∀ r ∈ s.returned, r.Right t.kernel t.history :=
    fun r hr => (hl.right r hr).step hl.valid hstep honce
  refine ⟨hvalid, hh ▸ hl.timely.step hl.valid (interrupt_state hk) honce.revivesNobody, ?_, ?_, ?_, ?_⟩
  · rw [hreturned, List.filterMap_append]
    unfold Waited.returns
    cases hcall : s.called e t.kernel.current with
    | none => exact (List.append_nil _).symm ▸ hl.nodup
    | some call =>
      rcases hcalled _ call hvalid.current hcall with ⟨rfl, -⟩ | ⟨-, hhands⟩
      · exact (List.append_nil _).symm ▸ hl.nodup
      · obtain ⟨u, rfl, -, hfresh⟩ := hl.handedOver hstep hhands
        rw [List.nodup_append]
        refine ⟨hl.nodup, List.pairwise_singleton _ _, ?_⟩
        rintro key hkey _ hnew rfl
        obtain ⟨r, hr, hrkey⟩ := List.mem_filterMap.mp hkey
        exact hfresh r hr (hrkey.trans (congrArg some (List.mem_singleton.mp hnew)))
  · rw [hreturned]
    intro r hr
    rcases List.mem_append.mp hr with hr | hr
    · exact hold r hr
    · unfold Waited.returns at hr
      cases hcall : s.called e t.kernel.current with
      | none =>
        rw [hcall] at hr
        cases hr
      | some call =>
        rw [hcall, Option.map_some, Option.toList_some, List.mem_singleton] at hr
        rw [hr]
        rcases hcalled _ call hvalid.current hcall with ⟨rfl, heax⟩ | ⟨-, hhands⟩
        · exact heax
        · obtain ⟨-, -, hright, -⟩ := hl.handedOver hstep hhands
          exact hright
  · intro q hq call hcall
    rw [hpending] at hcall
    have hne : q ≠ t.kernel.current := by
      rintro rfl
      rw [Function.update_self] at hcall
      cases hcall
    rw [Function.update_of_ne hne] at hcall
    exact (hcalled q call hq hcall).resolve_right fun hhands => hne hhands.1
  · rw [hpending, Function.update_self]

theorem inRange_pidWord : ∀ t : Pid, t ≠ 0 → inRange (pidWord t) = some t := by decide

/-- `sys_wait` on an empty entry gives `-1`. -/
theorem wait_refused {k k' : Kernel} {reg : Registers} {t : Pid} (ht : k.state t = .empty)
    (h0 : t ≠ 0) (hreg : reg.eax = pidWord t) (h : interrupt k reg .wait = some k') :
    k'.eax k.current = minusOne := by
  have heffect : k.effect reg .wait = .answers minusOne := by
    simp only [Kernel.effect, hreg, inRange_pidWord t h0]
    exact if_pos (.inr ht)
  rw [(interrupt_does h).eax, heffect]
  simp [Effect.eax]

/-- A fork finds an empty entry, and none above this one. -/
theorem firstEmpty_le {k : Kernel} {t : Pid} (ht : k.state t = .empty) (h0 : t ≠ 0) :
    ∃ child, firstEmpty k = some child ∧ child ≤ t := by
  have hall : ∀ t : Pid, t ≠ 0 → t ∈ (List.finRange 16).tail := by decide
  have hmem := hall t h0
  have hsorted : (List.finRange 16).tail.Pairwise (· < ·) := by decide
  have hempty : (k.state t == .empty) = true := beq_iff_eq.mpr ht
  unfold firstEmpty
  cases hfirst : (List.finRange 16).tail.find? fun p => k.state p == .empty with
  | none => exact absurd hempty (List.find?_eq_none.mp hfirst t hmem)
  | some child => exact ⟨child, rfl, find?_le_of_pairwise hsorted hfirst hmem hempty⟩

/-- What the `sys_wait`s of a run return, and what becomes of the process. -/
theorem statuses_delivered_once (entryPoint : UInt32) (calls : List Call) (s : Waited)
    (hrun : Run OnceStep (.start entryPoint) calls s) :
    (s.returned.filterMap WaitReturn.incarnation).Nodup ∧
      (∀ r ∈ s.returned, r.call = .refused → r.eax = minusOne) ∧
      ∀ r ∈ s.returned, ∀ t n, r.call = .accepted t n → s.history.ended t n = some r.eax ∧
        (n = s.history.incarnation t →
          s.kernel.state t = .empty ∧
          (∀ reg k', reg.eax = pidWord t → interrupt s.kernel reg .wait = some k' →
            k'.eax s.kernel.current = minusOne) ∧
          ∃ child, firstEmpty s.kernel = some child ∧ child ≤ t) := by
  have hl := hrun.invariant (fun hl hstep => hl.step hstep) start_ledger
  refine ⟨hl.nodup, fun r hr hcall => ?_, fun r hr t n hcall => ?_⟩
  · have hright := hl.right r hr
    unfold WaitReturn.Right at hright
    rwa [hcall] at hright
  · have hright := hl.right r hr
    unfold WaitReturn.Right at hright
    rw [hcall] at hright
    obtain ⟨h0, -, hended, hgone⟩ := hright
    refine ⟨hended, fun hlast => ?_⟩
    have hempty := hgone hlast
    exact ⟨hempty, fun reg k' hreg hk => wait_refused hempty h0 hreg hk, firstEmpty_le hempty h0⟩

/-- The parent waits for a child that exits with status 7, once more for the empty entry, and then for the
next child there, which is killed. -/
theorem statuses_delivered_once_exit : ∃ s : Waited,
    Run OnceStep (.start 0) [.of .fork 0, .of .wait 2, .of .exit 7, .of .wait 2, .of .fork 0, .of .wait 2,
      .of .kill 2] s ∧
      s.returned = [⟨1, .accepted 2 1, 7⟩, ⟨1, .refused, minusOne⟩, ⟨1, .accepted 2 2, minusOne⟩] ∧
      s.history.ended 2 1 = some 7 ∧ s.history.ended 2 2 = some minusOne ∧ s.kernel.state 2 = .empty := by
  obtain ⟨s, hrun, hs, hlast⟩ := Run.of_guarded Waited.next (fun s e => (s.effect e).Once s)
    (fun s => s.returned = [⟨1, .accepted 2 1, 7⟩, ⟨1, .refused, minusOne⟩, ⟨1, .accepted 2 2, minusOne⟩] ∧
      s.history.incarnation 2 = 2)
    (.start 0) [.of .fork 0, .of .wait 2, .of .exit 7, .of .wait 2, .of .fork 0, .of .wait 2, .of .kill 2]
    (by decide +kernel)
  obtain ⟨-, -, hall⟩ := statuses_delivered_once 0 _ s hrun
  obtain ⟨hfirst, -⟩ := hall ⟨1, .accepted 2 1, 7⟩ (by simp [hs]) 2 1 rfl
  obtain ⟨hsecond, hgone⟩ := hall ⟨1, .accepted 2 2, minusOne⟩ (by simp [hs]) 2 2 rfl
  exact ⟨s, hrun, hs, hfirst, hsecond, (hgone hlast.symm).1⟩

/-- The child exits with status 7, and its parent waits for it twice. -/
theorem status_delivered_twice : ∃ s : Waited,
    Run Waited.Step (.start 0) [.of .fork 0, .of .yield 0, .of .exit 7, .of .wait 2, .of .wait 2] s ∧
      s.returned = [⟨1, .accepted 2 1, 7⟩, ⟨1, .accepted 2 1, 7⟩] ∧ s.kernel.state 2 = .zombie := by
  obtain ⟨s, hrun, hs⟩ := Run.of_guarded Waited.next (fun _ _ => True)
    (fun s => s.returned = [⟨1, .accepted 2 1, 7⟩, ⟨1, .accepted 2 1, 7⟩] ∧ s.kernel.state 2 = .zombie)
    (.start 0) [.of .fork 0, .of .yield 0, .of .exit 7, .of .wait 2, .of .wait 2] (by decide +kernel)
  exact ⟨s, hrun.mono And.left, hs⟩

end CS111.Mpos
