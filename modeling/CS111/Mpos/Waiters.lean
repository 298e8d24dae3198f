import CS111.Lib.Run
import CS111.Mpos.Effects

/-!
# The waiters of MiniprocOS

A blocked process is found again through the `p_wait` of the process it waits for. That entry has
room for one waiter, and an entry that outlived its process names one that no longer waits there.
-/

namespace CS111.Mpos

set_option autoImplicit false

variable {k k' : Kernel} {p q t t' child : Pid} {reg : Registers} {call : Syscall} {e : Effect}
  {calls : List Call} {entryPoint : UInt32}

/-- `t` is a process, and its `p_wait` is `q`. -/
def Kernel.Names (k : Kernel) (t q : Pid) : Prop := k.state t ≠ .empty ∧ k.wait t = q

instance : Decidable (k.Names t q) := inferInstanceAs (Decidable (_ ∧ _))

/-- The end of `t` wakes `q` with the exit status. -/
def Kernel.WokenBy (k : Kernel) (q t : Pid) : Prop :=
  ∀ {reg call status}, k.effect reg call = .ends t status →
    ∃ k', interrupt k reg call = some k' ∧ k'.state q = .runnable ∧ k'.eax q = status

/-- One process names `q` and will wake it. -/
def Kernel.Remembers (k : Kernel) (q : Pid) : Prop :=
  ∃ t, k.Names t q ∧ (∀ t', k.Names t' q → t' = t) ∧ k.state t ≠ .zombie ∧ k.WokenBy q t

/-- No entry that names a blocked process is overwritten, and none comes to name it a second time. -/
def Effect.KeepsEntries (k : Kernel) : Effect → Prop
  | .waits p => k.state (k.wait p) ≠ .blocked ∧ ∀ t, t ≠ p → ¬ k.Names t k.current
  | .spawns child => k.state (k.wait child) ≠ .blocked
  | .ends t _ =>
    ∀ q, k.state q = .blocked → q ≠ t → k.state (k.wait t) = .empty → k.wait t ≠ 0 →
      k.wait (k.wait t) ≠ q
  | _ => True

instance : DecidablePred (Effect.KeepsEntries k)
  | .waits _ => inferInstanceAs (Decidable (_ ∧ _))
  | .spawns _ => inferInstanceAs (Decidable (_ ≠ _))
  | .ends _ _ => inferInstanceAs (Decidable (∀ _, _ → _))
  | .passes | .killFails | .answers _ | .collects _ => inferInstanceAs (Decidable True)

def KeepingStep (k : Kernel) (e : Call) (k' : Kernel) : Prop :=
  Step k e k' ∧ (k.effect e.reg e.call).KeepsEntries k

def Kernel.Named (k : Kernel) : Prop :=
  ∀ q, k.state q = .blocked → ∃ t, k.Names t q ∧ ∀ t', k.Names t' q → t' = t

section Steps
variable {k' : Kernel} (hn : k.Named) (hstate : ∀ q, k'.state q = e.state k q)
  (hwait : ∀ q, k'.wait q = e.wait k q)
include hn hstate hwait

theorem Kernel.Named.spawned (he : e = .spawns child) (hempty : k.state child = .empty)
    (hkeeps : e.KeepsEntries k) : k'.Named := by
  subst he
  intro q hq
  simp only [Kernel.Names, hstate, hwait, Effect.state, Effect.wait] at hq ⊢
  split at hq
  · cases hq
  · obtain ⟨t, ⟨htstate, htwait⟩, huniq⟩ := hn q hq
    have htchild : t ≠ child := fun heq => htstate (heq ▸ hempty)
    refine ⟨t, ⟨by rwa [if_neg htchild], htwait⟩, fun t' ⟨ht'state, ht'wait⟩ => ?_⟩
    have ht'child : t' ≠ child := by
      rintro rfl
      exact hkeeps (ht'wait ▸ hq)
    rw [if_neg ht'child] at ht'state
    exact huniq t' ⟨ht'state, ht'wait⟩

theorem Kernel.Named.waited (hv : k.Valid) (he : e = .waits p) (hp : p ≠ k.current)
    (hempty : k.state p ≠ .empty) (hkeeps : e.KeepsEntries k) : k'.Named := by
  subst he
  obtain ⟨hfree, honly⟩ := hkeeps
  have hused : ∀ t, (if t = k.current then ProcState.blocked else k.state t) ≠ .empty ↔
      k.state t ≠ .empty := by
    intro t
    split
    · next htc => simp [htc, hv.current]
    · rfl
  intro q hq
  simp only [Kernel.Names, hstate, hwait, Effect.state, Effect.wait, hused] at hq ⊢
  by_cases hqc : q = k.current
  · subst hqc
    refine ⟨p, ⟨hempty, if_pos rfl⟩, fun t' ⟨ht'state, ht'wait⟩ => ?_⟩
    refine Classical.not_not.mp fun htp => honly t' htp ⟨ht'state, ?_⟩
    rwa [if_neg htp] at ht'wait
  · rw [if_neg hqc] at hq
    obtain ⟨t, ⟨htstate, htwait⟩, huniq⟩ := hn q hq
    have htp : t ≠ p := by
      rintro rfl
      exact hfree (htwait ▸ hq)
    refine ⟨t, ⟨htstate, by rwa [if_neg htp]⟩, fun t' ⟨ht'state, ht'wait⟩ => ?_⟩
    have ht'p : t' ≠ p := by
      rintro rfl
      rw [if_pos rfl] at ht'wait
      exact hqc ht'wait.symm
    rw [if_neg ht'p] at ht'wait
    exact huniq t' ⟨ht'state, ht'wait⟩

theorem Kernel.Named.ended {status : UInt32} (he : e = .ends p status)
    (hempty : k.state p ≠ .empty) (hkeeps : e.KeepsEntries k) : k'.Named := by
  subst he
  intro q hq
  simp only [Kernel.Names, hstate, hwait, Effect.state, Effect.wait] at hq ⊢
  by_cases hw : k.wait p = 0
  · simp only [if_pos hw] at hq ⊢
    have hused : ∀ t, (if t = p then ProcState.zombie else k.state t) ≠ .empty ↔
        k.state t ≠ .empty := by
      intro t
      split
      · next htp => simp [htp, hempty]
      · rfl
    split at hq
    · cases hq
    · simp only [hused]
      exact hn q hq
  · simp only [if_neg hw] at hq ⊢
    split at hq
    · cases hq
    · next hqp =>
      split at hq
      · cases hq
      · next hqw =>
        obtain ⟨t, ⟨htstate, htwait⟩, huniq⟩ := hn q hq
        have htp : t ≠ p := by
          rintro rfl
          exact hqw htwait.symm
        refine ⟨t, ⟨?_, htwait⟩, fun t' ⟨ht'state, ht'wait⟩ => ?_⟩
        · rw [if_neg htp]
          split
          · decide
          · exact htstate
        · have ht'p : t' ≠ p := by
            rintro rfl
            exact ht'state (if_pos rfl)
          rw [if_neg ht'p] at ht'state
          refine huniq t' ⟨fun ht'empty => ?_, ht'wait⟩
          split at ht'state
          · next ht'w => exact hkeeps q hq hqp (ht'w ▸ ht'empty) hw (ht'w ▸ ht'wait)
          · exact ht'state ht'empty

end Steps

/-- A call that keeps the entries keeps every waiter named. -/
theorem Kernel.Named.step (hv : k.Valid) (hn : k.Named) (h : interrupt k reg call = some k')
    (hkeeps : (k.effect reg call).KeepsEntries k) : k'.Named := by
  have hchecked := effect_checked k reg call
  have hstate := interrupt_state h
  have hwait := interrupt_wait h
  cases he : k.effect reg call with
  | passes | killFails | answers | collects =>
    intro q hq
    simp only [Kernel.Names, hstate, hwait, he] at hq ⊢
    exact hn q hq
  | spawns child =>
    rw [he] at hstate hwait hkeeps hchecked
    exact hn.spawned hstate hwait rfl hchecked.1 hkeeps
  | waits p =>
    rw [he] at hstate hwait hkeeps hchecked
    exact hn.waited hstate hwait hv rfl hchecked.2.2.1 hchecked.2.2.2.1 hkeeps
  | ends t status =>
    have hempty := (hv.ended_ne_zero he).2
    rw [he] at hstate hwait hkeeps
    exact hn.ended hstate hwait rfl hempty hkeeps

/-- The end of a process that names a waiter returns to that waiter. -/
theorem interrupt_wakes {status : UInt32} (hv : k.Valid) (he : k.effect reg call = .ends t status)
    (hw : k.wait t ≠ 0) : ∃ k', interrupt k reg call = some k' ∧
      k'.state (k.wait t) = .runnable ∧ k'.eax (k.wait t) = status := by
  have hself : k.wait t ≠ t := fun heq => hw (by rw [heq]; exact hv.noSelf t heq)
  have hsome : ∃ k', interrupt k reg call = some k' := by
    rw [interrupt_of_ends he, endProcess]
    simp [Kernel.setState, Kernel.setExitStatus, hw]
  obtain ⟨k', hk'⟩ := hsome
  refine ⟨k', hk', ?_, ?_⟩
  · rw [interrupt_state hk', he]
    simp [Effect.state, hw, hself]
  · rw [(interrupt_does hk').eax, he]
    simp [Effect.eax, hw]

theorem Kernel.Named.remembers (hv : k.Valid) (hn : k.Named) (hq : k.state q = .blocked) :
    k.Remembers q := by
  obtain ⟨t, ⟨hstate, hwait⟩, huniq⟩ := hn q hq
  have hq0 : q ≠ 0 := by
    rintro rfl
    rw [hv.unused] at hq
    cases hq
  have hw : k.wait t ≠ 0 := hwait ▸ hq0
  refine ⟨t, ⟨hstate, hwait⟩, huniq, fun hzombie => hw (hv.zombie t hzombie), fun he => ?_⟩
  rw [← hwait]
  exact interrupt_wakes hv he hw

/-- No waiter is forgotten in a run whose calls keep the entries. -/
theorem waiters_remembered (entryPoint : UInt32) (calls : List Call) (k : Kernel)
    (h : Run KeepingStep (start entryPoint) calls k) :
    ∀ q, k.state q = .blocked → k.Remembers q := by
  have hrun : k.Valid ∧ k.Named := by
    refine h.invariant (P := fun k => k.Valid ∧ k.Named) ?_ ⟨start_valid entryPoint, ?_⟩
    · rintro k e k' ⟨hv, hn⟩ ⟨hstep, hkeeps⟩
      exact ⟨interrupt_valid hv hstep, hn.step hv hstep hkeeps⟩
    · intro q hq
      simp only [Kernel.state, start] at hq
      split at hq <;> cases hq
  exact fun q hq => hrun.2.remembers hrun.1 hq

/-- Process 1 forks and waits for its child, and the child asks for its pid. -/
theorem waiters_remembered_two : ∃ k : Kernel,
    Run KeepingStep (start 0) [.of .fork 0, .of .wait 2, .of .getpid 0] k ∧
      k.state 1 = .blocked ∧ ∀ q, k.state q = .blocked → k.Remembers q := by
  obtain ⟨k, hk, hblocked⟩ := Run.of_guarded Kernel.next
    (fun k (e : Call) => (k.effect e.reg e.call).KeepsEntries k) (fun k => k.state 1 = .blocked)
    (start 0) [.of .fork 0, .of .wait 2, .of .getpid 0] (by decide +kernel)
  exact ⟨k, hk, hblocked, waiters_remembered 0 _ k hk⟩

/-- Processes 1 and 2 wait for process 3, and nobody will wake process 1. -/
theorem waiter_forgotten : ∃ k : Kernel,
    Run Step (start 0) [.of .fork 0, .of .fork 0, .of .wait 3, .of .wait 3] k ∧
      k.state 1 = .blocked ∧ ∀ t, ¬ k.Names t 1 := by
  obtain ⟨k, hk, hforgotten⟩ := Run.of_guarded Kernel.next (fun _ _ => True)
    (fun k => k.state 1 = .blocked ∧ ∀ t, ¬ k.Names t 1) (start 0)
    [.of .fork 0, .of .fork 0, .of .wait 3, .of .wait 3] (by decide +kernel)
  exact ⟨k, hk.mono And.left, hforgotten⟩

end CS111.Mpos
