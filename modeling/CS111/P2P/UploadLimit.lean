import CS111.Lib.Run

/-!
# The upload limit of the accept loop

`num_req` counts the passes of the loop in `main` less the calls of `wait`. A call of `wait` may
answer for a download child, and the upload children are then one more than the counter says.
-/

namespace CS111.P2P

set_option autoImplicit false

inductive ChildKind where
  | download | upload
  deriving Repr, DecidableEq

/-- The children of one kind that have not been reaped. -/
structure Children where
  running : Nat
  exited : Nat
  deriving Repr, DecidableEq

def Children.unreaped (c : Children) : Nat := c.running + c.exited

/-- The loop, and the children of the process. While `waiting` it is in `wait(NULL)`. -/
structure Accepting where
  numReq : Nat
  waiting : Bool
  downloads : Children
  uploads : Children
  deriving Repr, DecidableEq

def Accepting.start (downloads : Nat) : Accepting := ⟨1, false, ⟨downloads, 0⟩, ⟨0, 0⟩⟩

def Accepting.children (s : Accepting) : ChildKind → Children
  | .download => s.downloads
  | .upload => s.uploads

def Accepting.setChildren (s : Accepting) (kind : ChildKind) (c : Children) : Accepting :=
  match kind with
  | .download => { s with downloads := c }
  | .upload => { s with uploads := c }

inductive AcceptEvent where
  | accept (forked : Bool)
  | exit (kind : ChildKind)
  | reap (kind : ChildKind)
  | noChild
  deriving Repr, DecidableEq

/-- The loop calls `wait` once more than 100 requests are counted, and `wait` blocks until a child
has exited, unless there are no children. -/
def Accepting.next (s : Accepting) : AcceptEvent → Option Accepting
  | .accept forked =>
    if s.waiting then none
    else
      let uploads := if forked then { s.uploads with running := s.uploads.running + 1 } else s.uploads
      some { s with numReq := s.numReq + 1, uploads, waiting := decide (100 < s.numReq + 1) }
  | .exit kind =>
    match s.children kind with
    | ⟨0, _⟩ => none
    | ⟨running + 1, exited⟩ => some (s.setChildren kind ⟨running, exited + 1⟩)
  | .reap kind =>
    if s.waiting then
      match s.children kind with
      | ⟨_, 0⟩ => none
      | ⟨running, exited + 1⟩ =>
        some { s.setChildren kind ⟨running, exited⟩ with numReq := s.numReq - 1, waiting := false }
    else none
  | .noChild =>
    if s.waiting ∧ s.downloads.unreaped = 0 ∧ s.uploads.unreaped = 0 then
      some { s with numReq := s.numReq - 1, waiting := false }
    else none

def Accepting.Step (s : Accepting) (e : AcceptEvent) (t : Accepting) : Prop := s.next e = some t

variable {downloads : Nat} {s t : Accepting} {e : AcceptEvent} {es : List AcceptEvent}

/-- The counter is above the number of the children, less the download children. -/
structure Counted (downloads : Nat) (s : Accepting) : Prop where
  children : s.uploads.unreaped + s.downloads.unreaped + 1 ≤ s.numReq + downloads
  passing : s.waiting = false → s.numReq ≤ 100
  waiting : s.waiting = true → s.numReq = 101

theorem counted_start (downloads : Nat) : Counted downloads (.start downloads) :=
  ⟨by simp [Accepting.start, Children.unreaped, Nat.add_comm],
    fun _ => (by decide : 1 ≤ 100), fun h => by cases h⟩

theorem Counted.step (h : Counted downloads s) (hstep : s.Step e t) : Counted downloads t := by
  obtain ⟨hchildren, hpassing, hwaiting⟩ := h
  unfold Accepting.Step at hstep
  cases e with
  | accept forked =>
    rw [Accepting.next] at hstep
    split at hstep
    · cases hstep
    · next hwait =>
      cases hstep
      have hreq := hpassing (Bool.eq_false_iff.mpr hwait)
      refine ⟨?_, ?_, ?_⟩
      · cases forked
        · simp only [Bool.false_eq_true, if_false]
          omega
        · simp only [Children.unreaped, if_true] at hchildren ⊢
          omega
      · intro hpass
        dsimp only at hpass ⊢
        rw [decide_eq_false_iff_not] at hpass
        omega
      · intro hpass
        dsimp only at hpass ⊢
        rw [decide_eq_true_eq] at hpass
        omega
  | exit kind =>
    rw [Accepting.next] at hstep
    split at hstep
    · cases hstep
    · next running exited heq =>
      cases hstep
      cases kind with
      | download =>
        refine ⟨?_, hpassing, hwaiting⟩
        have heq : s.downloads = ⟨running + 1, exited⟩ := heq
        simp only [Accepting.setChildren, Children.unreaped, heq] at hchildren ⊢
        omega
      | upload =>
        refine ⟨?_, hpassing, hwaiting⟩
        have heq : s.uploads = ⟨running + 1, exited⟩ := heq
        simp only [Accepting.setChildren, Children.unreaped, heq] at hchildren ⊢
        omega
  | reap kind =>
    rw [Accepting.next] at hstep
    split at hstep
    · next hwait =>
      have hreq := hwaiting hwait
      split at hstep
      · cases hstep
      · next running exited heq =>
        cases hstep
        refine ⟨?_, fun _ => by dsimp only; omega, fun hfalse => by cases hfalse⟩
        cases kind with
        | download =>
          have heq : s.downloads = ⟨running, exited + 1⟩ := heq
          simp only [Accepting.setChildren, Children.unreaped, heq] at hchildren ⊢
          omega
        | upload =>
          have heq : s.uploads = ⟨running, exited + 1⟩ := heq
          simp only [Accepting.setChildren, Children.unreaped, heq] at hchildren ⊢
          omega
    · cases hstep
  | noChild =>
    rw [Accepting.next] at hstep
    split at hstep
    · next hnone =>
      cases hstep
      obtain ⟨hwait, hdownloads, huploads⟩ := hnone
      have hreq := hwaiting hwait
      refine ⟨?_, fun _ => by dsimp only; omega, fun hfalse => by cases hfalse⟩
      dsimp only
      omega
    · cases hstep

theorem run_counted (h : Run Accepting.Step (.start downloads) es s) : Counted downloads s :=
  h.invariant (fun hcounted hstep => hcounted.step hstep) (counted_start downloads)

/-- Passes that fork and do not wait. -/
theorem run_accepts (downloads : Nat) {n : Nat} (hn : n ≤ 99) :
    Run Accepting.Step (.start downloads) (List.replicate n (.accept true))
      ⟨n + 1, false, ⟨downloads, 0⟩, ⟨n, 0⟩⟩ := by
  induction n with
  | zero => exact .start _
  | succ n ih =>
    rw [List.replicate_succ']
    refine .snoc (ih (by omega)) ?_
    have hpass : decide (100 < n + 1 + 1) = false := decide_eq_false (by omega)
    simp only [Accepting.Step, Accepting.next, hpass, Bool.false_eq_true, if_false, if_true]

/-- Two passes that wait, and are answered for two download children. -/
def answeredByDownloads : List AcceptEvent :=
  [.exit .download, .exit .download, .accept true, .reap .download, .accept true, .reap .download]

theorem run_exceeds (downloads : Nat) : Run Accepting.Step (.start (downloads + 2))
    (List.replicate 99 (.accept true) ++ answeredByDownloads)
    ⟨100, false, ⟨downloads, 0⟩, ⟨101, 0⟩⟩ := by
  refine (run_accepts (downloads + 2) (Nat.le_refl 99)).trans ?_
  have h₁ : Accepting.Step ⟨100, false, ⟨downloads + 2, 0⟩, ⟨99, 0⟩⟩ (.exit .download)
      ⟨100, false, ⟨downloads + 1, 1⟩, ⟨99, 0⟩⟩ := rfl
  have h₂ : Accepting.Step ⟨100, false, ⟨downloads + 1, 1⟩, ⟨99, 0⟩⟩ (.exit .download)
      ⟨100, false, ⟨downloads, 2⟩, ⟨99, 0⟩⟩ := rfl
  have h₃ : Accepting.Step ⟨100, false, ⟨downloads, 2⟩, ⟨99, 0⟩⟩ (.accept true)
      ⟨101, true, ⟨downloads, 2⟩, ⟨100, 0⟩⟩ := rfl
  have h₄ : Accepting.Step ⟨101, true, ⟨downloads, 2⟩, ⟨100, 0⟩⟩ (.reap .download)
      ⟨100, false, ⟨downloads, 1⟩, ⟨100, 0⟩⟩ := rfl
  have h₅ : Accepting.Step ⟨100, false, ⟨downloads, 1⟩, ⟨100, 0⟩⟩ (.accept true)
      ⟨101, true, ⟨downloads, 1⟩, ⟨101, 0⟩⟩ := rfl
  have h₆ : Accepting.Step ⟨101, true, ⟨downloads, 1⟩, ⟨101, 0⟩⟩ (.reap .download)
      ⟨100, false, ⟨downloads, 0⟩, ⟨101, 0⟩⟩ := rfl
  have hexits := (Run.single h₁).trans (.single h₂)
  have hpasses := ((Run.single h₃).trans (.single h₄)).trans ((Run.single h₅).trans (.single h₆))
  exact hexits.trans hpasses

/-- The limit holds behind every pass of every run exactly if at most one download was forked. -/
theorem upload_limit_iff (downloads : Nat) :
    (∀ es s, Run Accepting.Step (.start downloads) es s → s.waiting = false →
      s.uploads.unreaped ≤ 100) ↔ downloads ≤ 1 := by
  constructor
  · intro hlimit
    refine Nat.le_of_not_lt fun hmany => ?_
    obtain ⟨more, rfl⟩ : ∃ more, downloads = more + 2 := ⟨downloads - 2, by omega⟩
    exact absurd (hlimit _ _ (run_exceeds more) rfl) (show ¬ 101 ≤ 100 by decide)
  · intro hfew es s hrun hpass
    obtain ⟨hchildren, hpassing, _⟩ := run_counted hrun
    have hreq := hpassing hpass
    omega

/-- With two downloads, 101 upload children. -/
theorem upload_limit_exceeded : ∃ es s, Run Accepting.Step (.start 2) es s ∧ s.waiting = false ∧
    s.uploads.unreaped = 101 :=
  ⟨_, _, run_exceeds 0, rfl, rfl⟩

end CS111.P2P
