import Mathlib.Logic.Function.Basic
import Mathlib.Logic.Function.Iterate

/-!
# Copying cell by cell

A loop that copies a cell and goes on to the next one, on both sides. Where no cell is read behind
a store into it, the cells of the destination get what those of the source had.
-/

namespace CS111

set_option autoImplicit false

universe u v
variable {α : Type u} {β : Type v} {next : α → α} {m : α → β} {dst src a : α} {i n : Nat}

/-- No cell that is read was stored into before. -/
def ReadsFirst (next : α → α) (n : Nat) (dst src : α) : Prop :=
  ∀ i j, i < j → j < n → next^[i] dst ≠ next^[j] src

theorem ReadsFirst.tail (h : ReadsFirst next (n + 1) dst src) :
    ReadsFirst next n (next dst) (next src) :=
  fun i j hij hj => h (i + 1) (j + 1) (Nat.succ_lt_succ hij) (Nat.succ_lt_succ hj)

section Copying
variable [DecidableEq α]

/-- `n` rounds of `*d++ = *s++`. -/
def copyForward (next : α → α) : Nat → (α → β) → α → α → α → β
  | 0, m, _, _ => m
  | n + 1, m, dst, src =>
    copyForward next n (Function.update m dst (m src)) (next dst) (next src)

theorem copyForward_outside (h : ∀ i, i < n → a ≠ next^[i] dst) :
    copyForward next n m dst src a = m a := by
  induction n generalizing m dst src with
  | zero => rfl
  | succ n ih =>
    have hfirst : a ≠ dst := h 0 (Nat.succ_pos n)
    have hrest : ∀ i, i < n → a ≠ next^[i] (next dst) := fun i hi => h (i + 1) (Nat.succ_lt_succ hi)
    exact (ih hrest).trans (Function.update_of_ne hfirst _ _)

theorem copyForward_inside (hsrc : ReadsFirst next n dst src) (hdst : ReadsFirst next n dst dst)
    (hi : i < n) : copyForward next n m dst src (next^[i] dst) = m (next^[i] src) := by
  induction n generalizing m dst src i with
  | zero => exact absurd hi (Nat.not_lt_zero i)
  | succ n ih =>
    cases i with
    | zero =>
      have hlater : ∀ i, i < n → dst ≠ next^[i] (next dst) :=
        fun i hi => hdst 0 (i + 1) (Nat.succ_pos i) (Nat.succ_lt_succ hi)
      exact (copyForward_outside hlater).trans (Function.update_self _ _ _)
    | succ i =>
      have hcopied := ih (m := Function.update m dst (m src)) hsrc.tail hdst.tail
        (Nat.lt_of_succ_lt_succ hi)
      have hread : next^[i] (next src) ≠ dst := (hsrc 0 (i + 1) (Nat.succ_pos i) hi).symm
      exact hcopied.trans (Function.update_of_ne hread _ _)

end Copying

end CS111
