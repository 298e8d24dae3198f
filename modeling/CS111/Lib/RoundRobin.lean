import Mathlib.Algebra.GroupWithZero.Nat
import Mathlib.Data.Fin.Basic

/-!
# Round robin over a table

`seek P fuel p` is the loop that goes from `p` to the next place of a table, and from the last place
to the first, until `P` holds. The place it finds is the first one behind `p`, and it finds one in a
round if there is any.
-/

namespace CS111.RoundRobin

set_option autoImplicit false

variable {n : Nat} [NeZero n] {P : Fin n → Bool} {p q : Fin n} {fuel k m : Nat}

def seek (P : Fin n → Bool) : Nat → Fin n → Option (Fin n)
  | 0, _ => none
  | fuel + 1, p => if P (p + 1) then some (p + 1) else seek P fuel (p + 1)

/-- The place `k` steps behind `p`. -/
def ahead (p : Fin n) (k : Nat) : Fin n := ⟨(p + k) % n, Nat.mod_lt _ (Nat.pos_of_neZero n)⟩

theorem ahead_zero (p : Fin n) : ahead p 0 = p := by
  ext
  simp [ahead, Nat.mod_eq_of_lt p.isLt]

theorem ahead_one (p : Fin n) : ahead p 1 = p + 1 := by
  ext
  simp [ahead, Fin.val_add, Nat.add_mod]

theorem ahead_succ (p : Fin n) (k : Nat) : ahead (p + 1) k = ahead p (k + 1) := by
  ext
  simp only [ahead, Fin.val_add, Fin.val_one', Nat.add_mod_mod, Nat.mod_add_mod]
  congr 1
  omega

/-- Every place is met in a round. -/
theorem exists_ahead (p q : Fin n) : ∃ k < n, ahead p (k + 1) = q := by
  have hp := p.isLt
  have hq := q.isLt
  rcases Nat.lt_or_ge p q with hlt | hge
  · refine ⟨q - p - 1, by omega, Fin.ext ?_⟩
    have hsum : p.val + (q - p - 1 + 1) = q := by omega
    show (p.val + (q - p - 1 + 1)) % n = q
    rw [hsum, Nat.mod_eq_of_lt hq]
  · refine ⟨q + n - p - 1, by omega, Fin.ext ?_⟩
    have hsum : p.val + (q + n - p - 1 + 1) = q + n := by omega
    show (p.val + (q + n - p - 1 + 1)) % n = q
    rw [hsum, Nat.add_mod_right, Nat.mod_eq_of_lt hq]

/-- The first place behind `p` where `P` holds. -/
def IsNext (P : Fin n → Bool) (p q : Fin n) : Prop :=
  ∃ k, q = ahead p (k + 1) ∧ P q = true ∧ ∀ j < k, P (ahead p (j + 1)) = false

theorem seek_isNext (h : seek P fuel p = some q) : IsNext P p q := by
  induction fuel generalizing p with
  | zero => cases h
  | succ fuel ih =>
    rw [seek] at h
    split at h
    · next hP =>
      cases h
      exact ⟨0, (ahead_one p).symm, hP, fun j hj => absurd hj (Nat.not_lt_zero j)⟩
    · next hP =>
      obtain ⟨k, rfl, hq, hbefore⟩ := ih h
      refine ⟨k + 1, ahead_succ p (k + 1), hq, fun j hj => ?_⟩
      cases j with
      | zero =>
        rw [Nat.zero_add, ahead_one]
        exact Bool.eq_false_iff.mpr hP
      | succ j =>
        rw [← ahead_succ]
        exact hbefore j (Nat.lt_of_succ_lt_succ hj)

theorem seek_ahead (hk : P (ahead p (k + 1)) = true) (hfuel : k < fuel) :
    ∃ q, seek P fuel p = some q := by
  induction fuel generalizing p k with
  | zero => exact absurd hfuel (Nat.not_lt_zero k)
  | succ fuel ih =>
    rw [seek]
    split
    · exact ⟨_, rfl⟩
    · next hP =>
      cases k with
      | zero =>
        rw [Nat.zero_add, ahead_one] at hk
        exact absurd hk hP
      | succ k =>
        rw [← ahead_succ] at hk
        exact ih hk (Nat.lt_of_succ_lt_succ hfuel)

/-- One round finds a place. -/
theorem seek_finds (h : P q = true) (hfuel : n ≤ fuel) : ∃ q', seek P fuel p = some q' := by
  obtain ⟨k, hk, rfl⟩ := exists_ahead p q
  exact seek_ahead h (Nat.lt_of_lt_of_le hk hfuel)

end CS111.RoundRobin
