import Mathlib.Logic.Function.Basic

/-!
# Exclusive ownership

Every cell of a family holds the number of a resource or `0`. `Owns own used` says that only
used resources are held, and none of them by two cells.
-/

namespace CS111

set_option autoImplicit false

universe u
variable {ι : Type u}

structure Owns (own : ι → Nat) (used : Nat → Prop) : Prop where
  used_of_ne : ∀ {x}, own x ≠ 0 → used (own x)
  inj : ∀ {x y}, own x ≠ 0 → own x = own y → x = y

namespace Owns
variable {own own' : ι → Nat} {used used' : Nat → Prop} {b : Nat} {c : ι}

theorem none_held (h : ∀ x, own x = 0) : Owns own used := by
  constructor
  · intro x hx
    exact absurd (h x) hx
  · intro x _ hx
    exact absurd (h x) hx

/-- Cells may let go of what they hold, as long as what is still held stays in use. -/
theorem shrink (h : Owns own used) (hle : ∀ x, own' x = 0 ∨ own' x = own x)
    (hused : ∀ x, own' x ≠ 0 → used' (own' x)) : Owns own' used' := by
  constructor
  · intro x hx
    exact hused x hx
  · intro x y hx hxy
    have hxo := (hle x).resolve_left hx
    have hyo := (hle y).resolve_left (by rw [← hxy]; exact hx)
    apply h.inj (by rw [← hxo]; exact hx)
    rw [← hxo, ← hyo, hxy]

theorem mono (h : Owns own used) (hused : ∀ b, used b → used' b) : Owns own used' :=
  h.shrink (fun _ => .inr rfl) fun _ hx => hused _ (h.used_of_ne hx)

/-- One cell takes a resource that was not in use. -/
theorem acquire (h : Owns own used) (hfresh : ¬ used b)
    (hstep : ∀ x, own' x = 0 ∨ own' x = own x ∨ (x = c ∧ own' x = b))
    (hused : ∀ d, used d ∨ d = b → used' d) : Owns own' used' := by
  constructor
  · intro x hx
    rcases hstep x with h0 | hold | ⟨_, hnew⟩
    · exact absurd h0 hx
    · rw [hold] at hx ⊢
      exact hused _ (.inl (h.used_of_ne hx))
    · exact hused _ (.inr hnew)
  · intro x y hx hxy
    have held : ∀ z, own z = b → own z ≠ 0 → False := fun z hz hz0 =>
      hfresh (hz ▸ h.used_of_ne hz0)
    rcases hstep x with h0 | hox | ⟨hx0, hnx⟩
    · exact absurd h0 hx
    · rcases hstep y with h0 | hoy | ⟨_, hny⟩
      · exact absurd (hxy.trans h0) hx
      · exact h.inj (hox ▸ hx) (by rw [← hox, ← hoy, hxy])
      · exact (held x (by rw [← hox, hxy, hny]) (hox ▸ hx)).elim
    · rcases hstep y with h0 | hoy | ⟨hy0, _⟩
      · exact absurd (hxy.trans h0) hx
      · exact (held y (by rw [← hoy, ← hxy, hnx]) (by rw [← hoy, ← hxy]; exact hx)).elim
      · rw [hx0, hy0]

/-- One cell gives its resource back. -/
theorem release (h : Owns own used) (hc : own' c = 0) (hle : ∀ x, own' x = 0 ∨ own' x = own x)
    (hused : ∀ d, used d → d ≠ own c → used' d) : Owns own' used' := by
  apply h.shrink hle
  intro x hx
  have hxo := (hle x).resolve_left hx
  rw [hxo] at hx ⊢
  apply hused _ (h.used_of_ne hx)
  intro heq
  have hxz := h.inj hx heq
  rw [hxz, hc] at hxo
  rw [hxz, ← hxo] at hx
  exact hx rfl

end Owns

end CS111
