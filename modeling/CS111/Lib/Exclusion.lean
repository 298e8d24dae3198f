import Mathlib.Logic.Function.Basic

/-!
# Mutual exclusion

A flag is raised while somebody is inside, and at most one is inside at a time. Who finds the flag
lowered may raise it and go in, and who is inside may lower it and leave.
-/

namespace CS111

set_option autoImplicit false

universe u
variable {ι : Type u} {held held' : Prop} {inside inside' : ι → Prop} {p q : ι}

structure Exclusive (held : Prop) (inside : ι → Prop) : Prop where
  held_iff : held ↔ ∃ p, inside p
  unique : ∀ {p q}, inside p → inside q → p = q

namespace Exclusive

theorem of_empty (hheld : ¬ held) (h : ∀ p, ¬ inside p) : Exclusive held inside where
  held_iff := by
    refine iff_of_false hheld ?_
    rintro ⟨p, hp⟩
    exact h p hp
  unique hp _ := absurd hp (h _)

theorem congr (h : Exclusive held inside) (hheld : held' ↔ held)
    (hinside : ∀ p, inside' p ↔ inside p) : Exclusive held' inside' where
  held_iff := by
    rw [hheld, h.held_iff]
    exact exists_congr fun p => (hinside p).symm
  unique hp hq := h.unique ((hinside _).mp hp) ((hinside _).mp hq)

theorem not_inside (h : Exclusive held inside) (hfree : ¬ held) (p : ι) : ¬ inside p :=
  fun hp => hfree (h.held_iff.mpr ⟨p, hp⟩)

theorem not_inside_of_ne (h : Exclusive held inside) (hp : inside p) (hq : q ≠ p) : ¬ inside q :=
  fun hinside => hq (h.unique hinside hp)

/-- The flag is raised by one who found it lowered. -/
theorem enter (h : Exclusive held inside) (hfree : ¬ held) (hheld : held') (hp : inside' p)
    (hothers : ∀ q, q ≠ p → (inside' q ↔ inside q)) : Exclusive held' inside' := by
  have honly : ∀ q, inside' q → q = p := by
    intro q hq
    apply Classical.not_not.mp
    intro hne
    exact h.not_inside hfree q ((hothers q hne).mp hq)
  refine ⟨iff_of_true hheld ⟨p, hp⟩, fun hq hr => ?_⟩
  rw [honly _ hq, honly _ hr]

/-- The flag is lowered by the one inside. -/
theorem leave (h : Exclusive held inside) (hp : inside p) (hheld : ¬ held') (hout : ¬ inside' p)
    (hothers : ∀ q, q ≠ p → (inside' q ↔ inside q)) : Exclusive held' inside' := by
  refine of_empty hheld fun q hq => ?_
  have hne : q ≠ p := by
    rintro rfl
    exact hout hq
  exact h.not_inside_of_ne hp hne ((hothers q hne).mp hq)

end Exclusive

end CS111
