import Mathlib.Logic.Relation

/-!
# Relations without cycles

How a graph stays free of cycles while it changes: edges go away, one vertex gets new edges to
vertices that do not lead back to it, or a vertex without outgoing edges gets new incoming ones.
-/

namespace CS111

set_option autoImplicit false

open Relation

universe u
variable {α : Type u}

def Acyclic (r : α → α → Prop) : Prop := ∀ x, ¬ TransGen r x x

namespace Acyclic
variable {r s : α → α → Prop} {p : α}

theorem of_empty (h : ∀ x y, ¬ r x y) : Acyclic r := by
  intro x hx
  obtain ⟨y, hxy, _⟩ := TransGen.head'_iff.mp hx
  exact h x y hxy

theorem mono (h : Acyclic r) (hle : ∀ x y, s x y → r x y) : Acyclic s :=
  fun x hx => h x (TransGen.mono hle x x hx)

/-- New edges out of `p`, to vertices from which `p` is not reachable. -/
theorem add_out (h : Acyclic r) (hnew : ∀ x y, s x y → r x y ∨ x = p ∧ ¬ ReflTransGen r y p) :
    Acyclic s := by
  have back : ∀ {a}, ReflTransGen s a p → ReflTransGen r a p := by
    intro a ha
    induction ha using ReflTransGen.head_induction_on with
    | refl => exact .refl
    | head hab _ ih =>
      rcases hnew _ _ hab with hold | ⟨_, hno⟩
      · exact .head hold ih
      · exact absurd ih hno
  have split : ∀ {x y}, TransGen s x y → TransGen r x y ∨
      ∃ b, ¬ ReflTransGen r b p ∧ ReflTransGen s x p ∧ ReflTransGen s b y := by
    intro x y hxy
    induction hxy with
    | single hxy =>
      rcases hnew _ _ hxy with hold | ⟨rfl, hno⟩
      · exact .inl (.single hold)
      · exact .inr ⟨_, hno, .refl, .refl⟩
    | tail hxb hby ih =>
      rcases hnew _ _ hby with hold | ⟨rfl, hno⟩
      · rcases ih with hr | ⟨b, hno, hxp, hb⟩
        · exact .inl (.tail hr hold)
        · exact .inr ⟨b, hno, hxp, hb.tail hby⟩
      · exact .inr ⟨_, hno, hxb.to_reflTransGen, .refl⟩
  intro x hx
  rcases split hx with hr | ⟨b, hno, hxp, hbx⟩
  · exact h x hr
  · exact hno (back (hbx.trans hxp))

/-- New edges into `p`, which has no outgoing edge. -/
theorem add_in (h : Acyclic r) (hnew : ∀ x y, s x y → r x y ∨ y = p) (hsink : ∀ y, ¬ s p y) :
    Acyclic s := by
  have old : ∀ {x y}, TransGen s x y → y ≠ p → TransGen r x y := by
    intro x y hxy hy
    induction hxy with
    | single hxy => exact .single ((hnew _ _ hxy).resolve_right hy)
    | @tail b c _ hby ih =>
      have hb : b ≠ p := by
        rintro rfl
        exact hsink c hby
      exact .tail (ih hb) ((hnew _ _ hby).resolve_right hy)
  intro x hx
  have hxp : x ≠ p := by
    rintro rfl
    obtain ⟨y, hxy, _⟩ := TransGen.head'_iff.mp hx
    exact hsink y hxy
  exact h x (old hx hxp)

end Acyclic

end CS111
