import Mathlib.Algebra.BigOperators.Group.List.Basic
import Mathlib.Algebra.Order.Group.Int
import Mathlib.Algebra.Ring.Int.Defs

/-!
# Passes over a list

`lowest P f s l` is the loop that goes through `l` with a value that starts as `s`, and takes the
value of every entry with `P` that is lower. The loop that stops at the first entry with `P` is
`find?`, and finds the lowest one in a sorted table.

A pass can also keep a depth, which every element changes by `δ`. `Clear δ stop d l` says that the pass
that starts at depth `d` meets no element of `stop` at depth 0.
-/

namespace CS111

set_option autoImplicit false

universe u
variable {α : Type u}

section Lowest

variable {P : α → Bool} {f : α → Int} {s : Int} {l : List α} {i : α}

def lowest (P : α → Bool) (f : α → Int) : Int → List α → Int
  | s, [] => s
  | s, i :: l => lowest P f (if P i ∧ f i < s then f i else s) l

theorem lowest_le_start : lowest P f s l ≤ s := by
  induction l generalizing s with
  | nil => exact Int.le_refl s
  | cons i l ih =>
    rw [lowest]
    refine Int.le_trans ih ?_
    split
    · next hi => exact Int.le_of_lt hi.2
    · exact Int.le_refl s

theorem lowest_le (hi : i ∈ l) (hP : P i = true) : lowest P f s l ≤ f i := by
  induction l generalizing s with
  | nil => cases hi
  | cons j l ih =>
    rw [lowest]
    rcases List.mem_cons.mp hi with rfl | hi
    · refine Int.le_trans lowest_le_start ?_
      split
      · exact Int.le_refl _
      · next hnot => exact Int.not_lt.mp fun hlt => hnot ⟨hP, hlt⟩
    · exact ih hi

/-- The value is the first one or that of an entry. -/
theorem lowest_attained : lowest P f s l = s ∨ ∃ i ∈ l, P i = true ∧ lowest P f s l = f i := by
  induction l generalizing s with
  | nil => exact .inl rfl
  | cons j l ih =>
    rw [lowest]
    split
    · next hj =>
      rcases ih (s := f j) with h | ⟨i, hi, hP, h⟩
      · exact .inr ⟨j, List.mem_cons_self, hj.1, h⟩
      · exact .inr ⟨i, List.mem_cons_of_mem _ hi, hP, h⟩
    · rcases ih (s := s) with h | ⟨i, hi, hP, h⟩
      · exact .inl h
      · exact .inr ⟨i, List.mem_cons_of_mem _ hi, hP, h⟩

theorem find?_le_of_pairwise [Preorder α] {j : α} (hsorted : l.Pairwise (· < ·))
    (h : l.find? P = some i) (hj : j ∈ l) (hP : P j = true) : i ≤ j := by
  obtain ⟨-, before, behind, rfl, hbefore⟩ := List.find?_eq_some_iff_append.mp h
  rcases List.mem_append.mp hj with hin | hin
  · have hnot := hbefore j hin
    rw [hP] at hnot
    cases hnot
  · rcases List.mem_cons.mp hin with rfl | hin
    · exact le_refl j
    · have hcons := (List.pairwise_append.mp hsorted).2.1
      exact le_of_lt ((List.pairwise_cons.mp hcons).1 j hin)

end Lowest

section Depth

def Clear (δ : α → Int) (stop : α → Prop) : Int → List α → Prop
  | _, [] => True
  | d, a :: l => (d = 0 → ¬ stop a) ∧ Clear δ stop (d + δ a) l

def rise (δ : α → Int) (l : List α) : Int := (l.map δ).sum

variable {δ : α → Int} {stop : α → Prop} {d : Int} {a : α} {l l' : List α}

@[simp] theorem rise_nil : rise δ [] = 0 := rfl

@[simp] theorem rise_cons : rise δ (a :: l) = δ a + rise δ l := by simp [rise]

@[simp] theorem rise_append : rise δ (l ++ l') = rise δ l + rise δ l' := by simp [rise]

@[simp] theorem rise_reverse : rise δ l.reverse = rise δ l := by
  simp [rise, List.sum_reverse]

@[simp] theorem rise_neg : rise (fun a => -δ a) l = -rise δ l := by
  induction l with
  | nil => rfl
  | cons a l ih =>
    rw [rise_cons, rise_cons, ih]
    omega

@[simp] theorem clear_nil : Clear δ stop d [] := trivial

@[simp] theorem clear_cons :
    Clear δ stop d (a :: l) ↔ (d = 0 → ¬ stop a) ∧ Clear δ stop (d + δ a) l := Iff.rfl

theorem clear_append :
    Clear δ stop d (l ++ l') ↔ Clear δ stop d l ∧ Clear δ stop (d + rise δ l) l' := by
  induction l generalizing d with
  | nil => simp
  | cons a l ih =>
    rw [List.cons_append, clear_cons, clear_cons, ih, rise_cons, and_assoc, add_assoc]

end Depth

end CS111
