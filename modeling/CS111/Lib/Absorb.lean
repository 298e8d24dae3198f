import Mathlib.Algebra.GroupWithZero.Nat

/-!
# Taking a list block by block

`absorb f n s l` updates a state with every whole block of `n` elements of `l`; `left n l` is the part of a
block that remains. A stream that keeps both has no need of the elements it has seen.
-/

namespace CS111.Absorb

set_option autoImplicit false

universe u v
variable {σ : Type u} {α : Type v} {f : σ → List α → σ} {n k : Nat} {s : σ} {l l' l₁ l₂ : List α}

def blocks (f : σ → List α → σ) (n : Nat) : Nat → σ → List α → σ
  | 0, s, _ => s
  | k + 1, s, l => blocks f n k (f s (l.take n)) (l.drop n)

def absorb (f : σ → List α → σ) (n : Nat) (s : σ) (l : List α) : σ := blocks f n (l.length / n) s l

def left (n : Nat) (l : List α) : List α := l.drop (l.length / n * n)

/-- The blocks of the front do not depend on what comes behind them. -/
theorem blocks_append (h : l₁.length = k * n) (j : Nat) :
    blocks f n (k + j) s (l₁ ++ l₂) = blocks f n j (blocks f n k s l₁) l₂ := by
  induction k generalizing s l₁ with
  | zero =>
    have hnil : l₁ = [] := List.eq_nil_of_length_eq_zero (h.trans (Nat.zero_mul n))
    rw [hnil, Nat.zero_add, List.nil_append, blocks]
  | succ k ih =>
    have hlen : l₁.length = k * n + n := h.trans (Nat.succ_mul k n)
    have hrest : (l₁.drop n).length = k * n := by
      rw [List.length_drop, hlen, Nat.add_sub_cancel]
    rw [Nat.succ_add, blocks, blocks, List.take_append_of_le_length (by omega),
      List.drop_append_of_le_length (by omega), ih hrest]

theorem absorb_append (hn : 0 < n) (h : l₁.length = k * n) :
    absorb f n s (l₁ ++ l₂) = absorb f n (absorb f n s l₁) l₂ := by
  have hk : l₁.length / n = k := by rw [h, Nat.mul_div_cancel _ hn]
  have hsum : (l₁ ++ l₂).length / n = k + l₂.length / n := by
    rw [List.length_append, h, Nat.mul_comm, Nat.mul_add_div hn]
  rw [absorb, hsum, blocks_append h, absorb, absorb, hk]

theorem absorb_short (h : l.length < n) : absorb f n s l = s := by
  rw [absorb, Nat.div_eq_of_lt h, blocks]

theorem absorb_block (hn : 0 < n) (h : l.length = n) : absorb f n s l = f s l := by
  rw [absorb, h, Nat.div_self hn, blocks, blocks, ← h, List.take_length]

/-- A block that stands in front. -/
theorem absorb_cons (hn : 0 < n) (h : l₁.length = n) :
    absorb f n s (l₁ ++ l₂) = absorb f n (f s l₁) l₂ := by
  rw [absorb_append (k := 1) hn (h.trans (Nat.one_mul n).symm), absorb_block hn h]

theorem left_append (hn : 0 < n) (h : l₁.length = k * n) : left n (l₁ ++ l₂) = left n l₂ := by
  have hsum : (l₁ ++ l₂).length / n * n = l₁.length + l₂.length / n * n := by
    rw [List.length_append, h, Nat.mul_comm k, Nat.mul_add_div hn, Nat.add_mul, Nat.mul_comm k]
  rw [left, hsum, List.drop_append, List.drop_eq_nil_of_le (Nat.le_add_right _ _),
    Nat.add_sub_cancel_left, List.nil_append, left]

theorem left_cons (hn : 0 < n) (h : l₁.length = n) : left n (l₁ ++ l₂) = left n l₂ :=
  left_append (k := 1) hn (h.trans (Nat.one_mul n).symm)

theorem left_short (h : l.length < n) : left n l = l := by
  rw [left, Nat.div_eq_of_lt h, Nat.zero_mul, List.drop_zero]

theorem length_left (l : List α) : (left n l).length = l.length % n := by
  rw [left, List.length_drop, Nat.mod_eq_sub_div_mul]

theorem length_left_lt (hn : 0 < n) (l : List α) : (left n l).length < n := by
  rw [length_left]
  exact Nat.mod_lt _ hn

/-- A loop that takes the first block of what there is. -/
theorem absorb_take (hn : 0 < n) (h : n ≤ l.length) :
    absorb f n s l = absorb f n (f s (l.take n)) (l.drop n) := by
  rw [← absorb_cons hn (List.length_take_of_le h), List.take_append_drop]

theorem left_drop (hn : 0 < n) (h : n ≤ l.length) : left n l = left n (l.drop n) := by
  have hsplit : left n (l.take n ++ l.drop n) = left n (l.drop n) :=
    left_cons hn (List.length_take_of_le h)
  rwa [List.take_append_drop] at hsplit

/-- A list is its whole blocks and the rest. -/
theorem exists_front (n : Nat) (l : List α) : ∃ front, front.length = l.length / n * n ∧
    l = front ++ left n l := by
  refine ⟨l.take (l.length / n * n), ?_, (List.take_append_drop _ l).symm⟩
  rw [List.length_take, Nat.min_eq_left (Nat.div_mul_le_self _ _)]

section Stream

/-- More elements, seen from the whole list and from what is kept of it. -/
theorem absorb_stream (hn : 0 < n) (s : σ) (l more : List α) :
    absorb f n s (l ++ more) = absorb f n (absorb f n s l) (left n l ++ more) := by
  obtain ⟨front, hlen, hl⟩ := exists_front n l
  have hover : absorb f n s l = absorb f n s front := by
    calc absorb f n s l = absorb f n s (front ++ left n l) := by rw [← hl]
      _ = absorb f n s front := by rw [absorb_append hn hlen, absorb_short (length_left_lt hn l)]
  calc absorb f n s (l ++ more) = absorb f n s (front ++ (left n l ++ more)) := by
        rw [← List.append_assoc, ← hl]
    _ = absorb f n (absorb f n s l) (left n l ++ more) := by rw [absorb_append hn hlen, hover]

theorem left_stream (hn : 0 < n) (l more : List α) :
    left n (l ++ more) = left n (left n l ++ more) := by
  obtain ⟨front, hlen, hl⟩ := exists_front n l
  calc left n (l ++ more) = left n (front ++ (left n l ++ more)) := by
        rw [← List.append_assoc, ← hl]
    _ = left n (left n l ++ more) := left_append hn hlen

end Stream

end CS111.Absorb
