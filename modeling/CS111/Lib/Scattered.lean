import CS111.Lib.Memory

/-!
# Bytes along an address map

A file keeps position `x` at the address `addr x`. `gather` reads positions that follow each other,
and `scatter` overwrites them.
-/

namespace CS111.Memory

set_option autoImplicit false

universe u
variable {α : Type u} {m m' : Nat → α} {addr addr' : Nat → Nat} {a p n : Nat} {bytes : List α}

def gather (m : Nat → α) (addr : Nat → Nat) (p n : Nat) : List α :=
  (List.range n).map fun k => m (addr (p + k))

def scatter (addr : Nat → Nat) : (Nat → α) → Nat → List α → (Nat → α)
  | m, _, [] => m
  | m, p, byte :: bytes => scatter addr (Function.update m (addr p) byte) (p + 1) bytes

section Gather

@[simp] theorem gather_length (m : Nat → α) (addr : Nat → Nat) (p n : Nat) :
    (gather m addr p n).length = n := by
  simp [gather]

theorem gather_zero (m : Nat → α) (addr : Nat → Nat) (p : Nat) : gather m addr p 0 = [] := rfl

theorem gather_add (m : Nat → α) (addr : Nat → Nat) (p n k : Nat) :
    gather m addr p (n + k) = gather m addr p n ++ gather m addr (p + n) k := by
  simp [gather, List.range_add, List.map_map, Function.comp_def, Nat.add_assoc]

/-- Positions that lie at consecutive addresses. -/
theorem gather_load (h : ∀ k, k < n → addr (p + k) = a + k) : gather m addr p n = load m a n := by
  apply List.map_congr_left
  intro k hk
  rw [h k (List.mem_range.mp hk)]

end Gather

section Scatter

theorem store_cons (m : Nat → α) (a : Nat) (byte : α) (bytes : List α) :
    store m a (byte :: bytes) = store (Function.update m a byte) (a + 1) bytes := by
  funext i
  rcases Nat.lt_trichotomy i a with hlt | heq | hgt
  · rw [store_outside (.inl hlt), store_outside (.inl (by omega)), Function.update_of_ne (by omega)]
  · subst heq
    rw [store_outside (.inl (Nat.lt_succ_self i)), Function.update_self]
    exact store_inside (k := 0) (by simp)
  · obtain ⟨k, rfl⟩ := Nat.exists_eq_add_of_le (Nat.succ_le_of_lt hgt)
    have hcons : a + 1 + k - a = k + 1 := by omega
    have hrest : a + 1 + k - (a + 1) = k := by omega
    unfold store
    rw [if_pos (by omega), if_pos (by omega), hcons, hrest, List.getElem?_cons_succ,
      Function.update_of_ne (by omega)]

theorem store_append (m : Nat → α) (a : Nat) (front back : List α) :
    store (store m a front) (a + front.length) back = store m a (front ++ back) := by
  induction front generalizing m a with
  | nil => rw [store_nil, List.nil_append, List.length_nil, Nat.add_zero]
  | cons byte front ih =>
    rw [List.cons_append, store_cons, store_cons, List.length_cons, ← ih, Nat.add_right_comm, Nat.add_assoc]

/-- Positions that lie at consecutive addresses. -/
theorem scatter_store (h : ∀ k, k < bytes.length → addr (p + k) = a + k) :
    scatter addr m p bytes = store m a bytes := by
  induction bytes generalizing m p a with
  | nil =>
    funext i
    exact (store_outside (by rw [List.length_nil]; omega)).symm
  | cons byte bytes ih =>
    have hfirst := h 0 (by simp)
    rw [Nat.add_zero, Nat.add_zero] at hfirst
    rw [scatter, store_cons, hfirst]
    apply ih
    intro k hk
    have hnext := h (k + 1) (by rw [List.length_cons]; omega)
    rw [Nat.add_right_comm p 1 k, Nat.add_right_comm a 1 k]
    exact hnext

theorem scatter_append (addr : Nat → Nat) (m : Nat → α) (p : Nat) (front back : List α) :
    scatter addr m p (front ++ back) =
      scatter addr (scatter addr m p front) (p + front.length) back := by
  induction front generalizing m p with
  | nil => rfl
  | cons byte front ih =>
    rw [List.cons_append, scatter, scatter, ih, List.length_cons, Nat.add_assoc p 1,
      Nat.add_comm 1]

theorem scatter_outside (h : ∀ k, k < bytes.length → addr (p + k) ≠ a) :
    scatter addr m p bytes a = m a := by
  induction bytes generalizing m p with
  | nil => rfl
  | cons byte bytes ih =>
    have hfirst := h 0 (by simp)
    rw [Nat.add_zero] at hfirst
    rw [scatter, ih, Function.update_of_ne (Ne.symm hfirst)]
    intro k hk
    rw [Nat.add_right_comm p 1 k]
    exact h (k + 1) (by rw [List.length_cons]; omega)

/-- What was written is read back, if different positions lie at different addresses. -/
theorem gather_scatter
    (h : ∀ j k, j < bytes.length → k < bytes.length → addr (p + j) = addr (p + k) → j = k) :
    gather (scatter addr m p bytes) addr p bytes.length = bytes := by
  induction bytes generalizing m p with
  | nil => rfl
  | cons byte bytes ih =>
    have hhead : scatter addr (Function.update m (addr p) byte) (p + 1) bytes (addr p) = byte := by
      rw [scatter_outside, Function.update_self]
      intro k hk heq
      rw [Nat.add_right_comm p 1 k] at heq
      have hzero := h (k + 1) 0 (by rw [List.length_cons]; omega) (by simp) heq
      omega
    have htail := ih (m := Function.update m (addr p) byte) (p := p + 1) fun j k hj hk heq => by
      have hsucc := h (j + 1) (k + 1) (by rw [List.length_cons]; omega)
        (by rw [List.length_cons]; omega) (by
          rw [Nat.add_right_comm p 1 j, Nat.add_right_comm p 1 k] at heq
          exact heq)
      omega
    rw [scatter, List.length_cons, Nat.add_comm bytes.length 1, gather_add, htail]
    exact congrArg (· :: bytes) hhead

end Scatter

end CS111.Memory
