import Mathlib.Data.List.Basic

/-!
# Memories and contiguous regions

A memory is a total function from addresses, so an access outside an array is an access
to some other address and never disappears from the model.
-/

namespace CS111.Memory

set_option autoImplicit false

universe u
variable {α : Type u}

def load (m : Nat → α) (a n : Nat) : List α := (List.range n).map fun k => m (a + k)

def store (m : Nat → α) (a : Nat) (bytes : List α) : Nat → α :=
  fun i => if a ≤ i then (bytes[i - a]?).getD (m i) else m i

@[simp] theorem load_length (m : Nat → α) (a n : Nat) : (load m a n).length = n := by
  simp [load]

theorem load_congr {m m' : Nat → α} {a n : Nat} (h : ∀ k, k < n → m (a + k) = m' (a + k)) :
    load m a n = load m' a n := by
  apply List.map_congr_left
  intro k hk
  exact h k (List.mem_range.mp hk)

theorem store_outside {m : Nat → α} {a i : Nat} {bytes : List α}
    (h : i < a ∨ a + bytes.length ≤ i) : store m a bytes i = m i := by
  unfold store
  split
  · rw [List.getElem?_eq_none (by omega)]
    rfl
  · rfl

theorem store_inside {m : Nat → α} {a k : Nat} {bytes : List α} (h : k < bytes.length) :
    store m a bytes (a + k) = bytes[k] := by
  have hsub : a + k - a = k := by omega
  simp [store, hsub, h]

@[simp] theorem store_nil (m : Nat → α) (a : Nat) : store m a [] = m := by
  funext i
  simp [store]

theorem load_store_same (m : Nat → α) (a : Nat) (bytes : List α) :
    load (store m a bytes) a bytes.length = bytes := by
  apply List.ext_getElem (by simp)
  intro k h _
  simp only [load_length] at h
  simp [load, store_inside h]

theorem store_store (m : Nat → α) (a : Nat) (front back : List α) :
    store (store m (a + front.length) back) a front = store m a (front ++ back) := by
  funext i
  by_cases h1 : i < a
  · rw [store_outside (.inl h1), store_outside (by omega), store_outside (.inl h1)]
  · by_cases h2 : i < a + front.length
    · obtain ⟨k, rfl⟩ := Nat.exists_eq_add_of_le (Nat.le_of_not_lt h1)
      have hk : k < front.length := by omega
      rw [store_inside hk, store_inside (by rw [List.length_append]; omega),
        List.getElem_append_left hk]
    · obtain ⟨k, rfl⟩ := Nat.exists_eq_add_of_le (Nat.le_of_not_lt h2)
      rw [store_outside (by omega)]
      by_cases h3 : k < back.length
      · rw [store_inside h3, Nat.add_assoc, store_inside (by rw [List.length_append]; omega),
          List.getElem_append_right (by omega)]
        simp
      · rw [store_outside (by omega), store_outside (by rw [List.length_append]; omega)]

theorem load_store_disjoint {m : Nat → α} {a b n : Nat} {bytes : List α}
    (h : b + n ≤ a ∨ a + bytes.length ≤ b) :
    load (store m a bytes) b n = load m b n := by
  apply load_congr
  intro k hk
  exact store_outside (by omega)

theorem load_succ (m : Nat → α) (a n : Nat) : load m a (n + 1) = load m a n ++ [m (a + n)] := by
  simp [load, List.range_succ]

theorem load_split (m : Nat → α) (a n k : Nat) :
    load m a (n + k) = load m a n ++ load m (a + n) k := by
  unfold load
  rw [List.range_add, List.map_append, List.map_map]
  congr 1
  apply List.map_congr_left
  intro j _
  exact congrArg m (Nat.add_assoc a n j).symm

theorem load_add (m : Nat → α) (a n : Nat) : load m 0 (a + n) = load m 0 a ++ load m a n := by
  rw [load_split, Nat.zero_add]

theorem load_prefix (m : Nat → α) (a : Nat) {n k : Nat} (h : n ≤ k) : load m a n <+: load m a k := by
  obtain ⟨j, rfl⟩ := Nat.exists_eq_add_of_le h
  rw [load_split]
  exact List.prefix_append _ _

/-- A store behind the first `n` cells keeps them. -/
theorem load_store_behind (m : Nat → α) (n k : Nat) (bytes : List α) :
    load (store m n bytes) 0 (n + k) = load m 0 n ++ load (store m n bytes) n k := by
  rw [load_add, load_store_disjoint (.inl (Nat.le_of_eq (Nat.zero_add n)))]

theorem load_store_append (m : Nat → α) (n : Nat) (bytes : List α) :
    load (store m n bytes) 0 (n + bytes.length) = load m 0 n ++ bytes := by
  rw [load_store_behind, load_store_same]

/-- The cells from an address up to the first `z` are determined. -/
theorem load_until_unique {m : Nat → α} {a : Nat} {v w : List α} {z : α}
    (hv : load m a (v.length + 1) = v ++ [z]) (hw : load m a (w.length + 1) = w ++ [z])
    (hzv : z ∉ v) (hzw : z ∉ w) : v = w := by
  have heq : ∀ {x y : List α}, x ++ [z] <+: y ++ [z] → z ∉ y → x = y := by
    intro x y hprefix hy
    rcases List.prefix_concat_iff.mp hprefix with hboth | hinside
    · exact List.append_cancel_right hboth
    · exact absurd (hinside.subset (by simp)) hy
  rcases Nat.le_total v.length w.length with hle | hle
  · have hprefix := load_prefix m a (Nat.succ_le_succ hle)
    rw [hv, hw] at hprefix
    exact heq hprefix hzw
  · have hprefix := load_prefix m a (Nat.succ_le_succ hle)
    rw [hv, hw] at hprefix
    exact (heq hprefix hzv).symm

end CS111.Memory
