import CS111.Mpos.ForkStack

/-!
# Moving memory

`memcpy` and `memmove` of `lib.c`, over addresses of 32 bits that wrap.
-/

namespace CS111.Boot

set_option autoImplicit false

open Mpos (memcpy memcpy_outside next_iterate)

/-- The destination lies behind the source and the two overlap: then the last byte goes first. -/
def memmove (m : UInt32 → UInt8) (dst src n : UInt32) : UInt32 → UInt8 :=
  if src < dst ∧ dst < src + n then
    copyForward (· - 1) n.toNat m (dst + n - 1) (src + n - 1)
  else copyForward (· + 1) n.toNat m dst src

variable {m : UInt32 → UInt8} {dst src n a : UInt32} {i : Nat}

theorem prev_iterate (i : Nat) (a : UInt32) : (· - 1)^[i] a = a - UInt32.ofNat i := by
  induction i with
  | zero => exact (UInt32.sub_zero a).symm
  | succ i ih =>
    rw [Function.iterate_succ_apply', ih, UInt32.ofNat_add]
    show a - UInt32.ofNat i - 1 = a - (UInt32.ofNat i + 1)
    grind

theorem forward_toNat (h : a.toNat + n.toNat ≤ 4294967296) (hi : i < n.toNat) :
    (a + UInt32.ofNat i).toNat = a.toNat + i := by
  rw [UInt32.toNat_add, UInt32.toNat_ofNat']
  omega

theorem backward_toNat (h : a.toNat + n.toNat ≤ 4294967296) (hi : i < n.toNat) :
    (a + n - 1 - UInt32.ofNat i).toNat = a.toNat + (n.toNat - 1 - i) := by
  simp only [UInt32.toNat_sub, UInt32.toNat_add, UInt32.toNat_ofNat', UInt32.reduceToNat]
  omega

/-- The same cell from both ends. -/
theorem backward_eq (h : a.toNat + n.toNat ≤ 4294967296) (hi : i < n.toNat) :
    a + n - 1 - UInt32.ofNat (n.toNat - 1 - i) = a + UInt32.ofNat i := by
  apply UInt32.toNat_inj.mp
  rw [backward_toNat h (by omega), forward_toNat h hi]
  omega

theorem forward_readsFirst (hsrc : src.toNat + n.toNat ≤ 4294967296)
    (hdst : dst.toNat + n.toNat ≤ 4294967296)
    (h : dst.toNat ≤ src.toNat ∨ src.toNat + n.toNat ≤ dst.toNat) :
    ReadsFirst (· + 1) n.toNat dst src := by
  intro i j hij hj heq
  have hnat := congrArg UInt32.toNat heq
  rw [next_iterate, next_iterate, forward_toNat hdst (by omega), forward_toNat hsrc (by omega)] at hnat
  omega

theorem backward_readsFirst (hsrc : src.toNat + n.toNat ≤ 4294967296)
    (hdst : dst.toNat + n.toNat ≤ 4294967296) (h : src.toNat ≤ dst.toNat) :
    ReadsFirst (· - 1) n.toNat (dst + n - 1) (src + n - 1) := by
  intro i j hij hj heq
  have hnat := congrArg UInt32.toNat heq
  rw [prev_iterate, prev_iterate, backward_toNat hdst (by omega), backward_toNat hsrc (by omega)] at hnat
  omega

/-- A copy whose source is not stored into before it is read. -/
theorem memcpy_inside (hsrc : src.toNat + n.toNat ≤ 4294967296) (hdst : dst.toNat + n.toNat ≤ 4294967296)
    (h : dst.toNat ≤ src.toNat ∨ src.toNat + n.toNat ≤ dst.toNat) (hi : i < n.toNat) :
    memcpy m dst src n (dst + UInt32.ofNat i) = m (src + UInt32.ofNat i) := by
  rw [← next_iterate, ← next_iterate]
  exact copyForward_inside (forward_readsFirst hsrc hdst h)
    (forward_readsFirst hdst hdst (.inl (Nat.le_refl _))) hi

theorem backward_outside (hdst : dst.toNat + n.toNat ≤ 4294967296)
    (h : ∀ i, i < n.toNat → a ≠ dst + UInt32.ofNat i) :
    copyForward (· - 1) n.toNat m (dst + n - 1) (src + n - 1) a = m a := by
  apply copyForward_outside
  intro i hi
  have hcell := backward_eq hdst (show n.toNat - 1 - i < n.toNat by omega)
  rw [show n.toNat - 1 - (n.toNat - 1 - i) = i by omega] at hcell
  rw [prev_iterate, hcell]
  exact h _ (by omega)

theorem backward_inside (hsrc : src.toNat + n.toNat ≤ 4294967296)
    (hdst : dst.toNat + n.toNat ≤ 4294967296) (h : src.toNat ≤ dst.toNat) (hi : i < n.toNat) :
    copyForward (· - 1) n.toNat m (dst + n - 1) (src + n - 1) (dst + UInt32.ofNat i) =
      m (src + UInt32.ofNat i) := by
  have hcopied := copyForward_inside (m := m) (backward_readsFirst hsrc hdst h)
    (backward_readsFirst hdst hdst (Nat.le_refl _)) (show n.toNat - 1 - i < n.toNat by omega)
  rwa [prev_iterate, prev_iterate, backward_eq hdst hi, backward_eq hsrc hi] at hcopied

/-- Whether the two overlap or not, and in whatever way, the destination gets what the source had and
nothing else changes. A source that ends with the address space would be taken for one that does not
overlap. -/
theorem memmove_moves (m : UInt32 → UInt8) (dst src n : UInt32)
    (hsrc : src.toNat + n.toNat < 4294967296) (hdst : dst.toNat + n.toNat ≤ 4294967296) :
    (∀ i, i < n.toNat → memmove m dst src n (dst + UInt32.ofNat i) = m (src + UInt32.ofNat i)) ∧
      ∀ a, (∀ i, i < n.toNat → a ≠ dst + UInt32.ofNat i) → memmove m dst src n a = m a := by
  have hend : (src + n).toNat = src.toNat + n.toNat := by
    rw [UInt32.toNat_add]
    omega
  unfold memmove
  split
  · next hoverlap =>
    have hlt := UInt32.lt_iff_toNat_lt.mp hoverlap.1
    exact ⟨fun i hi => backward_inside (Nat.le_of_lt hsrc) hdst (Nat.le_of_lt hlt) hi,
      fun a ha => backward_outside hdst ha⟩
  · next hapart =>
    rw [UInt32.lt_iff_toNat_lt, UInt32.lt_iff_toNat_lt, hend] at hapart
    exact ⟨fun i hi => memcpy_inside (Nat.le_of_lt hsrc) hdst (by omega) hi,
      fun a ha => memcpy_outside ha⟩

theorem memmove_moves_up :
    (∀ i, i < (10 : UInt32).toNat →
      memmove UInt32.toUInt8 5 0 10 (5 + UInt32.ofNat i) = (0 + UInt32.ofNat i).toUInt8) ∧
      ∀ a, (∀ i, i < (10 : UInt32).toNat → a ≠ 5 + UInt32.ofNat i) →
        memmove UInt32.toUInt8 5 0 10 a = a.toUInt8 :=
  memmove_moves UInt32.toUInt8 5 0 10 (by decide) (by decide)

end CS111.Boot
