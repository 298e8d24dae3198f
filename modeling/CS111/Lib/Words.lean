import Mathlib.Algebra.GroupWithZero.Nat
import Mathlib.Data.Int.Notation
import Mathlib.Data.Nat.Bitwise
import CS111.Lib.Memory

/-!
# 32-bit words and bit vectors in a byte memory

Unsigned 32-bit values are naturals below `2 ^ 32`; `u32` is the conversion to that type and
`usub32` its subtraction. `toInt32` reads such a value as a signed `int`, `ofInt32` converts back.

In a memory words are little-endian. A bit vector is an array of 32-bit words, the low bits first.
-/

set_option autoImplicit false

namespace CS111

/-! A literal of `Fin n` needs `n ≠ 0`; these are the sizes of the tables in use. -/

instance neZeroFive : NeZero 5 := ⟨by decide⟩

instance neZeroTen : NeZero 10 := ⟨by decide⟩

instance neZeroSixteen : NeZero 16 := ⟨by decide⟩

instance neZeroByte : NeZero 256 := ⟨by decide⟩

def u32 (n : Nat) : Nat := n % 4294967296

def usub32 (a b : Nat) : Nat := (4294967296 + a - b) % 4294967296

def toInt32 (n : Nat) : Int := if n < 2147483648 then n else n - 4294967296

def ofInt32 (t : Int) : Nat := (t % 4294967296).toNat

theorem u32_lt (n : Nat) : u32 n < 4294967296 := Nat.mod_lt _ (by decide)

theorem u32_of_lt {n : Nat} (h : n < 4294967296) : u32 n = n := Nat.mod_eq_of_lt h

theorem usub32_lt (a b : Nat) : usub32 a b < 4294967296 := Nat.mod_lt _ (by decide)

theorem usub32_of_le {a b : Nat} (hba : b ≤ a) (ha : a < 4294967296) : usub32 a b = a - b := by
  unfold usub32
  omega

@[simp] theorem usub32_self {a : Nat} : usub32 a a = 0 := by
  unfold usub32
  omega

theorem ofInt32_toInt32 {n : Nat} (h : n < 4294967296) : ofInt32 (toInt32 n) = n := by
  unfold ofInt32 toInt32
  split <;> omega

end CS111

namespace CS111.Memory

abbrev Bytes := Nat → UInt8

section Words

def rd32 (m : Bytes) (a : Nat) : Nat :=
  (m a).toNat + 256 * (m (a + 1)).toNat + 65536 * (m (a + 2)).toNat + 16777216 * (m (a + 3)).toNat

def wordBytes (v : Nat) : List UInt8 :=
  [UInt8.ofNat v, UInt8.ofNat (v / 256), UInt8.ofNat (v / 65536), UInt8.ofNat (v / 16777216)]

def wr32 (m : Bytes) (a v : Nat) : Bytes := store m a (wordBytes v)

/-- `memset`. -/
def fill (m : Bytes) (a n : Nat) (byte : UInt8) : Bytes :=
  fun i => if a ≤ i ∧ i < a + n then byte else m i

variable {m m' : Bytes} {a b i v n : Nat}

theorem rd32_lt (m : Bytes) (a : Nat) : rd32 m a < 4294967296 := by
  have h0 := (m a).toNat_lt
  have h1 := (m (a + 1)).toNat_lt
  have h2 := (m (a + 2)).toNat_lt
  have h3 := (m (a + 3)).toNat_lt
  unfold rd32
  omega

theorem rd32_congr (h : ∀ k, k < 4 → m' (a + k) = m (a + k)) : rd32 m' a = rd32 m a := by
  have h0 := h 0 (by omega)
  rw [Nat.add_zero] at h0
  unfold rd32
  rw [h0, h 1 (by omega), h 2 (by omega), h 3 (by omega)]

theorem rd32_eq_zero (h : ∀ k, k < 4 → m (a + k) = 0) : rd32 m a = 0 := by
  have h0 := h 0 (by omega)
  rw [Nat.add_zero] at h0
  unfold rd32
  rw [h0, h 1 (by omega), h 2 (by omega), h 3 (by omega)]
  rfl

theorem wr32_outside (h : i < a ∨ a + 4 ≤ i) : wr32 m a v i = m i := store_outside h

theorem rd32_wr32_same (m : Bytes) (a v : Nat) : rd32 (wr32 m a v) a = u32 v := by
  have get : ∀ k (hk : k < 4), wr32 m a v (a + k) = (wordBytes v)[k] := fun k hk => store_inside hk
  have h0 := get 0 (by omega)
  rw [Nat.add_zero] at h0
  unfold rd32 u32
  rw [h0, get 1 (by omega), get 2 (by omega), get 3 (by omega)]
  simp only [wordBytes, List.getElem_cons_zero, List.getElem_cons_succ, UInt8.toNat_ofNat']
  omega

theorem rd32_wr32_of_lt (m : Bytes) (a : Nat) (h : v < 4294967296) : rd32 (wr32 m a v) a = v := by
  rw [rd32_wr32_same, u32_of_lt h]

theorem rd32_eq_of_wordBytes (h : v < 4294967296)
    (hb : ∀ k, k < 4 → m (a + k) = ((wordBytes v)[k]?).getD 0) : rd32 m a = v := by
  rw [← rd32_wr32_of_lt m a h]
  apply rd32_congr
  intro k hk
  have hlen : k < (wordBytes v).length := hk
  have hin : wr32 m a v (a + k) = (wordBytes v)[k] := store_inside hlen
  rw [hin, hb k hk, List.getElem?_eq_getElem hlen, Option.getD_some]

theorem wr32_rd32 (m x : Bytes) (a : Nat) {k : Nat} (hk : k < 4) :
    wr32 x a (rd32 m a) (a + k) = m (a + k) := by
  have hget : wr32 x a (rd32 m a) (a + k) = (wordBytes (rd32 m a))[k] := store_inside hk
  have h0 := (m a).toNat_lt
  have h1 := (m (a + 1)).toNat_lt
  have h2 := (m (a + 2)).toNat_lt
  have h3 := (m (a + 3)).toNat_lt
  rw [hget, ← UInt8.toNat_inj]
  unfold rd32
  match k, hk with
  | 0, _ =>
    simp only [wordBytes, List.getElem_cons_zero, UInt8.toNat_ofNat', Nat.add_zero]
    omega
  | 1, _ =>
    simp only [wordBytes, List.getElem_cons_zero, List.getElem_cons_succ, UInt8.toNat_ofNat']
    omega
  | 2, _ =>
    simp only [wordBytes, List.getElem_cons_zero, List.getElem_cons_succ, UInt8.toNat_ofNat']
    omega
  | 3, _ =>
    simp only [wordBytes, List.getElem_cons_zero, List.getElem_cons_succ, UInt8.toNat_ofNat']
    omega

theorem rd32_wr32_ne (h : a + 4 ≤ b ∨ b + 4 ≤ a) : rd32 (wr32 m a v) b = rd32 m b := by
  apply rd32_congr
  intro k hk
  exact wr32_outside (by omega)

theorem rd32_store_disjoint {bytes : List UInt8} (h : b + 4 ≤ a ∨ a + bytes.length ≤ b) :
    rd32 (store m a bytes) b = rd32 m b := by
  apply rd32_congr
  intro k hk
  exact store_outside (by omega)

theorem fill_outside {byte : UInt8} (h : i < a ∨ a + n ≤ i) : fill m a n byte i = m i := by
  unfold fill
  rw [if_neg (by omega)]

theorem fill_inside {byte : UInt8} (h : a ≤ i ∧ i < a + n) : fill m a n byte i = byte := if_pos h

end Words

section BitVectors

def bitvectorSet (m : Bytes) (vector i : Nat) : Bytes :=
  wr32 m (vector + 4 * (i / 32)) (rd32 m (vector + 4 * (i / 32)) ||| 1 <<< (i % 32))

def bitvectorClear (m : Bytes) (vector i : Nat) : Bytes :=
  wr32 m (vector + 4 * (i / 32))
    (rd32 m (vector + 4 * (i / 32)) &&& (4294967295 ^^^ 1 <<< (i % 32)))

def bitvectorTest (m : Bytes) (vector i : Nat) : Bool :=
  (rd32 m (vector + 4 * (i / 32))) &&& 1 <<< (i % 32) != 0

variable {m m' : Bytes} {v a i j : Nat}

theorem bitvectorTest_eq (m : Bytes) (v i : Nat) :
    bitvectorTest m v i = (rd32 m (v + 4 * (i / 32))).testBit (i % 32) := by
  unfold bitvectorTest
  rw [Nat.one_shiftLeft, Nat.and_two_pow]
  cases (rd32 m (v + 4 * (i / 32))).testBit (i % 32) <;> simp

theorem bitvectorTest_congr (h : ∀ k, k < 4 → m' (v + 4 * (i / 32) + k) = m (v + 4 * (i / 32) + k)) :
    bitvectorTest m' v i = bitvectorTest m v i := by
  rw [bitvectorTest_eq, bitvectorTest_eq, rd32_congr h]

theorem bitvectorTest_set (m : Bytes) (v i j : Nat) :
    bitvectorTest (bitvectorSet m v i) v j = (decide (j = i) || bitvectorTest m v j) := by
  rw [bitvectorTest_eq, bitvectorTest_eq]
  unfold bitvectorSet
  by_cases hword : i / 32 = j / 32
  · have hlt : rd32 m (v + 4 * (i / 32)) ||| 1 <<< (i % 32) < 2 ^ 32 := by
      apply Nat.or_lt_two_pow (rd32_lt _ _)
      rw [Nat.one_shiftLeft]
      exact Nat.pow_lt_pow_right (by omega) (Nat.mod_lt _ (by omega))
    have hiff : i % 32 = j % 32 ↔ j = i := by omega
    rw [← hword, rd32_wr32_of_lt _ _ hlt, Nat.testBit_or, Nat.one_shiftLeft, Nat.testBit_two_pow,
      Bool.or_comm]
    simp only [hiff]
  · have hne : j ≠ i := fun h => hword (by rw [h])
    rw [rd32_wr32_ne (by omega)]
    simp [hne]

theorem bitvectorTest_clear (m : Bytes) (v i j : Nat) :
    bitvectorTest (bitvectorClear m v i) v j = (decide (j ≠ i) && bitvectorTest m v j) := by
  rw [bitvectorTest_eq, bitvectorTest_eq]
  unfold bitvectorClear
  by_cases hword : i / 32 = j / 32
  · have hlt : rd32 m (v + 4 * (i / 32)) &&& (4294967295 ^^^ 1 <<< (i % 32)) < 2 ^ 32 :=
      Nat.and_lt_two_pow _ (Nat.xor_lt_two_pow (by decide) (by
        rw [Nat.one_shiftLeft]
        exact Nat.pow_lt_pow_right (by omega) (Nat.mod_lt _ (by omega))))
    have hiff : i % 32 = j % 32 ↔ j = i := by omega
    have hmask : (4294967295 : Nat) = 2 ^ 32 - 1 := by decide
    rw [← hword, rd32_wr32_of_lt _ _ hlt, Nat.testBit_and, Nat.testBit_xor, Nat.one_shiftLeft,
      Nat.testBit_two_pow, hmask, Nat.testBit_two_pow_sub_one, Bool.and_comm]
    have hj : j % 32 < 32 := Nat.mod_lt _ (by omega)
    simp [hiff, hj]
  · have hne : j ≠ i := fun h => hword (by rw [h])
    rw [rd32_wr32_ne (by omega)]
    simp [hne]

theorem and_or_bit {w : Nat} (hw : w < 4294967296) (hbit : w.testBit (i % 32) = true) :
    w &&& (4294967295 ^^^ 1 <<< (i % 32)) ||| 1 <<< (i % 32) = w := by
  have hmask : (4294967295 : Nat) = 2 ^ 32 - 1 := by decide
  apply Nat.eq_of_testBit_eq
  intro j
  rw [Nat.testBit_or, Nat.testBit_and, Nat.testBit_xor, hmask, Nat.testBit_two_pow_sub_one,
    Nat.one_shiftLeft, Nat.testBit_two_pow]
  by_cases hj : i % 32 = j
  · subst hj
    rw [hbit]
    simp
  · by_cases hlt : j < 32
    · simp [hj, hlt]
    · have hhigh : w.testBit j = false := by
        apply Nat.testBit_lt_two_pow
        exact lt_of_lt_of_le hw (Nat.pow_le_pow_right (show 0 < 2 by decide) (show 32 ≤ j by omega))
      simp [hj, hhigh]
/-- A bit that was set is cleared and set again. -/
theorem bitvectorSet_restores {x : Bytes} {k : Nat} (hbit : bitvectorTest m v i = true)
    (hword : rd32 x (v + 4 * (i / 32)) = rd32 (bitvectorClear m v i) (v + 4 * (i / 32)))
    (hk : k < 4) : bitvectorSet x v i (v + 4 * (i / 32) + k) = m (v + 4 * (i / 32) + k) := by
  have hw := rd32_lt m (v + 4 * (i / 32))
  rw [bitvectorTest_eq] at hbit
  have hclear : rd32 (bitvectorClear m v i) (v + 4 * (i / 32)) =
      rd32 m (v + 4 * (i / 32)) &&& (4294967295 ^^^ 1 <<< (i % 32)) := by
    apply rd32_wr32_of_lt
    exact lt_of_le_of_lt Nat.and_le_left hw
  unfold bitvectorSet
  rw [hword, hclear, and_or_bit hw hbit]
  exact wr32_rd32 m x _ hk

theorem bitvectorSet_outside (h : a < v + 4 * (i / 32) ∨ v + 4 * (i / 32) + 4 ≤ a) :
    bitvectorSet m v i a = m a := wr32_outside h

theorem bitvectorClear_outside (h : a < v + 4 * (i / 32) ∨ v + 4 * (i / 32) + 4 ≤ a) :
    bitvectorClear m v i a = m a := wr32_outside h

end BitVectors

end CS111.Memory
