import Mathlib.Data.List.GetD
import Mathlib.Data.List.Nodup
import Mathlib.Algebra.GroupWithZero.Nat

/-!
# Digits of a string of bytes

A string of bytes is a number, the low byte first. A text that spells its digits in a base `2 ^ w` with
`w ≤ 8` finds each of them in one byte or in two neighbours.
-/

namespace CS111.Digits

set_option autoImplicit false

variable {l l' : List UInt8} {base a b : Nat}

def number : List UInt8 → Nat
  | [] => 0
  | x :: l => x.toNat + 256 * number l

theorem number_lt (l : List UInt8) : number l < 256 ^ l.length := by
  induction l with
  | nil => exact Nat.one_pos
  | cons x l ih =>
    have := x.toNat_lt
    rw [number, List.length_cons, Nat.pow_succ]
    omega

theorem number_inj (hlen : l.length = l'.length) (h : number l = number l') : l = l' := by
  induction l generalizing l' with
  | nil => exact (List.eq_nil_of_length_eq_zero hlen.symm).symm
  | cons x l ih =>
    cases l' with
    | nil => cases hlen
    | cons y l' =>
      have hx := x.toNat_lt
      have hy := y.toNat_lt
      rw [number, number] at h
      have hhead : x = y := UInt8.toNat_inj.mp (by omega)
      rw [hhead, ih (Nat.succ.inj hlen) (by omega)]

theorem number_drop (l : List UInt8) (q : Nat) : number l / 256 ^ q = number (l.drop q) := by
  induction q generalizing l with
  | zero => rw [Nat.pow_zero, Nat.div_one, List.drop_zero]
  | succ q ih =>
    cases l with
    | nil => rw [List.drop_nil, number, Nat.zero_div]
    | cons x l =>
      have hx := x.toNat_lt
      have hfirst : (x.toNat + 256 * number l) / 256 = number l := by omega
      rw [Nat.pow_succ, Nat.mul_comm, ← Nat.div_div_eq_div_mul, number, hfirst, ih, List.drop_succ_cons]

theorem number_eq (l : List UInt8) :
    number l = (l.getD 0 0).toNat + 256 * ((l.getD 1 0).toNat + 256 * number (l.drop 2)) := by
  cases l with
  | nil => rfl
  | cons x l =>
    cases l with
    | nil => rfl
    | cons y l => rfl

section Windows

/-- The bits from `bit` on, in its byte and the next one. -/
def window (l : List UInt8) (bit : Nat) : Nat :=
  ((l.getD (bit / 8) 0).toNat >>> (bit % 8)) + ((l.getD (bit / 8 + 1) 0).toNat <<< (8 - bit % 8))

/-- A digit, found in its window. -/
theorem window_mod {w : Nat} (hw : w ≤ 8) (l : List UInt8) (bit : Nat) :
    window l bit % 2 ^ w = number l / 2 ^ bit % 2 ^ w := by
  have hbit : 2 ^ bit = 256 ^ (bit / 8) * 2 ^ (bit % 8) := by
    rw [show 256 = 2 ^ 8 from rfl, ← Nat.pow_mul, ← Nat.pow_add, Nat.div_add_mod]
  have hget : ∀ k, l.getD (bit / 8 + k) 0 = (l.drop (bit / 8)).getD k 0 := by
    intro k
    rw [List.getD_eq_getElem?_getD, List.getD_eq_getElem?_getD, List.getElem?_drop]
  have hr : bit % 8 < 8 := Nat.mod_lt _ (by decide)
  have hsplit : 256 = 2 ^ (bit % 8) * 2 ^ (8 - bit % 8) := by
    rw [← Nat.pow_add, Nat.add_sub_cancel' (Nat.le_of_lt hr)]
  have hhigh : ∀ n, 2 ^ (8 - bit % 8) * (256 * n) % 2 ^ w = 0 := by
    intro n
    rw [show 256 = 2 ^ w * 2 ^ (8 - w) by rw [← Nat.pow_add, Nat.add_sub_cancel' hw], Nat.mul_assoc,
      Nat.mul_left_comm, Nat.mul_mod_right]
  rw [hbit, ← Nat.div_div_eq_div_mul, number_drop, number_eq (l.drop _), window, Nat.shiftRight_eq_div_pow,
    Nat.shiftLeft_eq, hget 1, ← Nat.add_zero (bit / 8), hget 0, Nat.add_zero]
  generalize ((l.drop (bit / 8)).getD 0 0).toNat = x
  generalize ((l.drop (bit / 8)).getD 1 0).toNat = y
  generalize number ((l.drop (bit / 8)).drop 2) = z
  calc (x / 2 ^ (bit % 8) + y * 2 ^ (8 - bit % 8)) % 2 ^ w
      = (x / 2 ^ (bit % 8) + 2 ^ (8 - bit % 8) * y + 2 ^ (8 - bit % 8) * (256 * z)) % 2 ^ w := by
        rw [Nat.add_mod _ (2 ^ (8 - bit % 8) * (256 * z)), hhigh, Nat.add_zero, Nat.mod_mod,
          Nat.mul_comm y]
    _ = (x + 256 * (y + 256 * z)) / 2 ^ (bit % 8) % 2 ^ w := by
        have hdiv : (x + 256 * (y + 256 * z)) / 2 ^ (bit % 8) =
            x / 2 ^ (bit % 8) + 2 ^ (8 - bit % 8) * (y + 256 * z) := by
          calc (x + 256 * (y + 256 * z)) / 2 ^ (bit % 8)
              = (x + 2 ^ (bit % 8) * (2 ^ (8 - bit % 8) * (y + 256 * z))) / 2 ^ (bit % 8) := by
                rw [← Nat.mul_assoc, ← hsplit]
            _ = _ := Nat.add_mul_div_left _ _ (Nat.two_pow_pos _)
        rw [hdiv, Nat.mul_add, Nat.add_assoc]

/-- A window that begins with a byte does not need the next one. -/
theorem window_aligned {w bit : Nat} (hw : w ≤ 8) (l : List UInt8) (h : bit % 8 = 0) :
    ((l.getD (bit / 8) 0).toNat >>> (bit % 8)) % 2 ^ w = window l bit % 2 ^ w := by
  rw [window, h, Nat.shiftLeft_eq, Nat.sub_zero,
    show 2 ^ 8 = 2 ^ w * 2 ^ (8 - w) by rw [← Nat.pow_add, Nat.add_sub_cancel' hw],
    Nat.mul_left_comm, Nat.add_mul_mod_self_left]

/-- Nothing comes behind the last byte. -/
theorem window_last {bit : Nat} (h : l.length ≤ bit / 8 + 1) :
    window l bit = (l.getD (bit / 8) 0).toNat >>> (bit % 8) := by
  rw [window, List.getD_eq_default _ _ h]
  exact congrArg (_ + ·) (Nat.zero_shiftLeft _)

end Windows

section Text

/-- Enough digits determine the number. -/
theorem eq_of_digits {n : Nat} (ha : a < base ^ n) (hb : b < base ^ n)
    (h : ∀ i, i < n → a / base ^ i % base = b / base ^ i % base) : a = b := by
  induction n generalizing a b with
  | zero =>
    rw [Nat.pow_zero] at ha hb
    omega
  | succ n ih =>
    have hfirst : a % base = b % base := by
      have hzero := h 0 (Nat.succ_pos n)
      rwa [Nat.pow_zero, Nat.div_one, Nat.div_one] at hzero
    have hrest : a / base = b / base := by
      apply ih
      · exact Nat.div_lt_of_lt_mul (by rwa [Nat.mul_comm, ← Nat.pow_succ])
      · exact Nat.div_lt_of_lt_mul (by rwa [Nat.mul_comm, ← Nat.pow_succ])
      · intro i hi
        have hnext := h (i + 1) (Nat.succ_lt_succ hi)
        rwa [Nat.pow_succ, Nat.mul_comm, ← Nat.div_div_eq_div_mul, ← Nat.div_div_eq_div_mul] at hnext
    rw [← Nat.mod_add_div a base, ← Nat.mod_add_div b base, hfirst, hrest]

/-- The first `n` digits of `w` bits. -/
def digits (w n : Nat) (l : List UInt8) : List Nat :=
  (List.range n).map fun i => window l (w * i) % 2 ^ w

theorem digits_inj {w n : Nat} (hw : w ≤ 8) (hlen : l.length = l'.length) (hn : 8 * l.length ≤ w * n)
    (h : digits w n l = digits w n l') : l = l' := by
  have hlt : ∀ k : List UInt8, k.length = l.length → number k < (2 ^ w) ^ n := by
    intro k hk
    calc number k < 256 ^ k.length := number_lt k
      _ = 2 ^ (8 * l.length) := by rw [hk, show 256 = 2 ^ 8 from rfl, ← Nat.pow_mul]
      _ ≤ 2 ^ (w * n) := Nat.pow_le_pow_right (by decide) hn
      _ = (2 ^ w) ^ n := Nat.pow_mul 2 w n
  apply number_inj hlen
  apply eq_of_digits (hlt l rfl) (hlt l' hlen.symm)
  intro i hi
  have hdigit := (List.map_inj_left.mp h) i (List.mem_range.mpr hi)
  rwa [window_mod hw, window_mod hw, Nat.pow_mul] at hdigit

/-- The first `n` digits, spelled with an alphabet. -/
def text {α : Type} (chars : List α) (z : α) (w n : Nat) (l : List UInt8) : List α :=
  (digits w n l).map (chars.getD · z)

theorem text_inj {α : Type} {chars : List α} {z : α} {w n : Nat} (hchars : chars.Nodup)
    (hbase : 2 ^ w ≤ chars.length) (hw : w ≤ 8) (hlen : l.length = l'.length) (hn : 8 * l.length ≤ w * n)
    (h : text chars z w n l = text chars z w n l') : l = l' := by
  apply digits_inj hw hlen hn
  rw [text, text, digits, digits, List.map_map, List.map_map, List.map_inj_left] at h
  apply List.map_congr_left
  intro i hi
  have hlt : ∀ k : List UInt8, window k (w * i) % 2 ^ w < chars.length := fun k =>
    Nat.lt_of_lt_of_le (Nat.mod_lt _ (Nat.two_pow_pos w)) hbase
  have hchar := h i hi
  simp only [Function.comp_apply, List.getD_eq_getElem _ _ (hlt _)] at hchar
  exact (List.Nodup.getElem_inj_iff hchars).mp hchar

end Text

end CS111.Digits
