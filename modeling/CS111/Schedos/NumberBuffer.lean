import Mathlib.Algebra.GroupWithZero.Nat
import Mathlib.Data.List.GetD
import CS111.Lib.Words
import CS111.Schedos.Console

/-!
# The digits that `fill_numbuf` leaves

The digits are stored from the last one on, so that each round puts one in front of those of the rounds
before it.
-/

namespace CS111.Schedos.Console

open Fallible

set_option autoImplicit false

variable {base val v : UInt32} {buf : Numbuf} {digits str : List UInt8} {precision : Int32} {p : Nat}
  {c : UInt8}

/-- The number that a character of one of the tables stands for. -/
def digitOf (c : UInt8) : Nat :=
  if c ≤ '9'.toUInt8 then c.toNat - 48 else if c ≤ 'F'.toUInt8 then c.toNat - 55 else c.toNat - 87

/-- The number that a string stands for in a base. -/
def valueOf (base : Nat) (str : List UInt8) : Nat :=
  str.foldl (fun n c => base * n + digitOf c) 0

/-- The string consists of digits of the base and stands for `n`. -/
structure Denotes (base : Nat) (digits str : List UInt8) (n : Nat) : Prop where
  mem : ∀ c ∈ str, c ∈ digits.take base
  value : valueOf base str = n

theorem Denotes.nil (base : Nat) (digits : List UInt8) : Denotes base digits [] 0 :=
  ⟨fun _ h => absurd h List.not_mem_nil, rfl⟩

/-- The table has sixteen digits, and each is at its place. -/
structure IsTable (digits : List UInt8) : Prop where
  length : digits.length = 16
  at_place : ∀ d, (h : d < digits.length) → digitOf digits[d] = d ∧ digits[d] ≠ 0

theorem upperDigits_table : IsTable upperDigits := ⟨by decide, by decide⟩

theorem lowerDigits_table : IsTable lowerDigits := ⟨by decide, by decide⟩

theorem IsTable.ne_zero (h : IsTable digits) : ∀ c ∈ digits, c ≠ 0 := by
  intro c hc
  obtain ⟨d, hd, rfl⟩ := List.getElem_of_mem hc
  exact (h.at_place d hd).2

theorem Denotes.snoc {n d : Nat} (h : Denotes p digits str n) (htable : IsTable digits)
    (hbase : p ≤ 16) (hd : d < p) :
    Denotes p digits (str ++ [digits.getD d 0]) (p * n + d) := by
  have hlen : d < digits.length := by
    rw [htable.length]
    omega
  have hget : digits.getD d 0 = digits[d] := List.getD_eq_getElem _ _ hlen
  rw [hget]
  constructor
  · intro c hc
    rcases List.mem_append.mp hc with hc | hc
    · exact h.mem c hc
    · rw [List.mem_singleton.mp hc]
      exact List.mem_take_iff_getElem.mpr ⟨d, by omega, rfl⟩
  · have hvalue := h.value
    unfold valueOf at hvalue ⊢
    rw [List.foldl_append, hvalue, List.foldl_cons, List.foldl_nil, (htable.at_place d hlen).1]

def cells (buf : Numbuf) (p n : Nat) : List UInt8 := (List.range' p n).map buf

theorem cells_snoc (buf : Numbuf) (p n : Nat) : cells buf p (n + 1) = cells buf p n ++ [buf (p + n)] := by
  unfold cells
  rw [List.range'_1_concat, List.map_append]
  rfl

theorem storeNumbuf_ok {i : Nat} (h : i < numbufSize) :
    storeNumbuf buf i c = .ok (Function.update buf i c) := if_pos h

/-- What the buffer holds between the pointer and `p` when the loop is done. -/
structure Filled (base : UInt32) (digits : List UInt8) (val : UInt32) (buf : Numbuf) (p : Nat)
    (r : Numbuf × Nat) : Prop where
  lt : r.2 < p
  kept : ∀ i, p ≤ i → r.1 i = buf i
  denotes : Denotes base.toNat digits (cells r.1 r.2 (p - r.2)) val.toNat

theorem fillDigits_succeeds (htable : IsTable digits) (hbase : base = 10 ∨ base = 16)
    (hp : p < numbufSize) (hpos : 0 < p) (hval : val.toNat < base.toNat ^ p) :
    Succeeds (Filled base digits val buf p) (fillDigits base digits p val buf) := by
  have hrange : 2 ≤ base.toNat ∧ base.toNat ≤ 16 := by
    rcases hbase with rfl | rfl
    all_goals decide
  induction p generalizing val buf with
  | zero => exact absurd hpos (Nat.lt_irrefl 0)
  | succ p ih =>
    have hdigit : (val % base).toNat < base.toNat := by
      rw [UInt32.toNat_mod]
      exact Nat.mod_lt _ (by omega)
    have hsplit : base.toNat * (val / base).toNat + (val % base).toNat = val.toNat := by
      rw [UInt32.toNat_div, UInt32.toNat_mod]
      exact Nat.div_add_mod _ _
    unfold fillDigits
    rw [storeNumbuf_ok (by omega)]
    refine Succeeds.bind (.ok rfl) fun buf' hbuf' => ?_
    subst hbuf'
    simp only
    have hlast : ∀ r : Numbuf × Nat, r.2 ≤ p →
        (∀ i, p ≤ i → r.1 i = Function.update buf p (digits.getD (val % base).toNat 0) i) →
        Denotes base.toNat digits (cells r.1 r.2 (p - r.2)) (val / base).toNat →
        Filled base digits val buf (p + 1) r := by
      intro r hle hkept hdenotes
      refine ⟨by omega, fun i hi => ?_, ?_⟩
      · rw [hkept i (by omega), Function.update_of_ne (by omega)]
      · have hsnoc := hdenotes.snoc htable hrange.2 hdigit
        rw [hsplit] at hsnoc
        rw [Nat.succ_sub hle, cells_snoc, Nat.add_sub_cancel' hle, hkept p (Nat.le_refl p),
          Function.update_self]
        exact hsnoc
    by_cases hmore : val / base = 0
    · rw [if_neg (by simpa using hmore)]
      refine .ok (hlast (_, p) (Nat.le_refl p) (fun i _ => rfl) ?_)
      rw [Nat.sub_self, hmore]
      exact .nil _ _
    · rw [if_pos hmore]
      have hquot : (val / base).toNat < base.toNat ^ p := by
        rw [UInt32.toNat_div]
        exact Nat.div_lt_of_lt_mul (by rwa [Nat.pow_succ, Nat.mul_comm] at hval)
      have hpos' : 0 < p := by
        rcases Nat.eq_zero_or_pos p with rfl | h
        · refine absurd (UInt32.toNat_inj.mp ?_) hmore
          simpa using hquot
        · exact h
      refine (ih (by omega) hpos' hquot).mono fun r hr => ?_
      exact hlast r (Nat.le_of_lt hr.lt) hr.kept hr.denotes

/-- The string that begins at the pointer is there, ends with a NUL and stands for the number. -/
structure Holds (base : UInt32) (digits : List UInt8) (val : UInt32) (precision : Int32)
    (r : Numbuf × Nat) (str : List UInt8) : Prop where
  string : numbufString r.1 r.2 = .ok str
  denotes : Denotes base.toNat digits str val.toNat
  empty : str = [] ↔ val = 0 ∧ precision = 0

theorem numbufString_cells (hp : p < numbufSize) (hstr : cells buf p (numbufSize - 1 - p) = str)
    (hnul : buf (numbufSize - 1) = 0) (hne : ∀ c ∈ str, c ≠ 0) : numbufString buf p = .ok str := by
  have hall : (List.range' p (numbufSize - p)).map buf = str ++ [0] := by
    have hlen : numbufSize - p = numbufSize - 1 - p + 1 := by omega
    have hlast : p + (numbufSize - 1 - p) = numbufSize - 1 := by omega
    rw [hlen]
    exact (cells_snoc buf p _).trans (by rw [hstr, hlast, hnul])
  unfold numbufString
  simp only [hall]
  rw [if_pos (by simp), List.takeWhile_append_of_pos (by simpa using hne)]
  simp

theorem fillNumbuf_succeeds (htable : IsTable digits) (hbase : base = 10 ∨ base = 16)
    (buf : Numbuf) (val : UInt32) (precision : Int32) :
    Succeeds (fun r => ∃ str, Holds base digits val precision r str)
      (fillNumbuf buf val base digits precision) := by
  have hp : numbufSize - 1 < numbufSize := by decide
  unfold fillNumbuf
  simp only
  rw [storeNumbuf_ok hp]
  refine Succeeds.bind (.ok rfl) fun buf' hbuf' => ?_
  subst hbuf'
  by_cases hany : precision ≠ 0 ∨ val ≠ 0
  · rw [if_pos hany]
    have hval : val.toNat < base.toNat ^ (numbufSize - 1) := by
      have hlt := val.toNat_lt
      rcases hbase with rfl | rfl
      all_goals exact Nat.lt_of_lt_of_le hlt (by decide)
    refine (fillDigits_succeeds htable hbase hp (by decide) hval).mono fun r hr => ?_
    have hne : ∀ c ∈ cells r.1 r.2 (numbufSize - 1 - r.2), c ≠ 0 := fun c hc =>
      htable.ne_zero c (List.mem_of_mem_take (hr.denotes.mem c hc))
    have hnul : r.1 (numbufSize - 1) = 0 := by
      rw [hr.kept _ (Nat.le_refl _), Function.update_self]
    have hlt := hr.lt
    refine ⟨_, numbufString_cells (by omega) rfl hnul hne, hr.denotes, ?_⟩
    refine iff_of_false (fun hnil => ?_) (fun h => ?_)
    · have hlen := congrArg List.length hnil
      simp [cells] at hlen
      omega
    · rcases hany with h0 | h0
      · exact h0 h.2
      · exact h0 h.1
  · rw [if_neg hany]
    have hboth : precision = 0 ∧ val = 0 := by simpa using hany
    have hnul : Function.update buf (numbufSize - 1) 0 (numbufSize - 1) = 0 := Function.update_self ..
    refine .ok ⟨[], numbufString_cells hp (by rfl) hnul (by simp), ?_, ?_⟩
    · rw [hboth.2]
      exact .nil _ _
    · exact iff_of_true rfl ⟨hboth.2, hboth.1⟩

/-! ## The conversions of numbers -/

/-- The base of a conversion that prints a number. -/
def numberBase (c : UInt8) : Option Nat :=
  if c = 'd'.toUInt8 ∨ c = 'u'.toUInt8 then some 10
  else if c = 'x'.toUInt8 ∨ c = 'X'.toUInt8 then some 16
  else none

/-- The absolute value of an argument, which is signed for `%d` only. -/
def magnitude (c : UInt8) (v : UInt32) : Nat :=
  if c = 'd'.toUInt8 then v.toInt32.toInt.natAbs else v.toNat

theorem toInt_toInt32 (v : UInt32) : v.toInt32.toInt = toInt32 v.toNat := by
  have hbits : v.toInt32.toInt = (v.toNat : Int).bmod (2 ^ 32) := BitVec.toInt_eq_toNat_bmod _
  have hlt := v.toNat_lt
  rw [hbits, Int.bmod_def]
  unfold toInt32
  split <;> split <;> omega

/-- `x > 0 ? x : -x` is the absolute value, also of the least `int`. -/
theorem negate_toNat (v : UInt32) :
    (if 0 < v.toInt32 then v else (-v.toInt32).toUInt32).toNat = v.toInt32.toInt.natAbs := by
  have hlt := v.toNat_lt
  rw [Int32.toUInt32_neg, UInt32.toUInt32_toInt32]
  simp only [Int32.lt_iff_toInt_lt, Int32.toInt_zero, toInt_toInt32]
  by_cases hpos : 0 < toInt32 v.toNat
  · rw [if_pos hpos]
    unfold toInt32 at *
    omega
  · rw [if_neg hpos, UInt32.toNat_neg, UInt32.size]
    unfold toInt32 at *
    omega

theorem number_spec {base : Nat} (h : numberBase c = some base) :
    ∃ x, number c = some x ∧ ∀ v, (x v).base.toNat = base ∧ (x v).val.toNat = magnitude c v ∧
      IsTable (x v).digits ∧ ((x v).base = 10 ∨ (x v).base = 16) := by
  unfold numberBase at h
  split at h
  · rename_i hc
    obtain rfl := Option.some.inj h
    rcases hc with rfl | rfl
    · exact ⟨_, rfl, fun v => ⟨rfl, negate_toNat v, upperDigits_table, .inl rfl⟩⟩
    · exact ⟨_, rfl, fun v => ⟨rfl, rfl, upperDigits_table, .inl rfl⟩⟩
  · split at h
    · rename_i hc
      obtain rfl := Option.some.inj h
      rcases hc with rfl | rfl
      · exact ⟨_, rfl, fun v => ⟨rfl, rfl, lowerDigits_table, .inr rfl⟩⟩
      · exact ⟨_, rfl, fun v => ⟨rfl, rfl, upperDigits_table, .inr rfl⟩⟩
    · cases h

end CS111.Schedos.Console
