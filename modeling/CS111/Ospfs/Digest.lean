import Mathlib.Data.List.Basic
import CS111.Lib.Digits
import CS111.Lib.Scattered
import CS111.Ospfs.Md5
import CS111.P2P.Digest

/-!
# What the message digest of the formatter computes

However the message is divided into calls of `md5_update`, the digest is the one of the message with a
length of `lengthField` bits behind it. That number is the length below `2 ^ 29` bytes.
-/

namespace CS111.Ospfs

set_option autoImplicit false

open Memory Md5

variable {hd : Md5Context} {message data inbuf : List UInt8} {words : Nat → UInt32} {ops : List Op}

section Transform

theorem ff_eq (x y z : UInt32) : ff x y z = (x &&& y) ||| (~~~x &&& z) := by
  apply UInt32.toBitVec_inj.mp
  ext k hk
  simp only [ff, UInt32.toBitVec_xor, UInt32.toBitVec_and, UInt32.toBitVec_or, UInt32.toBitVec_not,
    BitVec.getElem_xor, BitVec.getElem_and, BitVec.getElem_or, BitVec.getElem_not]
  cases x.toBitVec[k] <;> cases y.toBitVec[k] <;> cases z.toBitVec[k] <;> rfl

theorem fg_eq (x y z : UInt32) : fg x y z = (x &&& z) ||| (y &&& ~~~z) := by
  rw [fg, ff_eq, UInt32.and_comm z x, UInt32.and_comm (~~~z) y]

/-- The operation in three assignments, where the second register is another one. -/
theorem op_eq_run {f : UInt32 → UInt32 → UInt32 → UInt32} {o : Op} (ho : o.p ≠ o.q) (r : Registers) :
    op f words r o = Op.run f words r o := by
  have hput : ∀ (v w : UInt32) (p : Reg), (r.put v p).put w p = r.put w p := by
    intro v w p
    cases p <;> rfl
  have hget : ∀ (v : UInt32) (p : Reg), (r.put v p).get p = v := by
    intro v p
    cases p <;> rfl
  have hother : ∀ (v : UInt32) (p q : Reg), p ≠ q → (r.put v p).get q = r.get q := by
    intro v p q hpq
    cases p <;> cases q <;> first | rfl | exact absurd rfl hpq
  unfold op Op.run
  simp only [hput, hget, hother _ _ _ ho]
  rw [UInt32.add_comm (rol _ _), ← UInt32.add_assoc, ← UInt32.add_assoc]
  rfl

theorem foldl_op {f f' : UInt32 → UInt32 → UInt32 → UInt32} (hf : ∀ x y z, f x y z = f' x y z)
    (hops : ∀ o ∈ ops, o.p ≠ o.q) (r : Registers) :
    ops.foldl (op f words) r = ops.foldl (Op.run f' words) r := by
  have hff : f = f' := funext fun x => funext fun y => funext fun z => hf x y z
  rw [hff]
  exact List.foldl_ext _ _ _ fun r o ho => op_eq_run (hops o ho) r

/-- The operations of the first round with their words. -/
def numbered (k : Nat) : List Op1 → List Op
  | [] => []
  | o :: ops => ⟨o.a, o.b, o.c, o.d, k, o.s, o.t⟩ :: numbered (k + 1) ops

theorem foldl_op1 (ops : List Op1) (r : Registers) (k : Nat) :
    (ops.foldl (op1 words) (r, k)).1 = (numbered k ops).foldl (op ff words) r := by
  induction ops generalizing r k with
  | nil => rfl
  | cons o ops ih => exact ih _ _

theorem round1_eq : numbered 0 round1 = (List.range' 0 16).map Op.of := by decide

theorem round2_eq : round2 = (List.range' 16 16).map Op.of := by decide

theorem round3_eq : round3 = (List.range' 32 16).map Op.of := by decide

theorem round4_eq : round4 = (List.range' 48 16).map Op.of := by decide

theorem names_ne (i : Nat) : (Op.of i).p ≠ (Op.of i).q := by
  have hcases : i % 4 = 0 ∨ i % 4 = 1 ∨ i % 4 = 2 ∨ i % 4 = 3 := by omega
  rcases hcases with h | h | h | h <;> simp [Op.of, names, h]

theorem foldl_op_of {f f' : UInt32 → UInt32 → UInt32 → UInt32} (hf : ∀ x y z, f x y z = f' x y z)
    (l : List Nat) (r : Registers) :
    (l.map Op.of).foldl (op f words) r = (l.map Op.of).foldl (Op.run f' words) r := by
  apply foldl_op hf
  intro o ho
  obtain ⟨i, -, rfl⟩ := List.mem_map.mp ho
  exact names_ne i

theorem transform_eq (hd : Md5Context) (data : List UInt8) :
    transform hd data = { hd with regs := compress hd.regs data } := by
  have hrounds : round4.foldl (op fi (word data)) (round3.foldl (op fh (word data))
      (round2.foldl (op fg (word data)) (round1.foldl (op1 (word data)) (hd.regs, 0)).1)) =
        (List.range 64).foldl (step (word data)) hd.regs := by
    rw [← rounds_eq, foldl_op1, round1_eq, round2_eq, round3_eq, round4_eq, foldl_op_of ff_eq,
      foldl_op_of fg_eq, foldl_op_of fun _ _ _ => rfl, foldl_op_of fun _ _ _ => rfl]
    rfl
  exact congrArg (fun r : Registers => { hd with
    regs := ⟨hd.regs.a + r.a, hd.regs.b + r.b, hd.regs.c + r.c, hd.regs.d + r.d⟩ }) hrounds

end Transform

section Update

theorem flush_of_ne (h : hd.count ≠ 64) : flush hd = hd := if_neg h

theorem flush_full (h : hd.count = 64) :
    flush hd = { hd with
      regs := compress hd.regs (load hd.buf 0 64)
      count := 0
      nblocks := hd.nblocks + 1 } := by
  unfold flush
  rw [if_pos h, transform_eq]

/-- The buffer takes as much as there is room for. -/
theorem fillBuf_eq (hd : Md5Context) (inbuf : List UInt8) (h : hd.count ≤ 64) :
    fillBuf hd inbuf =
      ({ hd with
          buf := store hd.buf hd.count (inbuf.take (64 - hd.count))
          count := hd.count + min (64 - hd.count) inbuf.length },
        inbuf.drop (64 - hd.count)) := by
  induction inbuf generalizing hd with
  | nil =>
    rw [fillBuf, List.take_nil, store_nil, List.length_nil, Nat.min_zero, List.drop_nil]
    rfl
  | cons byte inbuf ih =>
    unfold fillBuf
    split
    · next hroom =>
      have hsub : 64 - hd.count = 64 - (hd.count + 1) + 1 := by omega
      have hbuf : store (store hd.buf hd.count [byte]) (hd.count + 1)
          (inbuf.take (64 - (hd.count + 1))) =
            store hd.buf hd.count (byte :: inbuf.take (64 - (hd.count + 1))) := by
        rw [store_cons, store_nil, ← store_cons]
      have hcount : hd.count + 1 + min (64 - (hd.count + 1)) inbuf.length =
          hd.count + min (64 - (hd.count + 1) + 1) (inbuf.length + 1) := by omega
      rw [ih (hd.push byte) hroom, hsub, List.take_succ_cons, List.drop_succ_cons, List.length_cons,
        ← hbuf, ← hcount]
      rfl
    · next hfull =>
      have hzero : 64 - hd.count = 0 := by omega
      rw [hzero, List.take_zero, store_nil, Nat.zero_min, List.drop_zero]
      rfl

theorem wholeBlocks_eq (h : hd.count = 0) (inbuf : List UInt8) :
    wholeBlocks hd inbuf =
      ({ hd with
          regs := Absorb.absorb compress 64 hd.regs inbuf
          nblocks := hd.nblocks + UInt32.ofNat (inbuf.length / 64) },
        Absorb.left 64 inbuf) := by
  fun_induction wholeBlocks hd inbuf with
  | case1 hd inbuf hlen ih =>
    have hblocks : inbuf.length / 64 = (inbuf.drop 64).length / 64 + 1 := by
      rw [List.length_drop]
      omega
    rw [ih rfl, transform_eq, Absorb.absorb_take (by decide) hlen, Absorb.left_drop (by decide) hlen,
      hblocks, UInt32.ofNat_add, UInt32.add_comm (UInt32.ofNat _) (UInt32.ofNat 1), ← UInt32.add_assoc]
    simp only [h]
    rfl
  | case2 hd inbuf hlen =>
    have hlen : inbuf.length < 64 := Nat.not_le.mp hlen
    rw [Absorb.absorb_short hlen, Absorb.left_short hlen, Nat.div_eq_of_lt hlen]
    simp

/-- The context is that of a message. -/
structure Md5Context.Holds (hd : Md5Context) (message : List UInt8) : Prop where
  regs : hd.regs = Absorb.absorb compress 64 initial message
  buf : load hd.buf 0 hd.count = Absorb.left 64 message
  count : hd.count = message.length % 64
  nblocks : hd.nblocks = UInt32.ofNat (message.length / 64)
  unfinished : hd.finalized = false

theorem Md5Context.Holds.count_lt (h : hd.Holds message) : hd.count < 64 := by
  rw [h.count]
  exact Nat.mod_lt _ (by decide)

theorem md5Init_holds (hd : Md5Context) : (md5Init hd).Holds [] :=
  ⟨rfl, rfl, rfl, rfl, rfl⟩

theorem updateBlocks_holds (hcount : hd.count = 0)
    (hregs : Absorb.absorb compress 64 initial message = Absorb.absorb compress 64 hd.regs inbuf)
    (hleft : Absorb.left 64 message = Absorb.left 64 inbuf)
    (hblocks : UInt32.ofNat (message.length / 64) = hd.nblocks + UInt32.ofNat (inbuf.length / 64))
    (hopen : hd.finalized = false) : (updateBlocks hd inbuf).Holds message := by
  have hshort : (Absorb.left 64 inbuf).length < 64 := Absorb.length_left_lt (by decide) inbuf
  unfold updateBlocks
  rw [wholeBlocks_eq hcount]
  simp only
  rw [fillBuf_eq, hcount, Nat.sub_zero,
    List.take_of_length_le (Nat.le_of_lt hshort), Nat.zero_add, Nat.min_eq_right (Nat.le_of_lt hshort)]
  · refine ⟨hregs.symm, ?_, ?_, hblocks.symm, hopen⟩
    · rw [hleft]
      exact load_store_same hd.buf 0 (Absorb.left 64 inbuf)
    · rw [← hleft]
      exact Absorb.length_left message
  · show hd.count ≤ 64
    omega

theorem updateBlocks_nil (hd : Md5Context) : updateBlocks hd [] = hd := by
  unfold updateBlocks wholeBlocks
  rfl

/-- The data does not fill the buffer. -/
theorem short_holds (h : hd.Holds message) (hshort : hd.count + data.length < 64) :
    ({ hd with
      buf := store hd.buf hd.count data
      count := hd.count + data.length } : Md5Context).Holds (message ++ data) := by
  have hcount := h.count
  have hfits : (Absorb.left 64 message ++ data).length < 64 := by
    rw [List.length_append, Absorb.length_left, ← hcount]
    exact hshort
  have hover := Absorb.absorb_stream (f := compress) (n := 64) (by decide) initial message data
  have hleft := Absorb.left_stream (n := 64) (by decide) message data
  rw [← h.regs, Absorb.absorb_short hfits] at hover
  rw [Absorb.left_short hfits] at hleft
  refine ⟨hover.symm, ?_, ?_, ?_, h.unfinished⟩
  · rw [hleft, ← h.buf]
    exact load_store_append hd.buf hd.count data
  · show hd.count + data.length = _
    rw [List.length_append]
    omega
  · show hd.nblocks = _
    rw [h.nblocks, List.length_append]
    exact congrArg UInt32.ofNat (by omega)

/-- The data fills it. -/
theorem full_holds (h : hd.Holds message) (hfull : 64 ≤ hd.count + data.length) {n : Nat}
    (hn : n = 64 - hd.count) :
    (updateBlocks (flush { hd with
      buf := store hd.buf hd.count (data.take n)
      count := 64 }) (data.drop n)).Holds (message ++ data) := by
  have hcount := h.count
  have hless := h.count_lt
  have htaken : (data.take n).length = n := List.length_take_of_le (by omega)
  have hblock : (Absorb.left 64 message ++ data.take n).length = 64 := by
    rw [List.length_append, Absorb.length_left, htaken]
    omega
  have hstored : load (store hd.buf hd.count (data.take n)) 0 64 =
      Absorb.left 64 message ++ data.take n := by
    have happend := load_store_append hd.buf hd.count (data.take n)
    rwa [htaken, show hd.count + n = 64 by omega, h.buf] at happend
  have hsplit : Absorb.left 64 message ++ data =
      Absorb.left 64 message ++ data.take n ++ data.drop n := by
    rw [List.append_assoc, List.take_append_drop]
  have hover := Absorb.absorb_stream (f := compress) (n := 64) (by decide) initial message data
  have hleft := Absorb.left_stream (n := 64) (by decide) message data
  rw [← h.regs, hsplit, Absorb.absorb_cons (by decide) hblock] at hover
  rw [hsplit, Absorb.left_cons (by decide) hblock] at hleft
  rw [flush_full rfl]
  apply updateBlocks_holds rfl
  · show _ = Absorb.absorb compress 64 (compress hd.regs (load (store hd.buf hd.count _) 0 64)) _
    rw [hstored]
    exact hover
  · exact hleft
  · show _ = hd.nblocks + 1 + _
    rw [h.nblocks, List.length_append, List.length_drop, show (1 : UInt32) = UInt32.ofNat 1 from rfl,
      ← UInt32.ofNat_add, ← UInt32.ofNat_add]
    exact congrArg UInt32.ofNat (by omega)
  · exact h.unfinished

theorem md5Update_holds (h : hd.Holds message) (data : List UInt8) :
    (md5Update hd data).Holds (message ++ data) := by
  have hless := h.count_lt
  unfold md5Update
  rw [flush_of_ne (Nat.ne_of_lt hless)]
  simp only
  split
  · rw [fillBuf_eq hd data (Nat.le_of_lt hless)]
    simp only
    by_cases hshort : hd.count + data.length < 64
    · have hmin : min (64 - hd.count) data.length = data.length := by omega
      rw [hmin, List.take_of_length_le (by omega), List.drop_of_length_le (by omega),
        flush_of_ne (Nat.ne_of_lt hshort), if_pos List.length_nil]
      exact short_holds h hshort
    · have hmin : hd.count + min (64 - hd.count) data.length = 64 := by omega
      have hrest := full_holds h (Nat.not_lt.mp hshort) rfl
      rw [hmin]
      split
      · next hnone =>
        rw [List.eq_nil_of_length_eq_zero hnone, updateBlocks_nil] at hrest
        exact hrest
      · exact hrest
  · next hzero =>
    have hzero : hd.count = 0 := Decidable.not_not.mp hzero
    have hnil : Absorb.left 64 message = [] := by
      rw [← h.buf, hzero]
      rfl
    have hover := Absorb.absorb_stream (f := compress) (n := 64) (by decide) initial message data
    have hleft := Absorb.left_stream (n := 64) (by decide) message data
    have hmod := h.count
    rw [← h.regs, hnil, List.nil_append] at hover
    rw [hnil, List.nil_append] at hleft
    apply updateBlocks_holds hzero hover hleft
    · rw [h.nblocks, ← UInt32.ofNat_add, List.length_append]
      exact congrArg UInt32.ofNat (by omega)
    · exact h.unfinished

/-- A message that is given part by part. -/
theorem foldl_md5Update_holds {parts : List (List UInt8)} (h : hd.Holds message) :
    (parts.foldl md5Update hd).Holds (message ++ parts.flatten) := by
  induction parts generalizing hd message with
  | nil =>
    rw [List.flatten_nil, List.append_nil]
    exact h
  | cons data parts ih =>
    rw [List.foldl_cons, List.flatten_cons, ← List.append_assoc]
    exact ih (md5Update_holds h data)

end Update

section Length

/-- The number that `do_final` stores as the length in bits. A carry is seen wherever the low word gets
smaller, also where the shift moved nothing out of it. -/
def lengthField (len : Nat) : Nat :=
  let nblocks := len / 64 % 4294967296
  8 * len % 4294967296 + 4294967296 *
    ((if 64 * nblocks % 4294967296 < nblocks then 1 else 0) + nblocks / 67108864 +
      (if 8 * len % 4294967296 < len % 4294967296 then 1 else 0) + len % 4294967296 / 536870912)

theorem lengthField_of_small {len : Nat} (h : len < 536870912) : lengthField len = 8 * len := by
  unfold lengthField
  simp only
  rw [if_neg (by omega), if_neg (by omega)]
  omega

/-- Below `2 ^ 32` bytes the field is right unless the low word of the product is less than the length. -/
theorem lengthField_iff {len : Nat} (h : len < 4294967296) :
    lengthField len = 8 * len ↔ len ≤ 8 * len % 4294967296 := by
  have hlen : len % 4294967296 = len := Nat.mod_eq_of_lt h
  have hblocks : len / 64 % 4294967296 / 67108864 = 0 := by omega
  unfold lengthField
  simp only
  rw [if_neg (by omega), hblocks, hlen]
  split <;> omega

theorem lengthBytes_words {a b : Nat} (ha : a < 4294967296) :
    wordBytes (UInt32.ofNat a) ++ wordBytes (UInt32.ofNat b) = lengthBytes (a + 4294967296 * b) := by
  have hbyte : ∀ (n c k : Nat), k = 0 ∧ c = 1 ∨ k = 8 ∧ c = 256 ∨ k = 16 ∧ c = 65536 ∨
      k = 24 ∧ c = 16777216 →
        (UInt32.ofNat n >>> UInt32.ofNat k).toUInt8 = UInt8.ofNat (n / c) := by
    intro n c k hk
    apply UInt8.toNat_inj.mp
    rw [UInt32.toNat_toUInt8, UInt32.toNat_shiftRight, UInt32.toNat_ofNat', UInt32.toNat_ofNat',
      UInt8.toNat_ofNat', Nat.shiftRight_eq_div_pow]
    rcases hk with ⟨rfl, rfl⟩ | ⟨rfl, rfl⟩ | ⟨rfl, rfl⟩ | ⟨rfl, rfl⟩ <;>
      simp only [Nat.reduceMod, Nat.reducePow] <;> omega
  have hsame : ∀ i j : Nat, i % 256 = j % 256 → UInt8.ofNat i = UInt8.ofNat j := by
    intro i j hij
    apply UInt8.toNat_inj.mp
    rw [UInt8.toNat_ofNat', UInt8.toNat_ofNat']
    exact hij
  have hword : ∀ n, wordBytes (UInt32.ofNat n) =
      [UInt8.ofNat (n / 1), UInt8.ofNat (n / 256), UInt8.ofNat (n / 65536), UInt8.ofNat (n / 16777216)] := by
    intro n
    rw [← hbyte n 1 0 (by decide), ← hbyte n 256 8 (by decide), ← hbyte n 65536 16 (by decide),
      ← hbyte n 16777216 24 (by decide)]
    rfl
  rw [hword, hword]
  show _ = [_, _, _, _, _, _, _, _]
  simp only [List.cons_append, List.nil_append, List.cons.injEq, and_true, Nat.reducePow]
  exact ⟨hsame _ _ (by omega), hsame _ _ (by omega), hsame _ _ (by omega), hsame _ _ (by omega),
    hsame _ _ (by omega), hsame _ _ (by omega), hsame _ _ (by omega), hsame _ _ (by omega)⟩

theorem bitCount_eq (len : Nat) :
    wordBytes (bitCount (UInt32.ofNat (len / 64)) (len % 64)).1 ++
      wordBytes (bitCount (UInt32.ofNat (len / 64)) (len % 64)).2 = lengthBytes (lengthField len) := by
  have hblocks : (UInt32.ofNat (len / 64)).toNat = len / 64 % 4294967296 := UInt32.toNat_ofNat'
  have hbytes : (UInt32.ofNat (len / 64) <<< 6).toNat = 64 * (len / 64 % 4294967296) % 4294967296 := by
    rw [UInt32.toNat_shiftLeft, hblocks, Nat.shiftLeft_eq, Nat.mul_comm]
    rfl
  have hsum : (UInt32.ofNat (len / 64) <<< 6 + UInt32.ofNat (len % 64)).toNat = len % 4294967296 := by
    rw [UInt32.toNat_add, hbytes, UInt32.toNat_ofNat']
    omega
  have hbits : ((UInt32.ofNat (len / 64) <<< 6 + UInt32.ofNat (len % 64)) <<< 3).toNat =
      8 * len % 4294967296 := by
    rw [UInt32.toNat_shiftLeft, hsum, Nat.shiftLeft_eq]
    show len % 4294967296 * 8 % 4294967296 = _
    omega
  have hshift : ∀ (w : UInt32) (k : Nat), k < 32 → (w >>> UInt32.ofNat k).toNat = w.toNat / 2 ^ k := by
    intro w k hk
    have hmod : k % 2 ^ 32 % 32 = k := by omega
    rw [UInt32.toNat_shiftRight, UInt32.toNat_ofNat', hmod, Nat.shiftRight_eq_div_pow]
  have hlow : (bitCount (UInt32.ofNat (len / 64)) (len % 64)).1 = UInt32.ofNat (8 * len % 4294967296) := by
    apply UInt32.toNat_inj.mp
    rw [UInt32.toNat_ofNat', Nat.mod_mod]
    exact hbits
  have hhigh : (bitCount (UInt32.ofNat (len / 64)) (len % 64)).2 = UInt32.ofNat
      ((if 64 * (len / 64 % 4294967296) % 4294967296 < len / 64 % 4294967296 then 1 else 0) +
        len / 64 % 4294967296 / 67108864 +
          (if 8 * len % 4294967296 < len % 4294967296 then 1 else 0) + len % 4294967296 / 536870912) := by
    have hfirst : UInt32.ofNat (len / 64) <<< 6 < UInt32.ofNat (len / 64) ↔
        64 * (len / 64 % 4294967296) % 4294967296 < len / 64 % 4294967296 := by
      rw [UInt32.lt_iff_toNat_lt, hbytes, hblocks]
    have hsecond : ¬ UInt32.ofNat (len / 64) <<< 6 + UInt32.ofNat (len % 64) <
        UInt32.ofNat (len / 64) <<< 6 := by
      rw [UInt32.lt_iff_toNat_lt, hsum, hbytes]
      omega
    have hthird : (UInt32.ofNat (len / 64) <<< 6 + UInt32.ofNat (len % 64)) <<< 3 <
        UInt32.ofNat (len / 64) <<< 6 + UInt32.ofNat (len % 64) ↔
          8 * len % 4294967296 < len % 4294967296 := by
      rw [UInt32.lt_iff_toNat_lt, hbits, hsum]
    have hq : (UInt32.ofNat (len / 64) >>> 26).toNat = len / 64 % 4294967296 / 67108864 := by
      rw [← hblocks]
      exact hshift _ 26 (by decide)
    have ht : ((UInt32.ofNat (len / 64) <<< 6 + UInt32.ofNat (len % 64)) >>> 29).toNat =
        len % 4294967296 / 536870912 := by
      rw [← hsum]
      exact hshift _ 29 (by decide)
    apply UInt32.toNat_inj.mp
    unfold bitCount
    simp only [if_neg hsecond, hfirst, hthird, UInt32.toNat_add, ht, UInt32.toNat_ofNat']
    split <;> split <;> simp only [UInt32.toNat_add, hq, UInt32.reduceToNat] <;> omega
  rw [hlow, hhigh, lengthBytes_words (Nat.mod_lt _ (by decide))]
  rfl

end Length

section Final

/-- The byte 128 and zeros up to `n`. -/
theorem pad_eq (hd : Md5Context) {n : Nat} (h : hd.count < n) :
    (hd.push 0x80).zeroTo n = { hd with
      buf := store hd.buf hd.count (0x80 :: List.replicate (n - (hd.count + 1)) 0)
      count := n } := by
  have hbuf : store (store hd.buf hd.count [0x80]) (hd.count + 1) (List.replicate (n - (hd.count + 1)) 0) =
      store hd.buf hd.count (0x80 :: List.replicate (n - (hd.count + 1)) 0) :=
    store_append hd.buf hd.count [0x80] _
  have hcount : max (hd.count + 1) n = n := Nat.max_eq_right h
  unfold Md5Context.zeroTo Md5Context.push
  simp only
  rw [hbuf, hcount]

/-- What `do_final` does once the last block is in the buffer. -/
def finished (hd : Md5Context) : Md5Context :=
  { transform hd (load hd.buf 0 64) with
    buf := store hd.buf 0 (transform hd (load hd.buf 0 64)).regs.bytes
    finalized := true }

theorem finished_buf {hd : Md5Context} {padded : List UInt8}
    (h : compress hd.regs (load hd.buf 0 64) = Absorb.absorb compress 64 initial padded) :
    load (finished hd).buf 0 16 = (Absorb.absorb compress 64 initial padded).bytes := by
  unfold finished
  rw [transform_eq]
  show load (store hd.buf 0 (compress hd.regs (load hd.buf 0 64)).bytes) 0 16 = _
  rw [h]
  exact load_store_same hd.buf 0 _

theorem doFinal_eq (h : hd.count < 64) :
    doFinal hd = finished
      (if hd.count < 56 then
        { hd with
          buf := store hd.buf hd.count (0x80 :: List.replicate (56 - (hd.count + 1)) 0 ++
            (wordBytes (bitCount hd.nblocks hd.count).1 ++ wordBytes (bitCount hd.nblocks hd.count).2))
          count := 56 }
      else
        { hd with
          regs := compress hd.regs
            (load (store hd.buf hd.count (0x80 :: List.replicate (64 - (hd.count + 1)) 0)) 0 64)
          nblocks := hd.nblocks + 1
          buf := store (store hd.buf hd.count (0x80 :: List.replicate (64 - (hd.count + 1)) 0)) 0
            (List.replicate 56 0 ++
              (wordBytes (bitCount hd.nblocks hd.count).1 ++ wordBytes (bitCount hd.nblocks hd.count).2))
          count := 0 }) := by
  unfold doFinal
  rw [flush_of_ne (Nat.ne_of_lt h)]
  simp only
  split
  · next hroom =>
    have hlen : hd.count + (0x80 :: List.replicate (56 - (hd.count + 1)) 0 : List UInt8).length = 56 := by
      rw [List.length_cons, List.length_replicate]
      omega
    have happend := store_append hd.buf hd.count (0x80 :: List.replicate (56 - (hd.count + 1)) 0)
      (wordBytes (bitCount hd.nblocks hd.count).1 ++ wordBytes (bitCount hd.nblocks hd.count).2)
    rw [hlen] at happend
    rw [pad_eq hd hroom, ← happend]
    rfl
  · have happend := store_append
      (store hd.buf hd.count (0x80 :: List.replicate (64 - (hd.count + 1)) 0)) 0 (List.replicate 56 0)
      (wordBytes (bitCount hd.nblocks hd.count).1 ++ wordBytes (bitCount hd.nblocks hd.count).2)
    rw [pad_eq hd h, flush_full rfl, ← happend]
    rfl

theorem doFinal_holds (h : hd.Holds message) :
    load (doFinal hd).buf 0 16 = digestWith (lengthField message.length) message := by
  have hcount := h.count
  have hless := h.count_lt
  have hfield : wordBytes (bitCount hd.nblocks hd.count).1 ++ wordBytes (bitCount hd.nblocks hd.count).2 =
      lengthBytes (lengthField message.length) := by
    rw [h.nblocks, hcount, bitCount_eq]
  have hover := Absorb.absorb_stream (f := compress) (n := 64) (by decide) initial message
    (padding message.length (lengthField message.length))
  have hzeros : zeros message.length = if hd.count < 56 then 55 - hd.count else 119 - hd.count := by
    unfold zeros
    split <;> omega
  rw [← h.regs] at hover
  rw [doFinal_eq hless, hfield, digestWith]
  apply finished_buf
  rw [hover]
  split
  · next hroom =>
    have hblock : load (store hd.buf hd.count (0x80 :: List.replicate (56 - (hd.count + 1)) 0 ++
        lengthBytes (lengthField message.length))) 0 64 =
          Absorb.left 64 message ++ padding message.length (lengthField message.length) := by
      have happend := load_store_append hd.buf hd.count (0x80 :: List.replicate (56 - (hd.count + 1)) 0 ++
        lengthBytes (lengthField message.length))
      have hlen : hd.count + (0x80 :: List.replicate (56 - (hd.count + 1)) 0 ++
          lengthBytes (lengthField message.length)).length = 64 := by
        simp only [List.length_append, List.length_cons, List.length_replicate, length_lengthBytes]
        omega
      have hpad : 56 - (hd.count + 1) = zeros message.length := by
        rw [hzeros, if_pos hroom]
        omega
      rw [hlen, h.buf] at happend
      rw [happend, hpad]
      rfl
    have hlen : (Absorb.left 64 message ++ padding message.length (lengthField message.length)).length =
        64 := by
      rw [← hblock, load_length]
    rw [Absorb.absorb_block (by decide) hlen, ← hblock]
  · next hfull =>
    have hfirst : load (store hd.buf hd.count (0x80 :: List.replicate (64 - (hd.count + 1)) 0)) 0 64 =
        Absorb.left 64 message ++ 0x80 :: List.replicate (64 - (hd.count + 1)) 0 := by
      have happend := load_store_append hd.buf hd.count (0x80 :: List.replicate (64 - (hd.count + 1)) 0)
      have hlen : hd.count + (0x80 :: List.replicate (64 - (hd.count + 1)) 0 : List UInt8).length = 64 := by
        rw [List.length_cons, List.length_replicate]
        omega
      rwa [hlen, h.buf] at happend
    have hsecond : ∀ m : Nat → UInt8, load (store m 0 (List.replicate 56 0 ++
        lengthBytes (lengthField message.length))) 0 64 =
          List.replicate 56 0 ++ lengthBytes (lengthField message.length) := fun m => load_store_same m 0 _
    have hsplit : Absorb.left 64 message ++ padding message.length (lengthField message.length) =
        (Absorb.left 64 message ++ 0x80 :: List.replicate (64 - (hd.count + 1)) 0) ++
          (List.replicate 56 0 ++ lengthBytes (lengthField message.length)) := by
      have hpad : zeros message.length = 64 - (hd.count + 1) + 56 := by
        rw [hzeros, if_neg hfull]
        omega
      rw [padding, hpad, List.replicate_add]
      simp only [List.append_assoc, List.cons_append]
    have hlen : (Absorb.left 64 message ++ 0x80 :: List.replicate (64 - (hd.count + 1)) 0).length = 64 := by
      rw [← hfirst, load_length]
    rw [hsplit, Absorb.absorb_cons (by decide) hlen, Absorb.absorb_block (by decide) (by
      rw [List.length_append, List.length_replicate, length_lengthBytes]), ← hfirst]
    exact congrArg _ (hsecond _)

end Final

section Parts

open Digits

variable {parts parts' : List (List UInt8)}

/-- The context after a message that is given part by part. -/
def updated (ctx : Md5Context) (parts : List (List UInt8)) : Md5Context :=
  parts.foldl md5Update (md5Init ctx)

theorem updated_holds (ctx : Md5Context) (parts : List (List UInt8)) :
    (updated ctx parts).Holds parts.flatten :=
  foldl_md5Update_holds (md5Init_holds ctx)

theorem md5Final_eq (h : hd.Holds message) :
    (md5Final hd).1 = digestWith (lengthField message.length) message := by
  unfold md5Final
  rw [h.unfinished]
  exact doFinal_holds h

/-- Whatever was in the context, the digest is that of the whole message, with `lengthField` in the place of
its length. -/
theorem formatter_digest (ctx : Md5Context) (parts : List (List UInt8)) :
    (md5Final (updated ctx parts)).1 = digestWith (lengthField parts.flatten.length) parts.flatten :=
  md5Final_eq (updated_holds ctx parts)

/-- Below `2 ^ 29` bytes the formatter and the peer compute the same digest, each from its own parts. -/
theorem digests_agree (ctx : Md5Context) (pms : P2P.Md5State) (hparts : parts.flatten = parts'.flatten)
    (h : parts.flatten.length < 536870912) :
    (md5Final (updated ctx parts)).1 =
      (P2P.md5Finish (parts'.foldl P2P.md5Append (P2P.md5Init pms))).1 := by
  have hsmall : ∀ data ∈ parts', data.length + 63 < 2147483648 := by
    intro data hdata
    have hle := (List.sublist_flatten_of_mem hdata).length_le
    rw [← hparts] at hle
    omega
  rw [md5Final_eq (updated_holds ctx parts), P2P.md5Finish_eq (P2P.parts_holds pms hsmall), ← hparts,
    lengthField_of_small h]
  rfl

/-- A context that has been finished. -/
def usedContext : Md5Context := ⟨⟨3, 5, 7, 11⟩, 2, fun _ => 255, 9, true⟩

theorem digests_agree_two_ways :
    (md5Final (updated usedContext [[97], [98, 99]])).1 =
      (P2P.md5Finish ([[97, 98], [], [99]].foldl P2P.md5Append (P2P.md5Init P2P.usedState))).1 :=
  digests_agree usedContext P2P.usedState rfl (by decide)

theorem textVal_eq (ctx : Md5Context) {bit : Nat} (hbit : bit < 128) :
    textVal ctx bit &&& 0x1F = window (load ctx.buf 0 16) bit % 32 := by
  have hget : ∀ k, k < 16 → (load ctx.buf 0 16).getD k 0 = ctx.buf k := by
    intro k hk
    rw [List.getD_eq_getElem _ _ (by rwa [load_length])]
    simp [load]
  rw [show (0x1F : Nat) = 2 ^ 5 - 1 from rfl, Nat.and_two_pow_sub_one_eq_mod]
  unfold textVal
  simp only
  rw [← hget (bit / 8) (by omega)]
  split
  · next hinside =>
    rw [← hget (bit / 8 + 1) (by omega)]
    rfl
  · next hinside =>
    by_cases haligned : bit % 8 = 0
    · exact window_aligned (by decide) _ haligned
    · rw [window_last (by rw [load_length]; omega)]

theorem md5FinalText_eq (ctx : Md5Context) :
    (md5FinalText ctx).1 = text textChars ' ' 5 26 (md5Final ctx).1 := by
  have hbits : List.range' 0 26 5 = (List.range 26).map (5 * ·) := by decide
  unfold md5FinalText md5Final
  simp only
  rw [hbits, List.map_map, text, digits, List.map_map]
  apply List.map_congr_left
  intro i hi
  rw [List.mem_range] at hi
  exact congrArg (textChars.getD · ' ') (textVal_eq _ (show 5 * i < 128 by omega))

theorem finalized_text (h : hd.Holds message) : (md5FinalText hd).2.finalized = true := by
  unfold md5FinalText
  simp only [h.unfinished, Bool.false_eq_true, if_false]
  rfl

theorem md5Final_again (h : hd.finalized = true) : (md5Final hd).1 = load hd.buf 0 16 := by
  unfold md5Final
  simp only [h, if_true]

theorem text_state (hd : Md5Context) : load (md5FinalText hd).2.buf 0 16 = (md5Final hd).1 := by
  unfold md5FinalText md5Final
  rfl

/-- The text says what the digest is, and asking for the text first does not change the digest. -/
theorem formatter_text (ctx : Md5Context) (parts parts' : List (List UInt8)) :
    (md5FinalText (updated ctx parts)).1.length = 26 ∧
      ((md5FinalText (updated ctx parts)).1 = (md5FinalText (updated ctx parts')).1 ↔
        (md5Final (updated ctx parts)).1 = (md5Final (updated ctx parts')).1) ∧
      (md5Final (md5FinalText (updated ctx parts)).2).1 = (md5Final (updated ctx parts)).1 := by
  have hlen : ∀ ctx, (md5Final ctx).1.length = 16 := fun _ => load_length _ _ _
  refine ⟨?_, ?_, ?_⟩
  · rw [md5FinalText_eq, text, digits, List.length_map, List.length_map, List.length_range]
  · rw [md5FinalText_eq, md5FinalText_eq]
    constructor
    · exact text_inj (by decide) (by decide) (by decide) ((hlen _).trans (hlen _).symm)
        (by rw [hlen]; decide)
    · intro hdigest
      rw [hdigest]
  · rw [md5Final_again (finalized_text (updated_holds ctx parts)), text_state]

end Parts

end CS111.Ospfs
