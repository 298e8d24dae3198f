import CS111.Lib.Digits
import CS111.P2P.Md5

/-!
# What the message digest of the peer computes

The unrolled rounds are the 64 steps, and however the message is divided into calls of `md5_append`, the
buffer and the registers are those of the message as a whole.
-/

namespace CS111.P2P

set_option autoImplicit false

open Memory Md5

variable {pms : Md5State} {message data : List UInt8} {p : List UInt8} {x : Nat → UInt32}

section Process

theorem set_eq_run (f : UInt32 → UInt32 → UInt32 → UInt32) : set f x = Op.run f x := by
  funext r o
  exact congrArg (fun v => r.put v o.p) (UInt32.add_comm _ _)

theorem round1_eq : round1 = (List.range' 0 16).map Op.of := by decide

theorem round2_eq : round2 = (List.range' 16 16).map Op.of := by decide

theorem round3_eq : round3 = (List.range' 32 16).map Op.of := by decide

theorem round4_eq : round4 = (List.range' 48 16).map Op.of := by decide

theorem md5Process_eq (pms : Md5State) (data : List UInt8) :
    md5Process pms data = { pms with abcd := compress pms.abcd data } := by
  have hrounds : round4.foldl (set i (word data)) (round3.foldl (set h (word data))
      (round2.foldl (set g (word data)) (round1.foldl (set f (word data)) pms.abcd))) =
        (List.range 64).foldl (step (word data)) pms.abcd := by
    rw [← rounds_eq, set_eq_run, set_eq_run, set_eq_run, set_eq_run, round1_eq, round2_eq, round3_eq,
      round4_eq]
    rfl
  exact congrArg (fun r : Registers => { pms with
    abcd := ⟨pms.abcd.a + r.a, pms.abcd.b + r.b, pms.abcd.c + r.c, pms.abcd.d + r.d⟩ }) hrounds

end Process

section Append

theorem fullBlocks_eq (pms : Md5State) (p : List UInt8) :
    fullBlocks pms p =
      ({ pms with abcd := Absorb.absorb compress 64 pms.abcd p }, Absorb.left 64 p) := by
  fun_induction fullBlocks pms p with
  | case1 pms p hlen ih =>
    rw [ih, md5Process_eq, ← Absorb.absorb_take (by decide) hlen, ← Absorb.left_drop (by decide) hlen]
  | case2 pms p hlen =>
    have hlen : p.length < 64 := Nat.not_le.mp hlen
    rw [Absorb.absorb_short hlen, Absorb.left_short hlen]

theorem appendBlocks_eq (pms : Md5State) (p : List UInt8) :
    appendBlocks pms p =
      { pms with
        abcd := Absorb.absorb compress 64 pms.abcd p
        buf := store pms.buf 0 (Absorb.left 64 p) } := by
  unfold appendBlocks
  rw [fullBlocks_eq]

/-- The context is that of a message. -/
structure Md5State.Holds (pms : Md5State) (message : List UInt8) : Prop where
  abcd : pms.abcd = Absorb.absorb compress 64 initial message
  buf : load pms.buf 0 (message.length % 64) = Absorb.left 64 message
  count0 : pms.count0 = UInt32.ofNat (8 * message.length)
  count1 : pms.count1 = UInt32.ofNat (8 * message.length / 4294967296)

theorem md5Init_holds (pms : Md5State) : (md5Init pms).Holds [] :=
  ⟨rfl, rfl, rfl, rfl⟩

theorem offset_eq (h : pms.Holds message) :
    ((pms.count0 >>> 3) &&& 63).toNat = message.length % 64 := by
  have hmask : ∀ n : Nat, n &&& 63 = n % 64 := fun n => Nat.and_two_pow_sub_one_eq_mod n 6
  rw [h.count0, UInt32.toNat_and, UInt32.toNat_shiftRight, UInt32.toNat_ofNat']
  simp only [UInt32.reduceToNat, Nat.reduceMod, hmask, Nat.shiftRight_eq_div_pow]
  omega

/-- The carry of a sum of two words. -/
theorem lt_of_carry (a b : UInt32) : a + b < b ↔ 4294967296 ≤ a.toNat + b.toNat := by
  rw [UInt32.lt_iff_toNat_lt, UInt32.toNat_add]
  have := a.toNat_lt
  have := b.toNat_lt
  omega

theorem addLength_count (h : pms.Holds message) (n : Nat) :
    (addLength pms n).count0 = UInt32.ofNat (8 * (message.length + n)) ∧
      (addLength pms n).count1 = UInt32.ofNat (8 * (message.length + n) / 4294967296) := by
  constructor
  · show pms.count0 + UInt32.ofNat (8 * n) = _
    rw [h.count0, Nat.mul_add, UInt32.ofNat_add]
  · show (if pms.count0 + UInt32.ofNat (8 * n) < UInt32.ofNat (8 * n) then
      pms.count1 + UInt32.ofNat (n / 536870912) + 1 else pms.count1 + UInt32.ofNat (n / 536870912)) = _
    rw [h.count0, h.count1]
    apply UInt32.toNat_inj.mp
    split
    · next hcarry =>
      rw [lt_of_carry] at hcarry
      simp only [UInt32.toNat_add, UInt32.toNat_ofNat', UInt32.reduceToNat] at hcarry ⊢
      omega
    · next hcarry =>
      rw [lt_of_carry] at hcarry
      simp only [UInt32.toNat_add, UInt32.toNat_ofNat'] at hcarry ⊢
      omega

/-- What is appended behind a part of a block that is in the buffer. -/
theorem stored_behind (h : pms.Holds message) (bytes : List UInt8) :
    load (store pms.buf (message.length % 64) bytes) 0 (message.length % 64 + bytes.length) =
      Absorb.left 64 message ++ bytes := by
  rw [load_store_append, h.buf]

theorem signed_sum {a b : Nat} (ha : a < 64) (hb : b + 63 < 2147483648) :
    toInt32 (u32 (a + b)) = (a + b : Nat) := by
  rw [u32_of_lt (by omega), toInt32, if_pos (by omega)]

/-- How much of the data fills the block that was begun. -/
theorem copy_eq {a b : Nat} (ha : a < 64) (hb : b + 63 < 2147483648) :
    (if (64 : Int) < toInt32 (u32 (a + b)) then 64 - a else b) = min (64 - a) b := by
  rw [signed_sum ha hb]
  split <;> omega

/-- The rest of the data, when the buffer is empty. -/
theorem appendBlocks_holds
    (habcd : Absorb.absorb compress 64 initial message = Absorb.absorb compress 64 pms.abcd p)
    (hleft : Absorb.left 64 message = Absorb.left 64 p)
    (hcount : pms.count0 = UInt32.ofNat (8 * message.length) ∧
      pms.count1 = UInt32.ofNat (8 * message.length / 4294967296)) :
    (appendBlocks pms p).Holds message := by
  rw [appendBlocks_eq]
  refine ⟨habcd.symm, ?_, hcount.1, hcount.2⟩
  rw [← Absorb.length_left (n := 64), hleft]
  exact load_store_same pms.buf 0 (Absorb.left 64 p)

/-- The data does not fill the block that was begun. -/
theorem short_holds (h : pms.Holds message) (hshort : message.length % 64 + data.length < 64) :
    ({ addLength pms data.length with
      buf := store pms.buf (message.length % 64) data } : Md5State).Holds (message ++ data) := by
  have hfits : (Absorb.left 64 message ++ data).length < 64 := by
    rw [List.length_append, Absorb.length_left]
    exact hshort
  have hover := Absorb.absorb_stream (f := compress) (n := 64) (by decide) initial message data
  have hleft := Absorb.left_stream (n := 64) (by decide) message data
  have hcount := addLength_count h data.length
  rw [← List.length_append] at hcount
  rw [← h.abcd, Absorb.absorb_short hfits] at hover
  rw [Absorb.left_short hfits] at hleft
  refine ⟨hover.symm, ?_, hcount.1, hcount.2⟩
  have hbehind := stored_behind h data
  rwa [show message.length % 64 + data.length = (message ++ data).length % 64 by
    rw [List.length_append]; omega, ← hleft] at hbehind

/-- The data fills it. -/
theorem full_holds (h : pms.Holds message)
    (hfull : 64 ≤ message.length % 64 + data.length) {copy : Nat}
    (hcopy : copy = 64 - message.length % 64) :
    (appendBlocks (md5Process { addLength pms data.length with
      buf := store pms.buf (message.length % 64) (data.take copy) }
        (load (store pms.buf (message.length % 64) (data.take copy)) 0 64)) (data.drop copy)).Holds
          (message ++ data) := by
  have htaken : (data.take copy).length = copy := List.length_take_of_le (by omega)
  have hblock : (Absorb.left 64 message ++ data.take copy).length = 64 := by
    rw [List.length_append, Absorb.length_left, htaken]
    omega
  have hstored : load (store pms.buf (message.length % 64) (data.take copy)) 0 64 =
      Absorb.left 64 message ++ data.take copy := by
    have hbehind := stored_behind h (data.take copy)
    rwa [htaken, show message.length % 64 + copy = 64 by omega] at hbehind
  have hsplit : Absorb.left 64 message ++ data =
      Absorb.left 64 message ++ data.take copy ++ data.drop copy := by
    rw [List.append_assoc, List.take_append_drop]
  have hover := Absorb.absorb_stream (f := compress) (n := 64) (by decide) initial message data
  have hleft := Absorb.left_stream (n := 64) (by decide) message data
  have hcount := addLength_count h data.length
  rw [← List.length_append] at hcount
  rw [← h.abcd, hsplit, Absorb.absorb_cons (by decide) hblock] at hover
  rw [hsplit, Absorb.left_cons (by decide) hblock] at hleft
  rw [hstored, md5Process_eq]
  exact appendBlocks_holds hover hleft hcount

theorem md5Append_holds (h : pms.Holds message) (hdata : data.length + 63 < 2147483648) :
    (md5Append pms data).Holds (message ++ data) := by
  have hless : message.length % 64 < 64 := Nat.mod_lt _ (by decide)
  unfold md5Append
  simp only [offset_eq h, copy_eq hless hdata]
  split
  · next hnone =>
    rw [List.eq_nil_of_length_eq_zero hnone, List.append_nil]
    exact h
  · split
    · next hbegun =>
      split
      · next hshort =>
        have htake : data.take (min (64 - message.length % 64) data.length) = data :=
          List.take_of_length_le (by omega)
        rw [htake]
        exact short_holds h (by omega)
      · next hfull => exact full_holds h (by omega) (by omega)
    · next hnone =>
      have hnil : Absorb.left 64 message = [] := by
        apply List.eq_nil_of_length_eq_zero
        rw [Absorb.length_left]
        omega
      have hover := Absorb.absorb_stream (f := compress) (n := 64) (by decide) initial message data
      have hleft := Absorb.left_stream (n := 64) (by decide) message data
      have hcount := addLength_count h data.length
      rw [← List.length_append] at hcount
      rw [← h.abcd, hnil, List.nil_append] at hover
      rw [hnil, List.nil_append] at hleft
      exact appendBlocks_holds hover hleft hcount

/-- A message that is appended part by part. -/
theorem foldl_md5Append_holds {parts : List (List UInt8)} (h : pms.Holds message)
    (hparts : ∀ data ∈ parts, data.length + 63 < 2147483648) :
    (parts.foldl md5Append pms).Holds (message ++ parts.flatten) := by
  induction parts generalizing pms message with
  | nil =>
    rw [List.flatten_nil, List.append_nil]
    exact h
  | cons data parts ih =>
    rw [List.foldl_cons, List.flatten_cons, ← List.append_assoc]
    exact ih (md5Append_holds h (hparts data List.mem_cons_self))
      fun data hdata => hparts data (List.mem_cons_of_mem _ hdata)

end Append

section Finish

theorem countByte_eq (h : pms.Holds message) {k : Nat} (hk : k < 8) :
    countByte pms k = UInt8.ofNat (8 * message.length / 256 ^ k) := by
  have hbyte : ∀ n j : Nat, j < 4 →
      (UInt32.ofNat n >>> UInt32.ofNat (j * 8)).toUInt8 = UInt8.ofNat (n / 256 ^ j) := by
    intro n j hj
    apply UInt8.toNat_inj.mp
    rw [UInt32.toNat_toUInt8, UInt32.toNat_shiftRight, UInt32.toNat_ofNat', UInt32.toNat_ofNat',
      UInt8.toNat_ofNat', Nat.shiftRight_eq_div_pow]
    rcases show j = 0 ∨ j = 1 ∨ j = 2 ∨ j = 3 by omega with rfl | rfl | rfl | rfl <;>
      simp only [Nat.reduceMul, Nat.reduceMod, Nat.reducePow] <;> omega
  unfold countByte
  split
  · next hlow => rw [Nat.mod_eq_of_lt hlow, h.count0, hbyte _ _ hlow]
  · next hhigh =>
    have hsub : k % 4 = k - 4 := by omega
    rw [hsub, h.count1, hbyte _ _ (by omega), Nat.div_div_eq_div_mul,
      show (4294967296 : Nat) = 256 ^ 4 from rfl, ← Nat.pow_add, Nat.add_sub_cancel' (by omega)]

theorem count_eq (h : pms.Holds message) :
    (List.range 8).map (countByte pms) = lengthBytes (8 * message.length) :=
  List.map_congr_left fun _ hk => countByte_eq h (List.mem_range.mp hk)

theorem padLength_eq (h : pms.Holds message) :
    (((55 : UInt32) - (pms.count0 >>> 3)) &&& 63).toNat = zeros message.length := by
  have hmask : ∀ n : Nat, n &&& 63 = n % 64 := fun n => Nat.and_two_pow_sub_one_eq_mod n 6
  rw [h.count0, UInt32.toNat_and, UInt32.toNat_sub, UInt32.toNat_shiftRight, UInt32.toNat_ofNat']
  simp only [UInt32.reduceToNat, Nat.reduceMod, hmask, Nat.shiftRight_eq_div_pow]
  unfold zeros
  omega

theorem pad_take (n : Nat) (hn : n ≤ 63) : pad.take (n + 1) = 0x80 :: List.replicate n 0 := by
  rw [pad, List.take_succ_cons, List.take_replicate, Nat.min_eq_left hn]

theorem zeros_le (len : Nat) : zeros len ≤ 63 := by
  unfold zeros
  omega

theorem md5Finish_eq (h : pms.Holds message) : (md5Finish pms).1 = digest message := by
  have hlength : (0x80 :: List.replicate (zeros message.length) 0 : List UInt8).length ≤ 64 := by
    rw [List.length_cons, List.length_replicate]
    exact Nat.succ_le_succ (zeros_le _)
  have hone : (md5Append pms (0x80 :: List.replicate (zeros message.length) 0)).Holds
      (message ++ 0x80 :: List.replicate (zeros message.length) 0) :=
    md5Append_holds h (by omega)
  have hshort : (lengthBytes (8 * message.length)).length + 63 < 2147483648 := by
    rw [length_lengthBytes]
    decide
  have hpadded := md5Append_holds hone hshort
  have hmessage : message ++ 0x80 :: List.replicate (zeros message.length) 0 ++
      lengthBytes (8 * message.length) =
        message ++ padding message.length (8 * message.length) := by
    rw [List.append_assoc, padding, List.cons_append]
  rw [hmessage, ← pad_take _ (zeros_le _), ← padLength_eq h, ← count_eq h] at hpadded
  exact congrArg Registers.bytes hpadded.abcd

end Finish

section Text

open Digits

variable {digest : List UInt8}

theorem textVal_eq (hlen : digest.length = 16) (bit : Nat) :
    textVal digest bit &&& 0x3F = window digest bit % 64 := by
  rw [show (0x3F : Nat) = 2 ^ 6 - 1 from rfl, Nat.and_two_pow_sub_one_eq_mod]
  unfold textVal
  simp only
  split
  · rfl
  · next hinside =>
    by_cases haligned : bit % 8 = 0
    · exact window_aligned (by decide) digest haligned
    · rw [window_last (by omega)]

/-- With an `@` there is a character for every six bits. -/
theorem textFrom_true (hlen : digest.length = 16) (n : Nat) {k : Nat} (hk : k + n = 22) :
    textFrom true digest (6 * k) =
      (List.range' k n).map fun i => textChars.getD (window digest (6 * i) % 64) ' ' := by
  induction n generalizing k with
  | zero =>
    unfold textFrom
    rw [if_neg (by omega)]
    rfl
  | succ n ih =>
    unfold textFrom
    rw [if_pos (by omega), List.range'_succ, List.map_cons, ← Nat.mul_succ, ih (by omega)]
    simp only [textVal_eq hlen, not_true_eq_false, and_false, if_false]

theorem text_true (hlen : digest.length = 16) :
    textFrom true digest 0 = text textChars ' ' 6 22 digest := by
  have htext := textFrom_true hlen 22 (k := 0) rfl
  rw [Nat.mul_zero, ← List.range_eq_range'] at htext
  rw [htext, text, digits, List.map_map]
  rfl

/-- Without one a character takes five or six bits. -/
theorem length_textFrom_false (digest : List UInt8) (bit : Nat) :
    128 ≤ bit + 6 * (textFrom false digest bit).length ∧
      5 * (textFrom false digest bit).length ≤ 132 - bit := by
  fun_induction textFrom false digest bit with
  | case1 bit hbit val hones ih =>
    rw [List.length_cons]
    omega
  | case2 bit hbit val hones ih =>
    rw [List.length_cons]
    omega
  | case3 bit hbit =>
    rw [List.length_nil]
    omega

theorem textChars_below : ∀ v, v < 63 → textChars.getD v ' ' ∈ textChars ∧ textChars.getD v ' ' ≠ '@' := by
  decide

theorem mem_textFrom_false {bit : Nat} {c : Char} (h : c ∈ textFrom false digest bit) :
    c ∈ textChars ∧ c ≠ '@' := by
  have hmask : ∀ v, v &&& 0x3F ≤ 63 := fun v => Nat.and_le_right
  fun_induction textFrom false digest bit with
  | case1 bit hbit val hones ih =>
    rcases List.mem_cons.mp h with hc | hrest
    · rw [hc]
      exact textChars_below 31 (by decide)
    · exact ih hrest
  | case2 bit hbit val hones ih =>
    rcases List.mem_cons.mp h with hc | hrest
    · rw [hc]
      apply textChars_below
      have hne : val &&& 0x3F ≠ 0x3F := fun heq => hones ⟨heq, Bool.false_ne_true⟩
      exact Nat.lt_of_le_of_ne (hmask val) hne
    · exact ih hrest
  | case3 bit hbit => cases h

end Text

section Parts

variable {parts parts' : List (List UInt8)}

theorem parts_holds (pms : Md5State) (h : ∀ data ∈ parts, data.length + 63 < 2147483648) :
    (parts.foldl md5Append (md5Init pms)).Holds parts.flatten := by
  have hholds := foldl_md5Append_holds (md5Init_holds pms) h
  rwa [List.nil_append] at hholds

/-- However the message is divided, and whatever was in the context, the digest is that of the message. -/
theorem peer_digest (pms : Md5State) (h : ∀ data ∈ parts, data.length + 63 < 2147483648) :
    (md5Finish (parts.foldl md5Append (md5Init pms))).1 = digest parts.flatten :=
  md5Finish_eq (parts_holds pms h)

/-- A context that has seen other messages. -/
def usedState : Md5State := ⟨504, 1, ⟨3, 5, 7, 11⟩, fun _ => 255⟩

theorem peer_digest_abc :
    (md5Finish ([[97], [98, 99]].foldl md5Append (md5Init usedState))).1 = digest [97, 98, 99] :=
  peer_digest usedState (by decide)

/-- The text of the digest of a message. -/
def textOf (pms : Md5State) (allow_at : Bool) (parts : List (List UInt8)) : List Char :=
  (md5FinishText (parts.foldl md5Append (md5Init pms)) allow_at).1

theorem textOf_eq (pms : Md5State) (allow_at : Bool)
    (h : ∀ data ∈ parts, data.length + 63 < 2147483648) :
    textOf pms allow_at parts = textFrom allow_at (digest parts.flatten) 0 :=
  congrArg (textFrom allow_at · 0) (md5Finish_eq (parts_holds pms h))

/-- With an `@` the text has 22 characters and says what the digest is. Without one it has at most 26. -/
theorem peer_text (pms : Md5State) (h : ∀ data ∈ parts, data.length + 63 < 2147483648)
    (h' : ∀ data ∈ parts', data.length + 63 < 2147483648) :
    ((textOf pms true parts).length = 22 ∧
      (textOf pms true parts = textOf pms true parts' ↔
        digest parts.flatten = digest parts'.flatten)) ∧
    (22 ≤ (textOf pms false parts).length ∧ (textOf pms false parts).length ≤ 26) ∧
    ∀ c ∈ textOf pms false parts, c ∈ textChars ∧ c ≠ '@' := by
  have hlen : ∀ message, (digest message).length = 16 := fun _ => rfl
  have hbounds := length_textFrom_false (digest parts.flatten) 0
  rw [textOf_eq pms true h, textOf_eq pms true h', textOf_eq pms false h, text_true (hlen _),
    text_true (hlen _)]
  refine ⟨⟨?_, ?_⟩, ⟨by omega, by omega⟩, fun c hc => mem_textFrom_false hc⟩
  · rw [Digits.text, Digits.digits, List.length_map, List.length_map, List.length_range]
  · constructor
    · intro htext
      exact Digits.text_inj (by decide) (by decide) (by decide) ((hlen _).trans (hlen _).symm)
        (by rw [hlen]; decide) htext
    · intro hdigest
      rw [hdigest]

theorem peer_text_abc :
    ((textOf usedState true [[97], [98, 99]]).length = 22 ∧
      (textOf usedState true [[97], [98, 99]] = textOf usedState true [[97, 98]] ↔
        digest [97, 98, 99] = digest [97, 98])) ∧
    (22 ≤ (textOf usedState false [[97], [98, 99]]).length ∧
      (textOf usedState false [[97], [98, 99]]).length ≤ 26) ∧
    ∀ c ∈ textOf usedState false [[97], [98, 99]], c ∈ textChars ∧ c ≠ '@' :=
  peer_text usedState (by decide) (by decide)

end Parts

end CS111.P2P
