import Mathlib.Data.Nat.Digits.Lemmas
import CS111.Lib.GrowBuffer
import CS111.P2P.MessageRoundTrip

/-!
# The buffers of outgoing messages

`http_quote` and the loop of `osp2p_writef` over the format, with the memory they store into. Every
conversion asks for room before it stores, and `%d` asks for one byte less than the longest numbers
need with their NUL.
-/

namespace CS111.P2P

set_option autoImplicit false

open Memory

section Model

/-- The loop of `http_quote`: the memory behind it, and the offsets that it stores at. -/
def quoteLoop : List UInt8 → Nat → Bytes → Bytes × List Nat
  | [], x, os => (store os x [0], [x])
  | c :: s, x, os =>
    if unquoted c then
      let (os, stored) := quoteLoop s (x + 1) (store os x [c])
      (os, x :: stored)
    else
      let (os, stored) := quoteLoop s (x + 3)
        (store os x [37, hexDigit (c / 16), hexDigit (c &&& 15)])
      (os, x :: (x + 1) :: (x + 2) :: stored)

/-- The size that `http_quote` allocates. -/
def quoteSize (s : List UInt8) : Nat := 3 * s.length + 1

/-- A round of the loop over the format, with its argument. -/
inductive Conversion where
  | string (s : List UInt8)
  | int (i : Int)
  | addr (a : UInt32)
  | literal (c : UInt8)
  deriving Repr, DecidableEq

/-- The rounds of the loop; `none` when the arguments are not those of the format. -/
def conversions : List UInt8 → List Arg → Option (List Conversion)
  | [], _ => some []
  | 37 :: 115 :: format, .string s :: args => (conversions format args).map (.string s :: ·)
  | 37 :: 100 :: format, .int i :: args => (conversions format args).map (.int i :: ·)
  | 37 :: 73 :: format, .addr a :: args => (conversions format args).map (.addr a :: ·)
  | 37 :: 115 :: _, _ => none
  | 37 :: 100 :: _, _ => none
  | 37 :: 73 :: _, _ => none
  | 37 :: 37 :: format, args => (conversions format args).map (.literal 37 :: ·)
  | c :: format, args => (conversions format args).map (.literal c :: ·)

def Conversion.text : Conversion → List UInt8
  | .string s => httpQuote s
  | .int i => formatInt i
  | .addr a => inetNtoa a
  | .literal c => [c]

/-- What the round asks `ensure_buf` for beyond the length so far. -/
def Conversion.room : Conversion → Nat
  | .string s => (httpQuote s).length
  | .int _ => 10
  | .addr _ => 16
  | .literal _ => 1

/-- `strcpy` and `sprintf` store a NUL behind the text. -/
def Conversion.behind : Conversion → List UInt8
  | .string _ | .int _ | .addr _ => [0]
  | .literal _ => []

abbrev MessageBuffer := GrowBuffer UInt8

variable (fresh : Nat → Nat → UInt8)

def ensureBuf (b : MessageBuffer) (len : Nat) : MessageBuffer := b.ensure 2048 fresh len

def MessageBuffer.start : MessageBuffer := ensureBuf fresh ⟨fun _ => 0, 0, 0⟩ 1024

/-- The buffer when the round stores its text. -/
def Conversion.roomed (c : Conversion) (b : MessageBuffer) : MessageBuffer :=
  ensureBuf fresh b (b.len + c.room)

def Conversion.write (c : Conversion) (b : MessageBuffer) : MessageBuffer :=
  (c.roomed fresh b).append c.text c.behind

/-- The buffers before the rounds, each with its round. -/
def rounds : List Conversion → MessageBuffer → List (MessageBuffer × Conversion)
  | [], _ => []
  | c :: cs, b => (b, c) :: rounds cs (c.write fresh b)

def built (cs : List Conversion) : MessageBuffer :=
  cs.foldl (fun b c => c.write fresh b) (MessageBuffer.start fresh)

/-- `osp2p_writef` with its buffer. -/
def writefBuffer (calls : List WriteCall) (format : List UInt8) (args : List Arg) :
    Option (List UInt8 × Option Int) :=
  (conversions format args).map fun cs => writeLoop calls (built fresh cs).contents

/-- Every store of the rounds is inside the block of that moment. -/
def InBuffer (cs : List Conversion) : Prop :=
  ∀ x, x ∈ rounds fresh cs (MessageBuffer.start fresh) →
    (x.2.roomed fresh x.1).Fits x.2.text x.2.behind

/-- The stores of `http_quote` are inside its block, and the block then holds the quoted string. -/
def QuoteFits (s : List UInt8) : Prop :=
  ∀ os, (∀ x, x ∈ (quoteLoop s 0 os).2 → x < quoteSize s) ∧
    load (quoteLoop s 0 os).1 0 ((httpQuote s).length + 1) = httpQuote s ++ [0]

/-- A number of 11 characters is written when only 11 bytes are left. -/
def Tight (x : MessageBuffer × Conversion) : Prop :=
  ∃ i, x.2 = .int i ∧ i ≤ -1000000000 ∧ x.1.capacity = x.1.len + 11

end Model

variable {fresh : Nat → Nat → UInt8} {b : MessageBuffer} {c : Conversion} {cs : List Conversion}
  {format : List UInt8} {args : List Arg}

section Lengths

theorem decimal_length_le_iff {n k : Nat} (hk : 0 < k) : (decimal n).length ≤ k ↔ n < 10 ^ k := by
  unfold decimal
  split
  · next h0 =>
    rw [h0]
    exact iff_of_true hk (Nat.pow_pos (by decide))
  · rw [List.length_map, List.length_reverse]
    exact Nat.digits_length_le_iff (by decide) n

theorem formatInt_length_le_iff {i : Int} (hlow : -2147483648 ≤ i) (hhigh : i < 2147483648) :
    (formatInt i).length ≤ 11 ∧ ((formatInt i).length ≤ 10 ↔ ¬ i ≤ -1000000000) := by
  unfold formatInt
  split
  · next hneg =>
    rw [List.length_cons]
    have hten : (decimal i.natAbs).length ≤ 10 := (decimal_length_le_iff (by decide)).mpr (by omega)
    have hnine : (decimal i.natAbs).length ≤ 9 ↔ i.natAbs < 10 ^ 9 := decimal_length_le_iff (by decide)
    omega
  · next hpos =>
    have hten : (decimal i.natAbs).length ≤ 10 := (decimal_length_le_iff (by decide)).mpr (by omega)
    omega

theorem inetNtoa_length (a : UInt32) : (inetNtoa a).length ≤ 15 := by
  have hbyte : ∀ i, (decimal (addrByte a i)).length ≤ 3 := by
    intro i
    apply (decimal_length_le_iff (by decide)).mpr
    have hlt : addrByte a i < 256 := Nat.mod_lt _ (by decide)
    omega
  have h0 := hbyte 0
  have h1 := hbyte 1
  have h2 := hbyte 2
  have h3 := hbyte 3
  unfold inetNtoa
  simp only [List.length_append, List.length_cons]
  omega

end Lengths

section Quoted

theorem store_comm (m : Bytes) (a : Nat) (front back : List UInt8) :
    store (store m a front) (a + front.length) back =
      store (store m (a + front.length) back) a front := by
  funext i
  by_cases hi : i < a + front.length
  · rw [store_outside (.inl hi)]
    by_cases ha : i < a
    · rw [store_outside (.inl ha), store_outside (.inl ha), store_outside (.inl hi)]
    · obtain ⟨k, rfl⟩ := Nat.exists_eq_add_of_le (Nat.le_of_not_lt ha)
      rw [store_inside (by omega), store_inside (by omega)]
  · rw [store_outside (i := i) (a := a) (.inr (by omega))]
    by_cases hb : i < a + front.length + back.length
    · obtain ⟨k, rfl⟩ := Nat.exists_eq_add_of_le (Nat.le_of_not_lt hi)
      rw [store_inside (by omega), store_inside (by omega)]
    · rw [store_outside (.inr (by omega)), store_outside (.inr (by omega)),
        store_outside (.inr (by omega))]

theorem store_append (m : Bytes) (a : Nat) (front back : List UInt8) :
    store (store m a front) (a + front.length) back = store m a (front ++ back) :=
  (store_comm m a front back).trans (store_store m a front back)

theorem quoteLoop_spec (s : List UInt8) (x : Nat) (os : Bytes) :
    (quoteLoop s x os).1 = store os x (httpQuote s ++ [0]) ∧
      ∀ k, k ∈ (quoteLoop s x os).2 → k < x + quoteSize s := by
  induction s generalizing x os with
  | nil =>
    refine ⟨rfl, fun k hk => ?_⟩
    rw [List.mem_singleton.mp hk]
    exact Nat.lt_succ_self x
  | cons c s ih =>
    have hcons : httpQuote (c :: s) = quoteByte c ++ httpQuote s := List.flatMap_cons
    rw [hcons, quoteByte, quoteLoop]
    split
    · obtain ⟨hmem, hstored⟩ := ih (x + 1) (store os x [c])
      refine ⟨?_, fun k hk => ?_⟩
      · rw [List.append_assoc, ← store_append]
        exact hmem
      · rcases List.mem_cons.mp hk with rfl | hk
        · unfold quoteSize
          omega
        · have hlt := hstored k hk
          rw [quoteSize, List.length_cons]
          unfold quoteSize at hlt
          omega
    · obtain ⟨hmem, hstored⟩ := ih (x + 3) (store os x [37, hexDigit (c / 16), hexDigit (c &&& 15)])
      refine ⟨?_, fun k hk => ?_⟩
      · rw [List.append_assoc, ← store_append]
        exact hmem
      · rw [quoteSize, List.length_cons]
        rcases List.mem_cons.mp hk with rfl | hk
        · omega
        rcases List.mem_cons.mp hk with rfl | hk
        · omega
        rcases List.mem_cons.mp hk with rfl | hk
        · omega
        · have hlt := hstored k hk
          unfold quoteSize at hlt
          omega

theorem quote_fits (s : List UInt8) : QuoteFits s := by
  intro os
  obtain ⟨hmem, hstored⟩ := quoteLoop_spec s 0 os
  refine ⟨fun x hx => by simpa using hstored x hx, ?_⟩
  have hlength : (httpQuote s ++ [0]).length = (httpQuote s).length + 1 := List.length_append
  rw [hmem, ← hlength, load_store_same]

end Quoted

section Rounds

/-- The number of a `%d` is an `int`. -/
def Conversion.IsInt : Conversion → Prop
  | .int i => -2147483648 ≤ i ∧ i < 2147483648
  | .string _ | .addr _ | .literal _ => True

theorem roomed_len : (c.roomed fresh b).len = b.len := GrowBuffer.ensure_len

/-- There is room for what the round has asked for and one byte more. -/
theorem roomed_capacity (fresh : Nat → Nat → UInt8) (b : MessageBuffer) (c : Conversion) :
    b.capacity ≤ b.len + c.room ∧ (c.roomed fresh b).capacity = b.len + c.room + 2048 ∨
      b.len + c.room < b.capacity ∧ (c.roomed fresh b).capacity = b.capacity := by
  unfold Conversion.roomed ensureBuf
  rw [GrowBuffer.ensure_capacity]
  by_cases h : b.len + c.room ≥ b.capacity
  · rw [if_pos h]
    exact .inl ⟨h, rfl⟩
  · rw [if_neg h]
    exact .inr ⟨by omega, rfl⟩

theorem tight_int {i : Int} :
    Tight (b, .int i) ↔ i ≤ -1000000000 ∧ b.capacity = b.len + 11 := by
  constructor
  · rintro ⟨j, hj, h⟩
    cases hj
    exact h
  · exact fun h => ⟨i, rfl, h⟩

theorem fits_iff (hint : c.IsInt) :
    (c.roomed fresh b).Fits c.text c.behind ↔ ¬ Tight (b, c) := by
  have hroom := roomed_capacity fresh b c
  unfold GrowBuffer.Fits
  rw [roomed_len, List.length_append]
  cases c with
  | string s =>
    refine iff_of_true ?_ (by simp [Tight])
    simp only [Conversion.text, Conversion.behind, Conversion.room, List.length_singleton] at hroom ⊢
    omega
  | addr a =>
    have hlength := inetNtoa_length a
    refine iff_of_true ?_ (by simp [Tight])
    simp only [Conversion.text, Conversion.behind, Conversion.room, List.length_singleton] at hroom ⊢
    omega
  | literal d =>
    refine iff_of_true ?_ (by simp [Tight])
    simp only [Conversion.text, Conversion.behind, Conversion.room, List.length_singleton,
      List.length_nil] at hroom ⊢
    omega
  | int i =>
    obtain ⟨heleven, hten⟩ := formatInt_length_le_iff hint.1 hint.2
    rw [tight_int]
    simp only [Conversion.text, Conversion.behind, Conversion.room, List.length_singleton] at hroom ⊢
    omega

theorem text_length (hint : c.IsInt) : c.text.length ≤ c.room + 1 := by
  cases c with
  | string s => exact Nat.le_succ _
  | addr a => exact Nat.le_trans (inetNtoa_length a) (show 15 ≤ 17 by decide)
  | literal d => exact Nat.le_succ _
  | int i => exact (formatInt_length_le_iff hint.1 hint.2).1

theorem write_len (fresh : Nat → Nat → UInt8) (b : MessageBuffer) (c : Conversion) :
    (c.write fresh b).len = b.len + c.text.length :=
  congrArg (· + c.text.length) roomed_len

theorem write_capacity : (c.write fresh b).capacity = (c.roomed fresh b).capacity := rfl

/-- Even where the NUL does not fit, the text does. -/
theorem write_len_le (hint : c.IsInt) : (c.write fresh b).len ≤ (c.write fresh b).capacity := by
  have hroom := roomed_capacity fresh b c
  have hlength := text_length hint
  rw [write_len, write_capacity]
  omega

theorem write_contents (h : b.len ≤ b.capacity) :
    (c.write fresh b).contents = b.contents ++ c.text := by
  unfold Conversion.write
  rw [GrowBuffer.append_contents]
  exact congrArg (· ++ c.text) (GrowBuffer.ensure_contents h)

theorem foldl_contents (hints : ∀ c, c ∈ cs → c.IsInt) (h : b.len ≤ b.capacity) :
    (cs.foldl (fun b c => c.write fresh b) b).contents =
      b.contents ++ cs.flatMap Conversion.text := by
  induction cs generalizing b with
  | nil => rw [List.foldl_nil, List.flatMap_nil, List.append_nil]
  | cons c cs ih =>
    rw [List.foldl_cons, List.flatMap_cons,
      ih (fun d hd => hints d (List.mem_cons_of_mem _ hd)) (write_len_le (hints c List.mem_cons_self)),
      write_contents h, List.append_assoc]

theorem built_contents (hints : ∀ c, c ∈ cs → c.IsInt) :
    (built fresh cs).contents = cs.flatMap Conversion.text :=
  foldl_contents hints (Nat.zero_le _)

theorem mem_rounds (x : MessageBuffer × Conversion) (h : x ∈ rounds fresh cs b) : x.2 ∈ cs := by
  induction cs generalizing b with
  | nil => exact absurd h List.not_mem_nil
  | cons c cs ih =>
    rcases List.mem_cons.mp h with rfl | h
    · exact List.mem_cons_self
    · exact List.mem_cons_of_mem _ (ih h)

theorem inBuffer_iff (hints : ∀ c, c ∈ cs → c.IsInt) :
    InBuffer fresh cs ↔ ∀ x, x ∈ rounds fresh cs (.start fresh) → ¬ Tight x := by
  constructor
  · intro h x hx
    exact (fits_iff (hints x.2 (mem_rounds x hx))).mp (h x hx)
  · intro h x hx
    exact (fits_iff (hints x.2 (mem_rounds x hx))).mpr (h x hx)

theorem map_text {x : Option (List UInt8)} {y : Option (List Conversion)} (c : Conversion)
    (h : x = y.map fun cs => cs.flatMap Conversion.text) :
    x.map (c.text ++ ·) = (y.map (c :: ·)).map fun cs => cs.flatMap Conversion.text := by
  rw [h, Option.map_map, Option.map_map]
  rfl

theorem message_eq : message format args =
    (conversions format args).map fun cs => cs.flatMap Conversion.text := by
  fun_induction message format args with
  | case1 args => rfl
  | case2 format s args ih => exact map_text (.string s) ih
  | case3 format i args ih => exact map_text (.int i) ih
  | case4 format a args ih => exact map_text (.addr a) ih
  | case5 format args h =>
    rw [conversions]
    · rfl
    · exact h
  | case6 format args h =>
    rw [conversions]
    · rfl
    · exact h
  | case7 format args h =>
    rw [conversions]
    · rfl
    · exact h
  | case8 format args ih =>
    exact map_text (.literal 37) ih
  | case9 c format args _ _ _ _ _ _ _ ih =>
    rw [conversions]
    · exact map_text (.literal c) ih
    all_goals assumption

end Rounds

section Messages

theorem mem_of_map_cons {x : Option (List Conversion)} {d : Conversion}
    (h : x.map (c :: ·) = some cs) (hd : d ∈ cs) : d = c ∨ ∃ cs', x = some cs' ∧ d ∈ cs' := by
  obtain ⟨cs', hcs', rfl⟩ := Option.map_eq_some_iff.mp h
  rcases List.mem_cons.mp hd with heq | hmem
  · exact .inl heq
  · exact .inr ⟨cs', hcs', hmem⟩

/-- The numbers of the rounds are among the arguments. -/
theorem int_mem_args {i : Int} (h : conversions format args = some cs) (hi : .int i ∈ cs) :
    Arg.int i ∈ args := by
  fun_induction conversions format args generalizing cs with
  | case1 args =>
    cases h
    cases hi
  | case2 format s args ih | case4 format a args ih =>
    rcases mem_of_map_cons h hi with heq | ⟨cs', hcs', hmem⟩
    · cases heq
    · exact List.mem_cons_of_mem _ (ih hcs' hmem)
  | case3 format j args ih =>
    rcases mem_of_map_cons h hi with heq | ⟨cs', hcs', hmem⟩
    · cases heq
      exact List.mem_cons_self
    · exact List.mem_cons_of_mem _ (ih hcs' hmem)
  | case5 format args hno | case6 format args hno | case7 format args hno => cases h
  | case8 format args ih | case9 c format args _ _ _ _ _ _ _ ih =>
    rcases mem_of_map_cons h hi with heq | ⟨cs', hcs', hmem⟩
    · cases heq
    · exact ih hcs' hmem

theorem conversions_isInt (hargs : ∀ i, Arg.int i ∈ args → -2147483648 ≤ i ∧ i < 2147483648)
    (h : conversions format args = some cs) : ∀ c, c ∈ cs → c.IsInt := by
  intro c hc
  cases c with
  | int i => exact hargs i (int_mem_args h hc)
  | string _ | addr _ | literal _ => trivial

/-- Whatever the calls of `write` do, the bytes sent are the beginning of the message. -/
theorem writeLoop_prefix (calls : List WriteCall) (l : List UInt8) :
    (writeLoop calls l).1 <+: l := by
  induction calls generalizing l with
  | nil =>
    cases l with
    | nil => exact List.prefix_refl []
    | cons c rest => exact List.nil_prefix
  | cons fd calls ih =>
    cases l with
    | nil => exact List.prefix_refl []
    | cons c rest =>
      rw [writeLoop]
      split
      · split
        · exact ih (c :: rest)
        · exact List.nil_prefix
      · next amt _ =>
        split
        · exact List.nil_prefix
        · obtain ⟨l', hl'⟩ := ih ((c :: rest).drop amt)
          refine ⟨l', ?_⟩
          rw [List.append_assoc, hl', List.take_append_drop]

/-- What is sent is the beginning of the message, and all of it when the call returns 0. -/
def SendsMessage (fresh : Nat → Nat → UInt8) (format : List UInt8) (args : List Arg) : Prop :=
  ∀ calls sent ret, writefBuffer fresh calls format args = some (sent, ret) →
    ∃ msg, message format args = some msg ∧ sent <+: msg ∧ (ret = some 0 → sent = msg)

/-- Everything is stored inside the buffers, and what is sent is the message, exactly when no number of
11 characters is written into the last 11 bytes of the buffer. -/
theorem writef_fits_iff (fresh : Nat → Nat → UInt8)
    (hargs : ∀ i, Arg.int i ∈ args → -2147483648 ≤ i ∧ i < 2147483648)
    (h : conversions format args = some cs) :
    ((InBuffer fresh cs ∧ ∀ s, Arg.string s ∈ args → QuoteFits s) ∧
        SendsMessage fresh format args) ↔
      ∀ x, x ∈ rounds fresh cs (.start fresh) → ¬ Tight x := by
  have hints := conversions_isInt hargs h
  have hsends : SendsMessage fresh format args := by
    intro calls sent ret hsent
    unfold writefBuffer at hsent
    rw [h, Option.map_some, built_contents hints, Option.some.injEq] at hsent
    refine ⟨cs.flatMap Conversion.text, ?_, ?_, ?_⟩
    · rw [message_eq, h, Option.map_some]
    · rw [← (Prod.mk.inj hsent).1]
      exact writeLoop_prefix calls _
    · rintro rfl
      exact writeLoop_sends calls hsent
  rw [and_iff_left hsends, and_iff_left fun s _ => quote_fits s]
  exact inBuffer_iff hints

theorem writef_fits_minus_five :
    (InBuffer (fun _ _ => 0) [.int (-5)] ∧ ∀ s, Arg.string s ∈ [Arg.int (-5)] → QuoteFits s) ∧
      SendsMessage (fun _ _ => 0) [37, 100] [.int (-5)] := by
  refine (writef_fits_iff _ (fun i hi => ?_) rfl).mpr fun x hx htight => ?_
  · cases List.mem_singleton.mp hi
    decide
  · rw [List.mem_singleton.mp hx, tight_int] at htight
    exact absurd htight.1 (by decide)

theorem httpQuote_replicate {d : UInt8} (h : unquoted d = true) (n : Nat) :
    httpQuote (List.replicate n d) = List.replicate n d := by
  induction n with
  | zero => rfl
  | succ n ih =>
    unfold httpQuote at ih ⊢
    rw [List.replicate_succ, List.flatMap_cons, ih, quoteByte, if_pos h]
    rfl

/-- After 3061 bytes the first block has 11 bytes left. -/
theorem tight_after_string (fresh : Nat → Nat → UInt8) {l : List UInt8}
    (h : (httpQuote l).length = 3061) :
    Tight ((Conversion.string l).write fresh (.start fresh), .int (-1000000000)) := by
  have hlen : ((Conversion.string l).write fresh (.start fresh)).len = 3061 :=
    (write_len fresh (.start fresh) (.string l)).trans ((Nat.zero_add _).trans h)
  refine tight_int.mpr ⟨by decide, ?_⟩
  rw [hlen, write_capacity]
  have hcapacity : (MessageBuffer.start fresh).capacity = 3072 := rfl
  have hroom : (Conversion.string l).room = 3061 := h
  have hstart : (MessageBuffer.start fresh).len = 0 := rfl
  have hroomed := roomed_capacity fresh (.start fresh) (.string l)
  omega

/-- The message of `"%s%d"` with 3061 letters and -1000000000. -/
def longMessage : List Conversion := [.string (List.replicate 3061 97), .int (-1000000000)]

/-- The NUL behind the number is stored at offset 3072 of a block of 3072 bytes. -/
theorem longMessage_overflows :
    conversions [37, 115, 37, 100] [.string (List.replicate 3061 97), .int (-1000000000)] =
      some longMessage ∧ ¬ InBuffer (fun _ _ => 0) longMessage := by
  refine ⟨rfl, fun h => ?_⟩
  have hfits := h (_, .int (-1000000000)) (List.mem_cons_of_mem _ List.mem_cons_self)
  have hint : (Conversion.int (-1000000000)).IsInt := ⟨by decide, by decide⟩
  refine (fits_iff hint).mp hfits (tight_after_string _ ?_)
  rw [httpQuote_replicate (by decide), List.length_replicate]

end Messages

end CS111.P2P
