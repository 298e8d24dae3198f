import CS111.P2P.ScanBounds

/-!
# Messages between peers come back as they were written

What one directive of a format writes, the same directive scans.
-/

namespace CS111.P2P

set_option autoImplicit false

open Memory Relation

variable {m : Bytes} {len p n i v : Nat} {c f : UInt8} {s str l l' format : List UInt8}
  {st : List Stored}

section Bytes

/-- The bytes `l` lie at offset `p` of a message of `len` bytes. -/
structure Lies (m : Bytes) (len p : Nat) (l : List UInt8) : Prop where
  fits : p + l.length ≤ len
  byte : ∀ i, (h : i < l.length) → m (p + i) = l[i]

theorem Contains.lies (h : Contains m s) : Lies m s.length 0 s := by
  constructor
  · omega
  · intro i hi
    rw [Nat.zero_add]
    exact h i hi

theorem Lies.left (h : Lies m len p (l ++ l')) : Lies m len p l := by
  have hfits := h.fits
  rw [List.length_append] at hfits
  constructor
  · omega
  · intro i hi
    rw [h.byte i (by rw [List.length_append]; omega), List.getElem_append_left hi]

theorem Lies.right (h : Lies m len p (l ++ l')) : Lies m len (p + l.length) l' := by
  have hfits := h.fits
  rw [List.length_append] at hfits
  constructor
  · omega
  · intro i hi
    rw [Nat.add_assoc, h.byte (l.length + i) (by rw [List.length_append]; omega),
      List.getElem_append_right (by omega)]
    simp

theorem Lies.head (h : Lies m len p (c :: l)) : peek m len p = some c := by
  have hfits := h.fits
  rw [List.length_cons] at hfits
  have hbyte := h.byte 0 (Nat.succ_pos _)
  rw [Nat.add_zero] at hbyte
  unfold peek
  rw [if_neg (by omega), hbyte]
  rfl

theorem Lies.tail (h : Lies m len p (c :: l)) : Lies m len (p + 1) l := by
  have h' : Lies m len p ([c] ++ l) := h
  exact h'.right

/-- The message ends at offset `p`, or a byte that `ends` holds for lies there. -/
def Stops (m : Bytes) (len p : Nat) (ends : UInt8 → Bool) : Prop :=
  ∀ c, peek m len p = some c → ends c = true

theorem Lies.stops {ends : UInt8 → Bool} (h : Lies m len p (c :: l)) (hc : ends c = true) :
    Stops m len p ends := by
  intro b hb
  rw [h.head] at hb
  rw [← Option.some.inj hb]
  exact hc

theorem stops_end (ends : UInt8 → Bool) : Stops m len len ends := by
  intro c hc
  unfold peek at hc
  rw [if_pos rfl] at hc
  exact absurd hc (by simp)

end Bytes

section Literals

theorem directive_plain (h37 : f ≠ 37) :
    directive (f :: format) = some (if isspace f then .blank else .literal f, format) := by
  unfold directive
  split
  all_goals rename_i heq
  · exact absurd heq (by simp)
  · exact absurd (List.cons.inj heq).1 h37
  · exact absurd (List.cons.inj heq).1 h37
  · exact absurd (List.cons.inj heq).1 h37
  · exact absurd (List.cons.inj heq).1 h37
  · exact absurd (List.cons.inj heq).1 h37
  · obtain ⟨rfl, rfl⟩ := List.cons.inj heq
    rfl

theorem directive_literal (h37 : f ≠ 37) (hsp : isspace f = false) :
    directive (f :: format) = some (.literal f, format) := by
  rw [directive_plain h37, if_neg (by simp [hsp])]

theorem isspace_not_percent (hsp : isspace f = true) : f ≠ 37 := by
  rintro rfl
  exact absurd hsp (by decide)

theorem directive_blank (hsp : isspace f = true) :
    directive (f :: format) = some (.blank, format) := by
  rw [directive_plain (isspace_not_percent hsp), if_pos hsp]

theorem scans_literal (h37 : f ≠ 37) (hsp : isspace f = false) (hp : peek m len p = some f) :
    Scans m len ⟨.format, f :: format, p, st⟩ ⟨.format, format, p + 1, st⟩ := by
  apply ReflTransGen.single
  unfold ScanStep Scan.step Scan.formatStep
  simp only [hp, directive_literal h37 hsp, if_pos]

theorem scans_literals (hl : ∀ f, f ∈ l → f ≠ 37 ∧ isspace f = false) (h : Lies m len p l) :
    Scans m len ⟨.format, l ++ format, p, st⟩ ⟨.format, format, p + l.length, st⟩ := by
  induction l generalizing p with
  | nil => exact .refl
  | cons f l ih =>
    obtain ⟨h37, hsp⟩ := hl f List.mem_cons_self
    have hrest := ih (fun f hf => hl f (List.mem_cons_of_mem _ hf)) h.tail
    rw [Nat.add_assoc, Nat.add_comm 1] at hrest
    exact (scans_literal h37 hsp h.head).trans hrest

theorem blanks_step {b : UInt8} (hp : peek m len p = some b) (hb : isspace b = true) :
    ScanStep m len ⟨.blanks, format, p, st⟩ ⟨.blanks, format, p + 1, st⟩ := by
  unfold ScanStep Scan.step Scan.blanksStep
  simp [hp, hb]

/-- A blank of the format and the blanks of the message from `p` to `q`. -/
theorem scans_blanks {q : Nat} (hsp : isspace f = true)
    (hformat : ∀ f', format.head? = some f' → isspace f' = false) (hpq : p < q)
    (hblank : ∀ i, p ≤ i → i < q → ∃ b, peek m len i = some b ∧ isspace b = true)
    (hstop : Stops m len q fun c => !isspace c) :
    Scans m len ⟨.format, f :: format, p, st⟩ ⟨.format, format, q, st⟩ := by
  have hstart : ScanStep m len ⟨.format, f :: format, p, st⟩ ⟨.blanks, f :: format, p, st⟩ := by
    obtain ⟨b, hp, hb⟩ := hblank p (Nat.le_refl p) hpq
    unfold ScanStep Scan.step Scan.formatStep
    simp [hp, directive_blank hsp, hb, Scan.goto]
  have hloop : ∀ k, p + k ≤ q →
      Scans m len ⟨.blanks, f :: format, p, st⟩ ⟨.blanks, f :: format, p + k, st⟩ := by
    intro k hk
    induction k with
    | zero => exact .refl
    | succ k ih =>
      obtain ⟨b, hp, hb⟩ := hblank (p + k) (by omega) (by omega)
      exact (ih (by omega)).tail (blanks_step hp hb)
  have hdrop : (f :: format).dropWhile isspace = format := by
    rw [List.dropWhile_cons, if_pos hsp]
    cases format with
    | nil => rfl
    | cons f' format =>
      have := hformat f' rfl
      rw [List.dropWhile_cons, if_neg (by simp [this])]
  have hno : (peek m len q).any isspace = false := by
    cases hc : peek m len q with
    | none => rfl
    | some c =>
      have := hstop c hc
      simpa using this
  have hend : ScanStep m len ⟨.blanks, f :: format, q, st⟩ ⟨.format, format, q, st⟩ := by
    unfold ScanStep Scan.step Scan.blanksStep
    simp [hno, hdrop]
  have hrun := hloop (q - p) (by omega)
  rw [Nat.add_sub_of_le (Nat.le_of_lt hpq)] at hrun
  exact .head hstart (hrun.tail hend)

/-- One blank of the format and one of the message. -/
theorem scans_blank {b : UInt8} (hsp : isspace f = true)
    (hformat : ∀ f', format.head? = some f' → isspace f' = false)
    (hp : peek m len p = some b) (hb : isspace b = true)
    (hstop : Stops m len (p + 1) fun c => !isspace c) :
    Scans m len ⟨.format, f :: format, p, st⟩ ⟨.format, format, p + 1, st⟩ := by
  apply scans_blanks hsp hformat (Nat.lt_succ_self p) _ hstop
  intro i h1 h2
  obtain rfl : i = p := by omega
  exact ⟨b, hp, hb⟩

end Literals

section Strings

theorem forall_byte {P : UInt8 → Prop} (h : ∀ n : Fin 256, P (UInt8.ofNat n.val)) (c : UInt8) : P c := by
  have := h ⟨c.toNat, c.toNat_lt⟩
  rwa [UInt8.ofNat_toNat] at this

/-- A byte that is not quoted is neither a blank nor a `%`. -/
theorem unquoted_plain : ∀ c : UInt8, unquoted c = true → isspace c = false ∧ c ≠ 37 := by
  apply forall_byte
  decide +kernel

theorem hexDigits_value : ∀ c : UInt8, isxdigit (hexDigit (c / 16)) = true ∧
    isxdigit (hexDigit (c &&& 15)) = true ∧
    xvalue (hexDigit (c / 16)) * 16 + xvalue (hexDigit (c &&& 15)) = c := by
  apply forall_byte
  decide +kernel

theorem scans_quoteByte (h : Lies m len p (quoteByte c)) :
    Scans m len ⟨.string str, format, p, st⟩
      ⟨.string (str ++ [c]), format, p + (quoteByte c).length, st⟩ := by
  apply ReflTransGen.single
  unfold ScanStep Scan.step Scan.stringStep
  unfold quoteByte at h ⊢
  by_cases hc : unquoted c = true
  · rw [if_pos hc] at h ⊢
    obtain ⟨hsp, h37⟩ := unquoted_plain c hc
    have hbyte := (peek_some h.head).2
    have hq : quotedAt m p = none := by
      unfold quotedAt
      rw [if_neg fun hh => h37 (hbyte.symm.trans hh.1)]
    simp [h.head, hsp, hq]
  · rw [if_neg hc] at h ⊢
    obtain ⟨hx1, hx2, hval⟩ := hexDigits_value c
    have hb0 := (peek_some h.head).2
    have hb1 := (peek_some h.tail.head).2
    have hb2 := (peek_some h.tail.tail.head).2
    have hq : quotedAt m p = some c := by
      unfold quotedAt
      rw [hb0, hb1, hb2, hval, if_pos ⟨rfl, hx1, hx2⟩]
    simp [h.head, isspace_percent, hq]

theorem scans_httpQuote (h : Lies m len p (httpQuote s)) :
    Scans m len ⟨.string str, format, p, st⟩
      ⟨.string (str ++ s), format, p + (httpQuote s).length, st⟩ := by
  induction s generalizing p str with
  | nil =>
    rw [List.append_nil]
    exact .refl
  | cons c s ih =>
    have hquote : httpQuote (c :: s) = quoteByte c ++ httpQuote s := rfl
    rw [hquote] at h ⊢
    have hfirst : Scans m len ⟨.string str, format, p, st⟩
        ⟨.string (str ++ [c]), format, p + (quoteByte c).length, st⟩ := scans_quoteByte h.left
    have hrest := hfirst.trans (ih h.right)
    rwa [List.append_assoc, Nat.add_assoc, ← List.length_append] at hrest

/-- A string is written quoted, and the scanner finds its end at a blank or at the end. -/
theorem scans_string (h : Lies m len p (httpQuote s))
    (hstop : Stops m len (p + (httpQuote s).length) isspace) :
    Scans m len ⟨.format, 37 :: 115 :: format, p, st⟩
      ⟨.format, format, p + (httpQuote s).length, st ++ [.string s]⟩ := by
  have hstart : ScanStep m len ⟨.format, 37 :: 115 :: format, p, st⟩
      ⟨.string [], 37 :: 115 :: format, p, st⟩ := rfl
  have hend : ScanStep m len ⟨.string s, 37 :: 115 :: format, p + (httpQuote s).length, st⟩
      ⟨.format, format, p + (httpQuote s).length, st ++ [.string s]⟩ := by
    unfold ScanStep Scan.step Scan.stringStep
    cases hc : peek m len (p + (httpQuote s).length) with
    | none => rfl
    | some c => simp [hstop c hc, Scan.store]
  have hquote : Scans m len ⟨.string [], 37 :: 115 :: format, p, st⟩
      ⟨.string ([] ++ s), 37 :: 115 :: format, p + (httpQuote s).length, st⟩ := scans_httpQuote h
  rw [List.nil_append] at hquote
  exact .head hstart (hquote.tail hend)

theorem quoteByte_head (c : UInt8) : ∃ b l, quoteByte c = b :: l ∧ isspace b = false := by
  unfold quoteByte
  by_cases hc : unquoted c = true
  · rw [if_pos hc]
    exact ⟨c, [], rfl, (unquoted_plain c hc).1⟩
  · rw [if_neg hc]
    exact ⟨_, _, rfl, isspace_percent⟩

/-- The quoted form of a nonempty string does not begin with a blank. -/
theorem httpQuote_head (hs : s ≠ []) : ∃ b l, httpQuote s = b :: l ∧ isspace b = false := by
  cases s with
  | nil => exact absurd rfl hs
  | cons c s =>
    obtain ⟨b, l, hb, hsp⟩ := quoteByte_head c
    exact ⟨b, l ++ httpQuote s, by rw [httpQuote, List.flatMap_cons, hb]; rfl, hsp⟩

end Strings

section Decimals

theorem decimal_eq (n : Nat) : decimal n =
    if n < 10 then [UInt8.ofNat (48 + n)] else decimal (n / 10) ++ [UInt8.ofNat (48 + n % 10)] := by
  unfold decimal
  by_cases h0 : n = 0
  · subst h0
    rfl
  · rw [if_neg h0]
    by_cases h : n < 10
    · rw [if_pos h, Nat.digits_of_lt 10 n h0 h]
      rfl
    · rw [if_neg h, if_neg (by omega), Nat.digits_def' (by omega) (by omega)]
      simp

theorem digit_class {d : Nat} (hd : d < 10) : isdigit (UInt8.ofNat (48 + d)) = true ∧
    digitValue (UInt8.ofNat (48 + d)) = d := by
  have hall : ∀ d : Fin 10, isdigit (UInt8.ofNat (48 + d.val)) = true ∧
      digitValue (UInt8.ofNat (48 + d.val)) = d.val := by decide
  exact hall ⟨d, hd⟩

theorem decimal_head (n : Nat) : ∃ c l, decimal n = c :: l ∧ isdigit c = true := by
  induction n using Nat.strong_induction_on with
  | _ n ih =>
    rw [decimal_eq]
    by_cases h : n < 10
    · rw [if_pos h]
      exact ⟨_, [], rfl, (digit_class h).1⟩
    · rw [if_neg h]
      obtain ⟨c, l, hl, hc⟩ := ih (n / 10) (by omega)
      exact ⟨c, _, by rw [hl, List.cons_append], hc⟩

def notDigit (c : UInt8) : Bool := !isdigit c

theorem Stops.filter_none {keep : UInt8 → Bool} (h : Stops m len p notDigit)
    (hkeep : ∀ c, keep c = true → isdigit c = true) : (peek m len p).filter keep = none := by
  rw [Option.filter_eq_none_iff]
  intro c hc hk
  have hstop := h c hc
  rw [notDigit, hkeep c hk] at hstop
  exact absurd hstop (by decide)

/-- What a loop over digits does with each digit, it does with a decimal number. -/
theorem scans_digits (mode : Int → Mode) {x : Int} {limit : Nat}
    (hfirst : ∀ p d, d < 10 → peek m len p = some (UInt8.ofNat (48 + d)) →
      ScanStep m len ⟨mode x, format, p, st⟩ ⟨mode d, format, p + 1, st⟩)
    (hnext : ∀ p d k, d < 10 → 10 * k + d ≤ limit → peek m len p = some (UInt8.ofNat (48 + d)) →
      ScanStep m len ⟨mode (k : Nat), format, p, st⟩ ⟨mode (10 * k + d : Nat), format, p + 1, st⟩)
    (hn : n ≤ limit) (h : Lies m len p (decimal n)) :
    Scans m len ⟨mode x, format, p, st⟩ ⟨mode n, format, p + (decimal n).length, st⟩ := by
  induction n using Nat.strong_induction_on with
  | _ n ih =>
    rw [decimal_eq] at h ⊢
    by_cases hlt : n < 10
    · rw [if_pos hlt] at h ⊢
      exact .single (hfirst p n hlt h.head)
    · rw [if_neg hlt] at h ⊢
      have hrun := ih (n / 10) (by omega) (by omega) h.left
      have hdigit := hnext _ (n % 10) (n / 10) (by omega) (by omega) h.right.head
      rw [Nat.div_add_mod] at hdigit
      rw [List.length_append, ← Nat.add_assoc]
      exact hrun.tail hdigit

theorem quad_digit {x y : Int} {d : Nat} (hd : d < 10) (hx : x ≤ 255)
    (hy : y = (if x < 0 then 0 else 10 * x) + d) (hp : peek m len p = some (UInt8.ofNat (48 + d))) :
    ScanStep m len ⟨.quad i x v, format, p, st⟩ ⟨.quad i y v, format, p + 1, st⟩ := by
  obtain ⟨hc, hval⟩ := digit_class hd
  have hkeep : (peek m len p).filter (fun b => isdigit b && decide (x ≤ 255)) =
      some (UInt8.ofNat (48 + d)) := by
    rw [hp, Option.filter_some_pos]
    rw [hc, decide_eq_true hx]
    rfl
  unfold ScanStep Scan.step Scan.quadStep
  simp only [hkeep, hval, hy]

/-- The loop over the digits ends; a dot follows unless it is the last part. -/
theorem quad_end (c : Scan) (i v : Nat) (hn : n ≤ 255) (hstop : Stops m len p notDigit)
    (hdot : i < 3 → peek m len p = some 46) :
    Scan.quadStep (peek m len p) c i n v =
      if i < 3 then { c with mode := .quad (i + 1) (-1) (u32 (v * 256 + n)), pos := c.pos + 1 }
      else c.store (.addr (UInt32.ofNat (u32 (v * 256 + n)))) := by
  have hnone : (peek m len p).filter (fun b => isdigit b && decide ((n : Int) ≤ 255)) = none :=
    hstop.filter_none fun c hc => (Bool.and_eq_true_iff.mp hc).1
  have hpos : ¬ ((n : Int) < 0 ∨ (n : Int) > 255 ∨ i < 3 ∧ peek m len p ≠ some 46) := by
    rintro (h | h | ⟨hi, hne⟩)
    · omega
    · omega
    · exact hne (hdot hi)
  unfold Scan.quadStep
  simp only [hnone]
  rw [if_neg hpos, Int.toNat_natCast]

theorem scans_quad_digits (hn : n ≤ 255) (h : Lies m len p (decimal n)) :
    Scans m len ⟨.quad i (-1) v, format, p, st⟩
      ⟨.quad i n v, format, p + (decimal n).length, st⟩ := by
  apply scans_digits (fun x => .quad i x v) _ _ hn h
  · intro p d hd hp
    exact quad_digit hd (by omega) (by simp) hp
  · intro p d k hd hk hp
    exact quad_digit hd (by omega) (by omega) hp

/-- A part of an address and the dot behind it. -/
theorem scans_quad_dot (i v : Nat) (format : List UInt8) (st : List Stored) (hi : i < 3)
    (hn : n ≤ 255) (h : Lies m len p (decimal n ++ 46 :: l)) :
    Scans m len ⟨.quad i (-1) v, format, p, st⟩
      ⟨.quad (i + 1) (-1) (u32 (v * 256 + n)), format, p + (decimal n).length + 1, st⟩ := by
  have hdot : ScanStep m len ⟨.quad i n v, format, p + (decimal n).length, st⟩
      ⟨.quad (i + 1) (-1) (u32 (v * 256 + n)), format, p + (decimal n).length + 1, st⟩ := by
    have hend := quad_end ⟨.quad i n v, format, p + (decimal n).length, st⟩ i v hn
      (h.right.stops (by decide)) fun _ => h.right.head
    rw [if_pos hi] at hend
    exact congrArg some hend
  exact (scans_quad_digits hn h.left).tail hdot

theorem scans_quad_last (hn : n ≤ 255) (h : Lies m len p (decimal n))
    (hstop : Stops m len (p + (decimal n).length) notDigit) :
    Scans m len ⟨.quad 3 (-1) v, 37 :: 73 :: format, p, st⟩
      ⟨.format, format, p + (decimal n).length, st ++ [.addr (UInt32.ofNat (u32 (v * 256 + n)))]⟩ := by
  have hlast : ScanStep m len ⟨.quad 3 n v, 37 :: 73 :: format, p + (decimal n).length, st⟩
      ⟨.format, format, p + (decimal n).length,
        st ++ [.addr (UInt32.ofNat (u32 (v * 256 + n)))]⟩ := by
    have hend := quad_end ⟨.quad 3 n v, 37 :: 73 :: format, p + (decimal n).length, st⟩ 3 v hn hstop
      fun hi => absurd hi (Nat.lt_irrefl 3)
    rw [if_neg (Nat.lt_irrefl 3)] at hend
    exact congrArg some hend
  exact (scans_quad_digits hn h).tail hlast

theorem addrByte_le (a : UInt32) (i : Nat) : addrByte a i ≤ 255 := by
  unfold addrByte
  omega

/-- The four parts make up the address. -/
theorem quads_value (a : UInt32) :
    UInt32.ofNat (u32 (u32 (u32 (u32 (0 * 256 + addrByte a 0) * 256 + addrByte a 1) * 256 +
      addrByte a 2) * 256 + addrByte a 3)) = a := by
  have hlt := a.toNat_lt
  have hvalue : u32 (u32 (u32 (u32 (0 * 256 + addrByte a 0) * 256 + addrByte a 1) * 256 +
      addrByte a 2) * 256 + addrByte a 3) = a.toNat := by
    simp only [u32, addrByte, Nat.reduceSub, Nat.reducePow]
    omega
  rw [hvalue, UInt32.ofNat_toNat]

theorem scans_addr {a : UInt32} (h : Lies m len p (inetNtoa a))
    (hstop : Stops m len (p + (inetNtoa a).length) notDigit) :
    Scans m len ⟨.format, 37 :: 73 :: format, p, st⟩
      ⟨.format, format, p + (inetNtoa a).length, st ++ [.addr a]⟩ := by
  have hstart : ScanStep m len ⟨.format, 37 :: 73 :: format, p, st⟩
      ⟨.quad 0 (-1) 0, 37 :: 73 :: format, p, st⟩ := rfl
  have hlie : Lies m len p (decimal (addrByte a 0) ++ 46 :: (decimal (addrByte a 1) ++
      46 :: (decimal (addrByte a 2) ++ 46 :: decimal (addrByte a 3)))) := by
    rw [inetNtoa] at h
    simpa only [List.append_assoc, List.cons_append] using h
  have h1 := hlie.right.tail
  have h2 := h1.right.tail
  have h3 := h2.right.tail
  have hlength : p + (inetNtoa a).length = p + (decimal (addrByte a 0)).length + 1 +
      (decimal (addrByte a 1)).length + 1 + (decimal (addrByte a 2)).length + 1 +
      (decimal (addrByte a 3)).length := by
    simp only [inetNtoa, List.length_append, List.length_cons]
    omega
  rw [hlength] at hstop ⊢
  have hq0 := scans_quad_dot 0 0 (37 :: 73 :: format) st (by omega) (addrByte_le a 0) hlie
  have hq1 := scans_quad_dot 1 (u32 (0 * 256 + addrByte a 0)) (37 :: 73 :: format) st (by omega)
    (addrByte_le a 1) h1
  have hq2 := scans_quad_dot 2 (u32 (u32 (0 * 256 + addrByte a 0) * 256 + addrByte a 1))
    (37 :: 73 :: format) st (by omega) (addrByte_le a 2) h2
  have hlast : Scans m len _ ⟨.format, format, _, st ++ [.addr (UInt32.ofNat
      (u32 (u32 (u32 (u32 (0 * 256 + addrByte a 0) * 256 + addrByte a 1) * 256 +
        addrByte a 2) * 256 + addrByte a 3)))]⟩ := scans_quad_last (addrByte_le a 3) h3 hstop
  rw [quads_value] at hlast
  exact .head hstart (((hq0.trans hq1).trans hq2).trans hlast)

theorem decimal_digit {k d : Nat} (hd : d < 10) (hk : 10 * k + d ≤ 65535)
    (hp : peek m len p = some (UInt8.ofNat (48 + d))) :
    ScanStep m len ⟨.decimal k, format, p, st⟩ ⟨.decimal (10 * k + d : Nat), format, p + 1, st⟩ := by
  obtain ⟨hc, hval⟩ := digit_class hd
  have hroom : (k : Int) < (INT_MAX - d) / 10 := by
    unfold INT_MAX
    omega
  have hkeep : (peek m len p).filter isdigit = some (UInt8.ofNat (48 + d)) := by
    rw [hp, Option.filter_some_pos hc]
  unfold ScanStep Scan.step Scan.decimalStep
  simp only [hkeep, hval]
  rw [if_pos hroom, Int.natCast_add, Int.natCast_mul]
  rfl

theorem scans_int (hn : n ≤ 65535) (h : Lies m len p (formatInt n))
    (hstop : Stops m len (p + (formatInt n).length) notDigit) :
    Scans m len ⟨.format, 37 :: 100 :: format, p, st⟩
      ⟨.format, format, p + (formatInt n).length, st ++ [.int n]⟩ := by
  have hwritten : formatInt n = decimal n := by
    unfold formatInt
    rw [if_neg (by omega), Int.natAbs_natCast]
  rw [hwritten] at h hstop ⊢
  have hstart : ScanStep m len ⟨.format, 37 :: 100 :: format, p, st⟩
      ⟨.decimal 0, 37 :: 100 :: format, p, st⟩ := by
    obtain ⟨c, l, hl, hc⟩ := decimal_head n
    rw [hl] at h
    unfold ScanStep Scan.step Scan.formatStep
    simp [h.head, hc, directive, Scan.goto]
  have hend : ScanStep m len ⟨.decimal n, 37 :: 100 :: format, p + (decimal n).length, st⟩
      ⟨.format, format, p + (decimal n).length, st ++ [.int n]⟩ := by
    unfold ScanStep Scan.step Scan.decimalStep
    simp [hstop.filter_none fun c hc => hc, Scan.store]
  have hdigits : Scans m len ⟨.decimal 0, 37 :: 100 :: format, p, st⟩
      ⟨.decimal n, 37 :: 100 :: format, p + (decimal n).length, st⟩ := by
    apply scans_digits .decimal _ _ hn h
    · intro p d hd hp
      have hdigit : ScanStep m len ⟨.decimal (0 : Nat), 37 :: 100 :: format, p, st⟩
          ⟨.decimal (10 * 0 + d : Nat), 37 :: 100 :: format, p + 1, st⟩ :=
        decimal_digit hd (by omega) hp
      rwa [Nat.mul_zero, Nat.zero_add] at hdigit
    · intro p d k hd hk hp
      exact decimal_digit hd hk hp
  exact .head hstart (hdigits.tail hend)

end Decimals

section Messages

/-- A call of `osp2p_writef` that returns 0 sends the bytes `sent`. -/
def Writes (format : List UInt8) (args : List Arg) (sent : List UInt8) : Prop :=
  ∃ calls, osp2pWritef calls format args = some (sent, some 0)

/-- The loop over `write` returns 0 only when everything is sent. -/
theorem writeLoop_sends (calls : List WriteCall) (h : writeLoop calls l = (l', some 0)) : l' = l := by
  induction calls generalizing l l' with
  | nil =>
    cases l with
    | nil => exact (Prod.mk.inj h).1.symm
    | cons c rest => exact absurd (Prod.mk.inj h).2 (by simp)
  | cons fd calls ih =>
    cases l with
    | nil => exact (Prod.mk.inj h).1.symm
    | cons c rest =>
      unfold writeLoop at h
      split at h
      · split at h
        · exact ih h
        · exact absurd (Prod.mk.inj h).2 (by simp)
      · rename_i amt _
        split at h
        · exact absurd (Prod.mk.inj h).2 (by simp)
        · obtain ⟨hsent, hret⟩ := Prod.mk.inj h
          have hrest : (writeLoop calls ((c :: rest).drop amt)).1 = (c :: rest).drop amt :=
            ih (Prod.ext rfl hret)
          rw [← hsent, hrest, List.take_append_drop]

/-- A `write` that takes all it is offered. -/
def WriteCall.all : WriteCall where
  transfer n := .ok n
  le_asked h := by
    obtain rfl := Except.ok.inj h
    exact Nat.le_refl _

theorem writes_iff {args : List Arg} {sent : List UInt8} :
    Writes format args sent ↔ message format args = some sent := by
  unfold Writes osp2pWritef
  constructor
  · rintro ⟨calls, h⟩
    obtain ⟨msg, hmsg, hloop⟩ := Option.map_eq_some_iff.mp h
    rw [hmsg, writeLoop_sends calls hloop]
  · intro h
    apply Exists.intro [WriteCall.all]
    rw [h, Option.map_some]
    cases sent with
    | nil => rfl
    | cons c rest => simp [writeLoop, WriteCall.all]

/-- What is written with the format and the arguments is scanned back. -/
structure RoundTrips (format : List UInt8) (args : List Arg) (stored : List Stored) : Prop where
  written : ∃ sent, Writes format args sent
  scanned : ∀ sent m, Writes format args sent → Contains m sent →
    ∃ c, Returns m sent.length format c ∧ c.ret = 0 ∧ c.stored = stored

/-- A scan to the end of the format. -/
theorem roundTrips_of_scans {args : List Arg} {stored : List Stored} {sent : List UInt8}
    (hmsg : message format args = some sent)
    (hscan : ∀ m, Lies m sent.length 0 sent →
      Scans m sent.length (.start format) ⟨.format, [], sent.length, stored⟩) :
    RoundTrips format args stored := by
  constructor
  · exact ⟨sent, writes_iff.mpr hmsg⟩
  · intro sent' m hw hm
    obtain rfl : sent = sent' := Option.some.inj (hmsg.symm.trans (writes_iff.mp hw))
    exact ⟨_, ⟨hscan m hm.lies, rfl⟩, rfl, rfl⟩

theorem getMessage (s : List UInt8) : message getFormat [.string s] =
    some ([71, 69, 84] ++ 32 :: (httpQuote s ++ 32 :: [79, 83, 80, 50, 80, 10])) := by
  simp [getFormat, chars, message]

theorem peerMessage (s : List UInt8) (a : UInt32) (i : Int) :
    message peerFormat [.string s, .addr a, .int i] =
      some ([80, 69, 69, 82] ++ 32 :: (httpQuote s ++ 32 :: (inetNtoa a ++ 58 :: formatInt i))) := by
  simp [peerFormat, chars, message]

/-- The blank in front of a string. -/
theorem scans_blank_string (format : List UInt8) (st : List Stored) (hs : s ≠ [])
    (h : Lies m len p (32 :: (httpQuote s ++ 32 :: l))) :
    Scans m len ⟨.format, 32 :: 37 :: 115 :: 32 :: format, p, st⟩
      ⟨.format, 32 :: format, p + 1 + (httpQuote s).length, st ++ [.string s]⟩ := by
  obtain ⟨b, rest, hb, hsp⟩ := httpQuote_head hs
  have hquote := h.tail
  have hstop : Stops m len (p + 1) fun c => !isspace c := by
    rw [hb, List.cons_append] at hquote
    exact hquote.stops (by rw [hsp]; rfl)
  have hblank : Scans m len ⟨.format, 32 :: 37 :: 115 :: 32 :: format, p, st⟩
      ⟨.format, 37 :: 115 :: 32 :: format, p + 1, st⟩ := by
    apply scans_blank rfl _ h.head rfl hstop
    intro f' hf'
    rw [← Option.some.inj hf']
    rfl
  exact hblank.trans (scans_string hquote.left (hquote.right.stops rfl))

theorem get_round_trip (hs : s ≠ []) : RoundTrips getFormat [.string s] [.string s] := by
  apply roundTrips_of_scans (getMessage s)
  intro m h
  generalize hlen : ([71, 69, 84] ++ 32 :: (httpQuote s ++ 32 :: [79, 83, 80, 50, 80, 10])).length = len
    at h ⊢
  have hend : len = 0 + 3 + 1 + (httpQuote s).length + 1 + 5 + 1 := by
    simp only [List.length_append, List.length_cons, List.length_nil] at hlen
    omega
  have hget : Scans m len (.start getFormat) ⟨.format, getFormat.drop 3, 0 + 3, []⟩ := by
    apply scans_literals _ h.left
    decide +kernel
  have hstring := scans_blank_string [79, 83, 80, 50, 80, 10] [] hs h.right
  have hafter := h.right.tail.right
  have hblank : Scans m len
      ⟨.format, [32, 79, 83, 80, 50, 80, 10], 0 + 3 + 1 + (httpQuote s).length, [.string s]⟩
      ⟨.format, [79, 83, 80, 50, 80, 10], 0 + 3 + 1 + (httpQuote s).length + 1, [.string s]⟩ := by
    apply scans_blank rfl _ hafter.head rfl (hafter.tail.stops rfl)
    decide +kernel
  have hosp2p : Lies m len (0 + 3 + 1 + (httpQuote s).length + 1) ([79, 83, 80, 50, 80] ++ [10]) :=
    hafter.tail
  have hname : Scans m len
      ⟨.format, [79, 83, 80, 50, 80] ++ [10], 0 + 3 + 1 + (httpQuote s).length + 1, [.string s]⟩
      ⟨.format, [10], 0 + 3 + 1 + (httpQuote s).length + 1 + 5, [.string s]⟩ := by
    apply scans_literals _ hosp2p.left
    decide +kernel
  have hline : Scans m len
      ⟨.format, [10], 0 + 3 + 1 + (httpQuote s).length + 1 + 5, [.string s]⟩
      ⟨.format, [], 0 + 3 + 1 + (httpQuote s).length + 1 + 5 + 1, [.string s]⟩ := by
    apply scans_blank rfl _ hosp2p.right.head rfl
    · change Stops m len (0 + 3 + 1 + (httpQuote s).length + 1 + 5 + 1) _
      rw [← hend]
      exact stops_end _
    · decide +kernel
  rw [hend] at hget hstring hblank hname hline ⊢
  exact (((hget.trans hstring).trans hblank).trans hname).trans hline

theorem isdigit_head_stops {ends : UInt8 → Bool} (n : Nat) (h : Lies m len p (decimal n ++ l))
    (hends : ∀ c, isdigit c = true → ends c = true) : Stops m len p ends := by
  obtain ⟨c, rest, hrest, hc⟩ := decimal_head n
  rw [hrest, List.cons_append] at h
  exact h.stops (hends c hc)

theorem isdigit_not_space : ∀ c : UInt8, isdigit c = true → (!isspace c) = true := by
  apply forall_byte
  decide +kernel

theorem peer_round_trip (hs : s ≠ []) (a : UInt32) (hn : n ≤ 65535) :
    RoundTrips peerFormat [.string s, .addr a, .int n] [.string s, .addr a, .int n] := by
  apply roundTrips_of_scans (peerMessage s a n)
  intro m h
  generalize hlen : ([80, 69, 69, 82] ++ 32 :: (httpQuote s ++ 32 :: (inetNtoa a ++
    58 :: formatInt n))).length = len at h ⊢
  have hend : len = 0 + 4 + 1 + (httpQuote s).length + 1 + (inetNtoa a).length + 1 +
      (formatInt n).length := by
    simp only [List.length_append, List.length_cons, List.length_nil] at hlen
    omega
  have hpeer : Scans m len (.start peerFormat) ⟨.format, peerFormat.drop 4, 0 + 4, []⟩ := by
    apply scans_literals _ h.left
    decide +kernel
  have hstring := scans_blank_string [37, 73, 58, 37, 100] [] hs h.right
  have hafter := h.right.tail.right
  have hblank : Scans m len
      ⟨.format, [32, 37, 73, 58, 37, 100], 0 + 4 + 1 + (httpQuote s).length, [.string s]⟩
      ⟨.format, [37, 73, 58, 37, 100], 0 + 4 + 1 + (httpQuote s).length + 1, [.string s]⟩ := by
    apply scans_blank rfl _ hafter.head rfl
    · have haddr := hafter.tail
      simp only [inetNtoa, List.append_assoc] at haddr
      exact isdigit_head_stops _ haddr isdigit_not_space
    · decide +kernel
  have haddr : Scans m len
      ⟨.format, [37, 73, 58, 37, 100], 0 + 4 + 1 + (httpQuote s).length + 1, [.string s]⟩
      ⟨.format, [58, 37, 100], 0 + 4 + 1 + (httpQuote s).length + 1 + (inetNtoa a).length,
        [.string s, .addr a]⟩ :=
    scans_addr hafter.tail.left (hafter.tail.right.stops rfl)
  have hport := hafter.tail.right
  have hcolon : Scans m len
      ⟨.format, [58, 37, 100], 0 + 4 + 1 + (httpQuote s).length + 1 + (inetNtoa a).length,
        [.string s, .addr a]⟩
      ⟨.format, [37, 100], 0 + 4 + 1 + (httpQuote s).length + 1 + (inetNtoa a).length + 1,
        [.string s, .addr a]⟩ :=
    scans_literal (by decide) (by decide) hport.head
  have hint : Scans m len
      ⟨.format, [37, 100], 0 + 4 + 1 + (httpQuote s).length + 1 + (inetNtoa a).length + 1,
        [.string s, .addr a]⟩
      ⟨.format, [], 0 + 4 + 1 + (httpQuote s).length + 1 + (inetNtoa a).length + 1 +
        (formatInt n).length, [.string s, .addr a, .int n]⟩ := by
    apply scans_int hn hport.tail
    change Stops m len (0 + 4 + 1 + (httpQuote s).length + 1 + (inetNtoa a).length + 1 +
      (formatInt n).length) _
    rw [← hend]
    exact stops_end _
  rw [hend] at hpeer hstring hblank haddr hcolon hint ⊢
  exact ((((hpeer.trans hstring).trans hblank).trans haddr).trans hcolon).trans hint

theorem messages_round_trip (s : List UInt8) (a : UInt32) (port : Nat) (hs : s ≠ [])
    (hpos : 1 ≤ port) (hport : port ≤ 65535) :
    RoundTrips getFormat [.string s] [.string s] ∧
      RoundTrips peerFormat [.string s, .addr a, .int port] [.string s, .addr a, .int port] ∧
      ∀ sent m, Writes peerFormat [.string s, .addr a, .int port] sent → Contains m sent →
        ParsesPeer m sent.length ⟨s, a, port⟩ := by
  constructor
  · exact get_round_trip hs
  · constructor
    · exact peer_round_trip hs a hport
    · intro sent m hw hm
      obtain ⟨c, hc, hret, hstored⟩ := (peer_round_trip hs a hport).scanned sent m hw hm
      exact ⟨c, hc, by omega, hstored, by simp only; omega, by simp only; omega⟩

theorem messages_round_trip_quoted :
    RoundTrips getFormat [.string [97, 32, 37, 255]] [.string [97, 32, 37, 255]] ∧
      RoundTrips peerFormat [.string [97, 32, 37, 255], .addr 2130706433, .int (80 : Nat)]
        [.string [97, 32, 37, 255], .addr 2130706433, .int (80 : Nat)] ∧
      ∀ sent m, Writes peerFormat [.string [97, 32, 37, 255], .addr 2130706433, .int (80 : Nat)] sent →
        Contains m sent → ParsesPeer m sent.length ⟨[97, 32, 37, 255], 2130706433, (80 : Nat)⟩ :=
  messages_round_trip [97, 32, 37, 255] 2130706433 80 (by decide) (by decide) (by decide)

end Messages

end CS111.P2P
