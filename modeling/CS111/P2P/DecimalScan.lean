import CS111.P2P.MessageRoundTrip

/-!
# Scanning decimal numbers

The loop of `%d` goes on while `value < (INT_MAX - (*s - '0'))/10`. The comparison is strict, so that the
ten largest numbers of an `int` are refused.
-/

namespace CS111.P2P

set_option autoImplicit false

open Memory Relation

variable {m : Bytes} {len p v : Nat} {c c' : Scan} {d : UInt8} {digits format rest : List UInt8}
  {st : List Stored}

/-- The number that digits stand for when `v` is the number before them. -/
def decimalValue (v : Nat) (digits : List UInt8) : Nat :=
  digits.foldl (fun v d => 10 * v + (d.toNat - 48)) v

/-- No number is denoted by no digits. -/
def denoted (digits : List UInt8) : Option Nat :=
  if digits = [] then none else some (decimalValue 0 digits)

/-- What one round of the loop computes as an `int`. -/
def decimalInts (cur : Option UInt8) (value : Int) : List Int :=
  match cur.filter isdigit with
  | none => []
  | some d =>
    [digitValue d, INT_MAX - digitValue d, (INT_MAX - digitValue d) / 10] ++
      if value < (INT_MAX - digitValue d) / 10 then [10 * value, 10 * value + digitValue d] else []

def FitsInt (i : Int) : Prop := -INT_MAX - 1 ≤ i ∧ i ≤ INT_MAX

def Scan.InDecimal (c : Scan) : Prop := ∃ value, c.mode = .decimal value

/-- A round of the loop. -/
def DecimalStep (m : Bytes) (len : Nat) (c c' : Scan) : Prop := c.InDecimal ∧ ScanStep m len c c'

/-- The conversion at the head of the format comes to `c'`, in the loop or behind it. -/
def Converts (m : Bytes) (len : Nat) (c c' : Scan) : Prop :=
  ∃ c₁, ScanStep m len c c₁ ∧ ReflTransGen (DecimalStep m len) c₁ c'

/-- The conversion ends; it succeeds exactly when the number is one of an `int`, stores the number and
has read the digits and no more. -/
structure ScansDecimal (m : Bytes) (len : Nat) (c : Scan) (digits : List UInt8) : Prop where
  ends : ∃ c', Converts m len c c' ∧ ¬ c'.InDecimal
  succeeds : ∀ c', Converts m len c c' → ¬ c'.InDecimal →
    (c'.mode = .format ↔ ∃ n, denoted digits = some n ∧ (n : Int) ≤ INT_MAX)
  stores : ∀ c', Converts m len c c' → c'.mode = .format → ∃ n : Nat, denoted digits = some n ∧
    c' = ⟨.format, c.format.drop 2, c.pos + digits.length, c.stored ++ [.int n]⟩
  noOverflow : ∀ c' value, Converts m len c c' → c'.mode = .decimal value →
    ∀ i ∈ decimalInts (peek m len c'.pos) value, FitsInt i

/-! ## The loop -/

/-- The largest number that the loop accepts. -/
def largestScanned : Nat := 2147483637

theorem digitValue_eq (h : isdigit d = true) :
    digitValue d = (d.toNat - 48 : Nat) := by
  obtain ⟨hlow, -⟩ := Bool.and_eq_true_iff.mp h
  have hlow := UInt8.le_iff_toNat_le.mp (of_decide_eq_true hlow)
  unfold digitValue
  simp only [UInt8.reduceToNat] at hlow
  omega

/-- The test of the loop. -/
theorem guard_iff (v k : Nat) :
    (v : Int) < (INT_MAX - (k : Int)) / 10 ↔ 10 * v + k ≤ largestScanned := by
  unfold INT_MAX largestScanned
  omega

theorem le_decimalValue (v : Nat) (digits : List UInt8) : v ≤ decimalValue v digits := by
  induction digits generalizing v with
  | nil => exact Nat.le_refl v
  | cons d digits ih =>
    have hstep := ih (10 * v + (d.toNat - 48))
    have hcons : decimalValue v (d :: digits) = decimalValue (10 * v + (d.toNat - 48)) digits := rfl
    omega

/-- Where the loop may be: at a number that it has accepted so far, or behind all digits, or out of the
conversion. -/
inductive DecimalState (format : List UInt8) (st : List Stored) (p v : Nat) (digits : List UInt8) :
    Scan → Prop
  | loop {v' p' : Nat} (hv : v' ≤ largestScanned) :
      DecimalState format st p v digits ⟨.decimal v', format, p', st⟩
  | done (hle : decimalValue v digits ≤ largestScanned) :
      DecimalState format st p v digits
        ⟨.format, format.drop 2, p + digits.length, st ++ [.int (decimalValue v digits : Nat)]⟩
  | refused {p' : Nat} (hlt : largestScanned < decimalValue v digits) :
      DecimalState format st p v digits ⟨.exit, format, p', st⟩

theorem decimal_step_none (v : Nat) (format : List UInt8) (st : List Stored)
    (h : Stops m len p notDigit) :
    (⟨.decimal v, format, p, st⟩ : Scan).step m len =
      some ⟨.format, format.drop 2, p, st ++ [.int v]⟩ := by
  have hcur : (peek m len p).filter isdigit = none := h.filter_none fun _ hd => hd
  simp only [Scan.step, Scan.decimalStep, hcur]
  rfl

theorem decimal_step_digit (v : Nat) (format : List UInt8) (st : List Stored)
    (h : peek m len p = some d) (hd : isdigit d = true) :
    (⟨.decimal v, format, p, st⟩ : Scan).step m len =
      some (if 10 * v + (d.toNat - 48) ≤ largestScanned then
        ⟨.decimal (10 * v + (d.toNat - 48) : Nat), format, p + 1, st⟩
      else ⟨.exit, format, p, st⟩) := by
  have hcur : (peek m len p).filter isdigit = some d := by
    rw [h, Option.filter_some, if_pos hd]
  simp only [Scan.step, Scan.decimalStep, hcur, digitValue_eq hd, guard_iff]
  split
  · congr 2
  · rfl

theorem Scan.not_inDecimal (h : c.mode = .format ∨ c.mode = .exit) : ¬ c.InDecimal := by
  intro hin
  obtain ⟨value, hvalue⟩ := hin
  rcases h with hmode | hmode
  all_goals
    rw [hmode] at hvalue
    cases hvalue

theorem decimal_leaves (h : (⟨.decimal v, format, p, st⟩ : Scan).step m len = some c)
    (hc : ¬ c.InDecimal) :
    ReflTransGen (DecimalStep m len) ⟨.decimal v, format, p, st⟩ c ∧
      ∀ c', ReflTransGen (DecimalStep m len) ⟨.decimal v, format, p, st⟩ c' →
        c' = ⟨.decimal v, format, p, st⟩ ∨ c' = c := by
  refine ⟨.single ⟨⟨_, rfl⟩, h⟩, fun c' hrun => ?_⟩
  rcases hrun.cases_head with rfl | ⟨c₁, hfirst, hrest⟩
  · exact .inl rfl
  · have heq : c₁ = c := Option.some.inj (hfirst.2.symm.trans h)
    rcases hrest.cases_head with rfl | ⟨c₂, hsecond, -⟩
    · exact .inr heq
    · exact absurd (heq ▸ hsecond.1) hc

/-- From a number that it has accepted, the loop comes to its end, and no state on the way is any other
than those listed. -/
theorem loop_states (format : List UInt8) (st : List Stored)
    (hdigits : ∀ d ∈ digits, isdigit d = true) (hlies : Lies m len p digits)
    (hstop : Stops m len (p + digits.length) notDigit) (hv : v ≤ largestScanned) :
    (∃ c, ReflTransGen (DecimalStep m len) ⟨.decimal v, format, p, st⟩ c ∧ ¬ c.InDecimal) ∧
      ∀ c, ReflTransGen (DecimalStep m len) ⟨.decimal v, format, p, st⟩ c →
        DecimalState format st p v digits c := by
  induction digits generalizing v p with
  | nil =>
    have hstep := decimal_step_none v format st hstop
    obtain ⟨hends, hstates⟩ := decimal_leaves hstep (Scan.not_inDecimal (.inl rfl))
    refine ⟨⟨_, hends, Scan.not_inDecimal (.inl rfl)⟩, fun c hrun => ?_⟩
    rcases hstates c hrun with rfl | rfl
    · exact .loop hv
    · exact .done hv
  | cons d digits ih =>
    have hd := hdigits d (List.mem_cons_self ..)
    have hstep := decimal_step_digit v format st hlies.head hd
    have hvalue : decimalValue v (d :: digits) = decimalValue (10 * v + (d.toNat - 48)) digits := rfl
    have hpos : p + (d :: digits).length = p + 1 + digits.length := by
      rw [List.length_cons]
      omega
    by_cases hle : 10 * v + (d.toNat - 48) ≤ largestScanned
    · rw [if_pos hle] at hstep
      obtain ⟨⟨c', hends, hout⟩, hstates⟩ :=
        ih (fun e he => hdigits e (List.mem_cons_of_mem d he)) hlies.tail (hpos ▸ hstop) hle
      refine ⟨⟨c', .head ⟨⟨_, rfl⟩, hstep⟩ hends, hout⟩, fun c hrun => ?_⟩
      rcases hrun.cases_head with rfl | ⟨c₁, hfirst, hrest⟩
      · exact .loop hv
      · rw [Option.some.inj (hfirst.2.symm.trans hstep)] at hrest
        cases hstates c hrest with
        | loop hv' => exact .loop hv'
        | done hdone =>
          rw [← hpos, ← hvalue]
          exact .done (hvalue ▸ hdone)
        | refused hlt => exact .refused (hvalue ▸ hlt)
    · rw [if_neg hle] at hstep
      obtain ⟨hends, hstates⟩ := decimal_leaves hstep (Scan.not_inDecimal (.inr rfl))
      refine ⟨⟨_, hends, Scan.not_inDecimal (.inr rfl)⟩, fun c hrun => ?_⟩
      rcases hstates c hrun with rfl | rfl
      · exact .loop hv
      · have hbelow := le_decimalValue (10 * v + (d.toNat - 48)) digits
        exact .refused (by omega)

theorem DecimalState.noOverflow {value : Int} (h : DecimalState format st p v digits c)
    (hmode : c.mode = .decimal value) (cur : Option UInt8) :
    ∀ i ∈ decimalInts cur value, FitsInt i := by
  cases h with
  | done | refused => cases hmode
  | loop hv =>
    obtain rfl := Mode.decimal.inj hmode
    intro i hi
    unfold decimalInts at hi
    cases hcur : cur.filter isdigit with
    | none =>
      rw [hcur] at hi
      cases hi
    | some b =>
      have hvalue := digitValue_eq (Option.filter_eq_some_iff.mp hcur).2
      have hbound := b.toNat_lt
      simp only [hcur, hvalue, guard_iff, List.mem_append, List.mem_cons, List.not_mem_nil] at hi
      unfold FitsInt INT_MAX largestScanned at *
      split at hi <;> simp at hi <;> omega

/-! ## The conversion -/

theorem int_step (rest : List UInt8) (st : List Stored) {cur : Option UInt8} (hcur : peek m len p = cur) :
    (⟨.format, 37 :: 100 :: rest, p, st⟩ : Scan).step m len =
      some ⟨if cur.any isdigit then .decimal 0 else .exit, 37 :: 100 :: rest, p, st⟩ := by
  simp only [Scan.step, Scan.formatStep, directive, hcur]
  rfl

/-- Without a digit the conversion goes to `exit` at once. -/
theorem converts_none (h : Stops m len p notDigit) :
    Converts m len ⟨.format, 37 :: 100 :: rest, p, st⟩ c ↔
      c = ⟨.exit, 37 :: 100 :: rest, p, st⟩ := by
  have hstep := int_step rest st (Eq.refl (peek m len p))
  have hcur : (peek m len p).any isdigit = false := by
    cases hpeek : peek m len p with
    | none => rfl
    | some d => exact Bool.not_eq_true' _ |>.mp (h d hpeek)
  simp only [hcur, Bool.false_eq_true, if_false] at hstep
  constructor
  · intro h
    obtain ⟨c₁, hfirst, hrest⟩ := h
    obtain rfl := Option.some.inj (hfirst.symm.trans hstep)
    rcases hrest.cases_head with rfl | ⟨c₂, hsecond, -⟩
    · rfl
    · exact absurd hsecond.1 (Scan.not_inDecimal (.inr rfl))
  · intro h
    subst h
    exact ⟨_, hstep, .refl⟩

/-- With a digit the conversion is the loop. -/
theorem converts_digit (h : peek m len p = some d) (hd : isdigit d = true) :
    Converts m len ⟨.format, 37 :: 100 :: rest, p, st⟩ c ↔
      ReflTransGen (DecimalStep m len) ⟨.decimal (0 : Nat), 37 :: 100 :: rest, p, st⟩ c := by
  have hstep := int_step rest st h
  rw [Option.any_some, if_pos hd] at hstep
  constructor
  · intro h
    obtain ⟨c₁, hfirst, hrest⟩ := h
    obtain rfl := Option.some.inj (hfirst.symm.trans hstep)
    exact hrest
  · exact fun hrun => ⟨_, hstep, hrun⟩

theorem denoted_nil : denoted [] = none := rfl

theorem no_decimal_scan (h : Stops m len p notDigit) :
    ScansDecimal m len ⟨.format, 37 :: 100 :: rest, p, st⟩ [] := by
  refine ⟨⟨_, (converts_none h).mpr rfl, Scan.not_inDecimal (.inr rfl)⟩, ?_, ?_, ?_⟩
  · intro c hc _
    obtain rfl := (converts_none h).mp hc
    simp [denoted_nil]
  · intro c hc hmode
    obtain rfl := (converts_none h).mp hc
    cases hmode
  · intro c value hc hmode
    obtain rfl := (converts_none h).mp hc
    cases hmode

theorem decimal_scan (hdigits : ∀ d ∈ digits, isdigit d = true) (hne : digits ≠ [])
    (hlies : Lies m len p digits) (hstop : Stops m len (p + digits.length) notDigit) :
    ScansDecimal m len ⟨.format, 37 :: 100 :: rest, p, st⟩ digits ↔
      (decimalValue 0 digits ≤ largestScanned ∨ INT_MAX < decimalValue 0 digits) := by
  have hconverts : ∀ c, Converts m len ⟨.format, 37 :: 100 :: rest, p, st⟩ c ↔
      ReflTransGen (DecimalStep m len) ⟨.decimal (0 : Nat), 37 :: 100 :: rest, p, st⟩ c := by
    intro c
    cases digits with
    | nil => exact absurd rfl hne
    | cons d digits => exact converts_digit hlies.head (hdigits d (List.mem_cons_self ..))
  obtain ⟨⟨cend, hends, hout⟩, hstates⟩ := loop_states (37 :: 100 :: rest) st
    (v := 0) hdigits hlies hstop (Nat.zero_le _)
  have hdenoted : denoted digits = some (decimalValue 0 digits) := if_neg hne
  constructor
  · intro h
    have hsucceeds := h.succeeds cend ((hconverts cend).mpr hends) hout
    cases hstates cend hends with
    | loop => exact absurd ⟨_, rfl⟩ hout
    | done hle => exact .inl hle
    | refused hlt =>
      refine .inr (Int.not_le.mp fun hmax => ?_)
      exact Mode.noConfusion (hsucceeds.mpr ⟨_, hdenoted, hmax⟩)
  · intro h
    refine ⟨⟨cend, (hconverts cend).mpr hends, hout⟩, ?_, ?_, ?_⟩
    · intro c hc hcout
      cases hstates c ((hconverts c).mp hc) with
      | loop => exact absurd ⟨_, rfl⟩ hcout
      | done hle =>
        refine iff_of_true rfl ⟨_, hdenoted, ?_⟩
        unfold INT_MAX largestScanned at *
        omega
      | refused hlt =>
        refine iff_of_false Mode.noConfusion fun hn => ?_
        obtain ⟨n, hn, hmax⟩ := hn
        obtain rfl := Option.some.inj (hdenoted.symm.trans hn)
        omega
    · intro c hc hmode
      cases hstates c ((hconverts c).mp hc) with
      | loop | refused => cases hmode
      | done => exact ⟨_, hdenoted, rfl⟩
    · intro c value hc hmode
      exact (hstates c ((hconverts c).mp hc)).noOverflow hmode _

/-- The conversion gets a decimal number exactly unless the number is one of the ten largest of an
`int`, which the loop refuses. -/
theorem decimal_scan_iff (m : Bytes) (len : Nat) (c : Scan) (digits rest : List UInt8)
    (hmode : c.mode = .format) (hformat : c.format = 37 :: 100 :: rest)
    (hdigits : ∀ d ∈ digits, isdigit d = true) (hlies : Lies m len c.pos digits)
    (hstop : Stops m len (c.pos + digits.length) notDigit) :
    ScansDecimal m len c digits ↔
      ∀ n, denoted digits = some n → n ≤ 2147483637 ∨ 2147483647 < n := by
  obtain ⟨mode, format, p, st⟩ := c
  simp only at hmode hformat hlies hstop
  subst hmode hformat
  by_cases hne : digits = []
  · subst hne
    simp only [denoted_nil, reduceCtorEq, false_implies, implies_true, iff_true]
    exact no_decimal_scan hstop
  · have hdenoted : denoted digits = some (decimalValue 0 digits) := if_neg hne
    rw [decimal_scan hdigits hne hlies hstop, hdenoted]
    simp only [Option.some.injEq, forall_eq', largestScanned, INT_MAX]
    omega

/-- A message of the bytes `l`. -/
def bytesOf (l : List UInt8) (k : Nat) : UInt8 := l.getD k 0

theorem bytesOf_contains (l : List UInt8) : Contains (bytesOf l) l := by
  intro i hi
  exact List.getD_eq_getElem l 0 hi

theorem stops_length (ends : UInt8 → Bool) (l : List UInt8) : Stops m l.length (0 + l.length) ends := by
  rw [Nat.zero_add]
  exact stops_end ends

/-- `"0120"` is scanned as 120. -/
theorem decimal_scan_leadingZero :
    ScansDecimal (bytesOf (chars ['0', '1', '2', '0'])) 4 (.start [37, 100])
      (chars ['0', '1', '2', '0']) :=
  (decimal_scan_iff _ 4 (.start [37, 100]) (chars ['0', '1', '2', '0']) [] rfl rfl
    (List.all_eq_true.mp (by rfl)) (bytesOf_contains _).lies
    (stops_length _ (chars ['0', '1', '2', '0']))).mpr
      fun _ hn => .inl (Option.some.inj hn ▸ by decide)

/-- `INT_MAX` itself is refused. -/
theorem largestInt_refused :
    ¬ ScansDecimal (bytesOf (chars ['2', '1', '4', '7', '4', '8', '3', '6', '4', '7'])) 10
      (.start [37, 100]) (chars ['2', '1', '4', '7', '4', '8', '3', '6', '4', '7']) := by
  intro h
  have hvalue : decimalValue 0 (chars ['2', '1', '4', '7', '4', '8', '3', '6', '4', '7']) =
      2147483647 := by rfl
  have hdigits : (chars ['2', '1', '4', '7', '4', '8', '3', '6', '4', '7']).all isdigit = true := by
    rfl
  have hrange := (decimal_scan (List.all_eq_true.mp hdigits) (by simp [chars])
    (bytesOf_contains _).lies
    (stops_length _ (chars ['2', '1', '4', '7', '4', '8', '3', '6', '4', '7']))).mp h
  rw [hvalue] at hrange
  unfold largestScanned INT_MAX at hrange
  omega

end CS111.P2P
