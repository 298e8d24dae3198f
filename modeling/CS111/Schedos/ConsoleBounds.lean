import CS111.Schedos.NumberBuffer

/-!
# Printing stays on the screen

Which arguments a format asks for is said on the list of its bytes, apart from the loops that move the
pointer.
-/

namespace CS111.Schedos.Console

open Fallible

set_option autoImplicit false

variable {f : CString} {s s₀ : Printer} {kinds more : List ArgKind} {l r : List UInt8} {i : Nat}
  {c : UInt8} {color flags : UInt32} {width precision : Int32} {item : Item}

/-! ## The arguments of a format -/

def isFlag (c : UInt8) : Bool := flagChars.contains c

/-- What a number asks for, and the bytes behind it. -/
def numberArgs (first : UInt8 → Bool) : List UInt8 → List ArgKind × List UInt8
  | [] => ([], [])
  | c :: l =>
    if first c then ([], (c :: l).dropWhile isDigit)
    else if c = '*'.toUInt8 then ([.word], l)
    else ([], c :: l)

def precisionArgs : List UInt8 → List ArgKind × List UInt8
  | [] => ([], [])
  | c :: l => if c = '.'.toUInt8 then numberArgs isDigit l else ([], c :: l)

def conversionArgs : List UInt8 → List ArgKind
  | [] => []
  | c :: _ =>
    if c ∈ chars ['d', 'u', 'x', 'X', 'C', 'c'] then [.word]
    else if c = 's'.toUInt8 then [.string]
    else []

theorem dropWhile_length_le (keep : UInt8 → Bool) (l : List UInt8) :
    (l.dropWhile keep).length ≤ l.length := (List.dropWhile_suffix keep).length_le

theorem numberArgs_length (first : UInt8 → Bool) (l : List UInt8) :
    (numberArgs first l).2.length ≤ l.length := by
  cases l with
  | nil => exact Nat.le_refl _
  | cons c l =>
    rw [numberArgs]
    split
    · exact dropWhile_length_le _ _
    · split
      · exact Nat.le_succ _
      · exact Nat.le_refl _

theorem precisionArgs_length (l : List UInt8) : (precisionArgs l).2.length ≤ l.length := by
  cases l with
  | nil => exact Nat.le_refl _
  | cons c l =>
    rw [precisionArgs]
    split
    · exact Nat.le_succ_of_le (numberArgs_length isDigit l)
    · exact Nat.le_refl _

/-- What a directive asks for, from the byte behind the `%` on, and the bytes behind the directive. -/
def directiveArgs (l : List UInt8) : List ArgKind × List UInt8 :=
  let w := numberArgs isWidthStart (l.dropWhile isFlag)
  let p := precisionArgs w.2
  (w.1 ++ (p.1 ++ conversionArgs p.2), p.2.tail)

theorem directiveArgs_length (l : List UInt8) : (directiveArgs l).2.length ≤ l.length := by
  have hflags := dropWhile_length_le isFlag l
  have hwidth := numberArgs_length isWidthStart (l.dropWhile isFlag)
  have hprecision := precisionArgs_length (numberArgs isWidthStart (l.dropWhile isFlag)).2
  unfold directiveArgs
  simp only [List.length_tail]
  omega

/-- The kinds of the arguments that a format asks for. -/
def asks : List UInt8 → List ArgKind
  | [] => []
  | c :: l =>
    if c = '%'.toUInt8 then (directiveArgs l).1 ++ asks (directiveArgs l).2 else asks l
termination_by l => l.length
decreasing_by
  · exact Nat.lt_succ_of_le (directiveArgs_length l)
  · exact Nat.lt_succ_self _

theorem asks_nil : asks [] = [] := by rw [asks]

theorem asks_percent (l : List UInt8) :
    asks ('%'.toUInt8 :: l) = (directiveArgs l).1 ++ asks (directiveArgs l).2 := by
  rw [asks, if_pos rfl]

theorem asks_text (h : c ≠ '%'.toUInt8) : asks (c :: l) = asks l := by rw [asks, if_neg h]

/-- The argument list begins with arguments of these kinds. -/
def Supplies (s : Printer) (kinds : List ArgKind) : Prop := kinds <+: s.args.map Arg.kind

/-- The cursor is on the screen or right behind it, what lies behind the screen is as it was, and the
arguments still to be asked for are there. -/
structure Ready (s₀ : Printer) (kinds : List ArgKind) (s : Printer) : Prop where
  cursor : s.cursor ≤ consoleEnd
  behind : ∀ k, consoleEnd ≤ k → s.cells k = s₀.cells k
  supplied : Supplies s kinds

/-! ## Characters -/

theorem store_ready (h : Ready s₀ kinds s) (hlt : s.cursor < consoleEnd) (c : UInt16) :
    Succeeds (fun s' => Ready s₀ kinds s' ∧ s'.cursor = s.cursor + 1) (s.store c) := by
  unfold Printer.store
  rw [if_pos hlt]
  refine .ok ⟨⟨hlt, fun k hk => ?_, h.supplied⟩, rfl⟩
  exact (Function.update_of_ne (by omega) _ _).trans (h.behind k hk)

theorem fillRow_ready {n : Nat} (h : Ready s₀ kinds s) (hroom : s.cursor + n ≤ consoleEnd) :
    Succeeds (Ready s₀ kinds) (fillRow color n s) := by
  induction n generalizing s with
  | zero => exact .ok h
  | succ n ih =>
    refine (store_ready h (by omega) _).bind fun s' hs' => ih hs'.1 ?_
    rw [hs'.2]
    omega

/-- A row ends at a multiple of 80, and so does the screen. -/
theorem row_fits {cursor : Nat} (h : cursor < consoleEnd) :
    cursor + (80 - cursor % 80) ≤ consoleEnd := by
  unfold consoleEnd at *
  omega

theorem consolePutc_ready (h : Ready s₀ kinds s) (c : UInt8) :
    Succeeds (Ready s₀ kinds) (consolePutc color s c) := by
  have hput : ∀ {s : Printer}, Ready s₀ kinds s → s.cursor < consoleEnd → Succeeds (Ready s₀ kinds)
      (if c = '\n'.toUInt8 then fillRow color (80 - s.cursor % 80) s else s.store (cell c color)) := by
    intro s h hlt
    split
    · exact fillRow_ready h (row_fits hlt)
    · exact (store_ready h hlt _).mono fun s' hs' => hs'.1
  have hpos : 0 < consoleEnd := by decide
  unfold consolePutc
  split
  · exact hput ⟨Nat.zero_le _, h.behind, h.supplied⟩ hpos
  · exact hput h (by omega)

theorem putAll_ready (h : Ready s₀ kinds s) (l : List UInt8) :
    Succeeds (Ready s₀ kinds) (putAll s l) :=
  Succeeds.foldlM (fun _ c h => consolePutc_ready h c) h l

theorem printItem_ready (h : Ready s₀ kinds s) :
    Succeeds (Ready s₀ kinds) (printItem flags width precision item s) := by
  unfold printItem
  refine (putAll_ready h _).bind fun s₁ h₁ => ?_
  refine (putAll_ready h₁ _).bind fun s₂ h₂ => ?_
  refine (putAll_ready h₂ _).bind fun s₃ h₃ => ?_
  exact (putAll_ready h₃ _).bind fun s₄ h₄ => putAll_ready h₄ _

/-! ## Arguments and items -/

/-- The next argument is of the kind that is asked for. -/
theorem Ready.next {kind : ArgKind} (h : Ready s₀ (kind :: kinds) s) :
    ∃ a args, s.args = a :: args ∧ a.kind = kind ∧ Ready s₀ kinds { s with args := args } := by
  obtain ⟨hcursor, hbehind, hsupplied⟩ := h
  unfold Supplies at hsupplied
  cases hargs : s.args with
  | nil =>
    rw [hargs] at hsupplied
    exact absurd (List.prefix_nil.mp hsupplied) (List.cons_ne_nil _ _)
  | cons a args =>
    rw [hargs, List.map_cons, List.cons_prefix_cons] at hsupplied
    exact ⟨a, args, rfl, hsupplied.1.symm, hcursor, hbehind, hsupplied.2⟩

theorem vaWord_ready (h : Ready s₀ (.word :: kinds) s) :
    Succeeds (fun r => Ready s₀ kinds r.2) (vaWord s) := by
  obtain ⟨a, args, hargs, hkind, hready⟩ := h.next
  unfold vaWord
  rw [hargs]
  cases a with
  | word v => exact .ok hready
  | string str => cases hkind

theorem vaString_ready (h : Ready s₀ (.string :: kinds) s) :
    Succeeds (fun r => Ready s₀ kinds r.2) (vaString s) := by
  obtain ⟨a, args, hargs, hkind, hready⟩ := h.next
  unfold vaString
  rw [hargs]
  cases a with
  | word v => cases hkind
  | string str => exact .ok hready

theorem Ready.numbuf (h : Ready s₀ kinds s) (buf : Numbuf) :
    Ready s₀ kinds { s with numbuf := buf } := ⟨h.cursor, h.behind, h.supplied⟩

theorem charItem_ready (h : Ready s₀ kinds s) (c : UInt8) :
    Succeeds (fun r => Ready s₀ kinds r.2) (charItem c s) := by
  unfold charItem
  rw [storeNumbuf_ok (by decide)]
  refine Succeeds.bind (.ok rfl) fun buf₁ hbuf₁ => ?_
  rw [storeNumbuf_ok (by decide)]
  refine Succeeds.bind (.ok rfl) fun buf₂ hbuf₂ => ?_
  have hnul : (0 : UInt8) ∈ (List.range' 0 (numbufSize - 0)).map buf₂ := by
    refine List.mem_map.mpr ⟨1, by decide, ?_⟩
    rw [← hbuf₂, Function.update_self]
  unfold numbufString
  rw [if_pos hnul]
  exact Succeeds.bind (.ok rfl) fun data hdata => .ok (h.numbuf buf₂)

theorem numberItem_ready {number : UInt32 → Number} (precision : Int32)
    (h : Ready s₀ (.word :: kinds) s) (htable : ∀ v, IsTable (number v).digits)
    (hbase : ∀ v, (number v).base = 10 ∨ (number v).base = 16) :
    Succeeds (fun r => Ready s₀ kinds r.2) (numberItem number precision s) := by
  unfold numberItem
  refine (vaWord_ready h).bind fun r hr => ?_
  refine (fillNumbuf_succeeds (htable r.1) (hbase r.1) _ _ _).bind fun q hq => ?_
  obtain ⟨buf, p⟩ := q
  obtain ⟨str, hstr⟩ := hq
  exact Succeeds.bind ⟨str, hstr.string, rfl⟩ fun data hdata => .ok (hr.numbuf buf)

theorem number_isSome (c : UInt8) : (number c).isSome = true ↔ c ∈ chars ['d', 'u', 'x', 'X'] := by
  have hmem : c ∈ chars ['d', 'u', 'x', 'X'] ↔
      c = 'd'.toUInt8 ∨ c = 'u'.toUInt8 ∨ c = 'x'.toUInt8 ∨ c = 'X'.toUInt8 := by
    simp [chars]
  rw [hmem]
  unfold number
  grind

theorem number_tables {x : UInt32 → Number} (h : number c = some x) (v : UInt32) :
    IsTable (x v).digits ∧ ((x v).base = 10 ∨ (x v).base = 16) := by
  have hbase : (numberBase c).isSome = true := by
    have hmem := (number_isSome c).mp (by rw [h]; rfl)
    revert hmem
    unfold numberBase
    simp only [chars, List.map_cons, List.map_nil, List.mem_cons, List.not_mem_nil, or_false]
    grind
  obtain ⟨base, hbase⟩ := Option.isSome_iff_exists.mp hbase
  obtain ⟨x', hx', hspec⟩ := number_spec hbase
  obtain rfl := Option.some.inj (h.symm.trans hx')
  exact (hspec v).2.2

theorem mem_wordConversions : c ∈ chars ['d', 'u', 'x', 'X', 'C', 'c'] ↔
    (number c).isSome = true ∨ c = 'C'.toUInt8 ∨ c = 'c'.toUInt8 := by
  rw [number_isSome]
  simp only [chars, List.map_cons, List.map_nil, List.mem_cons, List.not_mem_nil, or_false, or_assoc]

theorem conversionArgs_word
    (h : (number c).isSome = true ∨ c = 'C'.toUInt8 ∨ c = 'c'.toUInt8) :
    conversionArgs (c :: l) = [.word] := if_pos (mem_wordConversions.mpr h)

theorem conversionArgs_other (hnumber : number c = none) (hstring : c ≠ 's'.toUInt8)
    (hchar : c ≠ 'c'.toUInt8) (hcolor : c ≠ 'C'.toUInt8) : conversionArgs (c :: l) = [] := by
  have hno : c ∉ chars ['d', 'u', 'x', 'X', 'C', 'c'] := by
    rw [mem_wordConversions, hnumber]
    simp [hchar, hcolor]
  exact (if_neg hno).trans (if_neg hstring)

/-! ## Directives -/

theorem readFormat_at (h : f.At i l) : readFormat f i = .ok (l.headD 0) := by
  unfold readFormat
  cases l with
  | nil => rw [h.byteAt_nil]; rfl
  | cons c l => rw [h.byteAt_cons]; rfl

theorem scanFormat_at {α : Type} {step : α → UInt8 → Option α} {keep : UInt8 → Bool} (h : f.At i l)
    (hkeep : ∀ a c, (step a c).isSome = keep c) (hnul : keep 0 = false) (a : α) :
    Succeeds (fun r => f.At r.1 (l.dropWhile keep)) (scanFormat f step i a) := by
  have hlen := h.length
  obtain ⟨j, a', hscan, hj⟩ := h.scan (a := a) hkeep hnul (n := f.bytes.length + 1) (by omega)
  unfold scanFormat
  rw [hscan]
  exact .ok hj

theorem digitStep_isSome (v : Int32) (c : UInt8) : (digitStep v c).isSome = isDigit c := by
  unfold digitStep
  cases isDigit c <;> rfl

theorem flagStep_isSome (flags : UInt32) (c : UInt8) : (flagStep flags c).isSome = isFlag c := by
  unfold flagStep isFlag
  rw [Option.isSome_map]
  exact Bool.eq_iff_iff.mpr (List.isSome_idxOf?.trans List.contains_iff_mem.symm)

theorem parseNumber_ready {first : UInt8 → Bool} (hat : f.At i l)
    (h : Ready s₀ ((numberArgs first l).1 ++ more) s) (hnul : first 0 = false) :
    Succeeds (fun r => f.At r.1 (numberArgs first l).2 ∧ Ready s₀ more r.2.2)
      (parseNumber f first i s) := by
  unfold parseNumber
  rw [readFormat_at hat]
  refine Succeeds.bind (.ok rfl) fun c hc => ?_
  cases l with
  | nil =>
    rw [← hc, List.headD_nil, if_neg (by rw [hnul]; decide), if_neg (by decide)]
    exact .ok ⟨hat, h⟩
  | cons c' l =>
    rw [List.headD_cons] at hc
    subst hc
    rw [numberArgs] at h ⊢
    split
    · rename_i hfirst
      rw [if_pos hfirst] at h
      exact (scanFormat_at hat digitStep_isSome (by decide) 0).bind fun r hr => .ok ⟨hr, h⟩
    · rename_i hfirst
      rw [if_neg hfirst] at h
      split
      · rename_i hstar
        rw [if_pos hstar] at h
        exact (vaWord_ready h).bind fun r hr => .ok ⟨hat.next, hr⟩
      · rename_i hstar
        rw [if_neg hstar] at h
        exact .ok ⟨hat, h⟩

theorem parsePrecision_ready (hat : f.At i l) (h : Ready s₀ ((precisionArgs l).1 ++ more) s) :
    Succeeds (fun r => f.At r.1 (precisionArgs l).2 ∧ Ready s₀ more r.2.2)
      (parsePrecision f i s) := by
  unfold parsePrecision
  rw [readFormat_at hat]
  refine Succeeds.bind (.ok rfl) fun c hc => ?_
  cases l with
  | nil =>
    rw [← hc, List.headD_nil, if_neg (by decide)]
    exact .ok ⟨hat, h⟩
  | cons c' l =>
    rw [List.headD_cons] at hc
    subst hc
    rw [precisionArgs] at h ⊢
    split
    · rename_i hpoint
      rw [if_pos hpoint] at h
      exact (parseNumber_ready hat.next h (by decide)).bind fun r hr => .ok hr
    · rename_i hpoint
      rw [if_neg hpoint] at h
      exact .ok ⟨hat, h⟩

/-- At the NUL the pointer goes back to the byte before, which the loop then steps over again. -/
theorem convert_ready (hat : f.At i l) (hpos : 0 < i) (h : Ready s₀ (conversionArgs l ++ more) s)
    (hcolor : l.headD 0 ≠ 'C'.toUInt8) :
    Succeeds (fun r => f.At (r.1 + 1) l.tail ∧ Ready s₀ more r.2.2)
      (convert (l.headD 0) i precision s) := by
  unfold convert
  cases l with
  | nil =>
    have hnone : number 0 = none := by rfl
    rw [List.headD_nil, hnone]
    simp only
    rw [if_neg (by decide), if_neg (by decide)]
    refine (charItem_ready h _).bind fun r hr => .ok ⟨?_, hr⟩
    simp only [if_true, Nat.sub_add_cancel hpos]
    exact hat
  | cons c l =>
    rw [List.headD_cons] at hcolor ⊢
    cases hnumber : number c with
    | some x =>
      rw [conversionArgs_word (.inl (by rw [hnumber]; rfl))] at h
      have hitem := numberItem_ready precision h
        (fun v => (number_tables hnumber v).1) (fun v => (number_tables hnumber v).2)
      exact hitem.bind fun r hr => .ok ⟨hat.next, hr⟩
    | none =>
      simp only
      split
      · rename_i hstring
        subst hstring
        exact (vaString_ready h).bind fun r hr => .ok ⟨hat.next, hr⟩
      · rename_i hstring
        split
        · rename_i hchar
          rw [conversionArgs_word (.inr (.inr hchar))] at h
          refine (vaWord_ready h).bind fun r hr => ?_
          exact (charItem_ready hr _).bind fun q hq => .ok ⟨hat.next, hq⟩
        · rename_i hchar
          rw [conversionArgs_other hnumber hstring hchar hcolor] at h
          refine (charItem_ready h _).bind fun r hr => .ok ⟨?_, hr⟩
          rw [if_neg hat.ne_zero]
          exact hat.next

theorem directive_ready (hat : f.At i l) (hpos : 0 < i)
    (h : Ready s₀ ((directiveArgs l).1 ++ more) s) :
    Succeeds (fun r => f.At (r.1 + 1) (directiveArgs l).2 ∧ Ready s₀ more r.2) (directive f i s) := by
  unfold directiveArgs at h ⊢
  simp only [List.append_assoc] at h ⊢
  unfold directive
  refine (scanFormat_at hat flagStep_isSome (by decide) 0).bind fun r hr => ?_
  refine (parseNumber_ready hr h (by decide)).bind fun r₁ hr₁ => ?_
  refine (parsePrecision_ready hr₁.1 hr₁.2).bind fun r₂ hr₂ => ?_
  have hflags := dropWhile_length_le isFlag l
  have hwidth := numberArgs_length isWidthStart (l.dropWhile isFlag)
  have hprecision := precisionArgs_length (numberArgs isWidthStart (l.dropWhile isFlag)).2
  generalize (precisionArgs (numberArgs isWidthStart (l.dropWhile isFlag)).2).2 = l'
    at hr₂ hprecision ⊢
  obtain ⟨j, precision, s'⟩ := r₂
  obtain ⟨hat', hready⟩ := hr₂
  simp only at hat' hready ⊢
  have hlen := hat.length
  have hlen' := hat'.length
  rw [readFormat_at hat']
  refine Succeeds.bind (.ok rfl) fun c hc => ?_
  subst hc
  split
  · rename_i hcolor
    cases l' with
    | nil => exact absurd hcolor (by decide)
    | cons c l' =>
      rw [List.headD_cons] at hcolor
      rw [conversionArgs_word (.inr (.inl hcolor))] at hready
      refine (vaWord_ready hready).bind fun q hq => .ok ⟨hat'.next, ?_⟩
      exact ⟨hq.cursor, hq.behind, hq.supplied⟩
  · rename_i hcolor
    refine (convert_ready hat' (by omega) hready hcolor).bind fun q hq => ?_
    exact (printItem_ready hq.2).bind fun t ht => .ok ⟨hq.1, ht⟩

theorem vprintfLoop_ready {fuel : Nat} (hat : f.At i l) (hfuel : l.length < fuel)
    (h : Ready s₀ (asks l) s) : Succeeds (Ready s₀ []) (vprintfLoop f fuel i s) := by
  induction fuel generalizing i l s with
  | zero => exact absurd hfuel (Nat.not_lt_zero _)
  | succ fuel ih =>
    unfold vprintfLoop
    rw [readFormat_at hat]
    refine Succeeds.bind (.ok rfl) fun c hc => ?_
    cases l with
    | nil =>
      rw [if_pos (by rw [← hc]; rfl)]
      rw [asks_nil] at h
      exact .ok h
    | cons c' l =>
      rw [List.headD_cons] at hc
      subst hc
      rw [if_neg hat.ne_zero]
      rw [List.length_cons] at hfuel
      by_cases hpercent : c' = '%'.toUInt8
      · subst hpercent
        rw [asks_percent] at h
        rw [if_neg (by simp)]
        have hlen := directiveArgs_length l
        exact (directive_ready hat.next (Nat.succ_pos i) h).bind fun r hr => ih hr.1 (by omega) hr.2
      · rw [if_pos hpercent]
        rw [asks_text hpercent] at h
        exact (consolePutc_ready h c').bind fun s' hs' => ih hat.next (by omega) hs'

/-! ## The call -/

/-- The cursor is on the screen or right behind it, and nothing behind the screen has changed. -/
structure OnScreen (s s' : Printer) : Prop where
  cursor : s'.cursor ≤ consoleEnd
  behind : ∀ k, consoleEnd ≤ k → s'.cells k = s.cells k

/-- The call of `fill_numbuf` that a conversion makes for its argument, and the string that it builds. -/
structure Builds (c : UInt8) (base : Nat) (v : UInt32) (precision : Int32) (buf : Numbuf) (x : Number)
    (r : Numbuf × Nat) (str : List UInt8) : Prop where
  number : (number c).map (· v) = some x
  filled : fillNumbuf buf x.val x.base x.digits precision = .ok r
  string : numbufString r.1 r.2 = .ok str
  table : IsTable x.digits
  denotes : Denotes base x.digits str (magnitude c v)
  empty : str = [] ↔ magnitude c v = 0 ∧ precision = 0

theorem conversion_builds {base : Nat} (h : numberBase c = some base) (v : UInt32)
    (precision : Int32) (buf : Numbuf) : ∃ x r str, Builds c base v precision buf x r str := by
  obtain ⟨x, hx, hspec⟩ := number_spec h
  obtain ⟨hbase, hval, htable, hbases⟩ := hspec v
  obtain ⟨r, hfilled, str, hstr⟩ := fillNumbuf_succeeds htable hbases buf (x v).val precision
  have hzero : (x v).val = 0 ↔ magnitude c v = 0 := by
    rw [← hval]
    exact ⟨fun h0 => by rw [h0]; rfl, fun h0 => UInt32.toNat_inj.mp h0⟩
  refine ⟨x v, r, str, by rw [hx]; rfl, hfilled, hstr.string, htable, ?_, ?_⟩
  · rw [← hbase, ← hval]
    exact hstr.denotes
  · rw [hstr.empty, hzero]

/-- With the arguments that its format asks for, `console_vprintf` returns without a fault, and the
strings of its numbers are right. -/
theorem vprintf_stays_on_screen (f : CString) (s : Printer) (hcursor : s.cursor ≤ consoleEnd)
    (hsupplied : Supplies s (asks f.bytes)) :
    (∃ s', consoleVprintf f s = .ok s' ∧ OnScreen s s') ∧
      ∀ c base v precision buf, numberBase c = some base →
        ∃ x r str, Builds c base v precision buf x r str := by
  refine ⟨?_, fun c base v precision buf h => conversion_builds h v precision buf⟩
  have hready : Ready s (asks f.bytes) s := ⟨hcursor, fun _ _ => rfl, hsupplied⟩
  obtain ⟨s', hs', hend⟩ := vprintfLoop_ready f.at_zero (Nat.lt_succ_self _) hready
  exact ⟨s', hs', hend.cursor, hend.behind⟩

/-- `"%05d|%s%"` from the last row on. -/
def sampleFormat : CString := ⟨chars ['%', '0', '5', 'd', '|', '%', 's', '%'], by decide⟩

def samplePrinter : Printer where
  cells _ := 0
  cursor := 1998
  color := 0x0700
  numbuf _ := 0xFF
  args := [.word (0 - 42), .string ⟨chars ['o', 'k', '\n'], by decide⟩]

theorem sampleFormat_asks : asks sampleFormat.bytes = [.word, .string] := by
  have hbytes : sampleFormat.bytes = '%'.toUInt8 :: chars ['0', '5', 'd', '|', '%', 's', '%'] := rfl
  have hnumber : directiveArgs (chars ['0', '5', 'd', '|', '%', 's', '%']) =
      ([.word], '|'.toUInt8 :: '%'.toUInt8 :: chars ['s', '%']) := by decide
  have hstring : directiveArgs (chars ['s', '%']) = ([.string], '%'.toUInt8 :: []) := by decide
  have hlast : directiveArgs [] = ([], []) := by decide
  rw [hbytes, asks_percent, hnumber, asks_text (by decide), asks_percent, hstring, asks_percent, hlast,
    asks_nil]
  rfl

theorem vprintf_stays_on_screen_sample :
    (∃ s', consoleVprintf sampleFormat samplePrinter = .ok s' ∧ OnScreen samplePrinter s') ∧
      ∀ c base v precision buf, numberBase c = some base →
        ∃ x r str, Builds c base v precision buf x r str :=
  vprintf_stays_on_screen sampleFormat samplePrinter (by decide) (by
    rw [sampleFormat_asks]
    exact List.prefix_rfl)

end CS111.Schedos.Console
