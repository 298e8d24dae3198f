import CS111.Shell.ScriptTrees
import CS111.Shell.TokenReads

/-!
# Token reads of the front end

The lexer looks at the last token when a newline arrives, `make_command_stream` at the token before
the end of each line, and the parser at the tokens of the line and the one behind it.
-/

namespace CS111.Shell

set_option autoImplicit false

open Fallible TokenList

variable {tl : TokenList} {start e i j n index fuel : Nat} {tok : Token} {a b : Scanner} {c : UInt8}
  {bs script : List UInt8}

/-! ## The lexer -/

/-- No newline comes before the first token, unless it is the first character or follows a newline
or a NUL. -/
def LooksBack (script : List UInt8) : Prop :=
  ∀ pre rest a, script.takeWhile (· ≠ 255) = pre ++ chr '\n' :: rest →
    Scanner.start.scan pre = .ok a → a.lexemes = [] → a.pending = [] → a.runsOn = true

theorem newline_noToken (h : a.newline = .error .noToken) :
    a.lexemes = [] ∧ a.pending = [] ∧ a.runsOn = false := by
  unfold Scanner.newline at h
  dsimp only at h
  split at h
  · cases h
  · split at h
    · cases h
    · next hruns =>
      split at h
      · next hnone =>
        have hnil : a.flush.lexemes = [] := List.getLast?_eq_none_iff.mp hnone
        rcases a.flush_cases with ⟨hpending, heq⟩ | ⟨_, heq⟩
        · rw [heq] at hnil
          exact ⟨hnil, hpending, Bool.eq_false_iff.mpr hruns⟩
        · rw [heq] at hnil
          exact absurd hnil (by simp)
      · split at h
        · cases h
        · split at h
          · cases h
          · unfold Scanner.delimiter at h
            split at h
            · cases h
            · cases h

theorem next_noToken (h : a.next c = .error .noToken) :
    c = chr '\n' ∧ a.lexemes = [] ∧ a.pending = [] ∧ a.runsOn = false := by
  unfold Scanner.next at h
  split at h
  · cases h
  · have hswitch : ({ a with inComment := false } : Scanner).switch c = .error .noToken := by
      cases hs : ({ a with inComment := false } : Scanner).switch c with
      | ok a' =>
        rw [hs] at h
        cases h
      | error exit =>
        rw [hs] at h
        cases h
        rfl
    unfold Scanner.switch at hswitch
    split at hswitch
    · cases hswitch
    · split at hswitch
      · split at hswitch
        · cases hswitch
        · cases hswitch
      · split at hswitch
        · next hc =>
          have hnewline := newline_noToken hswitch
          exact ⟨hc, hnewline.1, hnewline.2.1, hnewline.2.2⟩
        · split at hswitch
          · unfold Scanner.delimiter at hswitch
            split at hswitch
            · cases hswitch
            · cases hswitch
          · split at hswitch
            · split at hswitch
              · cases hswitch
              · cases hswitch
            · split at hswitch
              · cases hswitch
              · cases hswitch

theorem scan_noToken (h : ∀ pre rest b, bs = pre ++ chr '\n' :: rest → a.scan pre = .ok b →
    b.lexemes = [] → b.pending = [] → b.runsOn = true) : a.scan bs ≠ .error .noToken := by
  induction bs generalizing a with
  | nil =>
    intro hscan
    cases hscan
  | cons c bs ih =>
    intro hscan
    change (a.next c >>= fun a => a.scan bs) = _ at hscan
    cases hnext : a.next c with
    | ok a' =>
      rw [hnext] at hscan
      refine ih (fun pre rest b hbs hpre => ?_) hscan
      refine h (c :: pre) rest b (by rw [hbs, List.cons_append]) ?_
      change (a.next c >>= fun a => a.scan pre) = _
      rw [hnext]
      exact hpre
    | error exit =>
      rw [hnext] at hscan
      cases hscan
      obtain ⟨rfl, hlexemes, hpending, hruns⟩ := next_noToken hnext
      have htrue := h [] bs a rfl rfl hlexemes hpending
      rw [hruns] at htrue
      cases htrue

theorem next_newline_ne_ok (hlexemes : a.lexemes = []) (hpending : a.pending = [])
    (hruns : a.runsOn = false) : a.next (chr '\n') ≠ .ok b := by
  intro h
  have hend : a.atLineEnd.lexemes = [] := by
    have hflush := Scanner.flush_of_nil (a := { a with inComment := false }) hpending
    rw [Scanner.atLineEnd, Scanner.setSimple, hflush]
    exact hlexemes
  generalize hc : chr '\n' = c at h
  cases Scanner.reads_of_next h with
  | skip _ hne => exact hne hc.symm
  | blank _ hblank => rw [← hc] at hblank; cases hblank
  | nul => cases hc
  | redirect _ ht htext =>
    have hchar := (Scanner.isRedirect_text ht htext).1
    rw [← hc] at hchar
    revert hchar
    decide
  | delimiter _ ht htext =>
    have hchar := (Scanner.isDelimiter_text ht htext).1
    rw [← hc] at hchar
    revert hchar
    decide
  | comment => cases hc
  | word _ hchar => rw [← hc] at hchar; cases hchar
  | dropped _ hdrops =>
    rcases hdrops with htrue | ⟨last, hlast, _⟩
    · rw [hruns] at htrue
      cases htrue
    · rw [hend] at hlast
      cases hlast
  | separator _ _ hne => exact hne hend
  | ended _ hne => exact hne hend

theorem scan_append (a : Scanner) (xs ys : List UInt8) :
    a.scan (xs ++ ys) = a.scan xs >>= fun b => b.scan ys := List.foldlM_append

theorem looksBack_of_scan (h : Scanner.start.scan (script.takeWhile (· ≠ 255)) = .ok b) :
    LooksBack script := by
  intro pre rest a hbs hpre hlexemes hpending
  by_contra hruns
  rw [hbs, scan_append, hpre] at h
  have hrest : a.scan (chr '\n' :: rest) = .ok b := h
  obtain ⟨a', hnext, _⟩ := bind_eq_ok.mp hrest
  exact next_newline_ne_ok hlexemes hpending (Bool.eq_false_iff.mpr hruns) hnext

/-- Without a token the last character is no `<` and no `>`. -/
def Scanner.Unarmed (a : Scanner) : Prop :=
  a.lexemes = [] → a.pending = [] → a.afterRedirect = true → a.lastC = 0

theorem Scanner.Reads.unarmed (h : Scanner.Reads a c b) (ha : a.Unarmed) : b.Unarmed := by
  have hplain : ∀ {d : UInt8}, strchr [chr '<', chr '>'] d = false →
      ∀ {s : Scanner}, (s.after d).Unarmed := by
    intro d hd s _ _ hafter
    change strchr [chr '<', chr '>'] d = true at hafter
    rw [hd] at hafter
    cases hafter
  cases h with
  | skip => exact ha
  | blank _ hblank =>
    apply hplain
    have hc : c = chr ' ' ∨ c = chr '\t' := by simpa [isBlank] using hblank
    rcases hc with rfl | rfl <;> decide
  | nul => exact fun _ _ _ => rfl
  | redirect | delimiter => exact fun hnil => absurd hnil (List.append_ne_nil_of_right_ne_nil _ (by simp))
  | comment => exact hplain (by decide)
  | word => exact fun _ hnil => absurd hnil (List.append_ne_nil_of_right_ne_nil _ (by simp))
  | dropped | separator | ended => exact hplain (by decide)

theorem Scanner.Unarmed.scan (ha : a.Unarmed) (h : a.scan bs = .ok b) : b.Unarmed := by
  induction bs generalizing a with
  | nil =>
    cases h
    exact ha
  | cons c bs ih =>
    obtain ⟨a', hnext, h⟩ := bind_eq_ok.mp h
    exact ih ((Scanner.reads_of_next hnext).unarmed ha) h

/-- Such a newline makes the lexer look at a token that is not there. -/
theorem looksBack_of_inRange (h : InRange (lexScript script)) : LooksBack script := by
  intro pre rest a hbs hpre hlexemes hpending
  by_contra hruns
  have hunarmed : a.Unarmed := Scanner.Unarmed.scan (fun _ _ _ => rfl) hpre
  have hnewline : ({ a with inComment := false } : Scanner).newline = .error .noToken := by
    have hline : a.atLineEnd.lexemes = [] := by
      have hflush := Scanner.flush_of_nil (a := { a with inComment := false }) hpending
      rw [Scanner.atLineEnd, Scanner.setSimple, hflush]
      exact hlexemes
    rw [Scanner.newline_eq, if_neg, if_neg hruns, hline]
    · rfl
    · rintro ⟨hafter, hne⟩
      exact hne (hunarmed hlexemes hpending hafter)
  have hnext : a.next (chr '\n') = .error .noToken := by
    rw [Scanner.next, if_neg fun hskip => hskip.2 rfl, Scanner.switch_newline, hnewline]
    rfl
  have hscan : scriptScan script = .error .noToken := by
    have hrest : a.scan (chr '\n' :: rest) = .error .noToken := by
      change (a.next (chr '\n') >>= fun a => a.scan rest) = _
      rw [hnext]
      rfl
    have hall : Scanner.start.scan (pre ++ chr '\n' :: rest) = .error .noToken := by
      rw [scan_append, hpre]
      exact hrest
    rw [scriptScan, hbs, hall]
    rfl
  have hmirrors := mirrors_lexScript script
  rw [hscan] at hmirrors
  generalize hlex : lexScript script = x at h hmirrors
  cases hmirrors with
  | fault hexits =>
    cases hexits
    exact h (.outOfRange (-1)) trivial rfl

theorem inRange_lexScript (h : LooksBack script) : InRange (lexScript script) := by
  intro fault hfault hlex
  obtain ⟨exit, hscan, hexits⟩ := (mirrors_lexScript script).error_left hlex
  cases hexits with
  | syntaxError => cases hfault
  | noToken =>
    unfold scriptScan at hscan
    cases hbs : Scanner.start.scan (script.takeWhile (· ≠ 255)) with
    | error exit =>
      rw [hbs] at hscan
      cases hscan
      exact scan_noToken h hbs
    | ok a =>
      rw [hbs] at hscan
      cases hnext : a.next 0 with
      | error exit =>
        have hscan : (a.next 0 >>= fun a => .ok a.lexemes) = .error Exit.noToken := hscan
        rw [hnext] at hscan
        cases hscan
        exact absurd (next_noToken hnext).1 (by decide)
      | ok a' =>
        have hscan : (a.next 0 >>= fun a => .ok a.lexemes) = .error Exit.noToken := hscan
        rw [hnext] at hscan
        cases hscan

/-! ## The loop over the lines -/

theorem head_of_scan {ls : List Lexeme} (h : scriptScan script = .ok ls) :
    ls.head? ≠ some (.mark .tokNl) := by
  obtain ⟨a, hscan, h⟩ := bind_eq_ok.mp h
  obtain ⟨a', hnext, h⟩ := bind_eq_ok.mp h
  cases h
  exact ((Scanner.sound_start.scan hscan).reads (Scanner.reads_of_next hnext)).head

/-- The first token ends no line. -/
theorem first_of_lexScript (h : lexScript script = .ok tl) (hread : readToken tl 0 = .ok tok) :
    tok.type ≠ .tokNl := by
  obtain ⟨ls, hscan, hspell⟩ := (mirrors_lexScript script).ok_left h
  rcases hspell.read 0 with ⟨hnone, _⟩ | ⟨tok', l, hread', hl, htype, _⟩
  · rw [hread] at hnone
    cases hnone
  · rw [hread] at hread'
    cases hread'
    intro hnl
    have hhead := head_of_scan hscan
    rw [List.head?_eq_getElem?, hl] at hhead
    apply hhead
    rw [hnl] at htype
    cases l with
    | word w => cases htype
    | mark t =>
      obtain rfl : TokenType.tokNl = t := htype
      rfl

theorem scanNewline_ok (h : scanNewline tl n i = .ok index) :
    i ≤ index ∧ index ≤ i + n ∧
      (∀ j tok, i ≤ j → j < index → readToken tl j = .ok tok → tok.type ≠ .tokNl) ∧
      (index < i + n → ∃ tok, readToken tl index = .ok tok ∧ tok.type = .tokNl) := by
  induction n generalizing i with
  | zero =>
    cases h
    exact ⟨Nat.le_refl _, Nat.le_refl _, fun j _ hij hji => by omega, fun hlt => by omega⟩
  | succ n ih =>
    obtain ⟨tok, hread, h⟩ := bind_eq_ok.mp h
    split at h
    · next hnl =>
      cases h
      exact ⟨Nat.le_refl _, by omega, fun j _ hij hji => by omega, fun _ => ⟨tok, hread, hnl⟩⟩
    · next hne =>
      obtain ⟨hle, hupper, hclear, hstop⟩ := ih h
      refine ⟨by omega, by omega, ?_, fun hlt => hstop (by omega)⟩
      intro j tok' hij hji hread'
      rcases Nat.eq_or_lt_of_le hij with rfl | hlt
      · rw [hread] at hread'
        cases hread'
        exact hne
      · exact hclear j tok' hlt hji hread'

theorem scanNewline_eq (hij : i ≤ j) (hjn : j ≤ i + n) (hn : i + n ≤ tl.numTokens)
    (hclear : ∀ k tok, i ≤ k → k < j → readToken tl k = .ok tok → tok.type ≠ .tokNl)
    (hstop : j < i + n → ∃ tok, readToken tl j = .ok tok ∧ tok.type = .tokNl) :
    scanNewline tl n i = .ok j := by
  induction n generalizing i with
  | zero =>
    obtain rfl : i = j := by omega
    rfl
  | succ n ih =>
    rw [scanNewline]
    rcases Nat.eq_or_lt_of_le hij with rfl | hlt
    · obtain ⟨tok, hread, htype⟩ := hstop (by omega)
      rw [hread]
      exact if_pos htype
    · obtain ⟨tok, hread⟩ : ∃ tok, readToken tl i = .ok tok := readToken_of_lt (by omega)
      rw [hread]
      refine (if_neg (hclear i tok (Nat.le_refl i) hlt hread)).trans ?_
      exact ih hlt (by omega) (by omega)
        (fun k tok hik hkj => hclear k tok (by omega) hkj) fun h => hstop (by omega)

theorem scanNewline_total (h : i + n ≤ tl.numTokens) : ∃ index, scanNewline tl n i = .ok index := by
  induction n generalizing i with
  | zero => exact ⟨i, rfl⟩
  | succ n ih =>
    obtain ⟨tok, hread⟩ := readToken_of_lt (show i < tl.numTokens by omega)
    rw [scanNewline, hread]
    dsimp only [bind, Except.bind]
    split
    · exact ⟨i, rfl⟩
    · exact ih (by omega)

/-- A line begins here: nothing or a newline comes before. -/
def TokenList.LineStart (tl : TokenList) (start : Nat) : Prop :=
  start = 0 ∨ ∃ tok, readBefore tl start = .ok tok ∧ tok.type = .tokNl

/-- The last line begins here, and no newline token ends it. -/
structure TokenList.OpenLine (tl : TokenList) (start : Nat) : Prop where
  lt : start < tl.numTokens
  begins : tl.LineStart start
  rest : ∀ j tok, start ≤ j → readToken tl j = .ok tok → tok.type ≠ .tokNl

/-- `[start, e)` is a line, and a newline token or nothing comes behind it. -/
structure TokenList.Line (tl : TokenList) (start e : Nat) : Prop where
  begins : tl.LineStart start
  le : start ≤ e
  inner : ∀ j tok, start ≤ j → j < e → readToken tl j = .ok tok → tok.type ≠ .tokNl
  stop : e = tl.numTokens ∨ ∃ tok, readToken tl e = .ok tok ∧ tok.type = .tokNl

/-- The end of a line without a `;` that comes last in it. -/
def TokenList.trimmed (tl : TokenList) (e : Nat) : Nat :=
  match readBefore tl e with
  | .ok last => if last.type = .tokSc then e - 1 else e
  | .error _ => e

/-- The parser is not led back behind the first token in the first line. -/
def TokenList.StaysForward (tl : TokenList) : Prop :=
  ∀ e, tl.Line 0 e → 0 < e → ¬ tl.LeadsBack (tl.trimmed e)

/-- The lines that end before `start` are accepted. -/
def TokenList.AcceptsBefore (tl : TokenList) (start : Nat) : Prop :=
  ∀ s e, tl.Line s e → e < start → tl.Accepts s (tl.trimmed e)

/-- Where the last line is not ended by a newline token and no error exit comes before its last
part, this is finished. A line of one token behind others is not looked at. -/
def TokenList.EndsProperly (tl : TokenList) : Prop :=
  ∀ start, tl.OpenLine start → start = 0 ∨ start + 1 < tl.numTokens → tl.AcceptsBefore start →
    tl.ComesToLast start tl.numTokens →
      ∀ tok, readToken tl (lastPart tl start tl.numTokens) = .ok tok →
        Finished tl (lastPart tl start tl.numTokens) tok

theorem trimmed_le (tl : TokenList) (e : Nat) : tl.trimmed e ≤ e := by
  unfold TokenList.trimmed
  split
  · split
    · exact Nat.sub_le e 1
    · exact Nat.le_refl e
  · exact Nat.le_refl e

theorem checkFailParse_eq {P : Nat → Nat → Except Fault Command} {last : Token}
    (hlast : readBefore tl e = .ok last) :
    checkFailParse P tl start e = P start (tl.trimmed e) := by
  rw [checkFailParse, TokenList.trimmed, hlast]
  dsimp only [bind, Except.bind]
  split
  · rfl
  · rfl

theorem readBefore_total (hpos : 0 < e) (he : e ≤ tl.numTokens) :
    ∃ last, readBefore tl e = .ok last := by
  obtain ⟨k, rfl⟩ := Nat.exists_eq_succ_of_ne_zero (Nat.ne_of_gt hpos)
  exact readToken_of_lt he

theorem line_of_scanNewline (hstart : tl.LineStart start) (hle : start ≤ tl.numTokens)
    (h : scanNewline tl (tl.numTokens - start) start = .ok index) : tl.Line start index := by
  obtain ⟨hsi, hupper, hclear, hstop⟩ := scanNewline_ok h
  refine ⟨hstart, hsi, hclear, ?_⟩
  rcases Nat.lt_or_ge index tl.numTokens with hlt | hge
  · exact .inr (hstop (by omega))
  · exact .inl (by omega)

theorem TokenList.Line.upper (h : tl.Line start e) : e ≤ tl.numTokens := by
  rcases h.stop with rfl | ⟨tok, hread, _⟩
  · exact Nat.le_refl _
  · exact Nat.le_of_lt (lt_of_readToken hread)

/-- A second line ends before the first one begins, or behind it. -/
theorem TokenList.Line.apart {s : Nat} (h : tl.Line start e) (h' : tl.Line s i) (hie : i ≤ e)
    (hsi : start ≤ i) : s = start ∧ i = e := by
  have hend : i = e := by
    by_contra hne
    have hlt : i < e := by omega
    rcases h'.stop with hstop | ⟨tok, hread, hnl⟩
    · rcases h.stop with hstop' | ⟨tok, hread, _⟩
      · omega
      · have hread := lt_of_readToken hread
        omega
    · exact h.inner i tok hsi hlt hread hnl
  refine ⟨?_, hend⟩
  have hle := h.le
  have hle' := h'.le
  rcases Nat.lt_trichotomy s start with hlt | heq | hlt
  · obtain ⟨tok, hbefore, hnl⟩ := h.begins.resolve_left (by omega)
    obtain ⟨k, rfl, hread⟩ := readBefore_inv hbefore
    exact absurd hnl (h'.inner k tok (by omega) (by omega) hread)
  · exact heq
  · obtain ⟨tok, hbefore, hnl⟩ := h'.begins.resolve_left (by omega)
    obtain ⟨k, rfl, hread⟩ := readBefore_inv hbefore
    exact absurd hnl (h.inner k tok (by omega) (by omega) hread)

theorem TokenList.AcceptsBefore.line (h : tl.AcceptsBefore start) (hline : tl.Line start index)
    (haccepts : tl.Accepts start (tl.trimmed index)) : tl.AcceptsBefore (index + 1) := by
  intro s e hline' hlt
  by_cases hbefore : e < start
  · exact h s e hline' hbefore
  · obtain ⟨rfl, rfl⟩ := hline.apart hline' (by omega) (by omega)
    exact haccepts

theorem beginsProperly_of_accepts (h : tl.Accepts 0 e) : tl.BeginsProperly := by
  obtain ⟨fuel, c, h⟩ := h
  obtain ⟨tok, hread, hopens⟩ := opens_of_parse h
  intro tok' hread'
  rw [hread] at hread'
  cases hread'
  constructor
  · intro htype
    rw [htype] at hopens
    cases hopens
  · intro htype
    rw [htype] at hopens
    cases hopens

/-- What `make_command_stream` asks of `parse` for one line. -/
theorem inRange_line (hfirst : start = 0 ∨ tl.BeginsProperly) (hforward : tl.StaysForward)
    (hends : tl.EndsProperly) (hpos : 0 < index) (hlt : start < tl.numTokens)
    (hline : tl.Line start index) (hlong : start = 0 ∨ start + 1 < tl.numTokens)
    (haccepts : tl.AcceptsBefore start) :
    InRange (checkFailParse (parse fuel tl) tl start index) := by
  have hle := hline.le
  by_cases hbegins : tl.BeginsProperly
  · rcases hline.stop with rfl | ⟨tok, hread, hnl⟩
    · apply (inRange_readBefore hpos (Nat.le_refl _)).bind
      intro last hlast
      split
      · next hsc =>
        obtain ⟨k, hk, hread⟩ := readBefore_inv hlast
        have hpos' : 0 < k := by
          refine Nat.pos_of_ne_zero ?_
          rintro rfl
          exact (hbegins last hread).1 hsc
        rw [hk, Nat.add_sub_cancel]
        exact inRange_parse_fenced hbegins
          (fenced_at hread (by rw [hsc]; rfl) hpos' (by omega))
      · have hopen : tl.OpenLine start :=
          ⟨hlt, hline.begins, fun j tok hj hread =>
            hline.inner j tok hj (lt_of_readToken hread) hread⟩
        exact inRange_parse_tail hbegins hlt (hends start hopen hlong haccepts)
    · have hfenced : Fenced tl start index index :=
        fenced_at hread (by rw [hnl]; rfl) hpos hle
      exact inRange_checkFailParse (inRange_parse_fenced hbegins) hbegins hfenced
  · obtain rfl : start = 0 := hfirst.resolve_right hbegins
    have hupper := hline.upper
    obtain ⟨tok, hread, hopens⟩ : ∃ tok, readToken tl 0 = .ok tok ∧ tok.type.opens = false := by
      obtain ⟨tok, hread⟩ := readToken_of_lt hlt
      refine ⟨tok, hread, Bool.eq_false_iff.mpr fun hopens => hbegins ?_⟩
      intro tok' hread'
      rw [hread] at hread'
      cases hread'
      constructor <;> intro htype <;> rw [htype] at hopens <;> cases hopens
    obtain ⟨last, hlast⟩ := readBefore_total hpos hupper
    have htrim := trimmed_le tl index
    rw [checkFailParse_eq hlast]
    exact inRange_parse_first hread hopens (by omega) (hforward index hline hpos)

/-- One round of the loop. -/
theorem readCommands_succ (fuel : Nat) (tl : TokenList) (n start : Nat) :
    readCommands fuel tl (n + 1) start =
      scanNewline tl (tl.numTokens - start) start >>= fun index =>
        checkFailParse (parse fuel tl) tl start index >>= fun c =>
          if tl.numTokens - 1 ≤ index + 1 then .ok [c]
          else readCommands fuel tl n (index + 1) >>= fun rest => .ok (c :: rest) := by
  rw [readCommands]
  apply congrArg
  funext index
  unfold checkFailParse
  cases readBefore tl index with
  | error fault => rfl
  | ok last =>
    dsimp only [bind, Except.bind]
    by_cases hsc : last.type = .tokSc
    · rw [if_pos hsc, if_pos hsc]
    · rw [if_neg hsc, if_neg hsc]

theorem inRange_readCommands (hforward : tl.StaysForward) (hends : tl.EndsProperly)
    (hnewline : ∀ tok, readToken tl 0 = .ok tok → tok.type ≠ .tokNl)
    (hfirst : start = 0 ∨ tl.BeginsProperly) (hlt : start < tl.numTokens)
    (hstart : tl.LineStart start) (hlong : start = 0 ∨ start + 1 < tl.numTokens)
    (haccepts : tl.AcceptsBefore start) : InRange (readCommands fuel tl n start) := by
  induction n generalizing start with
  | zero => exact avoids_error id
  | succ n ih =>
    rw [readCommands_succ]
    obtain ⟨index, hscan⟩ : ∃ index, scanNewline tl (tl.numTokens - start) start = .ok index :=
      scanNewline_total (by omega)
    have hline := line_of_scanNewline hstart (Nat.le_of_lt hlt) hscan
    obtain ⟨hle, hupper, _, hstop⟩ := scanNewline_ok hscan
    have hpos : 0 < index := by
      refine Nat.pos_of_ne_zero ?_
      rintro rfl
      obtain ⟨tok, hread, hnl⟩ := hstop (by omega)
      exact hnewline tok hread hnl
    rw [hscan]
    apply (inRange_line hfirst hforward hends hpos hlt hline hlong haccepts).bind
    intro c hc
    obtain ⟨last, hlast⟩ : ∃ last, readBefore tl index = .ok last :=
      readBefore_total hpos (by omega)
    rw [checkFailParse_eq hlast] at hc
    split
    · exact avoids_ok _
    · next hmore =>
      obtain ⟨tok, hread, hnl⟩ := hstop (by omega)
      have hnext : tl.LineStart (index + 1) := .inr ⟨tok, hread, hnl⟩
      have hbegins : tl.BeginsProperly := by
        rcases hfirst with rfl | hbegins
        · exact beginsProperly_of_accepts ⟨fuel, c, hc⟩
        · exact hbegins
      have hbefore := haccepts.line hline ⟨fuel, c, hc⟩
      exact (ih (.inr hbegins) (by omega) hnext (.inr (by omega)) hbefore).bind
        fun _ _ => avoids_ok _

theorem overruns_round (hline : tl.Line start e)
    (hover : ¬ InRange (checkFailParse (parse fuel tl) tl start e)) :
    ¬ InRange (readCommands fuel tl (n + 1) start) := by
  have hupper := hline.upper
  have hle := hline.le
  have hscan : scanNewline tl (tl.numTokens - start) start = .ok e :=
    scanNewline_eq hle (by omega) (by omega) hline.inner fun hlt =>
      hline.stop.resolve_left (by omega)
  rw [readCommands_succ, hscan]
  exact not_avoids_bind (x := checkFailParse (parse fuel tl) tl start e) hover

/-- The loop comes to a last line that is reached, and overruns there. -/
theorem overruns_readCommands {s : Nat} (hopen : tl.OpenLine start)
    (hlong : start = 0 ∨ start + 1 < tl.numTokens) (haccepts : tl.AcceptsBefore start)
    (hfuel : tl.numTokens + 2 ≤ fuel)
    (hover : ¬ InRange (checkFailParse (parse fuel tl) tl start tl.numTokens))
    (hs : tl.LineStart s) (hle : s ≤ start) (hn : tl.numTokens - s ≤ n) :
    ¬ InRange (readCommands fuel tl n s) := by
  have hlt := hopen.lt
  induction n generalizing s with
  | zero => omega
  | succ n ih =>
    rcases Nat.eq_or_lt_of_le hle with rfl | hbefore
    · exact overruns_round ⟨hs, Nat.le_of_lt hlt, fun j tok hj _ => hopen.rest j tok hj, .inl rfl⟩
        hover
    · obtain ⟨index, hscan⟩ : ∃ index, scanNewline tl (tl.numTokens - s) s = .ok index :=
        scanNewline_total (by omega)
      have hline := line_of_scanNewline hs (by omega) hscan
      obtain ⟨hsi, hupper, hclear, hstop⟩ := scanNewline_ok hscan
      have hindex : index + 1 ≤ start := by
        by_contra hover
        obtain ⟨tok, hbefore', hnl⟩ := hopen.begins.resolve_left (by omega)
        obtain ⟨k, rfl, hread⟩ := readBefore_inv hbefore'
        exact hclear k tok (by omega) (by omega) hread hnl
      obtain ⟨tok, hread, hnl⟩ := hstop (by omega)
      have htrim := trimmed_le tl index
      obtain ⟨c, hc⟩ := (haccepts s index hline hindex).deep
        (show tl.trimmed index - s + 2 ≤ fuel by omega)
      have hpos : 0 < index := by
        refine Nat.pos_of_ne_zero ?_
        rintro rfl
        obtain ⟨tok', hread', hopens⟩ := opens_of_parse hc
        obtain rfl : s = 0 := by omega
        rw [hread] at hread'
        cases hread'
        rw [hnl] at hopens
        cases hopens
      obtain ⟨last, hlast⟩ : ∃ last, readBefore tl index = .ok last :=
        readBefore_total hpos (by omega)
      have hrest := ih (s := index + 1) (.inr ⟨tok, hread, hnl⟩) hindex (by omega)
      rw [readCommands_succ, hscan]
      change ¬ InRange (checkFailParse (parse fuel tl) tl s index >>= _)
      rw [checkFailParse_eq hlast, hc]
      change ¬ InRange (if _ then _ else _)
      rw [if_neg (by omega)]
      exact not_avoids_bind hrest

/-! ## What is read of an accepted script -/

theorem finished_of_parseSingle {P : Nat → Nat → Except Fault Command} {c : Command}
    (hlt : start < tl.numTokens) (h : parseSingle P tl start tl.numTokens = .ok c)
    (hread : readToken tl start = .ok tok) : Finished tl start tok := by
  obtain ⟨tok', hread', _, h⟩ := parseSingle_inv h
  rw [hread] at hread'
  cases hread'
  rcases h with ⟨htype, h⟩ | h | ⟨htype, h⟩ | ⟨htype, h⟩
  · obtain ⟨k, found, _, _, hscan, _⟩ := magicalIfParser_inv h
    refine ⟨fun close hclose => ?_, fun hword => ?_⟩
    · rw [htype] at hclose ⊢
      cases hclose
      exact ⟨k, (scanForward_some hscan).2.1⟩
    · rw [htype] at hword
      cases hword
  · obtain ⟨type, k, found, _, _, _, _, htype, hscan, _⟩ := magicalWhileUntilParser_inv h
    obtain ⟨tok', hread', htype⟩ := loopTypeAt_ok htype
    rw [hread] at hread'
    cases hread'
    refine ⟨fun close hclose => ?_, fun hword => ?_⟩
    · rw [htype] at hclose ⊢
      cases type <;> cases hclose <;> exact ⟨k, (scanForward_some hscan).2.1⟩
    · rw [htype] at hword
      cases type <;> cases hword
  · obtain ⟨k, found, _, _, hscan, _⟩ := magicalSubshellParser_inv h
    refine ⟨fun close hclose => ?_, fun hword => ?_⟩
    · rw [htype] at hclose ⊢
      cases hclose
      exact ⟨k, (scanForward_some hscan).2.1⟩
    · rw [htype] at hword
      cases hword
  · obtain ⟨index, words, h, hlt', hscan, hwords, _⟩ := magicalWordParser_inv hread htype h
    refine ⟨fun close hclose => ?_, fun _ => ?_⟩
    · rw [htype] at hclose
      cases hclose
    · obtain ⟨hsi, hie, hall, hstop⟩ := scanWords_ok hscan
      have hindex : start + (index - start) = index := by omega
      obtain ⟨_, hinside⟩ := readWords_ok hwords (by rwa [hindex])
      obtain ⟨stop, hread, hne⟩ := hstop (by omega)
      exact ⟨index, stop, hsi, hread, hne⟩

theorem finished_of_parse {c : Command} (hlt : start < tl.numTokens)
    (h : parse fuel tl start tl.numTokens = .ok c)
    (hread : readToken tl (lastPart tl start tl.numTokens) = .ok tok) :
    Finished tl (lastPart tl start tl.numTokens) tok := by
  induction fuel generalizing start c with
  | zero => cases h
  | succ fuel ih =>
    obtain ⟨last, hlast, hends, ⟨i, a, b, hscan, ha, hb, _⟩ |
      ⟨hsc, ⟨i, a, b, hscan, ha, hb, _⟩ | ⟨hpipe, hsingle⟩⟩⟩ := parse_inv h
    · obtain ⟨_, hie, _⟩ := halves_inv rfl hlt hlast hends hscan ha
      rw [← lastPart_sequence hie hscan] at hread ⊢
      exact ih hie hb hread
    · obtain ⟨hsi, hie, _⟩ := halves_inv rfl hlt hlast hends hscan ha
      rw [← lastPart_pipe (Nat.le_of_lt hsi) hie hsc hscan] at hread ⊢
      exact ih hie hb hread
    · rw [lastPart, afterLast_none hsc, afterLast_none hpipe] at hread ⊢
      exact finished_of_parseSingle hlt hsingle hread

/-- The loop gets to a last line that no newline token ends. -/
theorem openLine_of_readCommands {cs : List Command} (h : readCommands fuel tl n i = .ok cs)
    (hle : i ≤ start) (hopen : tl.OpenLine start) (hlong : start = 0 ∨ start + 1 < tl.numTokens) :
    ∃ c, checkFailParse (parse fuel tl) tl start tl.numTokens = .ok c := by
  have hlt := hopen.lt
  induction n generalizing i cs with
  | zero => cases h
  | succ n ih =>
    rw [readCommands_succ] at h
    obtain ⟨index, hscan, h⟩ := bind_eq_ok.mp h
    obtain ⟨c, hparse, h⟩ := bind_eq_ok.mp h
    obtain ⟨hi, hupper, hclear, hstop⟩ := scanNewline_ok hscan
    rcases Nat.eq_or_lt_of_le hle with rfl | hbefore
    · have hindex : index = tl.numTokens := by
        by_contra hne
        obtain ⟨tok, hread, hnl⟩ := hstop (by omega)
        exact hopen.rest index tok hi hread hnl
      rw [← hindex]
      exact ⟨c, hparse⟩
    · have hindex : index + 1 ≤ start := by
        by_contra hover
        obtain ⟨tok, hbefore', hnl⟩ := hopen.begins.resolve_left (by omega)
        obtain ⟨k, rfl, hread⟩ := readBefore_inv hbefore'
        exact hclear k tok (by omega) (by omega) hread hnl
      rw [if_neg (by omega)] at h
      obtain ⟨rest, hrest, _⟩ := bind_eq_ok.mp h
      exact ih hrest hindex

theorem beginsProperly_of_readCommands {cs : List Command} (h : readCommands fuel tl n 0 = .ok cs) :
    tl.BeginsProperly := by
  cases n with
  | zero => cases h
  | succ n =>
    rw [readCommands_succ] at h
    obtain ⟨index, _, h⟩ := bind_eq_ok.mp h
    obtain ⟨c, hparse, _⟩ := bind_eq_ok.mp h
    obtain ⟨_, _, ⟨_, hparse⟩ | ⟨_, hparse⟩⟩ := checkFailParse_inv hparse
    · exact beginsProperly_of_accepts ⟨fuel, c, hparse⟩
    · exact beginsProperly_of_accepts ⟨fuel, c, hparse⟩

theorem endsProperly_of_readCommands {cs : List Command} (h : readCommands fuel tl n 0 = .ok cs) :
    tl.EndsProperly := by
  intro start hopen hlong _ hcomes
  obtain ⟨c, hparse⟩ := openLine_of_readCommands h (Nat.zero_le start) hopen hlong
  obtain ⟨last, hlast, ⟨hsc, _⟩ | ⟨_, hparse⟩⟩ := checkFailParse_inv hparse
  · have hends := hcomes.ending last hlast
    rw [hsc] at hends
    cases hends
  · exact fun tok hread => finished_of_parse hopen.lt hparse hread

/-- Where the parser is led back, the first token separates commands. -/
theorem TokenList.BeginsProperly.staysForward (h : tl.BeginsProperly) : tl.StaysForward := by
  have hpositive : ∀ {e}, tl.LeadsBack e → e = 0 := by
    intro e hback
    induction hback with
    | nothing => rfl
    | sequence _ _ hscan _ ih =>
      obtain ⟨_, _, ⟨tok, hread, htype⟩, _⟩ := scanBack_some hscan
      rw [ih] at hread
      exact absurd htype (h tok hread).1
    | pipe _ _ _ hscan _ ih =>
      obtain ⟨_, _, ⟨tok, hread, htype⟩, _⟩ := scanBack_some hscan
      rw [ih] at hread
      exact absurd htype (h tok hread).2
  intro e hline hpos hback
  have hzero := hpositive hback
  unfold TokenList.trimmed at hzero
  split at hzero
  · next last hlast =>
    split at hzero
    · next hsc =>
      obtain ⟨k, rfl, hread⟩ := readBefore_inv hlast
      rw [Nat.add_sub_cancel] at hzero
      rw [hzero] at hread
      exact (h last hread).1 hsc
    · omega
  · omega

/-- What a script has to be for all token reads to stay in range. -/
structure ReadsProperly (script : List UInt8) : Prop where
  looksBack : LooksBack script
  begins : ∀ tl, lexScript script = .ok tl → tl.StaysForward
  ends : ∀ tl, lexScript script = .ok tl → tl.EndsProperly

theorem readsProperly_of_inRange (h : ∀ fuel, InRange (makeCommandStream fuel script)) :
    ReadsProperly script := by
  have hlex : InRange (lexScript script) := by
    by_contra hover
    exact not_avoids_bind hover (h 0)
  have htrees : ∀ {tl}, lexScript script = .ok tl → 0 < tl.numTokens →
      ∀ fuel, InRange (readCommands fuel tl tl.numTokens 0) := by
    intro tl htl hpos fuel
    by_contra hover
    have hstream := h fuel
    rw [makeCommandStream, htl] at hstream
    change InRange (if tl.numTokens = 0 then _ else _) at hstream
    rw [if_neg (Nat.ne_of_gt hpos)] at hstream
    exact not_avoids_bind hover hstream
  refine ⟨looksBack_of_inRange hlex, ?_, ?_⟩
  · intro tl htl e hline hpos hback
    have hupper := hline.upper
    obtain ⟨fuel, hover⟩ := hback.overruns
    obtain ⟨last, hlast⟩ := readBefore_total hpos hupper
    obtain ⟨n, hn⟩ := Nat.exists_eq_succ_of_ne_zero (show tl.numTokens ≠ 0 by omega)
    have hround := htrees htl (by omega) fuel
    rw [hn] at hround
    refine overruns_round hline ?_ hround
    rw [checkFailParse_eq hlast]
    exact hover
  · intro tl htl start hopen hlong haccepts hcomes tok hread
    by_contra hunfinished
    obtain ⟨fuel, hover⟩ := overruns_tail hopen.lt hcomes hread hunfinished
    have hlt := hopen.lt
    obtain ⟨last, hlast⟩ : ∃ last, readBefore tl tl.numTokens = .ok last :=
      readBefore_total (Nat.zero_lt_of_lt hlt) (Nat.le_refl _)
    have hwhole : tl.trimmed tl.numTokens = tl.numTokens := by
      have hends := hcomes.ending last hlast
      have hsc : last.type ≠ .tokSc := by
        intro hsc
        rw [hsc] at hends
        cases hends
      unfold TokenList.trimmed
      rw [hlast]
      exact if_neg hsc
    have hdeep := overruns_deeper (Nat.le_max_right (tl.numTokens + 2) fuel) hover
    refine overruns_readCommands hopen hlong haccepts (Nat.le_max_left _ fuel) ?_ (.inl rfl)
      (Nat.zero_le start) (Nat.le_refl _) (htrees htl (by omega) _)
    rw [checkFailParse_eq hlast, hwhole]
    exact hdeep

/-- All token reads stay in range if and only if the script is such, and every accepted script
is. -/
theorem token_reads_in_range (script : List UInt8) :
    ((∀ fuel, InRange (makeCommandStream fuel script)) ↔ ReadsProperly script) ∧
      ∀ fuel s, makeCommandStream fuel script = .ok s → ReadsProperly script := by
  refine ⟨⟨readsProperly_of_inRange, ?_⟩, ?_⟩
  · intro hproper fuel
    apply (inRange_lexScript hproper.looksBack).bind
    intro tl hlex
    have hnewline : ∀ tok, readToken tl 0 = .ok tok → tok.type ≠ .tokNl :=
      fun tok hread => first_of_lexScript hlex hread
    split
    · exact avoids_ok _
    · next hne =>
      apply (inRange_readCommands (hproper.begins tl hlex) (hproper.ends tl hlex) hnewline (.inl rfl)
        (Nat.pos_of_ne_zero hne) (.inl rfl) (.inl rfl) fun s e _ hlt => absurd hlt (by omega)).bind
      intro trees _
      exact avoids_ok _
  · intro fuel s h
    obtain ⟨tl, hlex, h⟩ := bind_eq_ok.mp h
    have htrees : tl.numTokens = 0 ∨ ∃ cs, readCommands fuel tl tl.numTokens 0 = .ok cs := by
      split at h
      · next hzero => exact .inl hzero
      · obtain ⟨trees, htrees, _⟩ := bind_eq_ok.mp h
        exact .inr ⟨trees, htrees⟩
    have hnone : tl.numTokens = 0 → ∀ i tok, readToken tl i ≠ .ok tok := by
      intro hzero i tok hread
      have hlt := lt_of_readToken hread
      omega
    constructor
    · obtain ⟨ls, hscan, _⟩ := (mirrors_lexScript script).ok_left hlex
      obtain ⟨a, hscan, _⟩ := bind_eq_ok.mp hscan
      exact looksBack_of_scan hscan
    · intro tl' hlex'
      rw [hlex] at hlex'
      cases hlex'
      rcases htrees with hzero | ⟨cs, htrees⟩
      · exact TokenList.BeginsProperly.staysForward fun tok hread =>
          absurd hread (hnone hzero 0 tok)
      · exact (beginsProperly_of_readCommands htrees).staysForward
    · intro tl' hlex'
      rw [hlex] at hlex'
      cases hlex'
      rcases htrees with hzero | ⟨cs, htrees⟩
      · intro start hopen _
        have hlt := hopen.lt
        omega
      · exact endsProperly_of_readCommands htrees

/-- The script `a` and a newline. -/
theorem token_reads_in_range_line : ∀ fuel, InRange (makeCommandStream fuel [97, 10]) :=
  (token_reads_in_range [97, 10]).1.mpr
    ((token_reads_in_range [97, 10]).2 3
      (some ⟨[.simple .fresh [[97]]], 0⟩) (by decide +kernel))

/-- The word `a` without a newline: the parser reads the token behind it. -/
theorem last_word_reads_past : makeCommandStream 3 [97] = .error (.outOfRange 1) := by
  decide +kernel

end CS111.Shell
