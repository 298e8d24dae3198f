import CS111.Lib.Fallible
import CS111.Shell.LexerReads
import CS111.Shell.ReadCommand

/-!
# The lexer without its buffers

`Scanner` is what the lexer is for: it has a list of lexemes and the characters of the one that is
under way. The lexer does what the scanner does, so that two scripts with the same lexemes have
tokens that differ only in their offsets and lines.
-/

namespace CS111.Shell

set_option autoImplicit false

open Fallible

/-- The ways in which the lexer ends early. `noToken` is the read of a last token before there is
any. -/
inductive Exit where
  | syntaxError | noToken
  deriving Repr, DecidableEq

structure Scanner where
  lexemes : List Lexeme
  pending : Word
  simple : Bool
  inComment : Bool
  lastC : UInt8
  lastSpecial : UInt8
  deriving Repr, DecidableEq

def Lexeme.ofType (t : TokenType) (w : Word) : Lexeme := if t = .tokWord then .word w else .mark t

/-- The lexeme that a text is at the end of a word. -/
def Lexeme.read (simple : Bool) (w : Word) : Lexeme := .ofType (assignedType simple w) w

namespace Scanner

def start : Scanner := ⟨[], [], false, false, 0, 0⟩

def depth (a : Scanner) : Int := rise Lexeme.nest a.lexemes

def put (a : Scanner) (c : UInt8) : Scanner := { a with pending := a.pending ++ [c] }

/-- The end of a word. -/
def flush (a : Scanner) : Scanner :=
  if a.pending = [] then a
  else
    let l := Lexeme.read a.simple a.pending
    { a with
      lexemes := a.lexemes ++ [l]
      pending := []
      simple := a.simple || decide (l.type = .tokWord) }

def setSimple (a : Scanner) (b : Bool) : Scanner := { a with simple := b }

/-- A lexeme of one character. -/
def sign (a : Scanner) (c : UInt8) : Scanner := ((a.flush.setSimple false).put c).flush

/-- The lexer takes a first character for one behind `<` or `>`. -/
def afterRedirect (a : Scanner) : Bool := strchr [chr '<', chr '>'] a.lastC

def delimiter (a : Scanner) (c : UInt8) : Except Exit Scanner :=
  if a.afterRedirect then .error .syntaxError else .ok (a.sign c)

/-- The newline is dropped whatever the last token is. -/
def runsOn (a : Scanner) : Bool := strchr [chr '\n', chr '(', chr '|'] a.lastC

/-- The newline is dropped because of the last token, or of a `;` behind it. -/
def swallows (a : Scanner) (last : Lexeme) : Prop :=
  isReserved last.type ∨ (a.lastSpecial = chr ';' ∧ a.depth ≠ 0)

instance (a : Scanner) (last : Lexeme) : Decidable (a.swallows last) :=
  inferInstanceAs (Decidable (_ ∨ _))

def newline (a : Scanner) : Except Exit Scanner :=
  if a.afterRedirect ∧ a.lastC ≠ 0 then .error .syntaxError
  else
    let b := a.flush.setSimple false
    if a.runsOn then .ok b
    else
      match b.lexemes.getLast? with
      | none => .error .noToken
      | some last =>
        if b.swallows last then .ok b
        else if 0 < b.depth then .ok (b.put (chr ';')).flush
        else b.delimiter (chr '\n')

def switch (a : Scanner) (c : UInt8) : Except Exit Scanner :=
  if c = chr ' ' ∨ c = chr '\t' then .ok a.flush
  else if c = chr '>' ∨ c = chr '<' then
    if a.afterRedirect then .error .syntaxError else .ok ((a.sign c).setSimple true)
  else if c = chr '\n' then a.newline
  else if c = chr '|' ∨ c = chr ';' ∨ c = chr '(' ∨ c = chr ')' then a.delimiter c
  else if c = chr '#' then
    if strchr [chr ' ', chr '\t', chr '\n', chr ';', chr '|', chr '(', chr ')'] a.lastC then
      .ok { a with simple := false, inComment := true }
    else .error .syntaxError
  else if isalnum c ∨ strchr wordPunctuation c then .ok (if c = 0 then a.flush else a.put c)
  else .error .syntaxError

def next (a : Scanner) (c : UInt8) : Except Exit Scanner :=
  if a.inComment ∧ c ≠ chr '\n' then .ok a
  else do
    let a ← { a with inComment := false }.switch c
    .ok { a with
      lastSpecial := if strchr [chr ' ', chr '\t', chr '\n'] c then a.lastSpecial else c
      lastC := c }

def scan (a : Scanner) (bs : List UInt8) : Except Exit Scanner := bs.foldlM next a

end Scanner

/-- The lexemes of a script. -/
def scriptScan (script : List UInt8) : Except Exit (List Lexeme) := do
  let a ← Scanner.start.scan (script.takeWhile (· ≠ 255))
  let a ← a.next 0
  .ok a.lexemes

/-! ## The lexer refines the scanner -/

variable {s : Lexer} {st : LexerState} {a : Scanner} {c : UInt8} {t : TokenType} {w : Word}

theorem Lexeme.ofType_type (t : TokenType) (w : Word) : (Lexeme.ofType t w).type = t := by
  unfold Lexeme.ofType
  split
  · next h => exact h.symm
  · rfl

theorem assignedType_text (simple : Bool) (w : Word) (h : assignedType simple w ≠ .tokWord) :
    (assignedType simple w).text = w := by
  unfold assignedType at h ⊢
  cases simple with
  | true => exact absurd rfl h
  | false =>
    simp only [Bool.false_eq_true, if_false] at h ⊢
    cases hfind : tokAssociations.find? fun assoc => assoc.2 = w with
    | none =>
      rw [hfind] at h
      exact absurd rfl h
    | some assoc =>
      have htext : assoc.2 = w := by simpa using List.find?_some hfind
      have hmem := List.mem_of_find?_eq_some hfind
      subst htext
      simp only [tokAssociations, List.mem_cons, List.not_mem_nil, or_false] at hmem
      rcases hmem with rfl | rfl | rfl | rfl | rfl | rfl | rfl | rfl | rfl | rfl | rfl | rfl | rfl |
        rfl | rfl <;> rfl

theorem Lexeme.read_text (simple : Bool) (w : Word) : (Lexeme.read simple w).text = w := by
  unfold Lexeme.read Lexeme.ofType
  split
  · rfl
  · next h => exact assignedType_text simple w h

theorem Lexeme.read_type (simple : Bool) (w : Word) :
    (Lexeme.read simple w).type = assignedType simple w := Lexeme.ofType_type _ _

/-- The variables that `lexer_putchar_i` and `lexer_assign_type` work on. -/
structure Lexer.Abstracts (s : Lexer) (a : Scanner) : Prop where
  reads : Partial s a.lexemes a.pending
  simple : s.simpleCommand = a.simple

theorem Lexer.Abstracts.setSimple (h : s.Abstracts a) (b : Bool) :
    Lexer.Abstracts { s with simpleCommand := b } (a.setSimple b) :=
  ⟨h.reads.setSimple b, rfl⟩

theorem Lexer.Abstracts.setLine (h : s.Abstracts a) (n : Nat) :
    Lexer.Abstracts { s with lineNum := n } a := ⟨h.reads.setLine n, h.simple⟩

theorem Lexer.Abstracts.put (h : s.Abstracts a) (hc : c ≠ 0) :
    ∃ s', lexerPutcharI s c = .ok s' ∧ s'.Abstracts (a.put c) := by
  obtain ⟨s', hput, hreads, hsimple⟩ := h.reads.putchar hc
  exact ⟨s', hput, hreads, hsimple.trans h.simple⟩

theorem Lexer.Abstracts.flush (h : s.Abstracts a) :
    ∃ s', lexerPutcharI s 0 = .ok s' ∧ s'.Abstracts a.flush := by
  unfold Scanner.flush
  by_cases hpending : a.pending = []
  · rw [if_pos hpending]
    have hreads := h.reads
    rw [hpending] at hreads
    exact ⟨s, hreads.nul, h⟩
  · rw [if_neg hpending]
    have hreads := h.reads
    have htext := Lexeme.read_text a.simple a.pending
    rw [← htext] at hreads
    obtain ⟨s', hput, hreads', hsimple⟩ := hreads.flush (by rwa [htext]) (by
      rw [htext, h.simple, Lexeme.read_type])
    refine ⟨s', hput, hreads', ?_⟩
    rw [hsimple, h.simple]

theorem Lexer.Abstracts.sign (h : s.Abstracts a) (hc : c ≠ 0) :
    ∃ s₁ s₂ s₃, lexerPutcharI s 0 = .ok s₁ ∧
      lexerPutcharI { s₁ with simpleCommand := false } c = .ok s₂ ∧
      lexerPutcharI s₂ 0 = .ok s₃ ∧ s₃.Abstracts (a.sign c) := by
  obtain ⟨s₁, h₁, ha₁⟩ := h.flush
  obtain ⟨s₂, h₂, ha₂⟩ := (ha₁.setSimple false).put hc
  obtain ⟨s₃, h₃, ha₃⟩ := ha₂.flush
  exact ⟨s₁, s₂, s₃, h₁, h₂, h₃, ha₃⟩

/-- The fault is what the lexer does at such an exit. -/
inductive Exits : Fault → Exit → Prop
  | syntaxError (line : Nat) (message : String) : Exits (.syntaxError line message) .syntaxError
  | noToken : Exits (.outOfRange (-1)) .noToken

/-- All variables of the lexer. -/
structure LexerState.Abstracts (st : LexerState) (a : Scanner) : Prop where
  lexer : st.lexer.Abstracts a
  inComment : st.consumeSwitch = a.inComment
  lastC : st.lastC = a.lastC
  lastSpecial : st.lastSpecial = a.lastSpecial

theorem abstracts_init : lexerInit.Abstracts .start :=
  ⟨⟨partial_init, rfl⟩, rfl, rfl, rfl⟩

theorem mirrors_delimiter {lastC : UInt8} (h : s.Abstracts a) (hlast : lastC = a.lastC)
    (hc : c ≠ 0) : Mirrors Exits Lexer.Abstracts (lexerDelimiter lastC s c) (a.delimiter c) := by
  unfold lexerDelimiter Scanner.delimiter Scanner.afterRedirect
  rw [hlast]
  split
  · exact .fault (.syntaxError _ _)
  · obtain ⟨s₁, s₂, s₃, h₁, h₂, h₃, ha⟩ := h.sign hc
    rw [h₁]
    dsimp only [bind, Except.bind]
    rw [h₂]
    dsimp only
    rw [h₃]
    exact .value ha

theorem mirrors_redirect (h : st.Abstracts a) (hc : c ≠ 0) :
    Mirrors Exits Lexer.Abstracts (lexerRedirect st c)
      (if a.afterRedirect then .error .syntaxError else .ok ((a.sign c).setSimple true)) := by
  unfold lexerRedirect Scanner.afterRedirect
  rw [h.lastC]
  split
  · exact .fault (.syntaxError _ _)
  · obtain ⟨s₁, s₂, s₃, h₁, h₂, h₃, ha⟩ := h.lexer.sign hc
    rw [h₁]
    dsimp only [bind, Except.bind]
    rw [h₂]
    dsimp only
    rw [h₃]
    exact .value (ha.setSimple true)

/-- The last token, where the lexer looks for it. -/
theorem Lexer.Abstracts.last (h : s.Abstracts a) :
    (a.lexemes.getLast? = none ∧
        readBefore s.tokenList s.tokens.length = .error (.outOfRange (-1))) ∨
      ∃ tok l, a.lexemes.getLast? = some l ∧
        readBefore s.tokenList s.tokens.length = .ok tok ∧ tok.type = l.type := by
  obtain ⟨hholds, hlength⟩ := h.reads.holds
  rcases List.eq_nil_or_concat a.lexemes with hnil | ⟨xs, l, hl⟩
  · left
    rw [hnil] at hlength ⊢
    rw [hlength]
    exact ⟨rfl, rfl⟩
  · right
    rw [List.concat_eq_append] at hl
    rw [hl] at hholds hlength ⊢
    obtain ⟨tok, hread, htype⟩ := readBefore_holds hholds
    rw [Nat.zero_add, ← hlength] at hread
    exact ⟨tok, l, List.getLast?_concat, hread, htype⟩

@[simp] theorem Scanner.flush_lastC (a : Scanner) : a.flush.lastC = a.lastC := by
  unfold Scanner.flush
  split <;> rfl

@[simp] theorem Scanner.flush_lastSpecial (a : Scanner) : a.flush.lastSpecial = a.lastSpecial := by
  unfold Scanner.flush
  split <;> rfl

@[simp] theorem Scanner.flush_inComment (a : Scanner) : a.flush.inComment = a.inComment := by
  unfold Scanner.flush
  split <;> rfl

@[simp] theorem Scanner.sign_lastC (a : Scanner) (c : UInt8) : (a.sign c).lastC = a.lastC := by
  simp [Scanner.sign, Scanner.put, Scanner.setSimple]

@[simp] theorem Scanner.sign_lastSpecial (a : Scanner) (c : UInt8) :
    (a.sign c).lastSpecial = a.lastSpecial := by
  simp [Scanner.sign, Scanner.put, Scanner.setSimple]

@[simp] theorem Scanner.sign_inComment (a : Scanner) (c : UInt8) :
    (a.sign c).inComment = a.inComment := by
  simp [Scanner.sign, Scanner.put, Scanner.setSimple]

/-- The variables of `lexer_putchar` itself. -/
structure Scanner.Keeps (a b : Scanner) : Prop where
  inComment : b.inComment = a.inComment
  lastC : b.lastC = a.lastC
  lastSpecial : b.lastSpecial = a.lastSpecial

theorem Scanner.keeps_flush (a : Scanner) : a.Keeps a.flush := ⟨by simp, by simp, by simp⟩

theorem Scanner.Keeps.setSimple {a b : Scanner} (h : a.Keeps b) (simple : Bool) :
    a.Keeps (b.setSimple simple) := ⟨h.inComment, h.lastC, h.lastSpecial⟩

theorem Scanner.keeps_sign (a : Scanner) (c : UInt8) : a.Keeps (a.sign c) :=
  ⟨by simp, by simp, by simp⟩

theorem Scanner.keeps_delimiter {a b : Scanner} {c : UInt8} (h : a.delimiter c = .ok b) :
    a.Keeps b := by
  unfold Scanner.delimiter at h
  split at h
  · cases h
  · cases h
    exact a.keeps_sign c

theorem Scanner.keeps_newline {a b : Scanner} (h : a.newline = .ok b) : a.Keeps b := by
  unfold Scanner.newline at h
  have hflush : a.Keeps (a.flush.setSimple false) := a.keeps_flush.setSimple false
  dsimp only at h
  split at h
  · cases h
  · split at h
    · cases h
      exact hflush
    · split at h
      · cases h
      · split at h
        · cases h
          exact hflush
        · split at h
          · cases h
            have hput := ((a.flush.setSimple false).put (chr ';')).keeps_flush
            exact ⟨hput.inComment.trans hflush.inComment, hput.lastC.trans hflush.lastC,
              hput.lastSpecial.trans hflush.lastSpecial⟩
          · have hsign := Scanner.keeps_delimiter h
            exact ⟨hsign.inComment.trans hflush.inComment, hsign.lastC.trans hflush.lastC,
              hsign.lastSpecial.trans hflush.lastSpecial⟩

theorem mirrors_newline (h : st.Abstracts a) :
    Mirrors Exits Lexer.Abstracts (lexerNewline st) a.newline := by
  have hafter : strchr [chr '<', chr '>'] st.lastC = a.afterRedirect := by
    rw [h.lastC]
    rfl
  have hrunsOn : strchr [chr '\n', chr '(', chr '|'] st.lastC = a.runsOn := by
    rw [h.lastC]
    rfl
  unfold lexerNewline Scanner.newline
  rw [hafter, hrunsOn, h.lastC]
  by_cases hredirect : a.afterRedirect = true ∧ a.lastC ≠ 0
  · rw [if_pos hredirect, if_pos hredirect]
    exact .fault (.syntaxError _ _)
  · rw [if_neg hredirect, if_neg hredirect]
    obtain ⟨s₁, h₁, ha₁⟩ := (h.lexer.setLine (st.lexer.lineNum + 1)).flush
    have ha₂ := ha₁.setSimple false
    rw [h₁]
    dsimp only [bind, Except.bind]
    by_cases hruns : a.runsOn = true
    · rw [if_pos hruns, if_pos hruns]
      exact .value ha₂
    · rw [if_neg hruns, if_neg hruns]
      rcases ha₂.last with ⟨hnone, hread⟩ | ⟨tok, l, hl, hread, htype⟩
      · rw [hnone, hread]
        exact .fault Exits.noToken
      · rw [hl, hread]
        have hspecial : (a.flush.setSimple false).lastSpecial = st.lastSpecial := by
          rw [Scanner.setSimple, Scanner.flush_lastSpecial, h.lastSpecial]
        have hdepth : s₁.isCommand = (a.flush.setSimple false).depth := ha₂.reads.depth
        have hswallows : (isReserved tok.type = true ∨
            st.lastSpecial = chr ';' ∧ s₁.isCommand ≠ 0) ↔ (a.flush.setSimple false).swallows l := by
          rw [Scanner.swallows, htype, hspecial, hdepth]
        dsimp only
        by_cases hdrop : (a.flush.setSimple false).swallows l
        · rw [if_pos hdrop, if_pos (hswallows.mpr hdrop)]
          exact .value ha₂
        · have hmiss := fun h => hdrop (hswallows.mp h)
          have hreserved : ¬ isReserved tok.type = true := fun h => hmiss (.inl h)
          rw [if_neg hdrop, if_neg hmiss]
          by_cases hdeep : 0 < (a.flush.setSimple false).depth
          · rw [if_pos hdeep, if_pos ⟨hdepth.symm ▸ hdeep, hreserved⟩]
            obtain ⟨s₂, h₂, hb₂⟩ := ha₂.put (c := chr ';') (by decide)
            obtain ⟨s₃, h₃, hb₃⟩ := hb₂.flush
            rw [h₂]
            dsimp only
            rw [h₃]
            exact .value hb₃
          · rw [if_neg hdeep, if_neg fun hboth => hdeep (hdepth ▸ hboth.1)]
            exact mirrors_delimiter ha₂ (Scanner.flush_lastC a).symm (by decide)

/-- Only the lexer's own variables change. -/
theorem mirrors_lexer {x : Except Fault Lexer} {x' : Except Exit Scanner} (h : st.Abstracts a)
    (hx : Mirrors Exits Lexer.Abstracts x x') (hkeep : ∀ b, x' = .ok b → a.Keeps b) :
    Mirrors Exits LexerState.Abstracts (x >>= fun s => .ok { st with lexer := s }) x' := by
  cases hx with
  | fault hF => exact .fault hF
  | value hs =>
    have hk := hkeep _ rfl
    apply Mirrors.value
    constructor
    · exact hs
    · exact h.inComment.trans hk.inComment.symm
    · exact h.lastC.trans hk.lastC.symm
    · exact h.lastSpecial.trans hk.lastSpecial.symm

theorem mirrors_switch (h : st.Abstracts a) (c : UInt8) :
    Mirrors Exits LexerState.Abstracts (lexerSwitch st c) (a.switch c) := by
  unfold lexerSwitch Scanner.switch
  by_cases hblank : c = chr ' ' ∨ c = chr '\t'
  · rw [if_pos hblank, if_pos hblank]
    obtain ⟨s', hput, hs'⟩ := h.lexer.flush
    rw [hput]
    exact mirrors_lexer h (.value hs') fun b hb => by
      cases hb
      exact a.keeps_flush
  rw [if_neg hblank, if_neg hblank]
  by_cases hredirect : c = chr '>' ∨ c = chr '<'
  · rw [if_pos hredirect, if_pos hredirect]
    have hc : c ≠ 0 := by rcases hredirect with rfl | rfl <;> decide
    refine mirrors_lexer h (mirrors_redirect h hc) fun b hb => ?_
    split at hb
    · cases hb
    · cases hb
      exact (a.keeps_sign c).setSimple true
  rw [if_neg hredirect, if_neg hredirect]
  by_cases hnewline : c = chr '\n'
  · rw [if_pos hnewline, if_pos hnewline]
    exact mirrors_lexer h (mirrors_newline h) fun b hb => Scanner.keeps_newline hb
  rw [if_neg hnewline, if_neg hnewline]
  by_cases hdelimiter : c = chr '|' ∨ c = chr ';' ∨ c = chr '(' ∨ c = chr ')'
  · rw [if_pos hdelimiter, if_pos hdelimiter]
    have hc : c ≠ 0 := by rcases hdelimiter with rfl | rfl | rfl | rfl <;> decide
    exact mirrors_lexer h (mirrors_delimiter h.lexer h.lastC hc) fun b hb =>
      Scanner.keeps_delimiter hb
  rw [if_neg hdelimiter, if_neg hdelimiter]
  by_cases hcomment : c = chr '#'
  · rw [if_pos hcomment, if_pos hcomment, h.lastC]
    by_cases hbefore : strchr [chr ' ', chr '\t', chr '\n', chr ';', chr '|', chr '(', chr ')']
        a.lastC = true
    · rw [if_pos hbefore, if_pos hbefore]
      exact .value ⟨⟨h.lexer.reads.setSimple false, rfl⟩, rfl, rfl, h.lastSpecial⟩
    · rw [if_neg hbefore, if_neg hbefore]
      exact .fault (.syntaxError _ _)
  rw [if_neg hcomment, if_neg hcomment]
  by_cases hword : isalnum c = true ∨ strchr wordPunctuation c = true
  · rw [if_pos hword, if_pos hword]
    by_cases hzero : c = 0
    · subst hzero
      rw [if_pos rfl]
      obtain ⟨s', hput, hs'⟩ := h.lexer.flush
      rw [hput]
      exact mirrors_lexer h (.value hs') fun b hb => by
        cases hb
        exact a.keeps_flush
    · rw [if_neg hzero]
      obtain ⟨s', hput, hs'⟩ := h.lexer.put hzero
      rw [hput]
      exact mirrors_lexer h (.value hs') fun b hb => by
        cases hb
        exact ⟨rfl, rfl, rfl⟩
  · rw [if_neg hword, if_neg hword]
    exact .fault (.syntaxError _ _)

theorem mirrors_next (h : st.Abstracts a) (c : UInt8) :
    Mirrors Exits LexerState.Abstracts (lexerPutchar st c) (a.next c) := by
  unfold lexerPutchar Scanner.next
  rw [h.inComment]
  by_cases hskip : a.inComment = true ∧ c ≠ chr '\n'
  · rw [if_pos hskip, if_pos hskip]
    exact .value h
  · rw [if_neg hskip, if_neg hskip]
    have hopen : LexerState.Abstracts { st with consumeSwitch := false }
        { a with inComment := false } :=
      ⟨⟨h.lexer.reads, h.lexer.simple⟩, rfl, h.lastC, h.lastSpecial⟩
    apply (mirrors_switch hopen c).bind
    intro st' a' h'
    apply Mirrors.value
    constructor
    · exact ⟨h'.lexer.reads, h'.lexer.simple⟩
    · exact h'.inComment
    · rfl
    · dsimp only
      rw [h'.lastSpecial]

theorem mirrors_scan (h : st.Abstracts a) (bs : List UInt8) :
    Mirrors Exits LexerState.Abstracts (bs.foldlM lexerPutchar st) (a.scan bs) := by
  unfold Scanner.scan
  induction bs generalizing st a with
  | nil => exact .value h
  | cons c bs ih =>
    rw [List.foldlM_cons, List.foldlM_cons]
    exact (mirrors_next h c).bind fun st' a' h' => ih h'

/-- The tokens have the types and the texts of the lexemes. -/
def TokenList.Spelling (tl : TokenList) (ls : List Lexeme) : Prop :=
  List.Forall₂ (fun tok l => tok.type = l.type ∧ tl.text tok = l.text) tl.tokens ls

theorem Partial.spelling {ls : List Lexeme} (h : Partial s ls w) : s.tokenList.Spelling ls := by
  obtain ⟨base, hbuf, _, _, htokens⟩ := h.buffer
  apply htokens.imp
  rintro tok l ⟨htype, htext⟩
  refine ⟨htype, ?_⟩
  change cstring s.lexerbuf tok.offset = l.text
  rw [hbuf]
  exact (htext.append w).cstring_eq

theorem mirrors_lexScript (script : List UInt8) :
    Mirrors Exits TokenList.Spelling (lexScript script) (scriptScan script) := by
  apply (mirrors_scan abstracts_init _).bind
  intro st a h
  apply (mirrors_next h 0).bind
  intro st' a' h'
  exact .value h'.lexer.reads.spelling

end CS111.Shell
