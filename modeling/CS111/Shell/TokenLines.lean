import CS111.Shell.ScannerRuns

/-!
# The lines of tokens

A script is lexed again with `origins`, which says for each byte of `lexerbuf` at which byte of the
script it was stored. The first byte of a token is the origin of the byte at its offset.
-/

namespace CS111.Shell

set_option autoImplicit false

open Fallible

structure Traced where
  state : LexerState
  origins : List Nat
  read : Nat

namespace Traced

def init : Traced := ⟨lexerInit, [], 0⟩

def putchar (t : Traced) (c : UInt8) : Except Fault Traced := do
  let st ← lexerPutchar t.state c
  let stored := st.lexer.lexerbuf.length - t.state.lexer.lexerbuf.length
  .ok ⟨st, t.origins ++ List.replicate stored t.read, t.read + 1⟩

end Traced

/-- `lexScript`, with the origins. -/
def traceScript (script : List UInt8) : Except Fault (TokenList × List Nat) := do
  let t ← (script.takeWhile (· ≠ 255)).foldlM Traced.putchar .init
  let t ← t.putchar 0
  .ok (t.state.lexer.tokenList, t.origins)

/-- One plus the number of newlines before a byte. -/
def lineOf (script : List UInt8) (p : Nat) : Nat := 1 + (script.take p).count (chr '\n')

/-- The kinds of tokens that the lexer makes of a newline. -/
def Token.StandsForNewline (script : List UInt8) (p : Nat) (tok : Token) : Prop :=
  tok.type = .tokNl ∨ (tok.type = .tokSc ∧ script[p]? = some (chr '\n'))

/-- Each token has the line of its first byte, which a syntax error at the token names. -/
def TokenList.NamesLines (tl : TokenList) (origins : List Nat) (script : List UInt8) : Prop :=
  ∀ i tok, tl.tokens[i]? = some tok → ∃ p, origins[tok.offset]? = some p ∧
    (¬ tok.StandsForNewline script p → tok.lineNum = lineOf script p ∧
      ∀ message, (failAt tl i message : Except Fault Command) =
        .error (.syntaxError (lineOf script p) message))

/-- The bytes behind the last newline, the last one first. -/
def lastLine (seen : List UInt8) : List UInt8 := seen.reverse.takeWhile (· ≠ chr '\n')

/-- The last byte belongs to a word: no comment has begun on its line. -/
def InWord (seen : List UInt8) : Prop :=
  chr '#' ∉ lastLine seen ∧ (lastLine seen).head?.any isWordChar = true

instance (seen : List UInt8) : Decidable (InWord seen) := inferInstanceAs (Decidable (_ ∧ _))

/-- No word is directly followed by a newline. -/
def NoWordAtNewline (script : List UInt8) : Prop :=
  ∀ seen, seen ++ [chr '\n'] <+: script.takeWhile (· ≠ 255) → ¬ InWord seen

variable {s s' s₁ s₂ s₃ : Lexer} {st st' : LexerState} {a b : Scanner} {c : UInt8}
  {new new' : List Token} {seen script : List UInt8} {t t' : Traced} {tok : Token} {p : Nat}

/-! ## What the lexer adds -/

/-- `new` are the tokens that end between two states. The first of them is the word under way. -/
structure Lexer.Adds (s s' : Lexer) (new : List Token) : Prop where
  buffer : s.lexerbuf <+: s'.lexerbuf
  tokens : s'.tokens = s.tokens ++ new
  line : s'.lineNum = s.lineNum
  numbers : ∀ tok ∈ new, tok.lineNum = s.lineNum
  head : ∀ tok ∈ new.head?, tok.offset = s.lastTokenIndex
  tail : ∀ tok ∈ new.tail, s.lexerbuf.length ≤ tok.offset
  unmoved : new = [] → s'.lastTokenIndex = s.lastTokenIndex
  moved : new ≠ [] → s.lexerbuf.length ≤ s'.lastTokenIndex
  bounded : s.lastTokenIndex ≤ s.lexerbuf.length →
    s'.lastTokenIndex ≤ s'.lexerbuf.length ∧ ∀ tok ∈ new, tok.offset < s'.lexerbuf.length

namespace Lexer.Adds

theorem refl (s : Lexer) : s.Adds s [] where
  buffer := List.prefix_rfl
  tokens := (List.append_nil _).symm
  line := rfl
  numbers := by simp
  head := by simp
  tail := by simp
  unmoved := fun _ => rfl
  moved := fun hne => absurd rfl hne
  bounded := fun h => ⟨h, by simp⟩

/-- No token begins before the word under way. -/
theorem behind {n : Nat} (h : s.Adds s' new) (hindex : n ≤ s.lastTokenIndex)
    (hbuffer : n ≤ s.lexerbuf.length) (htok : tok ∈ new) : n ≤ tok.offset := by
  cases new with
  | nil => cases htok
  | cons first rest =>
    rcases List.mem_cons.mp htok with rfl | hrest
    · rw [h.head tok rfl]
      exact hindex
    · exact hbuffer.trans (h.tail tok hrest)

theorem trans (h : s₁.Adds s₂ new) (h' : s₂.Adds s₃ new') : s₁.Adds s₃ (new ++ new') where
  buffer := h.buffer.trans h'.buffer
  tokens := by rw [h'.tokens, h.tokens, List.append_assoc]
  line := h'.line.trans h.line
  numbers := by
    intro tok htok
    rcases List.mem_append.mp htok with htok | htok
    · exact h.numbers tok htok
    · rw [h'.numbers tok htok, h.line]
  head := by
    cases new with
    | nil =>
      rw [← h.unmoved rfl]
      exact h'.head
    | cons first rest => exact h.head
  tail := by
    have hle := h.buffer.length_le
    cases new with
    | nil => exact fun tok htok => hle.trans (h'.tail tok htok)
    | cons first rest =>
      intro tok htok
      rcases List.mem_append.mp htok with htok | htok
      · exact h.tail tok htok
      · exact h'.behind (h.moved (List.cons_ne_nil _ _)) hle htok
  unmoved := by
    intro hnil
    obtain ⟨hnew, hnew'⟩ := List.append_eq_nil_iff.mp hnil
    rw [h'.unmoved hnew', h.unmoved hnew]
  moved := by
    intro hne
    by_cases hnew' : new' = []
    · rw [h'.unmoved hnew']
      rw [hnew', List.append_nil] at hne
      exact h.moved hne
    · exact h.buffer.length_le.trans (h'.moved hnew')
  bounded := by
    intro hle
    obtain ⟨hle, hnew⟩ := h.bounded hle
    obtain ⟨hle', hnew'⟩ := h'.bounded hle
    refine ⟨hle', fun tok htok => ?_⟩
    rcases List.mem_append.mp htok with htok | htok
    · exact Nat.lt_of_lt_of_le (hnew tok htok) h'.buffer.length_le
    · exact hnew' tok htok

theorem setSimple (h : s.Adds s' new) (simple : Bool) :
    s.Adds { s' with simpleCommand := simple } new :=
  ⟨h.buffer, h.tokens, h.line, h.numbers, h.head, h.tail, h.unmoved, h.moved, h.bounded⟩

theorem of_setSimple {simple : Bool}
    (h : Lexer.Adds { s with simpleCommand := simple } s' new) : s.Adds s' new :=
  ⟨h.buffer, h.tokens, h.line, h.numbers, h.head, h.tail, h.unmoved, h.moved, h.bounded⟩

end Lexer.Adds

theorem store_ok (h : s.store c = .ok s') :
    ∃ n, s' = { s with lexerbuf := s.lexerbuf ++ [c], bufSize := n } := by
  unfold Lexer.store at h
  split at h
  · cases h
  · cases h
    exact ⟨_, rfl⟩

theorem lexerAssignType_keeps (s : Lexer) (offset : Nat) :
    ∃ type isCommand simple, lexerAssignType s offset =
      (type, { s with isCommand := isCommand, simpleCommand := simple }) := by
  unfold lexerAssignType
  split
  · exact ⟨_, _, _, rfl⟩
  · split <;> exact ⟨_, _, _, rfl⟩

theorem addToken_ok (h : s.addToken = .ok s') : ∃ type, s'.lexerbuf = s.lexerbuf ∧
    s'.tokens = s.tokens ++ [⟨type, s.lastTokenIndex, s.lineNum⟩] ∧
    s'.lastTokenIndex = s.lexerbuf.length ∧ s'.lineNum = s.lineNum := by
  obtain ⟨type, isCommand, simple, hkeeps⟩ := lexerAssignType_keeps s s.lastTokenIndex
  unfold Lexer.addToken at h
  rw [hkeeps] at h
  dsimp only at h
  generalize (if s.tokens.length = s.tokensCount then s.tokensCount * 2 else s.tokensCount) = n at h
  split at h
  · cases h
  · cases h
    exact ⟨_, rfl, rfl, rfl, rfl⟩

theorem adds_store (h : s.store c = .ok s') : s.Adds s' [] := by
  obtain ⟨n, rfl⟩ := store_ok h
  constructor
  · exact List.prefix_append _ _
  · exact (List.append_nil _).symm
  · rfl
  · simp
  · simp
  · simp
  · exact fun _ => rfl
  · exact fun hne => absurd rfl hne
  · intro hle
    exact ⟨hle.trans (List.prefix_append _ _).length_le, by simp⟩

theorem adds_addToken (h : s.store 0 = .ok s₁) (hadd : s₁.addToken = .ok s') :
    ∃ tok, s.Adds s' [tok] := by
  obtain ⟨n, rfl⟩ := store_ok h
  obtain ⟨type, hbuffer, htokens, hindex, hline⟩ := addToken_ok hadd
  have hlength : s'.lexerbuf.length = s.lexerbuf.length + 1 := by
    rw [hbuffer, List.length_append, List.length_singleton]
  rw [← hbuffer, hlength] at hindex
  refine ⟨⟨type, s.lastTokenIndex, s.lineNum⟩, ?_, htokens, hline, ?_, ?_, ?_, ?_, ?_, ?_⟩
  · rw [hbuffer]
    exact List.prefix_append _ _
  · intro tok htok
    rw [List.mem_singleton.mp htok]
  · intro tok htok
    cases htok
    rfl
  · simp
  · exact fun hnil => absurd hnil (List.cons_ne_nil _ _)
  · intro _
    omega
  · intro hle
    refine ⟨by omega, fun tok htok => ?_⟩
    rw [List.mem_singleton.mp htok]
    dsimp only
    omega

theorem adds_putcharI (h : lexerPutcharI s c = .ok s') : ∃ new, s.Adds s' new := by
  unfold lexerPutcharI at h
  split at h
  · split at h
    · cases h
      exact ⟨[], .refl s⟩
    · obtain ⟨s₁, hstore, hadd⟩ := bind_eq_ok.mp h
      obtain ⟨tok, hadds⟩ := adds_addToken hstore hadd
      exact ⟨[tok], hadds⟩
  · exact ⟨[], adds_store h⟩

/-- The end of a word and a token of one character. -/
theorem adds_sign (h₁ : lexerPutcharI s 0 = .ok s₁)
    (h₂ : lexerPutcharI { s₁ with simpleCommand := false } c = .ok s₂)
    (h₃ : lexerPutcharI s₂ 0 = .ok s₃) : ∃ new, s.Adds s₃ new := by
  obtain ⟨new₁, hadds₁⟩ := adds_putcharI h₁
  obtain ⟨new₂, hadds₂⟩ := adds_putcharI h₂
  obtain ⟨new₃, hadds₃⟩ := adds_putcharI h₃
  exact ⟨_, hadds₁.trans (hadds₂.of_setSimple.trans hadds₃)⟩

theorem adds_delimiter {lastC : UInt8} (h : lexerDelimiter lastC s c = .ok s') :
    ∃ new, s.Adds s' new := by
  unfold lexerDelimiter at h
  split at h
  · cases h
  · obtain ⟨s₁, h₁, h⟩ := bind_eq_ok.mp h
    obtain ⟨s₂, h₂, h₃⟩ := bind_eq_ok.mp h
    exact adds_sign h₁ h₂ h₃

theorem adds_redirect (h : lexerRedirect st c = .ok s') : ∃ new, st.lexer.Adds s' new := by
  unfold lexerRedirect at h
  split at h
  · cases h
  · obtain ⟨s₁, h₁, h⟩ := bind_eq_ok.mp h
    obtain ⟨s₂, h₂, h⟩ := bind_eq_ok.mp h
    obtain ⟨s₃, h₃, h⟩ := bind_eq_ok.mp h
    cases h
    obtain ⟨new, hadds⟩ := adds_sign h₁ h₂ h₃
    exact ⟨new, hadds.setSimple true⟩

/-- A newline is counted before the word in front of it has ended. -/
def Lexer.count (s : Lexer) (c : UInt8) : Lexer :=
  { s with lineNum := s.lineNum + if c = chr '\n' then 1 else 0 }

theorem count_of_ne (h : c ≠ chr '\n') : s.count c = s := by
  rw [Lexer.count, if_neg h, Nat.add_zero]

theorem adds_newline (h : lexerNewline st = .ok s') :
    ∃ new, (st.lexer.count (chr '\n')).Adds s' new := by
  unfold lexerNewline at h
  split at h
  · cases h
  obtain ⟨s₁, h₁, h⟩ := bind_eq_ok.mp h
  obtain ⟨new, hadds⟩ := adds_putcharI h₁
  have hflush := hadds.setSimple false
  dsimp only at h
  split at h
  · cases h
    exact ⟨new, hflush⟩
  obtain ⟨last, _, h⟩ := bind_eq_ok.mp h
  split at h
  · cases h
    exact ⟨new, hflush⟩
  split at h
  · obtain ⟨s₂, h₂, h₃⟩ := bind_eq_ok.mp h
    obtain ⟨new₂, hadds₂⟩ := adds_putcharI h₂
    obtain ⟨new₃, hadds₃⟩ := adds_putcharI h₃
    exact ⟨_, hflush.trans (hadds₂.trans hadds₃)⟩
  · obtain ⟨new', hadds'⟩ := adds_delimiter h
    exact ⟨_, hflush.trans hadds'⟩

theorem adds_switch (h : lexerSwitch st c = .ok st') :
    ∃ new, (st.lexer.count c).Adds st'.lexer new := by
  unfold lexerSwitch at h
  by_cases hnewline : c = chr '\n'
  · subst hnewline
    rw [if_neg (by decide), if_neg (by decide), if_pos rfl] at h
    obtain ⟨s', hput, h⟩ := bind_eq_ok.mp h
    cases h
    exact adds_newline hput
  rw [count_of_ne hnewline]
  split at h
  · obtain ⟨s', hput, h⟩ := bind_eq_ok.mp h
    cases h
    exact adds_putcharI hput
  split at h
  · obtain ⟨s', hput, h⟩ := bind_eq_ok.mp h
    cases h
    exact adds_redirect hput
  split at h
  · obtain ⟨s', hput, h⟩ := bind_eq_ok.mp h
    cases h
    exact adds_delimiter hput
  split at h
  · split at h
    · cases h
      exact ⟨[], (Lexer.Adds.refl _).setSimple false⟩
    · cases h
  split at h
  · obtain ⟨s', hput, h⟩ := bind_eq_ok.mp h
    cases h
    exact adds_putcharI hput
  · cases h

theorem adds_putchar (h : lexerPutchar st c = .ok st') :
    ∃ new, (st.lexer.count c).Adds st'.lexer new := by
  unfold lexerPutchar at h
  split at h
  · next hskip =>
    cases h
    rw [count_of_ne hskip.2]
    exact ⟨[], .refl _⟩
  · obtain ⟨st₁, hswitch, h⟩ := bind_eq_ok.mp h
    cases h
    obtain ⟨new, hadds⟩ := adds_switch hswitch
    exact ⟨new, hadds⟩

/-! ## The word under way -/

theorem lastLine_newline (seen : List UInt8) : lastLine (seen ++ [chr '\n']) = [] := by
  simp [lastLine]

theorem lastLine_snoc (hc : c ≠ chr '\n') : lastLine (seen ++ [c]) = c :: lastLine seen := by
  simp [lastLine, hc]

theorem not_inWord_newline (seen : List UInt8) : ¬ InWord (seen ++ [chr '\n']) := by
  rw [InWord, lastLine_newline]
  simp

theorem inWord_snoc (hc : c ≠ chr '\n') :
    InWord (seen ++ [c]) ↔ chr '#' ∉ lastLine seen ∧ isWordChar c = true := by
  rw [InWord, lastLine_snoc hc, List.mem_cons, not_or, List.head?_cons, Option.any_some]
  constructor
  · rintro ⟨⟨_, hline⟩, hword⟩
    exact ⟨hline, hword⟩
  · rintro ⟨hline, hword⟩
    exact ⟨⟨(ne_of_isWordChar hword (by decide)).symm, hline⟩, hword⟩

/-- The scanner has read `seen`. -/
structure Scanner.HasRead (a : Scanner) (seen : List UInt8) : Prop where
  sound : a.Sound
  comment : a.inComment = true ↔ chr '#' ∈ lastLine seen
  pending : a.pending ≠ [] ↔ InWord seen
  suffix : a.pending <:+ seen

namespace Scanner

theorem hasRead_start : Scanner.start.HasRead [] where
  sound := sound_start
  comment := by simp [start, lastLine]
  pending := by simp [start, InWord, lastLine]
  suffix := List.suffix_rfl

theorem HasRead.pending_of_comment (h : a.HasRead seen) (hcomment : a.inComment = true) :
    a.pending = [] := by
  by_contra hne
  exact (h.pending.mp hne).1 (h.comment.mp hcomment)

theorem HasRead.of_open (h : a.HasRead seen) (hopen : a.inComment = false) :
    chr '#' ∉ lastLine seen := by
  intro hmem
  rw [h.comment.mpr hmem] at hopen
  cases hopen

/-- A character that ends the word under way. -/
theorem HasRead.ended (h : a.HasRead seen) (hr : Reads a c b)
    (hc : isWordChar c = false) (hline : c ≠ chr '\n') (hnumber : c ≠ chr '#')
    (hcomment : b.inComment = a.inComment) (hpending : b.pending = []) :
    b.HasRead (seen ++ [c]) where
  sound := h.sound.reads hr
  comment := by
    rw [hcomment, h.comment, lastLine_snoc hline, List.mem_cons, or_iff_right hnumber.symm]
  pending := by
    rw [inWord_snoc hline, hc]
    simp [hpending]
  suffix := by
    rw [hpending]
    exact List.nil_suffix

theorem HasRead.newline (h : a.HasRead seen) (hr : Reads a (chr '\n') b)
    (hcomment : b.inComment = false) (hpending : b.pending = []) :
    b.HasRead (seen ++ [chr '\n']) where
  sound := h.sound.reads hr
  comment := by simp [hcomment, lastLine_newline]
  pending := by simp [hpending, not_inWord_newline]
  suffix := by
    rw [hpending]
    exact List.nil_suffix

theorem sign_not_word {u : TokenType} (hu : u.isRedirect = true ∨ u.isDelimiter = true)
    (htext : u.text = [c]) : isWordChar c = false ∧ c ≠ chr '\n' ∧ c ≠ chr '#' := by
  rcases hu with hu | hu
  · rcases (isRedirect_text hu htext).1 with rfl | rfl <;> decide
  · rcases (isDelimiter_text hu htext).1 with rfl | rfl | rfl | rfl <;> decide

theorem isBlank_not_word (hc : isBlank c = true) :
    isWordChar c = false ∧ c ≠ chr '\n' ∧ c ≠ chr '#' := by
  have hblank : c = chr ' ' ∨ c = chr '\t' := by simpa [isBlank] using hc
  rcases hblank with rfl | rfl <;> decide

theorem Sound.pending_of_mayComment (h : a.Sound) (hmay : a.mayComment = true) :
    a.pending = [] := by
  by_contra hne
  have hchar := h.begun hne
  rw [mayComment_not_word hmay] at hchar
  cases hchar

theorem HasRead.reads (h : a.HasRead seen) (hr : Reads a c b) : b.HasRead (seen ++ [c]) := by
  have hnext := h.sound.reads hr
  cases hr with
  | skip hcomment hc =>
    have hpending := h.pending_of_comment hcomment
    have hmem := h.comment.mp hcomment
    constructor
    · exact hnext
    · simp [hcomment, lastLine_snoc hc, hmem]
    · simp [hpending, inWord_snoc hc, hmem]
    · rw [hpending]
      exact List.nil_suffix
  | blank hopen hblank =>
    obtain ⟨hword, hline, hnumber⟩ := isBlank_not_word hblank
    exact h.ended (.blank hopen hblank) hword hline hnumber a.flush_inComment a.flush_pending
  | nul hopen =>
    exact h.ended (.nul hopen) (by decide) (by decide) (by decide) a.flush_inComment
      a.flush_pending
  | redirect hopen ht htext hafter =>
    obtain ⟨hword, hline, hnumber⟩ := sign_not_word (.inl ht) htext
    exact h.ended (.redirect hopen ht htext hafter) hword hline hnumber rfl rfl
  | delimiter hopen ht htext hafter =>
    obtain ⟨hword, hline, hnumber⟩ := sign_not_word (.inr ht) htext
    exact h.ended (.delimiter hopen ht htext hafter) hword hline hnumber rfl rfl
  | comment hopen hmay =>
    have hpending := h.sound.pending_of_mayComment hmay
    have hline : chr '#' ≠ chr '\n' := by decide
    constructor
    · exact hnext
    · simp [after, lastLine_snoc hline]
    · simp [after, hpending, inWord_snoc hline, show isWordChar (chr '#') = false by decide]
    · change a.pending <:+ _
      rw [hpending]
      exact List.nil_suffix
  | word hopen hchar =>
    have hline : c ≠ chr '\n' := ne_of_isWordChar hchar (by decide)
    have hnumber : c ≠ chr '#' := ne_of_isWordChar hchar (by decide)
    have hmem := h.of_open hopen
    constructor
    · exact hnext
    · simp [after, put, hopen, lastLine_snoc hline, hnumber.symm, hmem]
    · simp [after, put, inWord_snoc hline, hmem, hchar]
    · obtain ⟨front, hfront⟩ := h.suffix
      refine ⟨front, ?_⟩
      change front ++ (a.pending ++ [c]) = seen ++ [c]
      rw [← List.append_assoc, hfront]
  | dropped hline hdrops =>
    exact h.newline (.dropped hline hdrops) (flush_inComment _) (flush_pending _)
  | separator hline hdrops hne hdeep =>
    exact h.newline (.separator hline hdrops hne hdeep)
      (flush_inComment _) rfl
  | ended hdrops hne hdeep hafter =>
    exact h.newline (.ended hdrops hne hdeep hafter)
      (flush_inComment _) rfl

/-- Only a character of a word leaves a word under way. -/
theorem HasRead.continues (h : a.HasRead seen) (hr : Reads a c b) (hne : b.pending ≠ []) :
    b.pending = a.pending ++ [c] ∧ b.lexemes = a.lexemes := by
  cases hr with
  | skip hcomment hc => exact absurd (h.pending_of_comment hcomment) hne
  | comment hopen hmay => exact absurd (h.sound.pending_of_mayComment hmay) hne
  | word hopen hchar => exact ⟨rfl, rfl⟩
  | blank | nul => exact absurd a.flush_pending hne
  | redirect | delimiter | separator | ended => exact absurd rfl hne
  | dropped => exact absurd (flush_pending _) hne

theorem emit_atLineEnd_lexemes (a : Scanner) (u : TokenType) :
    (a.atLineEnd.emit u).lexemes = a.flush.lexemes ++ [.mark u] := by
  have hpending : a.atLineEnd.pending = [] := flush_pending _
  change a.atLineEnd.flush.lexemes ++ [.mark u] = _
  rw [flush_of_nil hpending, atLineEnd_lexemes]

/-- A newline ends the word under way and is at most one token itself. -/
theorem newline_lexemes (hr : Reads a (chr '\n') b) : ∃ signs : List Lexeme,
    b.lexemes = a.flush.lexemes ++ signs ∧ ∀ l ∈ signs, l.type = .tokNl ∨ l.type = .tokSc := by
  generalize hc : chr '\n' = c at hr
  cases hr with
  | skip hcomment hne => exact absurd hc.symm hne
  | blank hopen hblank => exact absurd hc.symm (isBlank_not_word hblank).2.1
  | nul | comment => exact absurd hc (by decide)
  | redirect hopen ht htext hafter => exact absurd hc.symm (sign_not_word (.inl ht) htext).2.1
  | delimiter hopen ht htext hafter => exact absurd hc.symm (sign_not_word (.inr ht) htext).2.1
  | word hopen hchar => exact absurd hc.symm (ne_of_isWordChar hchar (by decide))
  | dropped => exact ⟨[], by simp [after, atLineEnd_lexemes], by simp⟩
  | separator => exact ⟨[.mark .tokSc], emit_atLineEnd_lexemes a .tokSc, by simp [Lexeme.type]⟩
  | ended => exact ⟨[.mark .tokNl], emit_atLineEnd_lexemes a .tokNl, by simp [Lexeme.type]⟩

end Scanner

/-! ## Runs -/

/-- No newline stands between the start of the word under way and its end. -/
theorem lineOf_word {w : Word} (hseen : seen <+: script) (hsuffix : w <:+ seen)
    (hw : chr '\n' ∉ w) (hlow : seen.length ≤ p + w.length) (hhigh : p ≤ seen.length) :
    lineOf script p = 1 + seen.count (chr '\n') := by
  obtain ⟨front, rfl⟩ := hsuffix
  obtain ⟨rest, rfl⟩ := hseen
  rw [List.length_append] at hlow hhigh
  have hnone : ∀ n, (w.take n).count (chr '\n') = 0 := fun n =>
    List.count_eq_zero.mpr fun hmem => hw (List.mem_of_mem_take hmem)
  have hword : w.count (chr '\n') = 0 := List.count_eq_zero.mpr hw
  rw [lineOf, List.take_append_of_le_length (by rw [List.length_append]; exact hhigh),
    List.take_append, List.take_of_length_le (by omega), List.count_append, List.count_append,
    hnone, hword]

/-- The lexer has read `seen`, and `a` is what the scanner has made of it. -/
structure Traced.Follows (t : Traced) (a : Scanner) (seen : List UInt8) : Prop where
  abstracts : t.state.Abstracts a
  behind : a.HasRead seen
  read : t.read = seen.length
  filled : t.origins.length = t.state.lexer.lexerbuf.length
  word : t.origins.drop t.state.lexer.lastTokenIndex =
    List.range' (seen.length - a.pending.length) a.pending.length
  line : t.state.lexer.lineNum = 1 + seen.count (chr '\n')
  inside : ∀ tok ∈ t.state.lexer.tokens, tok.offset < t.origins.length

theorem follows_init : Traced.init.Follows .start [] where
  abstracts := abstracts_init
  behind := Scanner.hasRead_start
  read := rfl
  filled := rfl
  word := rfl
  line := rfl
  inside := by simp [Traced.init, lexerInit]

theorem index_of_abstracts (h : s.Abstracts a) :
    s.lexerbuf.length = s.lastTokenIndex + a.pending.length := by
  obtain ⟨base, hbuffer, hindex, _, _⟩ := h.reads.buffer
  rw [hbuffer, List.length_append, hindex]

theorem types_of_abstracts (h : s.Abstracts a) :
    List.Forall₂ (fun tok l => tok.type = l.type) s.tokens a.lexemes := by
  obtain ⟨_, _, _, _, htokens⟩ := h.reads.buffer
  exact htokens.imp fun _ _ htok => htok.1

namespace Traced

/-- How one character extends the trace by the tokens `new`. -/
structure Step (t : Traced) (c : UInt8) (t' : Traced) (new : List Token) : Prop where
  lexer : lexerPutchar t.state c = .ok t'.state
  adds : (t.state.lexer.count c).Adds t'.state.lexer new
  origins : t'.origins = t.origins ++
    List.replicate (t'.state.lexer.lexerbuf.length - t.state.lexer.lexerbuf.length) t.read
  read : t'.read = t.read + 1

theorem step_of_putchar (h : t.putchar c = .ok t') : ∃ new, t.Step c t' new := by
  obtain ⟨st, hput, h⟩ := bind_eq_ok.mp h
  cases h
  obtain ⟨new, hadds⟩ := adds_putchar hput
  exact ⟨new, hput, hadds, rfl, rfl⟩

theorem Step.filled (h : t.Step c t' new)
    (hfilled : t.origins.length = t.state.lexer.lexerbuf.length) :
    t'.origins.length = t'.state.lexer.lexerbuf.length := by
  have hle : t.state.lexer.lexerbuf.length ≤ t'.state.lexer.lexerbuf.length :=
    h.adds.buffer.length_le
  rw [h.origins, List.length_append, List.length_replicate]
  omega

theorem Step.line (h : t.Step c t' new)
    (hline : t.state.lexer.lineNum = 1 + seen.count (chr '\n')) :
    t'.state.lexer.lineNum = 1 + (seen ++ [c]).count (chr '\n') := by
  rw [h.adds.line, Lexer.count, List.count_append, List.count_singleton]
  dsimp only
  rw [hline]
  simp only [beq_iff_eq]
  omega

theorem Step.inside (h : t.Step c t' new) (ht : t.Follows a seen) :
    ∀ tok ∈ t'.state.lexer.tokens, tok.offset < t'.origins.length := by
  have hindex := index_of_abstracts ht.abstracts.lexer
  rw [h.adds.tokens, h.filled ht.filled]
  intro tok htok
  rcases List.mem_append.mp htok with hold | hnew
  · have hle := h.adds.buffer.length_le
    have hlt := ht.inside tok hold
    rw [ht.filled] at hlt
    exact Nat.lt_of_lt_of_le hlt hle
  · exact (h.adds.bounded (hindex ▸ Nat.le_add_right _ _)).2 tok hnew

/-- The tokens that end at a character are the lexemes that it ends. -/
theorem Step.types {ls : List Lexeme} (h : t.Step c t' new) (ht : t.state.Abstracts a)
    (ht' : t'.state.Abstracts b) (hls : b.lexemes = a.lexemes ++ ls) :
    List.Forall₂ (fun tok l => tok.type = l.type) new ls := by
  have hold := (types_of_abstracts ht.lexer).length_eq
  have hall := types_of_abstracts ht'.lexer
  rw [h.adds.tokens, hls] at hall
  have hnew := List.forall₂_drop t.state.lexer.tokens.length hall
  rwa [List.drop_left' (by rfl), List.drop_left' hold.symm] at hnew

theorem Step.word (h : t.Step c t' new) (ht : t.Follows a seen) (ht' : t'.state.Abstracts b)
    (hr : Scanner.Reads a c b) : t'.origins.drop t'.state.lexer.lastTokenIndex =
      List.range' ((seen ++ [c]).length - b.pending.length) b.pending.length := by
  have hindex := index_of_abstracts ht.abstracts.lexer
  have hindex' := index_of_abstracts ht'.lexer
  by_cases hne : b.pending = []
  · have hfilled := h.filled ht.filled
    rw [hne, List.length_nil, Nat.add_zero] at hindex'
    rw [hne, List.length_nil, List.range'_zero, ← hindex', ← hfilled, List.drop_length]
  · obtain ⟨hpending, hlexemes⟩ := ht.behind.continues hr hne
    have hnew : new = [] := by
      have htypes := h.types ht.abstracts ht' (hlexemes.trans (List.append_nil _).symm)
      cases htypes
      rfl
    have hmove : t'.state.lexer.lastTokenIndex = t.state.lexer.lastTokenIndex :=
      h.adds.unmoved hnew
    have hsuffix := ht.behind.suffix.length_le
    rw [hpending, List.length_append, List.length_singleton, hmove] at hindex'
    have hstored : t'.state.lexer.lexerbuf.length - t.state.lexer.lexerbuf.length = 1 := by omega
    have hfilled := ht.filled
    rw [hmove, h.origins, hstored, List.drop_append_of_le_length (by omega), ht.word, ht.read,
      hpending, List.length_append, List.length_append, List.length_singleton,
      Nat.add_sub_add_right, List.range'_concat, Nat.one_mul, Nat.sub_add_cancel hsuffix]
    rfl

theorem Step.follows (h : t.Step c t' new) (ht : t.Follows a seen) :
    ∃ b, Scanner.Reads a c b ∧ t'.Follows b (seen ++ [c]) := by
  have hmirrors := mirrors_next ht.abstracts c
  rw [h.lexer] at hmirrors
  generalize hnext : a.next c = x at hmirrors
  cases hmirrors with
  | @value _ b habstracts =>
    have hr := Scanner.reads_of_next hnext
    exact ⟨b, hr, habstracts, ht.behind.reads hr, by simp [h.read, ht.read], h.filled ht.filled,
      h.word ht habstracts hr, h.line ht.line, h.inside ht⟩

/-- The bytes of the word under way follow one another in the script. -/
theorem Follows.origin_word {j : Nat} (h : t.Follows a seen) (hj : j < a.pending.length) :
    t.origins[t.state.lexer.lastTokenIndex + j]? = some (seen.length - a.pending.length + j) := by
  rw [← List.getElem?_drop, h.word, List.getElem?_range' hj, Nat.one_mul]

theorem Step.origin {i : Nat} (h : t.Step c t' new) (ht : t.Follows a seen)
    (hlow : t.state.lexer.lastTokenIndex ≤ i) (hhigh : i < t'.origins.length) :
    ∃ p, t'.origins[i]? = some p ∧ seen.length ≤ p + a.pending.length ∧ p ≤ seen.length := by
  have hindex := index_of_abstracts ht.abstracts.lexer
  have hsuffix := ht.behind.suffix.length_le
  have hfilled := ht.filled
  rw [h.origins, List.length_append, List.length_replicate] at hhigh
  by_cases hold : i < t.origins.length
  · obtain ⟨j, rfl⟩ := Nat.exists_eq_add_of_le hlow
    have hj : j < a.pending.length := by omega
    refine ⟨seen.length - a.pending.length + j, ?_, by omega, by omega⟩
    rw [h.origins, List.getElem?_append_left hold, ht.origin_word hj]
  · refine ⟨seen.length, ?_, by omega, Nat.le_refl _⟩
    rw [h.origins, List.getElem?_append_right (by omega), List.getElem?_replicate_of_lt (by omega),
      ht.read]

end Traced

/-- The token has the line of its first byte, or is none of those that carry one. -/
def Token.OnLine (script : List UInt8) (origins : List Nat) (tok : Token) : Prop :=
  ∃ p, origins[tok.offset]? = some p ∧
    (¬ tok.StandsForNewline script p → tok.lineNum = lineOf script p)

namespace Traced

theorem Follows.no_newline (h : t.Follows a seen) : chr '\n' ∉ a.pending :=
  fun hmem => absurd (h.behind.sound.pending _ hmem) (by decide)

theorem Step.origin_of_new (h : t.Step c t' new) (ht : t.Follows a seen) (htok : tok ∈ new) :
    ∃ p, t'.origins[tok.offset]? = some p ∧ seen.length ≤ p + a.pending.length ∧
      p ≤ seen.length := by
  have hindex := index_of_abstracts ht.abstracts.lexer
  refine h.origin ht (h.adds.behind (Nat.le_refl _) ?_ htok) ?_
  · exact hindex ▸ Nat.le_add_right _ _
  · exact h.inside ht tok (by rw [h.adds.tokens]; exact List.mem_append_right _ htok)

/-- Away from newlines. -/
theorem Step.onLine (h : t.Step c t' new) (ht : t.Follows a seen) (hseen : seen <+: script)
    (hc : c ≠ chr '\n') (htok : tok ∈ new) : tok.OnLine script t'.origins := by
  obtain ⟨p, hp, hlow, hhigh⟩ := h.origin_of_new ht htok
  refine ⟨p, hp, fun _ => ?_⟩
  rw [h.adds.numbers tok htok, count_of_ne hc, ht.line,
    lineOf_word hseen ht.behind.suffix ht.no_newline hlow hhigh]

/-- A newline behind something else than a word. -/
theorem Step.onLine_newline (h : t.Step (chr '\n') t' new) (ht : t.Follows a seen)
    (ht' : t'.state.Abstracts b) (hr : Scanner.Reads a (chr '\n') b)
    (hseen : seen ++ [chr '\n'] <+: script) (hword : ¬ InWord seen) (htok : tok ∈ new) :
    tok.OnLine script t'.origins := by
  have hpending : a.pending = [] := not_not.mp fun hne => hword (ht.behind.pending.mp hne)
  obtain ⟨p, hp, hlow, hhigh⟩ := h.origin_of_new ht htok
  rw [hpending, List.length_nil] at hlow
  obtain rfl : p = seen.length := Nat.le_antisymm hhigh hlow
  refine ⟨_, hp, fun hstands => absurd ?_ hstands⟩
  obtain ⟨signs, hls, hsigns⟩ := Scanner.newline_lexemes hr
  rw [Scanner.flush_of_nil hpending] at hls
  have htypes := h.types ht.abstracts ht' hls
  obtain ⟨i, hi, rfl⟩ := List.getElem_of_mem htok
  have hbyte : script[seen.length]? = some (chr '\n') := by
    obtain ⟨rest, rfl⟩ := hseen
    simp
  have htype := htypes.get hi (htypes.length_eq ▸ hi)
  rcases hsigns _ (List.getElem_mem _) with hnl | hsc
  · exact .inl (htype.trans hnl)
  · exact .inr ⟨htype.trans hsc, hbyte⟩

theorem read_type_ne_newline {simple : Bool} {w : Word} (hw : ∀ c ∈ w, isWordChar c = true) :
    (Lexeme.read simple w).type ≠ .tokNl := by
  intro htype
  cases hread : Lexeme.read simple w with
  | word text =>
    rw [hread] at htype
    cases htype
  | mark u =>
    rw [hread] at htype
    cases htype
    exact Scanner.read_ne_newline hw hread

/-- A newline behind a word. -/
theorem Step.not_onLine (h : t.Step (chr '\n') t' new) (ht : t.Follows a seen)
    (ht' : t'.state.Abstracts b) (hr : Scanner.Reads a (chr '\n') b)
    (hseen : seen <+: script) (hword : InWord seen) :
    ∃ tok ∈ new, ¬ tok.OnLine script t'.origins := by
  have hne := ht.behind.pending.mpr hword
  have hpos : 0 < a.pending.length := List.length_pos_iff.mpr hne
  have hsuffix := ht.behind.suffix.length_le
  obtain ⟨signs, hls, _⟩ := Scanner.newline_lexemes hr
  rcases Scanner.flush_cases a with ⟨hnil, _⟩ | ⟨_, hflush⟩
  · exact absurd hnil hne
  rw [hflush] at hls
  have htypes := h.types ht.abstracts ht' (hls.trans (List.append_assoc _ _ _))
  cases htypes with
  | @cons tok _ rest _ htype _ =>
    refine ⟨tok, List.mem_cons_self, ?_⟩
    rintro ⟨p, hp, hline⟩
    have hoffset : tok.offset = t.state.lexer.lastTokenIndex := h.adds.head tok rfl
    have horigin := ht.origin_word hpos
    rw [Nat.add_zero, Nat.add_zero] at horigin
    have hlt := (List.getElem?_eq_some_iff.mp horigin).1
    rw [hoffset, h.origins, List.getElem?_append_left hlt, horigin] at hp
    obtain rfl := Option.some.inj hp
    have hstands : ¬ tok.StandsForNewline script (seen.length - a.pending.length) := by
      rintro (hnl | ⟨_, hbyte⟩)
      · exact read_type_ne_newline ht.behind.sound.pending (htype.symm.trans hnl)
      · obtain ⟨front, hfront⟩ := ht.behind.suffix
        obtain ⟨back, rfl⟩ := hseen
        have hlength : seen.length - a.pending.length = front.length := by
          rw [← hfront, List.length_append, Nat.add_sub_cancel]
        rw [hlength, ← hfront, List.append_assoc, List.getElem?_append_right (Nat.le_refl _),
          Nat.sub_self, List.getElem?_append_left hpos] at hbyte
        exact ht.no_newline (List.mem_of_getElem? hbyte)
    have hearly := hline hstands
    have hlate := h.adds.numbers tok List.mem_cons_self
    rw [lineOf_word hseen ht.behind.suffix ht.no_newline (by omega) (by omega), hlate, Lexer.count,
      if_pos rfl] at hearly
    dsimp only at hearly
    rw [ht.line] at hearly
    omega

/-- One character: its tokens have their lines unless it is a newline behind a word. -/
theorem Step.onLine_iff (h : t.Step c t' new) (ht : t.Follows a seen)
    (hseen : seen <+: script) (hc : c = chr '\n' → seen ++ [chr '\n'] <+: script) :
    ∃ b, t'.Follows b (seen ++ [c]) ∧
      ((∀ tok ∈ new, tok.OnLine script t'.origins) ↔ (c = chr '\n' → ¬ InWord seen)) := by
  obtain ⟨b, hr, ht'⟩ := h.follows ht
  refine ⟨b, ht', ?_⟩
  by_cases hnewline : c = chr '\n'
  · subst hnewline
    constructor
    · intro hall _ hword
      obtain ⟨tok, htok, hnot⟩ := h.not_onLine ht ht'.abstracts hr hseen hword
      exact hnot (hall tok htok)
    · intro hword tok htok
      exact h.onLine_newline ht ht'.abstracts hr (hc rfl) (hword rfl) htok
  · constructor
    · exact fun _ hc => absurd hc hnewline
    · exact fun _ tok htok => h.onLine ht hseen hnewline htok

/-- The tokens from before keep their origins. -/
theorem Step.onLine_old (h : t.Step c t' new) (ht : t.Follows a seen)
    (htok : tok ∈ t.state.lexer.tokens) :
    tok.OnLine script t'.origins ↔ tok.OnLine script t.origins := by
  rw [Token.OnLine, Token.OnLine, h.origins, List.getElem?_append_left (ht.inside tok htok)]

theorem Step.all_onLine (h : t.Step c t' new) (ht : t.Follows a seen) :
    (∀ tok ∈ t'.state.lexer.tokens, tok.OnLine script t'.origins) ↔
      (∀ tok ∈ t.state.lexer.tokens, tok.OnLine script t.origins) ∧
        ∀ tok ∈ new, tok.OnLine script t'.origins := by
  rw [h.adds.tokens, List.forall_mem_append]
  exact and_congr_left' (forall₂_congr fun tok htok => h.onLine_old ht htok)

/-- A whole run over `bs`. -/
theorem run_onLine {bs : List UInt8} (hrun : bs.foldlM putchar t = .ok t') (ht : t.Follows a seen)
    (hscript : seen ++ bs <+: script) : ∃ b, t'.Follows b (seen ++ bs) ∧
      ((∀ tok ∈ t'.state.lexer.tokens, tok.OnLine script t'.origins) ↔
        (∀ tok ∈ t.state.lexer.tokens, tok.OnLine script t.origins) ∧
          ∀ front, front ++ [chr '\n'] <+: bs → ¬ InWord (seen ++ front)) := by
  induction bs generalizing t a seen with
  | nil =>
    cases hrun
    refine ⟨a, by rwa [List.append_nil], ?_⟩
    simp
  | cons c bs ih =>
    obtain ⟨t₁, hput, hrest⟩ := bind_eq_ok.mp hrun
    obtain ⟨new, hstep⟩ := step_of_putchar hput
    rw [List.append_cons] at hscript ⊢
    have hseen : seen ++ [c] <+: script := (List.prefix_append _ _).trans hscript
    obtain ⟨b₁, ht₁, hnew⟩ := hstep.onLine_iff ht ((List.prefix_append _ _).trans hseen)
      fun hc => hc ▸ hseen
    obtain ⟨b, ht', hall⟩ := ih hrest ht₁ hscript
    refine ⟨b, ht', ?_⟩
    rw [hall, hstep.all_onLine ht, hnew, and_assoc]
    refine and_congr_right fun _ => ?_
    constructor
    · rintro ⟨hfirst, hlater⟩ front hfront
      cases front with
      | nil =>
        rw [List.append_nil]
        exact hfirst (List.cons_prefix_cons.mp hfront).1.symm
      | cons d front =>
        obtain ⟨rfl, htail⟩ := List.cons_prefix_cons.mp hfront
        rw [List.append_cons]
        exact hlater front htail
    · intro hfronts
      refine ⟨fun hc => ?_, fun front hfront => ?_⟩
      · have hnil := hfronts [] (by simp [hc])
        rwa [List.append_nil] at hnil
      · rw [← List.append_cons]
        exact hfronts (c :: front) (List.cons_prefix_cons.mpr ⟨rfl, hfront⟩)

end Traced

/-! ## Scripts -/

variable {tl : TokenList} {origins : List Nat}

/-- The origins do not change what the lexer does. -/
theorem traceScript_lexScript (script : List UInt8) :
    (traceScript script).map Prod.fst = lexScript script := by
  have hrun : ∀ (bs : List UInt8) (t : Traced),
      (bs.foldlM Traced.putchar t).map Traced.state = bs.foldlM lexerPutchar t.state := by
    intro bs
    induction bs with
    | nil => exact fun t => rfl
    | cons c bs ih =>
      intro t
      rw [List.foldlM_cons, List.foldlM_cons, Traced.putchar]
      cases hput : lexerPutchar t.state c with
      | error fault => rfl
      | ok st => exact ih _
  have hscript := hrun (script.takeWhile (· ≠ 255)) .init
  unfold traceScript lexScript
  change _ = (script.takeWhile (· ≠ 255)).foldlM lexerPutchar Traced.init.state >>= _
  rw [← hscript]
  cases hlast : (script.takeWhile (· ≠ 255)).foldlM Traced.putchar .init with
  | error fault => rfl
  | ok t =>
    change ((t.putchar 0) >>= _).map _ = lexerPutchar t.state 0 >>= _
    unfold Traced.putchar
    cases lexerPutchar t.state 0 <;> rfl

theorem namesLines_iff_onLine :
    tl.NamesLines origins script ↔ ∀ tok ∈ tl.tokens, tok.OnLine script origins := by
  constructor
  · intro h tok htok
    obtain ⟨i, hi⟩ := List.getElem?_of_mem htok
    obtain ⟨p, hp, hline⟩ := h i tok hi
    exact ⟨p, hp, fun hstands => (hline hstands).1⟩
  · intro h i tok hi
    obtain ⟨p, hp, hline⟩ := h tok (List.mem_of_getElem? hi)
    refine ⟨p, hp, fun hstands => ⟨hline hstands, fun message => ?_⟩⟩
    rw [failAt, readToken, hi, ← hline hstands]
    rfl

theorem traced_of_lexScript (h : lexScript script = .ok tl) :
    ∃ origins, traceScript script = .ok (tl, origins) := by
  rw [← traceScript_lexScript] at h
  cases htrace : traceScript script with
  | error fault =>
    rw [htrace] at h
    cases h
  | ok result =>
    rw [htrace] at h
    cases h
    exact ⟨result.2, rfl⟩

theorem namesLines_iff (h : lexScript script = .ok tl) :
    ∃ origins, traceScript script = .ok (tl, origins) ∧
      (tl.NamesLines origins script ↔ NoWordAtNewline script) := by
  obtain ⟨origins, htrace⟩ := traced_of_lexScript h
  refine ⟨origins, htrace, ?_⟩
  obtain ⟨t, hrun, htrace⟩ := bind_eq_ok.mp htrace
  obtain ⟨t', hput, htrace⟩ := bind_eq_ok.mp htrace
  cases htrace
  have hscript : script.takeWhile (· ≠ 255) <+: script := List.takeWhile_prefix _
  obtain ⟨a, ht, hall⟩ := Traced.run_onLine hrun follows_init hscript
  obtain ⟨new, hstep⟩ := Traced.step_of_putchar hput
  have hzero : (0 : UInt8) ≠ chr '\n' := by decide
  have hlast : ∀ tok ∈ new, tok.OnLine script t'.origins :=
    fun tok htok => hstep.onLine ht hscript hzero htok
  rw [namesLines_iff_onLine]
  change (∀ tok ∈ t'.state.lexer.tokens, _) ↔ _
  rw [hstep.all_onLine ht, and_iff_left hlast, hall]
  simp [Traced.init, lexerInit, NoWordAtNewline]

/-- `a;` on a line, then `b` without a newline. -/
theorem namesLines_after_semicolon : ∃ tl origins,
    lexScript [chr 'a', chr ';', chr '\n', chr 'b'] = .ok tl ∧
      traceScript [chr 'a', chr ';', chr '\n', chr 'b'] = .ok (tl, origins) ∧
      tl.NamesLines origins [chr 'a', chr ';', chr '\n', chr 'b'] := by
  have hlex : lexScript [chr 'a', chr ';', chr '\n', chr 'b'] = .ok _ := rfl
  obtain ⟨origins, htrace, hiff⟩ := namesLines_iff hlex
  refine ⟨_, origins, hlex, htrace, hiff.mpr ?_⟩
  rintro seen ⟨rest, hrest⟩
  rcases seen with _ | ⟨x, _ | ⟨y, _ | ⟨z, seen⟩⟩⟩
  · exact absurd (List.cons.inj hrest).1 (by decide)
  · exact absurd (List.cons.inj (List.cons.inj hrest).2).1 (by decide)
  · obtain rfl := (List.cons.inj hrest).1
    obtain rfl := (List.cons.inj (List.cons.inj hrest).2).1
    decide
  · have htail := (List.cons.inj (List.cons.inj (List.cons.inj hrest).2).2).2
    rcases seen with _ | ⟨d, seen⟩
    · exact absurd (List.cons.inj htail).1 (by decide)
    · exact absurd (List.cons.inj htail).2 (by simp)

/-- The word of the first line has the number of the second. -/
theorem word_before_newline : ∃ tl origins, lexScript [chr 'a', chr '\n'] = .ok tl ∧
    traceScript [chr 'a', chr '\n'] = .ok (tl, origins) ∧
    ¬ tl.NamesLines origins [chr 'a', chr '\n'] := by
  refine ⟨_, _, rfl, rfl, fun h => ?_⟩
  obtain ⟨p, hp, hline⟩ := h 0 _ rfl
  obtain rfl : 0 = p := Option.some.inj hp
  have hword := (hline (by rintro (h | ⟨h, _⟩) <;> cases h)).1
  exact absurd hword (by decide)

end CS111.Shell
