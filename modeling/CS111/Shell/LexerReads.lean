import CS111.Shell.ParserComplete
import CS111.Shell.Printing

/-!
# The lexer on a printed line

The lexer is followed lexeme by lexeme. `Mode` is what the lexer may be given next; it determines
`simple_command`. A lexeme whose last byte has just been read becomes a token at the next NUL.
-/

namespace CS111.Shell

set_option autoImplicit false

/-- Before a command word or keyword, after a word, and after a redirection sign. -/
inductive Mode where
  | command | words | target
  deriving Repr, DecidableEq

def Mode.simple : Mode → Bool
  | .command => false
  | _ => true

/-- The lexeme can be read in this mode, and the mode it leads to. -/
inductive Follows : Mode → Lexeme → Mode → Prop
  | commandWord {w : Word} : ValidWord w → w ∉ reservedWords → Follows .command (.word w) .words
  | word {m : Mode} {w : Word} : ValidWord w → m ≠ .command → Follows m (.word w) .words
  | keyword {t : TokenType} : t.isKeyword = true → Follows .command (.mark t) .command
  | redirect {m : Mode} {t : TokenType} :
      t.isRedirect = true → m ≠ .target → Follows m (.mark t) .target
  | delimiter {m : Mode} {t : TokenType} :
      t.isDelimiter = true → m ≠ .target → Follows m (.mark t) .command

def Lexable : Mode → List Lexeme → Prop
  | m, [] => m ≠ .target
  | m, l :: ls => ∃ m', Follows m l m' ∧ Lexable m' ls

/-- `w` stands at the offset, with a NUL behind it. -/
def TextAt (buffer : List UInt8) (offset : Nat) (w : Word) : Prop :=
  ∃ pre post, buffer = pre ++ w ++ 0 :: post ∧ pre.length = offset ∧ 0 ∉ w

variable {buffer : List UInt8} {offset : Nat} {w pend : Word} {s : Lexer} {ls : List Lexeme}
  {l : Lexeme} {c : UInt8} {m m' : Mode} {t : TokenType}

theorem TextAt.append (h : TextAt buffer offset w) (more : List UInt8) :
    TextAt (buffer ++ more) offset w := by
  obtain ⟨pre, post, rfl, hlen, hw⟩ := h
  exact ⟨pre, post ++ more, by simp, hlen, hw⟩

theorem TextAt.cstring_eq (h : TextAt buffer offset w) : cstring buffer offset = w := by
  obtain ⟨pre, post, rfl, rfl, hw⟩ := h
  have hall : ∀ x ∈ w, decide (x ≠ 0) = true := by
    intro x hx
    have hne : x ≠ 0 := fun h0 => hw (h0 ▸ hx)
    simpa using hne
  rw [cstring, List.append_assoc, List.drop_left, List.takeWhile_append_of_pos hall]
  simp

/-- The tokens of `ls` have been made, and the bytes of `pend` follow them in the buffer. -/
structure Partial (s : Lexer) (ls : List Lexeme) (pend : Word) : Prop where
  buffer : ∃ base, s.lexerbuf = base ++ pend ∧ s.lastTokenIndex = base.length ∧
    (base = [] ∨ base.getLast? = some 0) ∧
    List.Forall₂ (fun tok l => tok.type = l.type ∧ TextAt base tok.offset l.text) s.tokens ls
  noNul : 0 ∉ pend
  room : s.lexerbuf.length < s.bufSize
  tokensRoom : s.tokens.length ≤ s.tokensCount ∧ 0 < s.tokensCount
  depth : s.isCommand = rise Lexeme.nest ls

theorem partial_init : Partial lexerInit.lexer [] [] where
  buffer := ⟨[], rfl, rfl, .inl rfl, .nil⟩
  noNul := by simp
  room := by decide
  tokensRoom := by decide
  depth := rfl

theorem store_eq (hroom : s.lexerbuf.length < s.bufSize) : ∃ n, s.lexerbuf.length + 1 < n ∧
    s.store c = .ok { s with lexerbuf := s.lexerbuf ++ [c], bufSize := n } := by
  refine ⟨if s.lexerbuf.length + 1 = s.bufSize then s.bufSize * 2 else s.bufSize, ?_, ?_⟩
  · split <;> omega
  · rw [Lexer.store, if_neg (by omega)]

theorem Partial.putchar (h : Partial s ls pend) (hc : c ≠ 0) :
    ∃ s', lexerPutcharI s c = .ok s' ∧ Partial s' ls (pend ++ [c]) ∧
      s'.simpleCommand = s.simpleCommand := by
  obtain ⟨n, hn, hstore⟩ := store_eq (c := c) h.room
  obtain ⟨base, hbuf, hlast, hbase, htokens⟩ := h.buffer
  refine ⟨_, (if_neg hc).trans hstore, ?_, rfl⟩
  refine ⟨⟨base, by simp [hbuf], hlast, hbase, htokens⟩, ?_, ?_, h.tokensRoom, h.depth⟩
  · intro hmem
    rcases List.mem_append.mp hmem with hmem | hmem
    · exact h.noNul hmem
    · exact hc (List.mem_singleton.mp hmem).symm
  · simpa using hn

theorem Partial.nul (h : Partial s ls []) : lexerPutcharI s 0 = .ok s := by
  obtain ⟨base, hbuf, _, hbase, _⟩ := h.buffer
  rw [List.append_nil] at hbuf
  rw [lexerPutcharI, if_pos rfl, if_pos (hbuf ▸ hbase)]

theorem commandChange_eq (t : TokenType) : commandChange t = nesting t := by
  cases t <;> rfl

/-- The type that `lexer_assign_type` finds for a text. -/
def assignedType (simpleCommand : Bool) (w : Word) : TokenType :=
  if simpleCommand then .tokWord
  else
    match tokAssociations.find? fun assoc => assoc.2 = w with
    | some (type, _) => type
    | none => .tokWord

theorem tokAssociations_ne_word (assoc : TokenType × Word) (h : assoc ∈ tokAssociations) :
    assoc.1 ≠ .tokWord := by
  simp only [tokAssociations, List.mem_cons, List.not_mem_nil, or_false] at h
  rcases h with rfl | rfl | rfl | rfl | rfl | rfl | rfl | rfl | rfl | rfl | rfl | rfl | rfl | rfl |
    rfl <;> simp

theorem lexerAssignType_eq (hw : cstring s.lexerbuf offset = w) :
    lexerAssignType s offset = (assignedType s.simpleCommand w,
      { s with
        isCommand := s.isCommand + nesting (assignedType s.simpleCommand w)
        simpleCommand :=
          s.simpleCommand || decide (assignedType s.simpleCommand w = .tokWord) }) := by
  rw [lexerAssignType, assignedType, hw]
  cases hsimple : s.simpleCommand with
  | true =>
    obtain ⟨⟩ := s
    simp_all [nesting]
  | false =>
    cases hfind : tokAssociations.find? fun assoc => assoc.2 = w with
    | none => simp [nesting]
    | some assoc =>
      have hne := tokAssociations_ne_word assoc (List.mem_of_find?_eq_some hfind)
      obtain ⟨type, text⟩ := assoc
      simp [commandChange_eq, hne]

/-- A NUL makes a token of the bytes that are pending. -/
theorem Partial.flush (h : Partial s ls l.text) (hne : l.text ≠ [])
    (htype : assignedType s.simpleCommand l.text = l.type) :
    ∃ s', lexerPutcharI s 0 = .ok s' ∧ Partial s' (ls ++ [l]) [] ∧
      s'.simpleCommand = (s.simpleCommand || decide (l.type = .tokWord)) := by
  obtain ⟨n, hn, hstore⟩ := store_eq (c := 0) h.room
  obtain ⟨base, hbuf, hlast, hbase, htokens⟩ := h.buffer
  have hpending : ¬ (s.lexerbuf = [] ∨ s.lexerbuf.getLast? = some 0) := by
    rintro (hnil | hzero)
    · exact hne (List.append_eq_nil_iff.mp (hbuf ▸ hnil)).2
    · rw [hbuf, List.getLast?_append_of_ne_nil _ hne] at hzero
      exact h.noNul (List.mem_of_getLast? hzero)
  have htext : TextAt (s.lexerbuf ++ [0]) s.lastTokenIndex l.text :=
    ⟨base, [], by simp [hbuf], hlast.symm, h.noNul⟩
  have hcount : ¬ (if s.tokens.length = s.tokensCount then s.tokensCount * 2
      else s.tokensCount) ≤ s.tokens.length := by
    have := h.tokensRoom
    split <;> omega
  obtain ⟨s₁, hs₁⟩ : ∃ s₁ : Lexer, s₁ = { s with lexerbuf := s.lexerbuf ++ [0], bufSize := n } :=
    ⟨_, rfl⟩
  have hassign : lexerAssignType s₁ s₁.lastTokenIndex = (l.type,
      { s₁ with
        isCommand := s₁.isCommand + l.nest
        simpleCommand := s.simpleCommand || decide (l.type = .tokWord) }) := by
    have hcstring : cstring s₁.lexerbuf s₁.lastTokenIndex = l.text := by
      rw [hs₁]
      exact htext.cstring_eq
    have hsame : s₁.simpleCommand = s.simpleCommand := by rw [hs₁]
    rw [lexerAssignType_eq hcstring, hsame, htype]
    rfl
  rw [← hs₁] at hstore
  have hadd : s₁.addToken = .ok { s₁ with
      tokens := s₁.tokens ++ [⟨l.type, s₁.lastTokenIndex, s₁.lineNum⟩]
      tokensCount := if s.tokens.length = s.tokensCount then s.tokensCount * 2 else s.tokensCount
      lastTokenIndex := s₁.lexerbuf.length
      isCommand := s₁.isCommand + l.nest
      simpleCommand := s.simpleCommand || decide (l.type = .tokWord) } := by
    have hlen : s₁.tokens.length = s.tokens.length := by rw [hs₁]
    have hcap : s₁.tokensCount = s.tokensCount := by rw [hs₁]
    simp only [Lexer.addToken, hlen, hcap, if_neg hcount, hassign]
  have hput : lexerPutcharI s 0 = s₁.addToken := by
    rw [lexerPutcharI, if_pos rfl, if_neg hpending, hstore]
    rfl
  refine ⟨_, hput.trans hadd, ?_, rfl⟩
  refine ⟨⟨s.lexerbuf ++ [0], by simp [hs₁], by simp [hs₁], .inr (by simp), ?_⟩, by simp,
    by simpa [hs₁] using hn, ?_, ?_⟩
  · rw [hs₁]
    refine List.rel_append ?_ (.cons ⟨rfl, htext⟩ .nil)
    refine htokens.imp ?_
    intro tok l' ⟨ht, hat⟩
    refine ⟨ht, ?_⟩
    rw [hbuf, List.append_assoc]
    exact hat.append _
  · have := h.tokensRoom
    simp only [List.length_append, List.length_singleton, hs₁]
    split <;> omega
  · simp [hs₁, h.depth]

/-- What `lexer_putchar_i` has been given, up to a last word or keyword whose end has not been
seen yet if the flag is set. -/
inductive Reading (s : Lexer) : List Lexeme → Mode → Bool → Prop
  | clean {ls : List Lexeme} {m : Mode} :
      Partial s ls [] → s.simpleCommand = m.simple → Reading s ls m false
  | inWord {ls : List Lexeme} {l : Lexeme} {m : Mode} :
      Partial s ls l.text → l.text ≠ [] → assignedType s.simpleCommand l.text = l.type →
      m.simple = (s.simpleCommand || decide (l.type = .tokWord)) → Reading s (ls ++ [l]) m true

theorem Reading.flush {b : Bool} (h : Reading s ls m b) :
    ∃ s', lexerPutcharI s 0 = .ok s' ∧ Partial s' ls [] ∧ s'.simpleCommand = m.simple := by
  cases h with
  | clean hpend hsimple => exact ⟨s, hpend.nul, hpend, hsimple⟩
  | inWord hpend hne htype hm =>
    obtain ⟨s', hput, hpend', hsimple⟩ := hpend.flush hne htype
    exact ⟨s', hput, hpend', hsimple.trans hm.symm⟩

theorem Reading.finished (h : Reading s ls m false) : Partial s ls [] := by
  cases h with
  | clean hpend => exact hpend

theorem Partial.setSimple (h : Partial s ls pend) (b : Bool) :
    Partial { s with simpleCommand := b } ls pend :=
  ⟨h.buffer, h.noNul, h.room, h.tokensRoom, h.depth⟩

theorem Partial.setLine (h : Partial s ls pend) (n : Nat) :
    Partial { s with lineNum := n } ls pend :=
  ⟨h.buffer, h.noNul, h.room, h.tokensRoom, h.depth⟩

theorem Reading.setLine {b : Bool} (h : Reading s ls m b) (n : Nat) :
    Reading { s with lineNum := n } ls m b := by
  cases h with
  | clean hpend hsimple => exact .clean (hpend.setLine n) hsimple
  | inWord hpend hne htype hsimple => exact .inWord (hpend.setLine n) hne htype hsimple

/-- A sign is a token of its own. -/
theorem Reading.putSign {b : Bool} (h : Reading s ls m b) (htext : t.text = [c])
    (htype : assignedType false [c] = t) (hword : t ≠ .tokWord) (hc : c ≠ 0) :
    ∃ s₁ s₂ s₃, lexerPutcharI s 0 = .ok s₁ ∧
      lexerPutcharI { s₁ with simpleCommand := false } c = .ok s₂ ∧
      lexerPutcharI s₂ 0 = .ok s₃ ∧ Partial s₃ (ls ++ [.mark t]) [] ∧
      s₃.simpleCommand = false := by
  obtain ⟨s₁, h₁, hp₁, _⟩ := h.flush
  obtain ⟨s₂, h₂, hp₂, hs₂⟩ := (hp₁.setSimple false).putchar hc
  have hp₂ : Partial s₂ ls (Lexeme.mark t).text := by
    rw [Lexeme.text, htext]
    exact hp₂
  have hassigned : assignedType s₂.simpleCommand (Lexeme.mark t).text = (Lexeme.mark t).type := by
    rw [hs₂, Lexeme.text, htext]
    exact htype
  obtain ⟨s₃, h₃, hp₃, hs₃⟩ := hp₂.flush (by simp [Lexeme.text, htext]) hassigned
  refine ⟨s₁, s₂, s₃, h₁, h₂, h₃, hp₃, ?_⟩
  rw [hs₃, hs₂]
  exact decide_eq_false hword

theorem Follows.assigned (h : Follows m l m') (hl : l.type = .tokWord ∨ l.type.isKeyword = true) :
    l.text ≠ [] ∧ assignedType m.simple l.text = l.type ∧
      m'.simple = (m.simple || decide (l.type = .tokWord)) := by
  cases h with
  | @commandWord w hvalid hfree =>
    refine ⟨hvalid.1, ?_, by simp [Lexeme.type, Mode.simple]⟩
    have hnone : tokAssociations.find? (fun assoc => assoc.2 = w) = none := by
      rw [List.find?_eq_none]
      intro assoc hmem heq
      have heq : assoc.2 = w := by simpa using heq
      subst w
      simp only [tokAssociations, List.mem_cons, List.not_mem_nil, or_false] at hmem
      rcases hmem with rfl | rfl | rfl | rfl | rfl | rfl | rfl | rfl | hmem
      all_goals try exact hfree (by decide)
      rcases hmem with rfl | rfl | rfl | rfl | rfl | rfl | rfl
      all_goals exact absurd (hvalid.2 _ List.mem_cons_self) (by decide)
    change assignedType false w = .tokWord
    rw [assignedType, if_neg Bool.false_ne_true, hnone]
  | word hvalid hm =>
    have hsimple : m.simple = true := by
      cases m with
      | command => exact absurd rfl hm
      | words | target => rfl
    exact ⟨hvalid.1, by simp [assignedType, hsimple, Lexeme.type],
      by simp [Lexeme.type, Mode.simple]⟩
  | @keyword t ht =>
    cases t <;> simp [TokenType.isKeyword] at ht <;>
      exact ⟨by decide, by decide, by decide⟩
  | @redirect _ t ht hm =>
    cases t <;> simp [TokenType.isRedirect] at ht <;>
      simp [Lexeme.type, TokenType.isKeyword] at hl
  | @delimiter _ t ht hm =>
    cases t <;> simp [TokenType.isDelimiter] at ht <;>
      simp [Lexeme.type, TokenType.isKeyword] at hl

/-! ## Byte by byte -/

/-- The state of the lexer after the bytes of `ls`, with what `last_c` can tell. -/
structure Scanning (st : LexerState) (ls : List Lexeme) (m : Mode) (b : Bool) : Prop where
  lexer : Reading st.lexer ls m b
  consume : st.consumeSwitch = false
  redirect : st.lastC = chr '<' ∨ st.lastC = chr '>' → m = .target
  opening : st.lastC = chr '\n' ∨ st.lastC = chr '(' ∨ st.lastC = chr '|' →
    ∀ l, ls.getLast? = some l → l.type ∈ [TokenType.tokNl, .tokLparen, .tokPipe]

theorem scanning_init : Scanning lexerInit [] .command false where
  lexer := .clean partial_init rfl
  consume := rfl
  redirect := by decide
  opening := by simp

variable {st : LexerState} {b : Bool}

theorem lexerPutchar_eq (h : st.consumeSwitch = false) :
    lexerPutchar st c = (lexerSwitch st c).bind fun st' => .ok { st' with
      lastSpecial := if strchr [chr ' ', chr '\t', chr '\n'] c then st'.lastSpecial else c
      lastC := c } := by
  obtain ⟨lexer, consumeSwitch, lastC, lastSpecial⟩ := st
  obtain rfl : consumeSwitch = false := h
  simp [lexerPutchar, bind]

theorem Scanning.blank (h : Scanning st ls m b) (hc : isBlank c = true) :
    ∃ st', lexerPutchar st c = .ok st' ∧ Scanning st' ls m false ∧ st'.lastC ≠ 0 := by
  have hblank : c = chr ' ' ∨ c = chr '\t' := by simpa [isBlank] using hc
  obtain ⟨s', hput, hpend, hsimple⟩ := h.lexer.flush
  have hgo : lexerPutchar st c = .ok { st with lexer := s', lastC := c } := by
    rw [lexerPutchar_eq h.consume, lexerSwitch, if_pos hblank, hput]
    rcases hblank with rfl | rfl <;> rfl
  refine ⟨_, hgo, ⟨.clean hpend hsimple, h.consume, ?_, ?_⟩, ?_⟩
  · intro hlast
    change c = _ ∨ c = _ at hlast
    rcases hblank with rfl | rfl <;> rcases hlast with h | h <;> exact absurd h (by decide)
  · intro hlast
    change c = _ ∨ c = _ ∨ c = _ at hlast
    rcases hblank with rfl | rfl <;> rcases hlast with h | h | h <;> exact absurd h (by decide)
  · change c ≠ 0
    rcases hblank with rfl | rfl <;> decide

theorem ne_of_isWordChar {d : UInt8} (hc : isWordChar c = true) (hd : isWordChar d = false) :
    c ≠ d := by
  rintro rfl
  simp [hc] at hd

theorem lexerSwitch_wordChar (hc : isWordChar c = true) :
    lexerSwitch st c = (lexerPutcharI st.lexer c).bind fun s => .ok { st with lexer := s } := by
  have hne : ∀ {d : UInt8}, isWordChar d = false → c ≠ d := fun hd => ne_of_isWordChar hc hd
  have hword : isalnum c = true ∨ strchr wordPunctuation c = true := by
    have hor : isalnum c = true ∨ c ∈ wordPunctuation := by simpa [isWordChar] using hc
    exact hor.imp id fun hmem => by simp [strchr, hmem]
  rw [lexerSwitch, if_neg, if_neg, if_neg, if_neg, if_neg, if_pos hword]
  · rfl
  · exact hne (by decide)
  · rintro (h | h | h | h) <;> exact hne (by decide) h
  · exact hne (by decide)
  · rintro (h | h) <;> exact hne (by decide) h
  · rintro (h | h) <;> exact hne (by decide) h

/-- The characters of a word, or of a part of it, are appended to the buffer. -/
theorem putchar_word {pend w : Word} (hpend : Partial st.lexer ls pend)
    (hconsume : st.consumeSwitch = false) (hw : ∀ c ∈ w, isWordChar c = true) :
    ∃ st', w.foldlM lexerPutchar st = .ok st' ∧ Partial st'.lexer ls (pend ++ w) ∧
      st'.lexer.simpleCommand = st.lexer.simpleCommand ∧ st'.consumeSwitch = false ∧
      (w ≠ [] → isWordChar st'.lastC = true) := by
  induction w generalizing st pend with
  | nil => exact ⟨st, rfl, by simpa using hpend, rfl, hconsume, fun h => absurd rfl h⟩
  | cons c w ih =>
    have hc := hw c List.mem_cons_self
    obtain ⟨s', hput, hpend', hsimple⟩ := hpend.putchar (ne_of_isWordChar hc (by decide))
    obtain ⟨st', hgo, hst'⟩ : ∃ st', lexerPutchar st c = .ok st' ∧ st'.lexer = s' ∧
        st'.consumeSwitch = false ∧ st'.lastC = c := by
      rw [lexerPutchar_eq hconsume, lexerSwitch_wordChar hc, hput]
      exact ⟨_, rfl, rfl, hconsume, rfl⟩
    obtain ⟨hlexer, hconsume', hlast⟩ := hst'
    rw [← hlexer] at hpend' hsimple
    obtain ⟨st'', hrest, hpend'', hsimple', hconsume'', hlast'⟩ :=
      ih hpend' hconsume' fun d hd => hw d (List.mem_cons_of_mem c hd)
    refine ⟨st'', ?_, by simpa using hpend'', hsimple'.trans hsimple, hconsume'', ?_⟩
    · rw [List.foldlM_cons, hgo]
      exact hrest
    · intro _
      cases w with
      | nil =>
        obtain rfl : st' = st'' := by simpa [pure, Except.pure] using hrest
        rw [hlast]
        exact hc
      | cons d w => exact hlast' (by simp)

theorem text_wordChars (h : Follows m l m') (hl : l.type = .tokWord ∨ l.type.isKeyword = true) :
    ∀ c ∈ l.text, isWordChar c = true := by
  cases h with
  | commandWord hvalid => exact hvalid.2
  | word hvalid => exact hvalid.2
  | @keyword t ht =>
    cases t <;> simp [TokenType.isKeyword] at ht <;> exact List.all_eq_true.mp (by decide)
  | @redirect _ t ht =>
    cases t <;> simp [TokenType.isRedirect] at ht <;>
      simp [Lexeme.type, TokenType.isKeyword] at hl
  | @delimiter _ t ht =>
    cases t <;> simp [TokenType.isDelimiter] at ht <;>
      simp [Lexeme.type, TokenType.isKeyword] at hl

/-- A word or keyword, up to its last byte. -/
theorem Scanning.word (h : Scanning st ls m false) (hm : Follows m l m')
    (hl : l.type = .tokWord ∨ l.type.isKeyword = true) :
    ∃ st', l.text.foldlM lexerPutchar st = .ok st' ∧ Scanning st' (ls ++ [l]) m' true ∧
      st'.lastC ≠ 0 := by
  obtain ⟨hne, htype, hsimple⟩ := hm.assigned hl
  obtain ⟨lexer, hconsume, _, _⟩ := h
  cases lexer with
  | clean hpend hm₀ =>
    obtain ⟨st', hgo, hpend', hsimple', hconsume', hlast⟩ :=
      putchar_word hpend hconsume (text_wordChars hm hl)
    have hchar := hlast hne
    have hnot : ∀ {d : UInt8}, isWordChar d = false → st'.lastC ≠ d :=
      fun hd => ne_of_isWordChar hchar hd
    rw [← hm₀, ← hsimple'] at htype hsimple
    refine ⟨st', hgo, ⟨.inWord hpend' hne htype hsimple, hconsume', ?_, ?_⟩, hnot (by decide)⟩
    · rintro (h | h) <;> exact absurd h (hnot (by decide))
    · rintro (h | h | h) <;> exact absurd h (hnot (by decide))

theorem Scanning.not_redirect (h : Scanning st ls m b) (hbegun : st.lastC ≠ 0)
    (hm : m ≠ .target) : strchr [chr '<', chr '>'] st.lastC = false := by
  have hnot : ¬ (st.lastC = chr '<' ∨ st.lastC = chr '>') := fun hlast => hm (h.redirect hlast)
  simpa [strchr, hbegun] using hnot

theorem Scanning.redirectSign (h : Scanning st ls m b) (hbegun : st.lastC ≠ 0)
    (hm : m ≠ .target) (ht : t.isRedirect = true) :
    ∃ st', t.text.foldlM lexerPutchar st = .ok st' ∧
      Scanning st' (ls ++ [.mark t]) .target false ∧ st'.lastC ≠ 0 := by
  obtain ⟨c, htext, hc, htype, hword⟩ : ∃ c, t.text = [c] ∧ (c = chr '>' ∨ c = chr '<') ∧
      assignedType false [c] = t ∧ t ≠ .tokWord := by
    cases t <;> simp [TokenType.isRedirect] at ht
    · exact ⟨chr '<', rfl, .inr rfl, by decide, by decide⟩
    · exact ⟨chr '>', rfl, .inl rfl, by decide, by decide⟩
  have hzero : c ≠ 0 := by rcases hc with rfl | rfl <;> decide
  have hblank : ¬ (c = chr ' ' ∨ c = chr '\t') := by rcases hc with rfl | rfl <;> decide
  obtain ⟨s₁, s₂, s₃, h₁, h₂, h₃, hpend, _⟩ := h.lexer.putSign htext htype hword hzero
  have hgo : lexerRedirect st c = .ok { s₃ with simpleCommand := true } := by
    rw [lexerRedirect, h.not_redirect hbegun hm, if_neg Bool.false_ne_true, h₁]
    simp only [bind, Except.bind, h₂, h₃]
  obtain ⟨st', hput, hlexer, hconsume, hlast⟩ : ∃ st', lexerPutchar st c = .ok st' ∧
      st'.lexer = { s₃ with simpleCommand := true } ∧ st'.consumeSwitch = false ∧
      st'.lastC = c := by
    rw [lexerPutchar_eq h.consume, lexerSwitch, if_neg hblank, if_pos hc, hgo]
    exact ⟨_, rfl, rfl, h.consume, rfl⟩
  refine ⟨st', ?_, ⟨?_, hconsume, fun _ => rfl, ?_⟩, hlast ▸ hzero⟩
  · rw [htext, List.foldlM_cons, hput]
    rfl
  · rw [hlexer]
    exact .clean (hpend.setSimple true) rfl
  · rw [hlast]
    rcases hc with rfl | rfl <;> rintro (h | h | h) <;> exact absurd h (by decide)

theorem Reading.delimiter {lastC : UInt8} (h : Reading s ls m b) (htext : t.text = [c])
    (htype : assignedType false [c] = t) (hword : t ≠ .tokWord) (hc : c ≠ 0)
    (hlast : strchr [chr '<', chr '>'] lastC = false) :
    ∃ s', lexerDelimiter lastC s c = .ok s' ∧ Partial s' (ls ++ [.mark t]) [] ∧
      s'.simpleCommand = false := by
  obtain ⟨s₁, s₂, s₃, h₁, h₂, h₃, hpend, hsimple⟩ := h.putSign htext htype hword hc
  refine ⟨s₃, ?_, hpend, hsimple⟩
  rw [lexerDelimiter, hlast, if_neg Bool.false_ne_true, h₁]
  simp only [bind, Except.bind, h₂, h₃]

theorem Scanning.delimiterSign (h : Scanning st ls m b) (hbegun : st.lastC ≠ 0)
    (hm : m ≠ .target) (ht : t.isDelimiter = true) :
    ∃ st', t.text.foldlM lexerPutchar st = .ok st' ∧
      Scanning st' (ls ++ [.mark t]) .command false ∧ st'.lastC ≠ 0 := by
  obtain ⟨c, htext, hc, htype, hword⟩ : ∃ c, t.text = [c] ∧
      (c = chr '|' ∨ c = chr ';' ∨ c = chr '(' ∨ c = chr ')') ∧
      assignedType false [c] = t ∧ t ≠ .tokWord := by
    cases t <;> simp [TokenType.isDelimiter] at ht
    · exact ⟨chr ';', rfl, by simp, by decide, by decide⟩
    · exact ⟨chr '|', rfl, by simp, by decide, by decide⟩
    · exact ⟨chr '(', rfl, by simp, by decide, by decide⟩
    · exact ⟨chr ')', rfl, by simp, by decide, by decide⟩
  have hzero : c ≠ 0 := by rcases hc with rfl | rfl | rfl | rfl <;> decide
  have hblank : ¬ (c = chr ' ' ∨ c = chr '\t') := by
    rcases hc with rfl | rfl | rfl | rfl <;> decide
  have hredirect : ¬ (c = chr '>' ∨ c = chr '<') := by
    rcases hc with rfl | rfl | rfl | rfl <;> decide
  have hnewline : ¬ c = chr '\n' := by rcases hc with rfl | rfl | rfl | rfl <;> decide
  obtain ⟨s', hgo, hpend, hsimple⟩ :=
    h.lexer.delimiter htext htype hword hzero (h.not_redirect hbegun hm)
  obtain ⟨st', hput, hlexer, hconsume, hlast⟩ : ∃ st', lexerPutchar st c = .ok st' ∧
      st'.lexer = s' ∧ st'.consumeSwitch = false ∧ st'.lastC = c := by
    rw [lexerPutchar_eq h.consume, lexerSwitch, if_neg hblank, if_neg hredirect, if_neg hnewline,
      if_pos hc, hgo]
    exact ⟨_, rfl, rfl, h.consume, rfl⟩
  refine ⟨st', ?_, ⟨?_, hconsume, ?_, ?_⟩, hlast ▸ hzero⟩
  · rw [htext, List.foldlM_cons, hput]
    rfl
  · rw [hlexer]
    exact .clean hpend hsimple
  · rw [hlast]
    rcases hc with rfl | rfl | rfl | rfl <;> rintro (h | h) <;> exact absurd h (by decide)
  · rw [hlast]
    intro hopen l hl
    obtain rfl : .mark t = l := by simpa using hl
    cases t <;> simp [TokenType.isDelimiter] at ht <;> simp [Lexeme.type]
    all_goals
      obtain rfl : chr _ = c := by simpa [TokenType.text, tokAssociations] using htext
      revert hopen
      decide

theorem Scanning.sign (h : Scanning st ls m b) (hbegun : st.lastC ≠ 0)
    (hm : Follows m (.mark t) m') (ht : t.isRedirect = true ∨ t.isDelimiter = true) :
    ∃ st', t.text.foldlM lexerPutchar st = .ok st' ∧
      Scanning st' (ls ++ [.mark t]) m' false ∧ st'.lastC ≠ 0 := by
  cases hm with
  | keyword hk =>
    cases t <;> simp [TokenType.isKeyword] at hk <;>
      simp [TokenType.isRedirect, TokenType.isDelimiter] at ht
  | redirect hr hm => exact h.redirectSign hbegun hm hr
  | delimiter hd hm => exact h.delimiterSign hbegun hm hd

theorem holds_of_forall₂ {tl : TokenList} {toks : List Token}
    (h : List.Forall₂ (fun tok l => tok.Spells tl l) toks ls) (pre : List Token)
    (htl : tl.tokens = pre ++ toks) : tl.Holds pre.length ls := by
  induction h generalizing pre with
  | nil => exact trivial
  | @cons tok l toks ls htok _ ih =>
    refine ⟨⟨tok, ?_, htok⟩, ?_⟩
    · rw [readToken, htl]
      simp
    · have hrest := ih (pre ++ [tok]) (by simp [htl])
      simpa using hrest

/-- The tokens spell what has been read. -/
theorem Partial.holds (h : Partial s ls pend) :
    s.tokenList.Holds 0 ls ∧ s.tokens.length = ls.length := by
  obtain ⟨base, hbuf, _, _, htokens⟩ := h.buffer
  refine ⟨holds_of_forall₂ (htokens.imp ?_) [] rfl, htokens.length_eq⟩
  intro tok l ⟨htype, htext⟩
  cases l with
  | word w =>
    refine ⟨htype, ?_⟩
    change cstring s.lexerbuf tok.offset = w
    rw [hbuf]
    exact (htext.append pend).cstring_eq
  | mark t => exact htype

theorem Scanning.newline (h : Scanning st ls m b) (hbegun : st.lastC ≠ 0) (hm : m ≠ .target)
    (hlast : ∃ xs l, ls = xs ++ [l] ∧ l.type.endsCommand = true)
    (hrise : rise Lexeme.nest ls = 0) :
    ∃ st', lexerPutchar st (chr '\n') = .ok st' ∧
      Scanning st' (ls ++ [.mark .tokNl]) .command false ∧ st'.lastC ≠ 0 := by
  obtain ⟨xs, l, rfl, hl⟩ := hlast
  have hredirect := h.not_redirect hbegun hm
  have hopen : strchr [chr '\n', chr '(', chr '|'] st.lastC = false := by
    have hnot : ¬ (st.lastC = chr '\n' ∨ st.lastC = chr '(' ∨ st.lastC = chr '|') := by
      intro hopening
      have htype := h.opening hopening l (by simp)
      cases ht : l.type <;> simp [ht, TokenType.endsCommand] at hl htype
    simpa [strchr, hbegun] using hnot
  obtain ⟨s₁, h₁, hp₁, _⟩ := (h.lexer.setLine (st.lexer.lineNum + 1)).flush
  have hp₁ := hp₁.setSimple false
  obtain ⟨hholds, hlen⟩ := hp₁.holds
  obtain ⟨tok, hread, htok⟩ := readBefore_holds (i := 0) hholds
  rw [Nat.zero_add, ← hlen] at hread
  have hreserved : isReserved tok.type = false := by
    rw [htok]
    cases ht : l.type <;> simp [ht, TokenType.endsCommand] at hl <;> rfl
  have hdepth : s₁.isCommand = 0 := hp₁.depth.trans hrise
  obtain ⟨s', hgo, hpend, hsimple⟩ :=
    (Reading.clean hp₁ (m := .command) rfl).delimiter (t := .tokNl) (c := chr '\n') rfl (by decide)
      (by decide) (by decide) hredirect
  have hnewline : lexerNewline st = .ok s' := by
    rw [lexerNewline, if_neg (by simp [hredirect]), h₁]
    simp only [bind, Except.bind, hopen, Bool.false_eq_true, if_false]
    rw [hread]
    simpa [hreserved, hdepth] using hgo
  obtain ⟨st', hput, hlexer, hconsume, hlast⟩ : ∃ st', lexerPutchar st (chr '\n') = .ok st' ∧
      st'.lexer = s' ∧ st'.consumeSwitch = false ∧ st'.lastC = chr '\n' := by
    rw [lexerPutchar_eq h.consume, lexerSwitch, if_neg (by decide), if_neg (by decide), if_pos rfl,
      hnewline]
    exact ⟨_, rfl, rfl, h.consume, rfl⟩
  refine ⟨st', hput, ⟨?_, hconsume, ?_, ?_⟩, hlast ▸ by decide⟩
  · rw [hlexer]
    exact .clean hpend hsimple
  · rw [hlast]
    rintro (h | h) <;> exact absurd h (by decide)
  · intro _ l hl
    obtain rfl : .mark .tokNl = l := by simpa using hl
    simp [Lexeme.type]

/-- The bytes of a line are read as the lexemes that they spell. -/
theorem scan_spells {bs : List UInt8} {pre : List Lexeme} (h : Spells b ls bs)
    (hst : Scanning st pre m b) (hbegun : st.lastC ≠ 0) (hls : Lexable m ls) :
    ∃ st' m' b', bs.foldlM lexerPutchar st = .ok st' ∧ Scanning st' (pre ++ ls) m' b' ∧
      st'.lastC ≠ 0 ∧ m' ≠ .target := by
  induction h generalizing st pre m with
  | nil b => exact ⟨st, m, b, rfl, by simpa using hst, hbegun, hls⟩
  | blank hc _ ih =>
    obtain ⟨st₁, hput, hst₁, hbegun₁⟩ := hst.blank hc
    obtain ⟨st', m', b', hgo, hst', hbegun', hm'⟩ := ih hst₁ hbegun₁ hls
    exact ⟨st', m', b', by rw [List.foldlM_cons, hput]; exact hgo, hst', hbegun', hm'⟩
  | @word ls bs w _ ih =>
    obtain ⟨m₁, hm₁, hrest⟩ := hls
    obtain ⟨st₁, hput, hst₁, hbegun₁⟩ := hst.word hm₁ (.inl rfl)
    obtain ⟨st', m', b', hgo, hst', hbegun', hm'⟩ := ih hst₁ hbegun₁ hrest
    refine ⟨st', m', b', ?_, by simpa using hst', hbegun', hm'⟩
    change w.foldlM lexerPutchar st = _ at hput
    rw [List.foldlM_append, hput]
    exact hgo
  | @keyword ls bs t ht _ ih =>
    obtain ⟨m₁, hm₁, hrest⟩ := hls
    obtain ⟨st₁, hput, hst₁, hbegun₁⟩ := hst.word hm₁ (.inr ht)
    obtain ⟨st', m', b', hgo, hst', hbegun', hm'⟩ := ih hst₁ hbegun₁ hrest
    refine ⟨st', m', b', ?_, by simpa using hst', hbegun', hm'⟩
    change t.text.foldlM lexerPutchar st = _ at hput
    rw [List.foldlM_append, hput]
    exact hgo
  | @sign b ls bs t ht _ ih =>
    obtain ⟨m₁, hm₁, hrest⟩ := hls
    obtain ⟨st₁, hput, hst₁, hbegun₁⟩ := hst.sign hbegun hm₁ ht
    obtain ⟨st', m', b', hgo, hst', hbegun', hm'⟩ := ih hst₁ hbegun₁ hrest
    refine ⟨st', m', b', ?_, by simpa using hst', hbegun', hm'⟩
    rw [List.foldlM_append, hput]
    exact hgo

end CS111.Shell
