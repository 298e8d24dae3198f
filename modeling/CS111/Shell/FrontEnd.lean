import Mathlib.Data.List.TakeWhile
import CS111.Shell.LexerReads
import CS111.Shell.ReadCommand

/-!
# One-line scripts through the whole front end

The lexer, the splitting into complete commands and the parser are put together. A script is
rejected if its first byte is a sign: `strchr("<>", last_c)` finds the initial NUL of `last_c`.
-/

namespace CS111.Shell

set_option autoImplicit false

variable {m m' : Mode} {ls rest s rs : List Lexeme} {l : Lexeme} {t : TokenType} {c : Command}
  {cs : List Command} {b : Bool} {bs script : List UInt8} {tl : TokenList} {start fuel : Nat}

/-! ## Renderings can be lexed -/

/-- `rest` can be lexed wherever no redirection target is missing. -/
def LexableRest (rest : List Lexeme) : Prop := ∀ m, m ≠ Mode.target → Lexable m rest

theorem lexableRest_nil : LexableRest [] := fun _ hm => hm

theorem lexableRest_delimiter (ht : t.isDelimiter = true) (h : Lexable .command rest) :
    LexableRest (.mark t :: rest) := fun _ hm => ⟨.command, .delimiter ht hm, h⟩

theorem lexable_keyword (ht : t.isKeyword = true) (h : Lexable .command rest) :
    Lexable .command (.mark t :: rest) := ⟨.command, .keyword ht, h⟩

theorem lexableRest_redirect {w : Word} (ht : t.isRedirect = true) (hw : ValidWord w)
    (h : LexableRest rest) : LexableRest (.mark t :: .word w :: rest) := fun _ hm =>
  ⟨.target, .redirect ht hm, .words, .word hw (by decide), h .words (by decide)⟩

theorem lexableRest_redirects {h : Header} (hrs : RendersRedirects h.input h.output rs)
    (hh : h.Printable) (hrest : LexableRest rest) : LexableRest (rs ++ rest) := by
  obtain ⟨status, input, output⟩ := h
  obtain ⟨hin, hout⟩ := hh
  cases hrs with
  | none => exact hrest
  | input i => exact lexableRest_redirect rfl (hin i rfl) hrest
  | output o => exact lexableRest_redirect rfl (hout o rfl) hrest
  | inputOutput i o =>
    exact lexableRest_redirect rfl (hin i rfl) (lexableRest_redirect rfl (hout o rfl) hrest)
  | outputInput i o =>
    exact lexableRest_redirect rfl (hout o rfl) (lexableRest_redirect rfl (hin i rfl) hrest)

theorem lexable_words {word : List Word} (hw : ∀ w ∈ word, ValidWord w) (hrest : LexableRest rest) :
    Lexable .words (word.map .word ++ rest) := by
  induction word with
  | nil => exact hrest .words (by decide)
  | cons w word ih =>
    exact ⟨.words, .word (hw w List.mem_cons_self) (by decide),
      ih fun v hv => hw v (List.mem_cons_of_mem w hv)⟩

theorem lexableRest_closer (hs : exactSeparators t s) (ht : t.isKeyword = true)
    (h : Lexable .command rest) : LexableRest (s ++ .mark t :: rest) := by
  have hne : t ≠ .tokRparen := by
    rintro rfl
    cases ht
  rw [exactSeparators, if_neg hne] at hs
  subst s
  exact lexableRest_delimiter rfl (lexable_keyword ht h)

theorem lexable_renders (h : Renders exactSeparators c ls) (hc : c.Printable)
    (hrest : LexableRest rest) : Lexable .command (ls ++ rest) := by
  induction h generalizing rest with
  | @simple h word rs hrs =>
    have htail := lexableRest_redirects hrs hc.1 hrest
    rw [List.append_assoc]
    cases word with
    | nil => exact htail .command (by decide)
    | cons w word =>
      exact ⟨.words, .commandWord (hc.2.1 w List.mem_cons_self) (hc.2.2 w rfl),
        lexable_words (fun v hv => hc.2.1 v (List.mem_cons_of_mem w hv)) htail⟩
  | sequence _ _ iha ihb =>
    rw [List.append_assoc]
    exact iha hc.1 (lexableRest_delimiter rfl (ihb hc.2 hrest))
  | pipe _ _ iha ihb =>
    rw [List.append_assoc]
    exact iha hc.1 (lexableRest_delimiter rfl (ihb hc.2 hrest))
  | @subshell h a xs s rs _ hs hrs ih =>
    obtain rfl : s = [] := hs
    have hbody := ih hc.2 (lexableRest_delimiter (t := .tokRparen) rfl
      (lexableRest_redirects hrs hc.1 hrest .command (by decide)))
    have hall := lexableRest_delimiter (t := .tokLparen) rfl hbody .command (by decide)
    simpa using hall
  | @loop k h a b xs ys s₁ s₂ rs _ hs₁ _ hs₂ hrs iha ihb =>
    have hend := lexableRest_closer hs₂ rfl
      (lexableRest_redirects hrs hc.1 hrest .command (by decide))
    have hmid := lexableRest_closer hs₁ rfl (ihb hc.2.2 hend)
    have hall := lexable_keyword (t := k.keyword) (by cases k <;> rfl) (iha hc.2.1 hmid)
    simpa using hall
  | @ifThen h a b xs ys s₁ s₂ rs _ hs₁ _ hs₂ hrs iha ihb =>
    have hend := lexableRest_closer hs₂ rfl
      (lexableRest_redirects hrs hc.1 hrest .command (by decide))
    have hmid := lexableRest_closer hs₁ rfl (ihb hc.2.2 hend)
    have hall := lexable_keyword (t := .tokIf) rfl (iha hc.2.1 hmid)
    simpa using hall
  | @ifElse h a b c xs ys zs s₁ s₂ s₃ rs _ hs₁ _ hs₂ _ hs₃ hrs iha ihb ihc =>
    have hend := lexableRest_closer hs₃ rfl
      (lexableRest_redirects hrs hc.1 hrest .command (by decide))
    have helse := lexableRest_closer hs₂ rfl (ihc hc.2.2.2 hend)
    have hmid := lexableRest_closer hs₁ rfl (ihb hc.2.2.1 helse)
    have hall := lexable_keyword (t := .tokIf) rfl (iha hc.2.1 hmid)
    simpa using hall

theorem Renders.lexable (h : Renders exactSeparators c ls) (hc : c.Printable) :
    Lexable .command ls := by
  simpa using lexable_renders h hc lexableRest_nil

theorem Lexable.ne_newline (h : Lexable m ls) (l : Lexeme) (hl : l ∈ ls) : l.type ≠ .tokNl := by
  induction ls generalizing m with
  | nil => cases hl
  | cons l' ls ih =>
    obtain ⟨m', hm', hrest⟩ := h
    rcases List.mem_cons.mp hl with rfl | hl
    · cases hm' with
      | commandWord | word => simp [Lexeme.type]
      | keyword ht => rintro rfl; cases ht
      | redirect ht => rintro rfl; cases ht
      | delimiter ht => rintro rfl; cases ht
    · exact ih hrest hl

/-! ## What the bytes of a line can be -/

theorem Spells.bytes (h : Spells b ls bs) (hls : Lexable m ls) :
    (∀ x ∈ bs, x ≠ 255) ∧ ls.length ≤ bs.length := by
  induction h generalizing m with
  | nil => simp
  | @blank _ _ _ c hc _ ih =>
    obtain ⟨hbytes, hlen⟩ := ih hls
    refine ⟨?_, by simpa using Nat.le_succ_of_le hlen⟩
    intro x hx
    rcases List.mem_cons.mp hx with rfl | hx
    · rintro rfl
      revert hc
      decide
    · exact hbytes x hx
  | @word ls bs w _ ih =>
    obtain ⟨m', hm', hrest⟩ := hls
    obtain ⟨hbytes, hlen⟩ := ih hrest
    have hpos := List.length_pos_iff.mpr (hm'.assigned (.inl rfl)).1
    change 0 < w.length at hpos
    refine ⟨?_, by simp; omega⟩
    intro x hx
    rcases List.mem_append.mp hx with hx | hx
    · exact ne_of_isWordChar (text_wordChars hm' (.inl rfl) x hx) (by decide)
    · exact hbytes x hx
  | @keyword ls bs t ht _ ih =>
    obtain ⟨m', hm', hrest⟩ := hls
    obtain ⟨hbytes, hlen⟩ := ih hrest
    have hpos := List.length_pos_iff.mpr (hm'.assigned (.inr ht)).1
    change 0 < t.text.length at hpos
    refine ⟨?_, by simp; omega⟩
    intro x hx
    rcases List.mem_append.mp hx with hx | hx
    · exact ne_of_isWordChar (text_wordChars hm' (.inr ht) x hx) (by decide)
    · exact hbytes x hx
  | @sign b ls bs t ht _ ih =>
    obtain ⟨m', hm', hrest⟩ := hls
    obtain ⟨hbytes, hlen⟩ := ih hrest
    have htext : t.text.all (fun x => decide (x ≠ 255)) = true ∧ 0 < t.text.length := by
      cases t <;> simp [TokenType.isRedirect, TokenType.isDelimiter] at ht <;> decide
    refine ⟨?_, by simp; omega⟩
    intro x hx
    rcases List.mem_append.mp hx with hx | hx
    · exact of_decide_eq_true (List.all_eq_true.mp htext.1 x hx)
    · exact hbytes x hx

/-- A normal tree starts with a word, a keyword or an opening parenthesis. -/
theorem Renders.head (h : Renders exactSeparators c ls) (hc : c.Normal) :
    ∃ l ls', ls = l :: ls' ∧
      (l.type = .tokWord ∨ l.type.isKeyword = true ∨ l = .mark .tokLparen) := by
  induction h with
  | @simple h word rs =>
    cases word with
    | nil => exact absurd rfl hc.2
    | cons w word => exact ⟨.word w, _, rfl, .inl rfl⟩
  | sequence _ _ iha =>
    obtain ⟨l, ls', rfl, hl⟩ := iha hc.2.1
    exact ⟨l, _, rfl, hl⟩
  | pipe _ _ iha =>
    obtain ⟨l, ls', rfl, hl⟩ := iha hc.2.1
    exact ⟨l, _, rfl, hl⟩
  | subshell => exact ⟨_, _, rfl, .inr (.inr rfl)⟩
  | @loop k => exact ⟨_, _, rfl, .inr (.inl (by cases k <;> rfl))⟩
  | ifThen => exact ⟨_, _, rfl, .inr (.inl rfl)⟩
  | ifElse => exact ⟨_, _, rfl, .inr (.inl rfl)⟩

/-! ## The lexer on a script -/

variable {st : LexerState} {pre : List Lexeme}

/-- As `scan_spells`, at the very beginning: there the first byte must not be a sign. -/
theorem scan_spells_first (h : Spells false ls bs) (hst : Scanning st pre m false)
    (hls : Lexable m ls) (hhead : ∃ l ls', ls = l :: ls' ∧
      (l.type = .tokWord ∨ l.type.isKeyword = true ∨ l = .mark .tokLparen))
    (hfirst : bs.head? ≠ some (chr '(')) :
    ∃ st' m' b', bs.foldlM lexerPutchar st = .ok st' ∧ Scanning st' (pre ++ ls) m' b' ∧
      st'.lastC ≠ 0 ∧ m' ≠ .target := by
  obtain ⟨l, ls', rfl, hl⟩ := hhead
  cases h with
  | blank hc hrest =>
    obtain ⟨st₁, hput, hst₁, hbegun₁⟩ := hst.blank hc
    obtain ⟨st', m', b', hgo, hst'⟩ := scan_spells hrest hst₁ hbegun₁ hls
    exact ⟨st', m', b', by rw [List.foldlM_cons, hput]; exact hgo, hst'⟩
  | @word _ bs w hrest =>
    obtain ⟨m₁, hm₁, hls'⟩ := hls
    obtain ⟨st₁, hput, hst₁, hbegun₁⟩ := hst.word hm₁ (.inl rfl)
    obtain ⟨st', m', b', hgo, hst'⟩ := scan_spells hrest hst₁ hbegun₁ hls'
    change w.foldlM lexerPutchar st = _ at hput
    refine ⟨st', m', b', ?_, by simpa using hst'⟩
    rw [List.foldlM_append, hput]
    exact hgo
  | @keyword _ bs t ht hrest =>
    obtain ⟨m₁, hm₁, hls'⟩ := hls
    obtain ⟨st₁, hput, hst₁, hbegun₁⟩ := hst.word hm₁ (.inr ht)
    obtain ⟨st', m', b', hgo, hst'⟩ := scan_spells hrest hst₁ hbegun₁ hls'
    change t.text.foldlM lexerPutchar st = _ at hput
    refine ⟨st', m', b', ?_, by simpa using hst'⟩
    rw [List.foldlM_append, hput]
    exact hgo
  | @sign _ _ bs t ht hrest =>
    rcases hl with hl | hl | hl
    · cases t <;> simp [TokenType.isRedirect, TokenType.isDelimiter] at ht <;> cases hl
    · cases t <;> simp [TokenType.isRedirect, TokenType.isDelimiter] at ht <;> cases hl
    · cases hl
      exact absurd rfl hfirst

/-- The lexemes of a script: every line ends in a newline token. -/
def scriptLexemes (lss : List (List Lexeme)) : List Lexeme :=
  lss.flatMap fun ls => ls ++ [.mark .tokNl]

theorem scan_prints (h : Prints cs script) (hcs : ∀ c ∈ cs, c.Normal ∧ c.Printable)
    (hst : Scanning st pre .command false) (hrise : rise Lexeme.nest pre = 0)
    (hfirst : st.lastC ≠ 0 ∨ script.head? ≠ some (chr '(')) :
    ∃ st' lss, script.foldlM lexerPutchar st = .ok st' ∧
      Scanning st' (pre ++ scriptLexemes lss) .command false ∧
      List.Forall₂ (Renders exactSeparators) cs lss ∧ (∀ x ∈ script, x ≠ 255) ∧
      (∀ ls ∈ lss, ls.length ≤ script.length) := by
  induction h generalizing st pre with
  | nil => exact ⟨st, [], rfl, by simpa [scriptLexemes] using hst, .nil, by simp, by simp⟩
  | @line c cs ls bs rest hr hspell _ ih =>
    obtain ⟨hnormal, hprint⟩ := hcs c List.mem_cons_self
    have hlex := hr.lexable hprint
    obtain ⟨hbytes, hlen⟩ := hspell.bytes hlex
    obtain ⟨st₁, m₁, b₁, hgo₁, hst₁, hbegun₁, hm₁⟩ : ∃ st' m' b',
        bs.foldlM lexerPutchar st = .ok st' ∧ Scanning st' (pre ++ ls) m' b' ∧ st'.lastC ≠ 0 ∧
        m' ≠ .target := by
      rcases hfirst with hbegun | hfirst
      · exact scan_spells hspell hst hbegun hlex
      · refine scan_spells_first hspell hst hlex (hr.head hnormal) ?_
        cases bs with
        | nil => simp
        | cons x bs => simpa using hfirst
    have hzero : rise Lexeme.nest (pre ++ ls) = 0 := by
      rw [rise_append, hrise, (hr.level looseSeparators_of_exact (.inl rfl)).rise_eq]
      rfl
    obtain ⟨zs, l, hls, hl⟩ := hr.exists_last hnormal
    obtain ⟨st₂, hput₂, hst₂, hbegun₂⟩ :=
      hst₁.newline hbegun₁ hm₁ ⟨pre ++ zs, l, by simp [hls], hl⟩ hzero
    have hzero₂ : rise Lexeme.nest (pre ++ ls ++ [.mark .tokNl]) = 0 := by
      rw [rise_append, hzero]
      rfl
    obtain ⟨st', lss, hgo, hst', hrenders, hrest, hlens⟩ :=
      ih (fun d hd => hcs d (List.mem_cons_of_mem c hd)) hst₂ hzero₂ (.inl hbegun₂)
    refine ⟨st', ls :: lss, ?_, by simpa [scriptLexemes] using hst', .cons hr hrenders, ?_, ?_⟩
    · rw [List.foldlM_append, hgo₁]
      simp only [bind, Except.bind, List.foldlM_cons, hput₂, hgo]
    · intro x hx
      rcases List.mem_append.mp hx with hx | hx
      · exact hbytes x hx
      · rcases List.mem_cons.mp hx with rfl | hx
        · decide
        · exact hrest x hx
    · intro zs hzs
      rcases List.mem_cons.mp hzs with rfl | hzs
      · simp
        omega
      · have := hlens zs hzs
        simp
        omega

/-- At the end of the file the lexer is given a NUL. -/
theorem putchar_nul (h : Scanning st ls m false) :
    ∃ st', lexerPutchar st 0 = .ok st' ∧ st'.lexer = st.lexer := by
  rw [lexerPutchar_eq h.consume, lexerSwitch, if_neg (by decide), if_neg (by decide),
    if_neg (by decide), if_neg (by decide), if_neg (by decide), if_pos (by decide),
    h.lexer.finished.nul]
  exact ⟨_, rfl, rfl⟩

theorem lexScript_prints (h : Prints cs script) (hcs : ∀ c ∈ cs, c.Normal ∧ c.Printable)
    (hfirst : script.head? ≠ some (chr '(')) :
    ∃ tl lss, lexScript script = .ok tl ∧ tl.Holds 0 (scriptLexemes lss) ∧
      tl.numTokens = (scriptLexemes lss).length ∧
      List.Forall₂ (Renders exactSeparators) cs lss ∧ ∀ ls ∈ lss, ls.length ≤ script.length := by
  obtain ⟨st, lss, hgo, hst, hrenders, hbytes, hlens⟩ :=
    scan_prints h hcs scanning_init rfl (.inr hfirst)
  obtain ⟨st', hnul, hlexer⟩ := putchar_nul hst
  have hscript : script.takeWhile (fun x => x ≠ 255) = script := by
    rw [List.takeWhile_eq_self_iff]
    simpa using hbytes
  have hlex : lexScript script = .ok st.lexer.tokenList := by
    rw [lexScript, hscript, hgo]
    simp only [bind, Except.bind, hnul, hlexer]
  obtain ⟨hholds, hlen⟩ := hst.lexer.finished.holds
  exact ⟨_, lss, hlex, by simpa using hholds, hlen, hrenders, hlens⟩

/-! ## The complete commands -/

theorem scanNewline_holds (h : tl.Holds start (ls ++ .mark .tokNl :: rest))
    (hls : ∀ l ∈ ls, l.type ≠ .tokNl) (n : Nat) :
    scanNewline tl (ls.length + n + 1) start = .ok (start + ls.length) := by
  induction ls generalizing start with
  | nil =>
    obtain ⟨⟨tok, hread, htok⟩, _⟩ := h
    have htype : tok.type = .tokNl := htok
    simp [scanNewline, hread, bind, Except.bind, htype]
  | cons l ls ih =>
    obtain ⟨⟨tok, hread, htok⟩, hrest⟩ := h
    have hne : tok.type ≠ .tokNl := by
      rw [type_of_spells htok]
      exact hls l List.mem_cons_self
    have hgo := ih hrest fun l' hl' => hls l' (List.mem_cons_of_mem l hl')
    rw [List.length_cons, Nat.add_right_comm ls.length, scanNewline, hread]
    simp only [bind, Except.bind, if_neg hne, hgo]
    congr 1
    omega

theorem readCommands_holds {lss : List (List Lexeme)}
    (h : List.Forall₂ (Renders exactSeparators) cs lss)
    (hcs : ∀ c ∈ cs, c.Normal ∧ c.Printable) (hne : cs ≠ []) (n : Nat) (hn : cs.length ≤ n)
    (hholds : tl.Holds start (scriptLexemes lss))
    (hcount : tl.numTokens = start + (scriptLexemes lss).length)
    (hfuel : ∀ ls ∈ lss, ls.length ≤ fuel) : readCommands fuel tl n start = .ok cs := by
  induction h generalizing start n with
  | nil => exact absurd rfl hne
  | @cons c ls cs lss hr hrest ih =>
    obtain ⟨hnormal, hprint⟩ := hcs c List.mem_cons_self
    cases n with
    | zero => simp at hn
    | succ n =>
      have hsplit : scriptLexemes (ls :: lss) = ls ++ .mark .tokNl :: scriptLexemes lss := by
        simp [scriptLexemes]
      rw [hsplit] at hholds hcount
      simp only [List.length_append, List.length_cons] at hcount
      have hleft : tl.numTokens - start = ls.length + (scriptLexemes lss).length + 1 := by omega
      have hscan := scanNewline_holds hholds (hr.lexable hprint).ne_newline
        (scriptLexemes lss).length
      obtain ⟨hls, hnl⟩ := holds_append.mp hholds
      obtain ⟨zs, l, hlast, hl⟩ := hr.exists_last hnormal
      obtain ⟨tok, hread, htok⟩ := readBefore_holds (hlast ▸ hls)
      rw [← hlast] at hread
      have hsc : tok.type ≠ .tokSc := by
        intro h
        rw [← htok, h] at hl
        cases hl
      have hparse := parses_renders looseSeparators_of_exact hr hnormal fuel start
        (hfuel ls List.mem_cons_self) hls (stops_of_holds_mark hnl (by decide))
      rw [readCommands, hleft, hscan]
      simp only [bind, Except.bind, hread, if_neg hsc, hparse]
      cases hrest with
      | nil =>
        have hdone : tl.numTokens - 1 ≤ start + ls.length + 1 := by
          simp [scriptLexemes] at hcount
          omega
        rw [if_pos hdone]
      | @cons c' ls' cs lss hr' hrest' =>
        have hpos : 0 < ls'.length := List.length_pos_iff.mpr
          (hr'.ne_nil (hcs c' (by simp)).1)
        have hmore : ¬ tl.numTokens - 1 ≤ start + ls.length + 1 := by
          simp [scriptLexemes] at hcount
          omega
        have hgo := ih (fun d hd => hcs d (List.mem_cons_of_mem c hd)) (by simp) n
          (by simpa using hn) hnl.2 (by omega) fun zs hzs => hfuel zs (List.mem_cons_of_mem ls hzs)
        rw [if_neg hmore, hgo]

theorem readResults_eq (n i : Nat) :
    readResults n (some ⟨cs, i⟩) = (List.range n).map fun k => cs[i + k]? := by
  induction n generalizing i with
  | zero => rfl
  | succ n ih =>
    rw [List.range_succ_eq_map, List.map_cons, List.map_map, readResults]
    cases hc : cs[i]? with
    | none =>
      have hnone : ∀ k, cs[i + k]? = none := by
        intro k
        rw [List.getElem?_eq_none_iff] at hc ⊢
        omega
      simp [readCommandStream, hc, ih, hnone, Function.comp_def]
    | some c =>
      simp only [readCommandStream, hc, ih]
      congr 1
      apply List.map_congr_left
      intro k _
      change cs[i + 1 + k]? = cs[i + (k + 1)]?
      congr 1
      omega

/-- The script is accepted, and the successive calls of `read_command_stream` return the trees. -/
def Yields (fuel : Nat) (script : List UInt8) (cs : List Command) : Prop :=
  ∃ s, makeCommandStream fuel script = .ok (some s) ∧
    ∀ n, readResults n (some s) = (List.range n).map fun k => cs[k]?

theorem yields_of_prints (h : Prints cs script) (hcs : ∀ c ∈ cs, c.Normal ∧ c.Printable)
    (hne : cs ≠ []) (hfirst : script.head? ≠ some (chr '(')) (hfuel : script.length ≤ fuel) :
    Yields fuel script cs := by
  obtain ⟨tl, lss, hlex, hholds, hcount, hrenders, hlens⟩ := lexScript_prints h hcs hfirst
  have hlines : cs.length ≤ (scriptLexemes lss).length := by
    rw [hrenders.length_eq]
    clear hholds hcount hlens hrenders
    induction lss with
    | nil => simp
    | cons ls lss ih =>
      simp only [scriptLexemes, List.flatMap_cons, List.length_append, List.length_cons] at ih ⊢
      omega
  have hpos : 0 < cs.length := List.length_pos_iff.mpr hne
  have hread := readCommands_holds hrenders hcs hne tl.numTokens (by omega) hholds (by simpa using hcount)
    fun ls hls => Nat.le_trans (hlens ls hls) hfuel
  refine ⟨⟨cs, 0⟩, ?_, fun n => by simpa using readResults_eq n 0⟩
  have hsome : ¬ tl.numTokens = 0 := by omega
  rw [makeCommandStream, hlex]
  simp only [bind, Except.bind, if_neg hsome, hread]

/-- The first byte of a script is never accepted if it is an opening parenthesis. -/
theorem makeCommandStream_paren (hfirst : script.head? = some (chr '(')) :
    makeCommandStream fuel script = .error (.syntaxError 1 "Unexpected `('") := by
  cases script with
  | nil => cases hfirst
  | cons x script =>
    obtain rfl : x = chr '(' := by simpa using hfirst
    have hput : lexerPutchar lexerInit (chr '(') = .error (.syntaxError 1 "Unexpected `('") := rfl
    rw [makeCommandStream, lexScript, List.takeWhile_cons_of_pos (by decide), List.foldlM_cons, hput]
    rfl

/-- A script with one line for each tree yields these trees exactly if it does not begin with an
opening parenthesis. -/
theorem one_line_script_yields_iff {cs : List Command} {script : List UInt8} {fuel : Nat}
    (hne : cs ≠ []) (hcs : ∀ c ∈ cs, c.Normal ∧ c.Printable) (h : Prints cs script)
    (hfuel : script.length ≤ fuel) :
    Yields fuel script cs ↔ script.head? ≠ some (chr '(') := by
  constructor
  · rintro ⟨s, hs, _⟩ hfirst
    rw [makeCommandStream_paren hfirst] at hs
    cases hs
  · intro hfirst
    exact yields_of_prints h hcs hne hfirst hfuel

/-- The line `a <b`. -/
theorem one_line_script_yields_iff_simple :
    Yields 5 [97, 32, 60, 98, 10] [.simple ⟨-1, some [98], none⟩ [[97]]] :=
  have hrender : Renders exactSeparators (.simple ⟨-1, some [98], none⟩ [[97]])
      [.word [97], .mark .tokLab, .word [98]] := .simple (.input [98])
  have hspell : Spells false [.word [97], .mark .tokLab, .word [98]] [97, 32, 60, 98] :=
    .word (w := [97]) (.blank rfl (.sign (t := .tokLab) (.inl rfl) (.word (w := [98]) (.nil true))))
  have hprints : Prints [.simple ⟨-1, some [98], none⟩ [[97]]] [97, 32, 60, 98, 10] :=
    .line hrender hspell .nil
  have hword : ∀ x : UInt8, x ∈ [97, 98] → ValidWord [x] := by
    intro x hx
    refine ⟨by simp, ?_⟩
    simp only [List.mem_cons, List.not_mem_nil, or_false] at hx
    rcases hx with rfl | rfl <;> exact List.all_eq_true.mp (by decide)
  have hcs : ∀ c ∈ [Command.simple ⟨-1, some [98], none⟩ [[97]]], c.Normal ∧ c.Printable := by
    intro c hc
    obtain rfl := List.mem_singleton.mp hc
    refine ⟨⟨rfl, by simp⟩, ⟨?_, by simp⟩, ?_, ?_⟩
    · intro w hw
      obtain rfl : [98] = w := by simpa using hw
      exact hword 98 (by simp)
    · intro w hw
      obtain rfl := List.mem_singleton.mp hw
      exact hword 97 (by simp)
    · intro w hw
      obtain rfl : [97] = w := by simpa using hw
      decide
  (one_line_script_yields_iff (by simp) hcs hprints (by decide)).mpr (by decide)

/-- The line `(a)` is rejected. -/
theorem one_line_script_rejected : ∃ (cs : List Command) (script : List UInt8), cs ≠ [] ∧
    (∀ c ∈ cs, c.Normal ∧ c.Printable) ∧ Prints cs script ∧
    ∀ fuel, makeCommandStream fuel script = .error (.syntaxError 1 "Unexpected `('") := by
  refine ⟨[.subshell .fresh (.simple .fresh [[97]])], [40, 97, 41, 10], by simp, ?_, ?_, ?_⟩
  · intro c hc
    obtain rfl := List.mem_singleton.mp hc
    refine ⟨⟨rfl, rfl, by simp⟩, ⟨by simp [Header.fresh], by simp [Header.fresh]⟩,
      ⟨by simp [Header.fresh], by simp [Header.fresh]⟩, ?_, ?_⟩
    · intro w hw
      obtain rfl := List.mem_singleton.mp hw
      exact ⟨by simp, List.all_eq_true.mp (by decide)⟩
    · intro w hw
      obtain rfl : [97] = w := by simpa using hw
      decide
  · have hbody : Renders exactSeparators (.simple .fresh [[97]]) [.word [97]] := .simple .none
    have hrender : Renders exactSeparators (.subshell .fresh (.simple .fresh [[97]]))
        [.mark .tokLparen, .word [97], .mark .tokRparen] := .subshell (s := []) hbody rfl .none
    have hspell : Spells false [.mark .tokLparen, .word [97], .mark .tokRparen] [40, 97, 41] :=
      .sign (t := .tokLparen) (.inr rfl) (.word (w := [97]) (.sign (t := .tokRparen) (.inr rfl)
        (.nil false)))
    exact .line hrender hspell .nil
  · exact fun _ => rfl

end CS111.Shell
