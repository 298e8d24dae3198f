import CS111.Shell.LexemeScanner
import CS111.Shell.Scanning

/-!
# Steps of the scanner

What the scanner does with each kind of character, and what holds of it between two of them.
-/

namespace CS111.Shell

set_option autoImplicit false

open Fallible

namespace Scanner

/-- The character has been read. -/
def after (a : Scanner) (c : UInt8) : Scanner :=
  { a with
    lastSpecial := if strchr [chr ' ', chr '\t', chr '\n'] c then a.lastSpecial else c
    lastC := c }

/-- A lexeme that is no word. -/
def emit (a : Scanner) (t : TokenType) : Scanner :=
  { a with lexemes := a.flush.lexemes ++ [.mark t], pending := [], simple := false }

/-- What a newline finds. -/
def atLineEnd (a : Scanner) : Scanner := ({ a with inComment := false } : Scanner).flush.setSimple false

/-- The last token wants no newline, or a `;` stands for it. -/
def Swallowed (a : Scanner) : Prop :=
  ∃ last, a.atLineEnd.lexemes.getLast? = some last ∧ a.atLineEnd.swallows last

/-- The newline leaves no token. -/
def Drops (a : Scanner) : Prop := a.runsOn = true ∨ a.Swallowed

/-- A comment may begin behind the last character. -/
def mayComment (a : Scanner) : Bool :=
  strchr [chr ' ', chr '\t', chr '\n', chr ';', chr '|', chr '(', chr ')'] a.lastC

inductive Reads : Scanner → UInt8 → Scanner → Prop
  | skip {a : Scanner} {c : UInt8} : a.inComment = true → c ≠ chr '\n' → Reads a c a
  | blank {a : Scanner} {c : UInt8} :
      a.inComment = false → isBlank c = true → Reads a c (a.flush.after c)
  | nul {a : Scanner} : a.inComment = false → Reads a 0 (a.flush.after 0)
  | redirect {a : Scanner} {c : UInt8} {t : TokenType} :
      a.inComment = false → t.isRedirect = true → t.text = [c] → a.afterRedirect = false →
      Reads a c (((a.emit t).setSimple true).after c)
  | delimiter {a : Scanner} {c : UInt8} {t : TokenType} :
      a.inComment = false → t.isDelimiter = true → t.text = [c] → a.afterRedirect = false →
      Reads a c ((a.emit t).after c)
  | comment {a : Scanner} :
      a.inComment = false → a.mayComment = true →
      Reads a (chr '#') (({ a with simple := false, inComment := true } : Scanner).after (chr '#'))
  | word {a : Scanner} {c : UInt8} :
      a.inComment = false → isWordChar c = true → Reads a c ((a.put c).after c)
  | dropped {a : Scanner} :
      (a.afterRedirect = true → a.lastC = 0) → a.Drops →
      Reads a (chr '\n') (a.atLineEnd.after (chr '\n'))
  | separator {a : Scanner} :
      (a.afterRedirect = true → a.lastC = 0) → ¬ a.Drops → a.atLineEnd.lexemes ≠ [] →
      0 < a.atLineEnd.depth → Reads a (chr '\n') ((a.atLineEnd.emit .tokSc).after (chr '\n'))
  | ended {a : Scanner} :
      ¬ a.Drops → a.atLineEnd.lexemes ≠ [] → a.atLineEnd.depth ≤ 0 → a.afterRedirect = false →
      Reads a (chr '\n') ((a.atLineEnd.emit .tokNl).after (chr '\n'))

variable {a b : Scanner} {c : UInt8} {t : TokenType}

theorem flush_pending (a : Scanner) : a.flush.pending = [] := by
  unfold flush
  split
  · next h => exact h
  · rfl

theorem flush_of_nil (h : a.pending = []) : a.flush = a := if_pos h

theorem flush_flush (a : Scanner) : a.flush.flush = a.flush := flush_of_nil a.flush_pending

theorem put_flush (ht : Lexeme.read false [c] = .mark t) (hword : t ≠ .tokWord) (h : a.pending = [])
    (hsimple : a.simple = false) :
    (a.put c).flush = { a with lexemes := a.lexemes ++ [.mark t], pending := [], simple := false } := by
  have hpending : (a.put c).pending = [c] := by simp [put, h]
  unfold flush
  rw [hpending, if_neg (List.cons_ne_nil c [])]
  simp [put, hsimple, ht, Lexeme.type, hword]

theorem sign_eq_emit (ht : Lexeme.read false [c] = .mark t) (hword : t ≠ .tokWord) :
    a.sign c = a.emit t := by
  have hkeeps := a.keeps_flush
  have hpending : (a.flush.setSimple false).pending = [] := a.flush_pending
  rw [sign, put_flush ht hword hpending rfl, emit]
  simp only [setSimple, hkeeps.inComment, hkeeps.lastC, hkeeps.lastSpecial]

theorem delimiter_text (hc : c = chr '|' ∨ c = chr ';' ∨ c = chr '(' ∨ c = chr ')') :
    ∃ t : TokenType, t.isDelimiter = true ∧ t.text = [c] ∧ Lexeme.read false [c] = .mark t ∧
      t ≠ .tokWord := by
  rcases hc with rfl | rfl | rfl | rfl
  · exact ⟨.tokPipe, rfl, rfl, by decide, by decide⟩
  · exact ⟨.tokSc, rfl, rfl, by decide, by decide⟩
  · exact ⟨.tokLparen, rfl, rfl, by decide, by decide⟩
  · exact ⟨.tokRparen, rfl, rfl, by decide, by decide⟩

theorem redirect_text (hc : c = chr '>' ∨ c = chr '<') :
    ∃ t : TokenType, t.isRedirect = true ∧ t.text = [c] ∧ Lexeme.read false [c] = .mark t ∧
      t ≠ .tokWord := by
  rcases hc with rfl | rfl
  · exact ⟨.tokRab, rfl, rfl, by decide, by decide⟩
  · exact ⟨.tokLab, rfl, rfl, by decide, by decide⟩

theorem put_semicolon (h : a.pending = []) (hsimple : a.simple = false) :
    (a.put (chr ';')).flush = a.emit .tokSc := by
  rw [put_flush (t := .tokSc) (by decide) (by decide) h hsimple, emit, flush_of_nil h]

theorem delimiter_eq_ok_iff (ht : Lexeme.read false [c] = .mark t) (hword : t ≠ .tokWord) :
    a.delimiter c = .ok b ↔ a.afterRedirect = false ∧ b = a.emit t := by
  unfold delimiter
  rw [sign_eq_emit ht hword]
  cases hafter : a.afterRedirect with
  | true => simp
  | false => simp [eq_comm]

/-- The state at the end of the line, where the code has a copy of `a` that is not in a comment. -/
theorem newline_eq (a : Scanner) : ({ a with inComment := false } : Scanner).newline =
    if a.afterRedirect = true ∧ a.lastC ≠ 0 then .error .syntaxError
    else if a.runsOn = true then .ok a.atLineEnd
    else a.atLineEnd.lexemes.getLast?.elim (.error .noToken) fun last =>
      if a.atLineEnd.swallows last then .ok a.atLineEnd
      else if 0 < a.atLineEnd.depth then .ok (a.atLineEnd.put (chr ';')).flush
      else a.atLineEnd.delimiter (chr '\n') := by
  unfold newline
  cases hget : a.atLineEnd.lexemes.getLast? with
  | none =>
    unfold atLineEnd at hget
    simp only [hget]
    rfl
  | some last =>
    unfold atLineEnd at hget
    simp only [hget]
    rfl

theorem newline_eq_ok_iff : ({ a with inComment := false } : Scanner).newline = .ok b ↔
    (a.afterRedirect = true → a.lastC = 0) ∧
      (a.Drops ∧ b = a.atLineEnd ∨
        ¬ a.Drops ∧ a.atLineEnd.lexemes ≠ [] ∧
          (0 < a.atLineEnd.depth ∧ b = a.atLineEnd.emit .tokSc ∨
            a.atLineEnd.depth ≤ 0 ∧ a.afterRedirect = false ∧ b = a.atLineEnd.emit .tokNl)) := by
  have hpending : a.atLineEnd.pending = [] := flush_pending _
  have hlast : a.atLineEnd.afterRedirect = a.afterRedirect := by
    unfold atLineEnd afterRedirect setSimple
    rw [flush_lastC]
  have hcode := newline_eq a
  rw [hcode]
  by_cases hredirect : a.afterRedirect = true ∧ a.lastC ≠ 0
  · rw [if_pos hredirect]
    constructor
    · intro h
      cases h
    · rintro ⟨hzero, _⟩
      exact absurd (hzero hredirect.1) hredirect.2
  have hzero : a.afterRedirect = true → a.lastC = 0 := by
    intro h
    by_contra hne
    exact hredirect ⟨h, hne⟩
  rw [if_neg hredirect, and_iff_right hzero]
  by_cases hruns : a.runsOn = true
  · have hdrops : a.Drops := .inl hruns
    rw [if_pos hruns, Except.ok.injEq]
    simp only [hdrops, true_and, not_true_eq_false, false_and, or_false]
    exact eq_comm
  rw [if_neg hruns]
  cases hget : a.atLineEnd.lexemes.getLast? with
  | none =>
    have hnil : a.atLineEnd.lexemes = [] := List.getLast?_eq_none_iff.mp hget
    have hdrops : ¬ a.Drops := by
      rintro (h | ⟨last, h, _⟩)
      · exact hruns h
      · rw [hget] at h
        cases h
    simp [hnil, hdrops]
  | some last =>
    have hne : a.atLineEnd.lexemes ≠ [] := by
      intro hnil
      rw [hnil] at hget
      cases hget
    rw [Option.elim_some]
    by_cases hswallow : a.atLineEnd.swallows last
    · have hdrops : a.Drops := .inr ⟨last, hget, hswallow⟩
      rw [if_pos hswallow, Except.ok.injEq]
      simp only [hdrops, true_and, not_true_eq_false, false_and, or_false]
      exact eq_comm
    · have hdrops : ¬ a.Drops := by
        rintro (h | ⟨last', h, hs⟩)
        · exact hruns h
        · rw [hget] at h
          cases h
          exact hswallow hs
      rw [if_neg hswallow]
      by_cases hdeep : 0 < a.atLineEnd.depth
      · rw [if_pos hdeep, put_semicolon hpending rfl, Except.ok.injEq]
        simp only [hdrops, hne, hdeep, Int.not_le.mpr hdeep, false_and, not_false_eq_true, ne_eq,
          true_and, false_or, or_false]
        exact eq_comm
      · rw [if_neg hdeep, delimiter_eq_ok_iff (t := .tokNl) (by decide) (by decide), hlast]
        simp [hdrops, hne, hdeep, Int.not_lt.mp hdeep]

theorem isDelimiter_text (ht : t.isDelimiter = true) (htext : t.text = [c]) :
    (c = chr '|' ∨ c = chr ';' ∨ c = chr '(' ∨ c = chr ')') ∧ Lexeme.read false [c] = .mark t := by
  cases t <;> simp [TokenType.isDelimiter] at ht
  all_goals
    obtain rfl := (List.cons.inj htext).1
    exact ⟨by decide, by decide⟩

theorem isRedirect_text (ht : t.isRedirect = true) (htext : t.text = [c]) :
    (c = chr '>' ∨ c = chr '<') ∧ Lexeme.read false [c] = .mark t := by
  cases t <;> simp [TokenType.isRedirect] at ht
  all_goals
    obtain rfl := (List.cons.inj htext).1
    exact ⟨by decide, by decide⟩

theorem isWordChar_iff : isalnum c = true ∨ strchr wordPunctuation c = true ↔
    c = 0 ∨ isWordChar c = true := by
  simp only [strchr, isWordChar, Bool.decide_or, Bool.or_eq_true, decide_eq_true_eq]
  tauto

theorem isWordChar_not_special (hc : isWordChar c = true) :
    ¬ (c = chr ' ' ∨ c = chr '\t') ∧ ¬ (c = chr '>' ∨ c = chr '<') ∧ c ≠ chr '\n' ∧
      ¬ (c = chr '|' ∨ c = chr ';' ∨ c = chr '(' ∨ c = chr ')') ∧ c ≠ chr '#' ∧ c ≠ 0 := by
  have hne : ∀ {d : UInt8}, isWordChar d = false → c ≠ d := fun hd => ne_of_isWordChar hc hd
  refine ⟨?_, ?_, hne (by decide), ?_, hne (by decide), hne (by decide)⟩
  · rintro (h | h) <;> exact hne (by decide) h
  · rintro (h | h) <;> exact hne (by decide) h
  · rintro (h | h | h | h) <;> exact hne (by decide) h

/-- The branches of `switch`. -/
theorem switch_eq_ok_iff : a.switch c = .ok b ↔
    isBlank c = true ∧ b = a.flush ∨
      (∃ t : TokenType, t.isRedirect = true ∧ t.text = [c] ∧ a.afterRedirect = false ∧
        b = (a.emit t).setSimple true) ∨
      c = chr '\n' ∧ a.newline = .ok b ∨
      (∃ t : TokenType, t.isDelimiter = true ∧ t.text = [c] ∧ a.afterRedirect = false ∧
        b = a.emit t) ∨
      c = chr '#' ∧ a.mayComment = true ∧ b = { a with simple := false, inComment := true } ∨
      c = 0 ∧ b = a.flush ∨
      isWordChar c = true ∧ b = a.put c := by
  constructor
  · intro h
    unfold switch at h
    split at h
    · next hblank =>
      cases h
      exact .inl ⟨by simpa [isBlank] using hblank, rfl⟩
    · split at h
      · next hredirect =>
        obtain ⟨t, ht, htext, hread, hword⟩ := redirect_text hredirect
        rw [sign_eq_emit hread hword] at h
        split at h
        · cases h
        · next hafter =>
          cases h
          exact .inr (.inl ⟨t, ht, htext, Bool.eq_false_iff.mpr hafter, rfl⟩)
      · split at h
        · next hnewline => exact .inr (.inr (.inl ⟨hnewline, h⟩))
        · split at h
          · next hdelimiter =>
            obtain ⟨t, ht, htext, hread, hword⟩ := delimiter_text hdelimiter
            obtain ⟨hafter, hb⟩ := (delimiter_eq_ok_iff hread hword).mp h
            exact .inr (.inr (.inr (.inl ⟨t, ht, htext, hafter, hb⟩)))
          · split at h
            · next hcomment =>
              split at h
              · next hmay =>
                cases h
                exact .inr (.inr (.inr (.inr (.inl ⟨hcomment, hmay, rfl⟩))))
              · cases h
            · split at h
              · next hword =>
                cases h
                rcases isWordChar_iff.mp hword with rfl | hchar
                · exact .inr (.inr (.inr (.inr (.inr (.inl ⟨rfl, rfl⟩)))))
                · have hzero := (isWordChar_not_special hchar).2.2.2.2.2
                  rw [if_neg hzero]
                  exact .inr (.inr (.inr (.inr (.inr (.inr ⟨hchar, rfl⟩)))))
              · cases h
  · rintro (⟨hblank, rfl⟩ | ⟨t, ht, htext, hafter, rfl⟩ | ⟨rfl, h⟩ | ⟨t, ht, htext, hafter, rfl⟩ |
      ⟨rfl, hmay, rfl⟩ | ⟨rfl, rfl⟩ | ⟨hchar, rfl⟩)
    · rw [switch, if_pos (by simpa [isBlank] using hblank)]
    · obtain ⟨hc, hread⟩ := isRedirect_text ht htext
      have hword : t ≠ .tokWord := by
        rintro rfl
        cases ht
      have hblank : ¬ (c = chr ' ' ∨ c = chr '\t') := by rcases hc with rfl | rfl <;> decide
      rw [switch, if_neg hblank, if_pos hc, hafter, if_neg Bool.false_ne_true,
        sign_eq_emit hread hword]
    · rw [switch, if_neg (by decide), if_neg (by decide), if_pos rfl, h]
    · obtain ⟨hc, hread⟩ := isDelimiter_text ht htext
      have hword : t ≠ .tokWord := by
        rintro rfl
        cases ht
      have hblank : ¬ (c = chr ' ' ∨ c = chr '\t') := by
        rcases hc with rfl | rfl | rfl | rfl <;> decide
      have hredirect : ¬ (c = chr '>' ∨ c = chr '<') := by
        rcases hc with rfl | rfl | rfl | rfl <;> decide
      have hnewline : ¬ c = chr '\n' := by rcases hc with rfl | rfl | rfl | rfl <;> decide
      rw [switch, if_neg hblank, if_neg hredirect, if_neg hnewline, if_pos hc]
      exact (delimiter_eq_ok_iff hread hword).mpr ⟨hafter, rfl⟩
    · rw [switch, if_neg (by decide), if_neg (by decide), if_neg (by decide), if_neg (by decide),
        if_pos rfl]
      exact if_pos hmay
    · rw [switch, if_neg (by decide), if_neg (by decide), if_neg (by decide), if_neg (by decide),
        if_neg (by decide), if_pos (by decide), if_pos rfl]
    · obtain ⟨hblank, hredirect, hnewline, hdelimiter, hcomment, hzero⟩ := isWordChar_not_special hchar
      rw [switch, if_neg hblank, if_neg hredirect, if_neg hnewline, if_neg hdelimiter,
        if_neg hcomment, if_pos (isWordChar_iff.mpr (.inr hchar)), if_neg hzero]

theorem switch_newline : a.switch (chr '\n') = a.newline := by
  rw [switch, if_neg (by decide), if_neg (by decide), if_pos rfl]

theorem reads_newline {b : Scanner}
    (h : ({ a with inComment := false } : Scanner).newline = .ok b) :
    Reads a (chr '\n') (b.after (chr '\n')) := by
  obtain ⟨hline, ⟨hdrops, rfl⟩ | ⟨hdrops, hne, ⟨hdeep, rfl⟩ | ⟨hdeep, hafter, rfl⟩⟩⟩ :=
    newline_eq_ok_iff.mp h
  · exact .dropped hline hdrops
  · exact .separator hline hdrops hne hdeep
  · exact .ended hdrops hne hdeep hafter

theorem reads_of_next (h : a.next c = .ok b) : Reads a c b := by
  unfold next at h
  by_cases hskip : a.inComment = true ∧ c ≠ chr '\n'
  · rw [if_pos hskip] at h
    cases h
    exact .skip hskip.1 hskip.2
  rw [if_neg hskip] at h
  obtain ⟨a', hswitch, hb⟩ := bind_eq_ok.mp h
  obtain rfl : a'.after c = b := Except.ok.inj hb
  by_cases hnewline : c = chr '\n'
  · subst hnewline
    rw [switch_newline] at hswitch
    exact reads_newline hswitch
  have hopen : a.inComment = false := by
    rw [Bool.eq_false_iff]
    exact fun hcomment => hskip ⟨hcomment, hnewline⟩
  have hsame : ({ a with inComment := false } : Scanner) = a := by rw [← hopen]
  rw [hsame] at hswitch
  rcases switch_eq_ok_iff.mp hswitch with ⟨hblank, rfl⟩ | ⟨t, ht, htext, hafter, rfl⟩ | ⟨hc, _⟩ |
    ⟨t, ht, htext, hafter, rfl⟩ | ⟨rfl, hmay, rfl⟩ | ⟨rfl, rfl⟩ | ⟨hchar, rfl⟩
  · exact .blank hopen hblank
  · exact .redirect hopen ht htext hafter
  · exact absurd hc hnewline
  · exact .delimiter hopen ht htext hafter
  · exact .comment hopen hmay
  · exact .nul hopen
  · exact .word hopen hchar

theorem next_of_newline {b : Scanner}
    (h : ({ a with inComment := false } : Scanner).newline = .ok b) :
    a.next (chr '\n') = .ok (b.after (chr '\n')) := by
  rw [next, if_neg (by simp), switch_newline, h]
  rfl

theorem next_of_switch (hopen : a.inComment = false) (h : a.switch c = .ok b) :
    a.next c = .ok (b.after c) := by
  have hsame : ({ a with inComment := false } : Scanner) = a := by rw [← hopen]
  rw [next, if_neg (by simp [hopen]), hsame, h]
  rfl

theorem next_of_reads (h : Reads a c b) : a.next c = .ok b := by
  cases h with
  | skip hcomment hc => rw [next, if_pos ⟨hcomment, hc⟩]
  | blank hopen hblank => exact next_of_switch hopen (switch_eq_ok_iff.mpr (.inl ⟨hblank, rfl⟩))
  | nul hopen =>
    exact next_of_switch hopen (switch_eq_ok_iff.mpr (.inr (.inr (.inr (.inr (.inr (.inl
      ⟨rfl, rfl⟩)))))))
  | redirect hopen ht htext hafter =>
    exact next_of_switch hopen (switch_eq_ok_iff.mpr (.inr (.inl ⟨_, ht, htext, hafter, rfl⟩)))
  | delimiter hopen ht htext hafter =>
    exact next_of_switch hopen (switch_eq_ok_iff.mpr (.inr (.inr (.inr (.inl
      ⟨_, ht, htext, hafter, rfl⟩)))))
  | comment hopen hmay =>
    exact next_of_switch hopen (switch_eq_ok_iff.mpr (.inr (.inr (.inr (.inr (.inl
      ⟨rfl, hmay, rfl⟩))))))
  | word hopen hchar =>
    exact next_of_switch hopen (switch_eq_ok_iff.mpr (.inr (.inr (.inr (.inr (.inr (.inr
      ⟨hchar, rfl⟩)))))))
  | dropped hline hdrops =>
    exact next_of_newline (newline_eq_ok_iff.mpr ⟨hline, .inl ⟨hdrops, rfl⟩⟩)
  | separator hline hdrops hne hdeep =>
    exact next_of_newline (newline_eq_ok_iff.mpr ⟨hline, .inr ⟨hdrops, hne, .inl ⟨hdeep, rfl⟩⟩⟩)
  | ended hdrops hne hdeep hafter =>
    refine next_of_newline (newline_eq_ok_iff.mpr ⟨fun h => ?_, .inr ⟨hdrops, hne,
      .inr ⟨hdeep, hafter, rfl⟩⟩⟩)
    rw [hafter] at h
    cases h

/-! ## Between two characters -/

/-- No newline comes first, and only the words of simple commands and of redirections are read as
words whatever they are. -/
structure WellBegun (a : Scanner) : Prop where
  pending : ∀ c ∈ a.pending, isWordChar c = true
  head : a.lexemes.head? ≠ some (.mark .tokNl)
  simple : a.simple = true →
    ∃ l, a.lexemes.getLast? = some l ∧ (l.type = .tokWord ∨ l.type.isRedirect = true)

/-- What the last characters say about the last lexeme. -/
structure Sound (a : Scanner) : Prop extends a.WellBegun where
  begun : a.pending ≠ [] → isWordChar a.lastC = true
  special : a.lastSpecial = chr ';' →
    a.pending = [] ∧ ∃ l, a.lexemes.getLast? = some l ∧ (l.type = .tokSc ∨ l.type = .tokNl)
  opening : a.lastC = chr '(' → ∃ l, a.lexemes.getLast? = some l ∧ l.type = .tokLparen
  bar : a.lastC = chr '|' → ∃ l, a.lexemes.getLast? = some l ∧ l.type = .tokPipe

theorem sound_start : Scanner.start.Sound where
  pending := by simp [start]
  head := by simp [start]
  simple := by simp [start]
  begun := by simp [start]
  special := fun h => absurd h (by decide)
  opening := fun h => absurd h (by decide)
  bar := fun h => absurd h (by decide)

/-- What the end of a word does to the lexemes. -/
theorem flush_cases (a : Scanner) :
    (a.pending = [] ∧ a.flush = a) ∨
      (a.pending ≠ [] ∧ a.flush = { a with
        lexemes := a.lexemes ++ [Lexeme.read a.simple a.pending]
        pending := []
        simple := a.simple || decide ((Lexeme.read a.simple a.pending).type = .tokWord) }) := by
  by_cases h : a.pending = []
  · exact .inl ⟨h, flush_of_nil h⟩
  · exact .inr ⟨h, if_neg h⟩

theorem read_ne_newline {simple : Bool} {w : Word} (hw : ∀ c ∈ w, isWordChar c = true) :
    Lexeme.read simple w ≠ .mark .tokNl := by
  intro h
  have htext := Lexeme.read_text simple w
  rw [h] at htext
  have hchar := hw (chr '\n') (by rw [← htext]; exact List.mem_singleton.mpr rfl)
  exact absurd hchar (by decide)

theorem WellBegun.flush (h : a.WellBegun) : a.flush.WellBegun := by
  rcases flush_cases a with ⟨_, heq⟩ | ⟨hne, heq⟩
  · rwa [heq]
  · rw [heq]
    constructor
    · simp
    · intro hhead
      rw [List.head?_append] at hhead
      cases hfirst : a.lexemes.head? with
      | none =>
        rw [hfirst] at hhead
        exact read_ne_newline h.pending (Option.some.inj hhead)
      | some l =>
        rw [hfirst] at hhead
        cases hhead
        exact h.head hfirst
    · intro hsimple
      refine ⟨_, List.getLast?_concat, .inl ?_⟩
      dsimp only at hsimple
      rw [Bool.or_eq_true, decide_eq_true_eq] at hsimple
      rcases hsimple with hsimple | hword
      · rw [hsimple, Lexeme.read_type]
        rfl
      · exact hword

theorem WellBegun.setSimple_false (h : a.WellBegun) : (a.setSimple false).WellBegun :=
  ⟨h.pending, h.head, fun hsimple => by cases hsimple⟩

theorem WellBegun.setComment (h : a.WellBegun) (comment : Bool) :
    ({ a with inComment := comment } : Scanner).WellBegun := ⟨h.pending, h.head, h.simple⟩

theorem WellBegun.atLineEnd (h : a.WellBegun) : a.atLineEnd.WellBegun :=
  (h.setComment false).flush.setSimple_false

theorem WellBegun.emit (h : a.WellBegun) (ht : t ≠ .tokNl ∨ a.lexemes ≠ []) :
    (a.emit t).WellBegun := by
  constructor
  · simp [Scanner.emit]
  · intro hhead
    have hflush := h.flush.head
    dsimp only [Scanner.emit] at hhead
    rw [List.head?_append] at hhead
    cases hfirst : a.flush.lexemes.head? with
    | none =>
      rw [hfirst] at hhead
      rcases ht with ht | hne
      · cases hhead
        exact ht rfl
      · have hnil := List.head?_eq_none_iff.mp hfirst
        rcases flush_cases a with ⟨_, heq⟩ | ⟨_, heq⟩
        · rw [heq] at hnil
          exact hne hnil
        · rw [heq] at hnil
          exact absurd hnil (by simp)
    | some l =>
      rw [hfirst] at hhead
      cases hhead
      exact hflush hfirst
  · intro hsimple
    cases hsimple

theorem emit_last (a : Scanner) (t : TokenType) :
    (a.emit t).lexemes.getLast? = some (.mark t) := List.getLast?_concat

theorem WellBegun.after (h : a.WellBegun) (c : UInt8) : (a.after c).WellBegun :=
  ⟨h.pending, h.head, h.simple⟩

theorem flush_of_special (h : a.Sound) (hspecial : a.lastSpecial = chr ';') : a.flush = a :=
  flush_of_nil (h.special hspecial).1

theorem mayComment_not_word (h : a.mayComment = true) : isWordChar a.lastC = false := by
  simp only [mayComment, strchr, decide_eq_true_eq, List.mem_cons, List.not_mem_nil, or_false] at h
  rcases h with h | h | h | h | h | h | h | h <;> rw [h] <;> decide

/-- A step that ends the word under way and does not read a special character. -/
theorem Sound.of_flush (h : a.WellBegun) (hpending : a.pending = [])
    (hspecial : a.lastSpecial = chr ';' →
      ∃ l, a.lexemes.getLast? = some l ∧ (l.type = .tokSc ∨ l.type = .tokNl))
    (hc : strchr [chr ' ', chr '\t', chr '\n'] c = true) : (a.after c).Sound where
  toWellBegun := h.after c
  begun := fun hne => absurd hpending hne
  special := by
    dsimp only [Scanner.after]
    rw [if_pos hc]
    exact fun hlast => ⟨hpending, hspecial hlast⟩
  opening := by
    intro hlast
    obtain rfl : c = chr '(' := hlast
    cases hc
  bar := by
    intro hlast
    obtain rfl : c = chr '|' := hlast
    cases hc

theorem sign_text {d : UInt8} {u : TokenType} (ht : t.isRedirect = true ∨ t.isDelimiter = true)
    (htext : t.text = [c]) (hc : c = d) (hd : u.text = [d])
    (hu : u ∈ [TokenType.tokSc, .tokLparen, .tokPipe]) : t = u := by
  subst hc
  rw [← hd] at htext
  simp only [List.mem_cons, List.not_mem_nil, or_false] at hu
  cases t <;> simp [TokenType.isRedirect, TokenType.isDelimiter] at ht <;>
    rcases hu with rfl | rfl | rfl <;> first | rfl | exact absurd htext (by decide)

/-- A step that reads a sign. -/
theorem Sound.of_sign (h : a.WellBegun) (hpending : a.pending = [])
    (hlast : a.lexemes.getLast? = some (.mark t))
    (ht : t.isRedirect = true ∨ t.isDelimiter = true) (htext : t.text = [c]) :
    (a.after c).Sound where
  toWellBegun := h.after c
  begun := fun hne => absurd hpending hne
  special := by
    have hsign : strchr [chr ' ', chr '\t', chr '\n'] c = false := by
      cases t <;> simp [TokenType.isRedirect, TokenType.isDelimiter] at ht
      all_goals
        obtain rfl := (List.cons.inj htext).1
        decide
    dsimp only [Scanner.after]
    rw [hsign, if_neg Bool.false_ne_true]
    exact fun hc => ⟨hpending, _, hlast, .inl (sign_text ht htext hc rfl (by simp))⟩
  opening := fun hc => ⟨_, hlast, sign_text ht htext hc rfl (by simp)⟩
  bar := fun hc => ⟨_, hlast, sign_text ht htext hc rfl (by simp)⟩

/-- Every step keeps the record. -/
theorem Sound.reads (h : a.Sound) (hr : Reads a c b) : b.Sound := by
  have hspecial : a.flush.lastSpecial = chr ';' →
      ∃ l, a.flush.lexemes.getLast? = some l ∧ (l.type = .tokSc ∨ l.type = .tokNl) := by
    intro hlast
    rw [flush_lastSpecial] at hlast
    rw [flush_of_special h hlast]
    exact (h.special hlast).2
  cases hr with
  | skip => exact h
  | blank hopen hblank =>
    refine .of_flush h.flush a.flush_pending hspecial ?_
    have hc : c = chr ' ' ∨ c = chr '\t' := by simpa [isBlank] using hblank
    rcases hc with rfl | rfl <;> decide
  | nul hopen => exact .of_flush h.flush a.flush_pending hspecial rfl
  | @redirect _ t hopen ht htext hafter =>
    have hne : t ≠ .tokNl := by
      rintro rfl
      cases ht
    have hemit := h.toWellBegun.emit (.inl hne)
    refine .of_sign ⟨hemit.pending, hemit.head, fun _ => ?_⟩ rfl (a.emit_last t) (.inl ht) htext
    exact ⟨_, a.emit_last t, .inr ht⟩
  | @delimiter _ t hopen ht htext hafter =>
    have hne : t ≠ .tokNl := by
      rintro rfl
      cases ht
    exact .of_sign (h.toWellBegun.emit (.inl hne)) rfl (a.emit_last t) (.inr ht) htext
  | comment hopen hmay =>
    constructor
    · exact ⟨h.pending, h.head, fun hsimple => by cases hsimple⟩
    · intro hne
      have hchar := h.begun hne
      rw [mayComment_not_word hmay] at hchar
      cases hchar
    · exact fun hlast => absurd (show chr '#' = chr ';' from hlast) (by decide)
    · exact fun hlast => absurd (show chr '#' = chr '(' from hlast) (by decide)
    · exact fun hlast => absurd (show chr '#' = chr '|' from hlast) (by decide)
  | word hopen hchar =>
    have hne : ∀ {d : UInt8}, isWordChar d = false → c ≠ d := fun hd => ne_of_isWordChar hchar hd
    constructor
    · refine ⟨fun d hd => ?_, h.head, h.simple⟩
      rcases List.mem_append.mp hd with hd | hd
      · exact h.pending d hd
      · rw [List.mem_singleton.mp hd]
        exact hchar
    · exact fun _ => hchar
    · have hsign : strchr [chr ' ', chr '\t', chr '\n'] c = false := by
        simp [strchr, hne (show isWordChar 0 = false by decide),
          hne (show isWordChar (chr ' ') = false by decide),
          hne (show isWordChar (chr '\t') = false by decide),
          hne (show isWordChar (chr '\n') = false by decide)]
      dsimp only [Scanner.after]
      rw [hsign, if_neg Bool.false_ne_true]
      exact fun hlast => absurd hlast (hne (by decide))
    · exact fun hlast => absurd hlast (hne (by decide))
    · exact fun hlast => absurd hlast (hne (by decide))
  | dropped hline hdrops =>
    refine .of_flush h.toWellBegun.atLineEnd (flush_pending _) ?_ (by decide)
    intro hlast
    dsimp only [atLineEnd, setSimple] at hlast ⊢
    rw [flush_lastSpecial] at hlast
    obtain ⟨hpending, hfound⟩ := h.special hlast
    rw [flush_of_nil (show ({ a with inComment := false } : Scanner).pending = [] from hpending)]
    exact hfound
  | separator hline hdrops hne hdeep =>
    refine .of_flush (h.toWellBegun.atLineEnd.emit (.inl (by decide))) rfl ?_ (by decide)
    exact fun _ => ⟨_, emit_last _ _, .inl rfl⟩
  | ended hdrops hne hdeep hafter =>
    refine .of_flush (h.toWellBegun.atLineEnd.emit (.inr hne)) rfl ?_ (by decide)
    exact fun _ => ⟨_, emit_last _ _, .inr rfl⟩

theorem Sound.scan {bs : List UInt8} (h : a.Sound) (hscan : a.scan bs = .ok b) : b.Sound := by
  induction bs generalizing a with
  | nil =>
    cases hscan
    exact h
  | cons c bs ih =>
    obtain ⟨a', hnext, hrest⟩ := bind_eq_ok.mp hscan
    exact ih (h.reads (reads_of_next hnext)) hrest

end Scanner

end CS111.Shell
