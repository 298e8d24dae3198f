import CS111.Shell.Continued
import CS111.Shell.ScannerRuns

/-!
# Newlines for semicolons

A script with one command per line, and the script with newlines in place of some `;` inside of its
compound commands and of some blanks behind its keywords, are scanned side by side. The lexemes stay
the same as long as the newlines behind the keywords leave no token.
-/

namespace CS111.Shell

set_option autoImplicit false

open Fallible

variable {tl : TokenList} {a a' b b' : Scanner} {c d e : UInt8} {t : TokenType}
  {bs cs ds script script' : List UInt8} {trees : List Command} {fuel : Nat}

/-- The tokens behind which a command has to go on. -/
def TokenType.wantsMore : TokenType → Bool
  | .tokIf | .tokThen | .tokElse | .tokWhile | .tokUntil | .tokDo | .tokLparen | .tokPipe => true
  | _ => false

theorem TokenType.not_redirect_of_wantsMore : t.wantsMore = true → t.isRedirect = false := by
  cases t <;> decide

theorem TokenType.wantsMore_of_reserved : isReserved t = true → t.wantsMore = true ∨ t = .tokNl := by
  cases t <;> decide

/-- The list of the lexer lacks `else` and `|`. -/
theorem TokenType.not_reserved :
    t.wantsMore = true → isReserved t ≠ true → t = .tokPipe ∨ t = .tokElse := by
  cases t <;> decide

theorem TokenType.not_redirect_of_delimiter (ht : t.isDelimiter = true) : t.isRedirect = false := by
  cases t <;> first | rfl | cases ht

namespace Scanner

/-- The last lexeme, with the word under way, is one behind which a command has to go on. -/
def Asking (a : Scanner) : Prop :=
  ∃ last, a.flush.lexemes.getLast? = some last ∧ last.type.wantsMore = true

/-- The last lexeme ends a command. -/
def Ending (a : Scanner) : Prop :=
  ∃ last, a.flush.lexemes.getLast? = some last ∧ last.type.wantsMore = false ∧
    last.type ≠ .tokSc ∧ last.type ≠ .tokNl

/-- No command is under way. -/
def BetweenCommands (a : Scanner) : Prop :=
  a.flush.depth ≤ 0 ∧ ∀ last ∈ a.flush.lexemes.getLast?,
    last.type.wantsMore = false ∧ last.type.isRedirect = false

instance (a : Scanner) : Decidable a.BetweenCommands := inferInstanceAs (Decidable (_ ∧ _))

end Scanner

/-- Every newline stands between two commands. -/
def OneCommandPerLine (script : List UInt8) : Prop :=
  Scanner.start.Throughout (fun a c => c = chr '\n' → a.BetweenCommands) (readBytes script)

/-- A `;` between the commands inside of a compound command, or a blank behind a keyword, a `(` or a
`|`, may be replaced by a newline. -/
inductive EditedAt (a : Scanner) : UInt8 → UInt8 → Prop
  | keep {c : UInt8} : EditedAt a c c
  | separator : a.inComment = false → 0 < a.flush.depth → a.Ending →
      EditedAt a (chr ';') (chr '\n')
  | blank {c : UInt8} : a.inComment = false → isBlank c = true → a.Asking →
      EditedAt a c (chr '\n')

/-- Any set of such characters is replaced. The byte 255 ends a script. -/
inductive Edited : Scanner → List UInt8 → List UInt8 → Prop
  | nil {a : Scanner} : Edited a [] []
  | unread {a : Scanner} {cs ds : List UInt8} : Edited a (255 :: cs) (255 :: ds)
  | step {a b : Scanner} {c d : UInt8} {cs ds : List UInt8} :
      EditedAt a c d → a.next c = .ok b → Edited b cs ds → Edited a (c :: cs) (d :: ds)

/-- The newlines in place of blanks leave no tokens, when the second script is scanned. -/
def DropsEdits : Scanner → List UInt8 → List UInt8 → Prop
  | a, c :: cs, d :: ds =>
    (isBlank c = true → d = chr '\n' → a.Drops) ∧ ∀ b, a.next d = .ok b → DropsEdits b cs ds
  | _, _, _ => True

instance decidableDropsEdits : ∀ (a : Scanner) (cs ds : List UInt8), Decidable (DropsEdits a cs ds)
  | a, c :: cs, d :: ds =>
    match h : a.next d with
    | .ok b =>
      have := decidableDropsEdits b cs ds
      decidable_of_iff ((isBlank c = true → d = chr '\n' → a.Drops) ∧ DropsEdits b cs ds)
        (by simp [DropsEdits, h])
    | .error _ =>
      decidable_of_iff (isBlank c = true → d = chr '\n' → a.Drops) (by simp [DropsEdits, h])
  | _, [], _ => .isTrue trivial
  | _, _ :: _, [] => .isTrue trivial

theorem Edited.of_scan (hscan : a.scan bs = .ok b) (h : Edited b cs ds) :
    Edited a (bs ++ cs) (bs ++ ds) := by
  induction bs generalizing a with
  | nil =>
    cases hscan
    exact h
  | cons c bs ih =>
    obtain ⟨a', hnext, hscan⟩ := Scanner.scan_cons_eq_ok.mp hscan
    exact .step .keep hnext (ih hscan)

/-! ## The first script -/

namespace Scanner

/-- A scanner in a script with one command per line. -/
structure LineSound (a : Scanner) : Prop extends a.Sound where
  quiet : a.inComment = true → a.pending = []
  arrow : a.lastC = chr '<' ∨ a.lastC = chr '>' →
    ∃ l, a.lexemes.getLast? = some l ∧ l.type.isRedirect = true
  ended : a.lastC = chr '\n' → a.depth ≤ 0
  target : ∀ l ∈ a.lexemes.getLast?, l.type.isRedirect = true →
    a.simple = true ∨ a.inComment = true
  words : a.lexemes.IsChain fun l m => l.type.isRedirect = true → m.type ≠ .tokElse

theorem lineSound_start : start.LineSound where
  toSound := sound_start
  quiet := fun h => by cases h
  arrow := by
    rintro (h | h)
    · cases h
    · cases h
  ended := fun h => by cases h
  target := fun l hl => by cases hl
  words := .nil

theorem isChain_concat_of {R : Lexeme → Lexeme → Prop} {ls : List Lexeme} {m : Lexeme}
    (h : ls.IsChain R) (hlast : ∀ l ∈ ls.getLast?, R l m) : (ls ++ [m]).IsChain R := by
  refine List.isChain_append.mpr ⟨h, List.isChain_singleton m, fun l hl m' hm => ?_⟩
  cases hm
  exact hlast l hl

/-- Behind `<` and `>`, the text under way is a word. -/
theorem LineSound.flush_words (h : a.LineSound) :
    a.flush.lexemes.IsChain fun l m => l.type.isRedirect = true → m.type ≠ .tokElse := by
  rcases flush_cases a with ⟨_, heq⟩ | ⟨hne, heq⟩
  · rw [heq]
    exact h.words
  · rw [heq]
    refine isChain_concat_of h.words fun l hl hredirect helse => ?_
    rcases h.target l hl hredirect with hsimple | hcomment
    · rw [hsimple, Lexeme.read_type] at helse
      cases helse
    · exact hne (h.quiet hcomment)

theorem LineSound.emit_words (h : a.LineSound) (ht : t ≠ .tokElse) :
    (a.emit t).lexemes.IsChain fun l m => l.type.isRedirect = true → m.type ≠ .tokElse :=
  isChain_concat_of h.flush_words fun _ _ _ => ht

theorem LineSound.flush_target (h : a.LineSound) (l : Lexeme) (hl : l ∈ a.flush.lexemes.getLast?)
    (hredirect : l.type.isRedirect = true) : a.flush.simple = true ∨ a.flush.inComment = true := by
  rcases flush_cases a with ⟨_, heq⟩ | ⟨_, heq⟩
  · rw [heq] at hl ⊢
    exact h.target l hl hredirect
  · rw [heq] at hl
    obtain rfl : _ = l := Option.some.inj (List.getLast?_concat.symm.trans hl)
    rw [read_not_redirect h.pending] at hredirect
    cases hredirect

theorem emit_depth_newline (a : Scanner) : (a.emit .tokNl).depth = a.flush.depth := by
  rw [depth, emit, rise_append]
  exact add_zero _

/-- Every step keeps the record, if newlines stand between commands. -/
theorem LineSound.reads (h : a.LineSound) (hr : Reads a c b)
    (hline : c = chr '\n' → a.BetweenCommands) : b.LineSound := by
  have hsound := h.toSound.reads hr
  cases hr with
  | skip => exact h
  | blank hopen hblank =>
    refine ⟨hsound, fun _ => a.flush_pending, ?_, ?_, h.flush_target, h.flush_words⟩
    · rintro (hc | hc)
      · obtain rfl : c = chr '<' := hc
        cases hblank
      · obtain rfl : c = chr '>' := hc
        cases hblank
    · intro hc
      obtain rfl : c = chr '\n' := hc
      cases hblank
  | nul hopen =>
    refine ⟨hsound, fun _ => a.flush_pending, ?_, ?_, h.flush_target, h.flush_words⟩
    · rintro (hc | hc)
      · cases hc
      · cases hc
    · intro hc
      cases hc
  | @redirect _ t hopen ht htext hafter =>
    have helse : t ≠ .tokElse := by
      rintro rfl
      cases ht
    refine ⟨hsound, fun _ => rfl, fun _ => ⟨_, a.emit_last t, ht⟩, ?_, fun _ _ _ => .inl rfl,
      h.emit_words helse⟩
    intro hc
    obtain rfl : c = chr '\n' := hc
    exact absurd (isRedirect_text ht htext).1 (by decide)
  | @delimiter _ t hopen ht htext hafter =>
    have helse : t ≠ .tokElse := by
      rintro rfl
      cases ht
    obtain ⟨hchar, _⟩ := isDelimiter_text ht htext
    refine ⟨hsound, fun _ => rfl, ?_, ?_, ?_, h.emit_words helse⟩
    · rintro (hc | hc)
      · obtain rfl : c = chr '<' := hc
        exact absurd hchar (by decide)
      · obtain rfl : c = chr '>' := hc
        exact absurd hchar (by decide)
    · intro hc
      obtain rfl : c = chr '\n' := hc
      exact absurd hchar (by decide)
    · intro l hl hredirect
      obtain rfl : _ = l := Option.some.inj ((a.emit_last t).symm.trans hl)
      rw [Lexeme.type, TokenType.not_redirect_of_delimiter ht] at hredirect
      cases hredirect
  | comment hopen hmay =>
    refine ⟨hsound, fun _ => ?_, ?_, (fun hc => by cases hc), fun _ _ _ => .inr rfl, h.words⟩
    · by_contra hne
      have hchar := h.begun hne
      rw [mayComment_not_word hmay] at hchar
      cases hchar
    · rintro (hc | hc)
      · cases hc
      · cases hc
  | word hopen hchar =>
    refine ⟨hsound, fun hcomment => ?_, ?_, ?_, h.target, h.words⟩
    · change a.inComment = true at hcomment
      rw [hopen] at hcomment
      cases hcomment
    · rintro (hc | hc)
      · exact absurd hc (ne_of_isWordChar hchar (by decide))
      · exact absurd hc (ne_of_isWordChar hchar (by decide))
    · exact fun hc => absurd hc (ne_of_isWordChar hchar (by decide))
  | dropped _ hdrops =>
    obtain ⟨hdepth, hlast⟩ := hline rfl
    have hlexemes : (a.atLineEnd.after (chr '\n')).lexemes = a.flush.lexemes := a.atLineEnd_lexemes
    refine ⟨hsound, fun _ => flush_pending _, ?_, fun _ => ?_, fun l hl hredirect => ?_, ?_⟩
    · rintro (hc | hc)
      · cases hc
      · cases hc
    · rw [depth, hlexemes]
      exact hdepth
    · rw [hlexemes] at hl
      rw [(hlast l hl).2] at hredirect
      cases hredirect
    · rw [hlexemes]
      exact h.flush_words
  | separator _ _ _ hdeep =>
    obtain ⟨hdepth, _⟩ := hline rfl
    rw [depth, atLineEnd_lexemes] at hdeep
    exact absurd hdeep (Int.not_lt.mpr hdepth)
  | ended _ _ hdepth _ =>
    have hpending : a.atLineEnd.pending = [] := flush_pending _
    refine ⟨hsound, fun _ => rfl, ?_, fun _ => ?_, fun l hl hredirect => ?_, ?_⟩
    · rintro (hc | hc)
      · cases hc
      · cases hc
    · change (a.atLineEnd.emit .tokNl).depth ≤ 0
      rwa [emit_depth_newline, flush_of_nil hpending]
    · obtain rfl : _ = l := Option.some.inj ((emit_last _ _).symm.trans hl)
      cases hredirect
    · change (a.atLineEnd.emit .tokNl).lexemes.IsChain _
      rw [emit_line_lexemes]
      exact isChain_concat_of h.flush_words fun _ _ _ hnl => by cases hnl

/-! ## The two scripts side by side -/

/-- The last token is one of those behind which the replaced characters stand. -/
def Behind (a : Scanner) : Prop :=
  a.pending = [] ∧ ∃ l, a.lexemes.getLast? = some l ∧
    (l.type.wantsMore = true ∨ l.type = .tokSc ∧ 0 < a.depth)

/-- The scanners differ in their last characters only, and only behind such a token. -/
inductive Alike (a : Scanner) : Scanner → Prop
  | intro {d e : UInt8} : (d = a.lastC ∨ d = chr '\n' ∧ a.Behind) →
      (e = a.lastSpecial ∨ a.Behind) → Alike a (a.withLast d e)

theorem alike_refl (a : Scanner) : Alike a a := .intro (.inl rfl) (.inl rfl)

theorem Behind.flush (h : a.Behind) : a.flush.Behind := by
  rwa [flush_of_nil h.1]

theorem BetweenCommands.not_behind (h : a.BetweenCommands) : ¬ a.Behind := by
  rintro ⟨hpending, l, hl, hbehind⟩
  obtain ⟨hdepth, hlast⟩ := h
  rw [flush_of_nil hpending] at hdepth hlast
  rcases hbehind with hwants | ⟨_, hdeep⟩
  · rw [(hlast l hl).1] at hwants
    cases hwants
  · exact absurd hdeep (Int.not_lt.mpr hdepth)

theorem Ending.not_behind (h : a.Ending) : ¬ a.Behind := by
  rintro ⟨hpending, l, hl, hbehind⟩
  obtain ⟨last, hlast, hwants, hsc, _⟩ := h
  rw [flush_of_nil hpending, hl] at hlast
  cases hlast
  rcases hbehind with hwants' | ⟨hsc', _⟩
  · rw [hwants] at hwants'
    cases hwants'
  · exact hsc hsc'

theorem alike_after {x : Scanner}
    (he : strchr [chr ' ', chr '\t', chr '\n'] c = true → e = x.lastSpecial ∨ x.Behind) :
    Alike (x.after c) ((x.withLast d e).after c) := by
  rw [withLast_after]
  refine .intro (.inl rfl) ?_
  change (if strchr _ c = true then e else c) =
    (if strchr _ c = true then x.lastSpecial else c) ∨ x.Behind
  split
  · next hblank => exact he hblank
  · exact .inl rfl

theorem afterRedirect_withLast (hd : d = a.lastC ∨ d = chr '\n' ∧ a.Behind)
    (h : a.afterRedirect = false) : (a.withLast d e).afterRedirect = false := by
  rcases hd with rfl | ⟨rfl, _⟩
  · exact h
  · rfl

theorem mayComment_withLast (hd : d = a.lastC ∨ d = chr '\n' ∧ a.Behind)
    (h : a.mayComment = true) : (a.withLast d e).mayComment = true := by
  rcases hd with rfl | ⟨rfl, _⟩
  · exact h
  · rfl

/-- A character that both scripts have. -/
theorem Alike.reads (h : Alike a a') (hr : Reads a c b)
    (hline : c = chr '\n' → a.BetweenCommands) : ∃ b', Reads a' c b' ∧ Alike b b' := by
  obtain @⟨d, e, hd, he⟩ := h
  have hsame : a.BetweenCommands → a.withLast d e = a := by
    intro hbetween
    have hnot := hbetween.not_behind
    obtain rfl := hd.resolve_right fun h => hnot h.2
    obtain rfl := he.resolve_right hnot
    rfl
  have hflush : Alike (a.flush.after c) ((a.withLast d e).flush.after c) := by
    rw [withLast_flush]
    refine alike_after fun _ => ?_
    rw [flush_lastSpecial]
    exact he.imp_right Behind.flush
  cases hr with
  | skip hcomment hc => exact ⟨_, .skip hcomment hc, .intro hd he⟩
  | blank hopen hblank => exact ⟨_, .blank hopen hblank, hflush⟩
  | nul hopen => exact ⟨_, .nul hopen, hflush⟩
  | @redirect _ t hopen ht htext hafter =>
    refine ⟨_, .redirect hopen ht htext (afterRedirect_withLast hd hafter), ?_⟩
    rw [withLast_emit]
    exact alike_after (x := (a.emit t).setSimple true)
      fun hblank => absurd hblank (sign_not_blank (.inl ht) htext)
  | delimiter hopen ht htext hafter =>
    refine ⟨_, .delimiter hopen ht htext (afterRedirect_withLast hd hafter), ?_⟩
    rw [withLast_emit]
    exact alike_after fun hblank => absurd hblank (sign_not_blank (.inr ht) htext)
  | comment hopen hmay =>
    refine ⟨_, .comment hopen (mayComment_withLast hd hmay), ?_⟩
    exact alike_after (x := { a with simple := false, inComment := true })
      fun hblank => absurd hblank (by decide)
  | word hopen hchar =>
    refine ⟨_, .word hopen hchar, ?_⟩
    refine alike_after (x := a.put c) fun hblank => ?_
    simp only [strchr, decide_eq_true_eq, List.mem_cons, List.not_mem_nil, or_false] at hblank
    rcases hblank with rfl | rfl | rfl | rfl <;> cases hchar
  | dropped hafter hdrops =>
    rw [hsame (hline rfl)]
    exact ⟨_, .dropped hafter hdrops, alike_refl _⟩
  | separator hafter hdrops hne hdeep =>
    rw [hsame (hline rfl)]
    exact ⟨_, .separator hafter hdrops hne hdeep, alike_refl _⟩
  | ended hdrops hne hdeep hafter =>
    rw [hsame (hline rfl)]
    exact ⟨_, .ended hdrops hne hdeep hafter, alike_refl _⟩

theorem emit_atLineEnd (hopen : a.inComment = false) : a.atLineEnd.emit t = a.emit t := by
  have hpending : a.atLineEnd.pending = [] := flush_pending _
  rw [emit, flush_of_nil hpending, atLineEnd_lexemes, emit]
  simp [atLineEnd, setSimple, hopen]

theorem next_semicolon (hopen : a.inComment = false) (h : a.next (chr ';') = .ok b) :
    a.afterRedirect = false ∧ b = (a.emit .tokSc).after (chr ';') := by
  have hsame : ({ a with inComment := false } : Scanner) = a := by rw [← hopen]
  rw [next, if_neg (by simp [hopen]), hsame] at h
  obtain ⟨a', hswitch, hb⟩ := bind_eq_ok.mp h
  rw [switch, if_neg (by decide), if_neg (by decide), if_neg (by decide), if_pos (by decide)]
    at hswitch
  obtain ⟨hafter, rfl⟩ := (delimiter_eq_ok_iff (t := .tokSc) (by decide) (by decide)).mp hswitch
  exact ⟨hafter, (Except.ok.inj hb).symm⟩

theorem next_blank (hopen : a.inComment = false) (hblank : isBlank c = true)
    (h : a.next c = .ok b) : b = a.flush.after c := by
  rw [next_of_reads (.blank hopen hblank)] at h
  exact (Except.ok.inj h).symm

/-- The newline in place of a `;` leaves a `;` token. -/
theorem Alike.separator (h : Alike a a') (hsound : a.LineSound) (hopen : a.inComment = false)
    (hdeep : 0 < a.flush.depth) (hending : a.Ending) (hnext : a.next (chr ';') = .ok b) :
    ∃ b', a'.next (chr '\n') = .ok b' ∧ Alike b b' := by
  obtain ⟨hd, he⟩ := h
  have hnot := hending.not_behind
  obtain rfl := hd.resolve_right fun h => hnot h.2
  obtain rfl := he.resolve_right hnot
  obtain ⟨hafter, rfl⟩ := next_semicolon hopen hnext
  rw [withLast_self]
  obtain ⟨last, hlast, hwants, hsc, hnl⟩ := hending
  have hpending : isWordChar a.lastC = false → a.flush = a := by
    intro hchar
    refine flush_of_nil ?_
    by_contra hne
    rw [hsound.begun hne] at hchar
    cases hchar
  have hruns : a.runsOn ≠ true := by
    intro hruns
    simp only [runsOn, strchr, decide_eq_true_eq, List.mem_cons, List.not_mem_nil, or_false]
      at hruns
    rcases hruns with hc | hc | hc | hc
    · rw [afterRedirect, hc] at hafter
      cases hafter
    · rw [hpending (by rw [hc]; decide)] at hdeep
      exact absurd hdeep (Int.not_lt.mpr (hsound.ended hc))
    · obtain ⟨l, hl, htype⟩ := hsound.opening hc
      rw [hpending (by rw [hc]; decide), hl] at hlast
      cases hlast
      rw [htype] at hwants
      cases hwants
    · obtain ⟨l, hl, htype⟩ := hsound.bar hc
      rw [hpending (by rw [hc]; decide), hl] at hlast
      cases hlast
      rw [htype] at hwants
      cases hwants
  have hdrops : ¬ a.Drops := by
    rintro (htrue | ⟨last', hlast', hswallows⟩)
    · exact hruns htrue
    · rw [atLineEnd_lexemes, hlast] at hlast'
      cases hlast'
      rcases hswallows with hreserved | ⟨hspecial, _⟩
      · rcases TokenType.wantsMore_of_reserved hreserved with hwants' | hnl'
        · rw [hwants] at hwants'
          cases hwants'
        · exact hnl hnl'
      · have hspecial : a.lastSpecial = chr ';' := by
          rw [← hspecial, atLineEnd, setSimple, flush_lastSpecial]
        obtain ⟨hnil, l, hl, htype⟩ := hsound.special hspecial
        rw [flush_of_nil hnil, hl] at hlast
        cases hlast
        exact htype.elim hsc hnl
  have hne : a.atLineEnd.lexemes ≠ [] := by
    rw [atLineEnd_lexemes]
    intro hnil
    rw [hnil] at hlast
    cases hlast
  have hdeep' : 0 < a.atLineEnd.depth := by
    rw [depth, atLineEnd_lexemes]
    exact hdeep
  refine ⟨_, next_of_reads (.separator (fun htrue => ?_) hdrops hne hdeep'), ?_⟩
  · rw [hafter] at htrue
    cases htrue
  · rw [emit_atLineEnd hopen]
    have hbehind : ((a.emit .tokSc).after (chr ';')).Behind := by
      refine ⟨rfl, _, emit_last a .tokSc, .inr ⟨rfl, ?_⟩⟩
      change 0 < rise Lexeme.nest (a.flush.lexemes ++ [.mark .tokSc])
      rw [rise_append]
      change 0 < a.flush.depth + 0
      omega
    exact .intro (d := chr '\n') (e := a.lastSpecial) (.inr ⟨rfl, hbehind⟩) (.inr hbehind)

/-- The newline in place of a blank leaves no token, where it is dropped. -/
theorem Alike.blank (h : Alike a a') (hsound : a.LineSound) (hopen : a.inComment = false)
    (hblank : isBlank c = true) (hasking : a.Asking) (hdrops : a'.Drops)
    (hnext : a.next c = .ok b) : ∃ b', a'.next (chr '\n') = .ok b' ∧ Alike b b' := by
  obtain @⟨d, e, hd, he⟩ := h
  obtain rfl := next_blank hopen hblank hnext
  obtain ⟨last, hlast, hwants⟩ := hasking
  have hsimple : a.flush.simple = false := by
    rw [Bool.eq_false_iff]
    intro hsimple
    obtain ⟨l, hl, htype⟩ := hsound.toWellBegun.flush.simple hsimple
    rw [hlast] at hl
    cases hl
    rcases htype with htype | htype
    · rw [htype] at hwants
      cases hwants
    · rw [TokenType.not_redirect_of_wantsMore hwants] at htype
      cases htype
  have hafter : (a.withLast d e).afterRedirect = true → d = 0 := by
    intro hafter
    simp only [afterRedirect, withLast_lastC, strchr, decide_eq_true_eq, List.mem_cons,
      List.not_mem_nil, or_false] at hafter
    rcases hafter with hzero | harrow
    · exact hzero
    · rcases hd with rfl | ⟨rfl, _⟩
      · obtain ⟨l, hl, htype⟩ := hsound.arrow harrow
        have hnil : a.pending = [] := by
          by_contra hne
          have hchar := hsound.begun hne
          rcases harrow with hc | hc
          · rw [hc] at hchar
            cases hchar
          · rw [hc] at hchar
            cases hchar
        rw [flush_of_nil hnil, hl] at hlast
        cases hlast
        rw [TokenType.not_redirect_of_wantsMore hwants] at htype
        cases htype
      · exact absurd harrow (by decide)
  refine ⟨_, next_of_reads (.dropped hafter hdrops), ?_⟩
  have hsame : (a.withLast d e).atLineEnd = a.flush.withLast d e := by
    rw [withLast_atLineEnd, atLineEnd]
    have hcomment : ({ a with inComment := false } : Scanner) = a := by rw [← hopen]
    rw [hcomment, setSimple, ← hsimple]
  rw [hsame]
  have hbehind : (a.flush.after c).Behind := ⟨a.flush_pending, last, hlast, .inl hwants⟩
  exact .intro (d := chr '\n') (e := e) (.inr ⟨rfl, hbehind⟩) (.inr hbehind)

/-- The newline of a `blank` step, if it leaves a token. -/
theorem next_newline_kept (h : a.next (chr '\n') = .ok b) (hdrops : ¬ a.Drops) :
    b.lexemes = a.flush.lexemes ++ [.mark .tokSc] ∨
      b.lexemes = a.flush.lexemes ++ [.mark .tokNl] := by
  rcases next_newline_eq_ok_iff.mp h with ⟨_, ⟨hdrop, _⟩ | ⟨_, _, ⟨_, rfl⟩ | ⟨_, _, rfl⟩⟩⟩
  · exact absurd hdrop hdrops
  · exact .inl (a.emit_line_lexemes .tokSc)
  · exact .inr (a.emit_line_lexemes .tokNl)

/-- A character and what the second script has in its place. -/
theorem Alike.edited (h : Alike a a') (hsound : a.LineSound) (hedit : EditedAt a c d)
    (hline : c = chr '\n' → a.BetweenCommands)
    (hdrops : isBlank c = true → d = chr '\n' → a'.Drops) (hnext : a.next c = .ok b) :
    ∃ b', a'.next d = .ok b' ∧ Alike b b' := by
  cases hedit with
  | keep =>
    obtain ⟨b', hreads, halike⟩ := h.reads (reads_of_next hnext) hline
    exact ⟨b', next_of_reads hreads, halike⟩
  | separator hopen hdeep hending => exact h.separator hsound hopen hdeep hending hnext
  | blank hopen hblank hasking => exact h.blank hsound hopen hblank hasking (hdrops hblank rfl) hnext

theorem editedAt_eof (h : EditedAt a c d) : c = 255 ↔ d = 255 := by
  cases h with
  | keep => exact Iff.rfl
  | separator => decide
  | blank _ hblank =>
    constructor
    · rintro rfl
      cases hblank
    · intro hd
      cases hd

/-- As long as the newlines are dropped, both scripts have the same lexemes. -/
theorem Alike.scan (hedit : Edited a cs ds) (h : Alike a a') (hsound : a.LineSound)
    (hlines : a.Throughout (fun a c => c = chr '\n' → a.BetweenCommands) (readBytes cs))
    (hdrops : DropsEdits a' (readBytes cs) (readBytes ds)) (hscan : a.scan (readBytes cs) = .ok b) :
    ∃ b', a'.scan (readBytes ds) = .ok b' ∧ Alike b b' := by
  induction hedit generalizing a' with
  | nil | unread =>
    cases hscan
    exact ⟨a', rfl, h⟩
  | @step a x c d cs ds hat hnext _ ih =>
    by_cases hc : c = 255
    · obtain rfl := (editedAt_eof hat).mp hc
      subst hc
      cases hscan
      exact ⟨a', rfl, h⟩
    · have hd := mt (editedAt_eof hat).mpr hc
      rw [readBytes_cons hc] at hlines hscan hdrops
      rw [readBytes_cons hd] at hdrops ⊢
      obtain ⟨hline, hrest⟩ := hlines
      obtain ⟨x', hnext', hscan⟩ := scan_cons_eq_ok.mp hscan
      obtain rfl : x = x' := Except.ok.inj (hnext.symm.trans hnext')
      obtain ⟨b', hgo, halike⟩ := h.edited hsound hat hline hdrops.1 hnext
      obtain ⟨b'', hscan', halike'⟩ := ih halike (hsound.reads (reads_of_next hnext) hline)
        (hrest x hnext) (hdrops.2 b' hgo) hscan
      exact ⟨b'', scan_cons_eq_ok.mpr ⟨b', hgo, hscan'⟩, halike'⟩

/-- What the first newline that leaves a token does. -/
theorem cutsShort_of_kept (hsound : a.LineSound) (h : Alike a a') (hasking : a.Asking)
    (hnext : a'.next (chr '\n') = .ok b') (hdrops : ¬ a'.Drops) : CutsShort b'.lexemes := by
  obtain @⟨d, e, hd, he⟩ := h
  obtain ⟨last, hlast, hwants⟩ := hasking
  have hreserved : isReserved last.type ≠ true := by
    intro hreserved
    refine hdrops (.inr ⟨last, ?_, .inl hreserved⟩)
    rw [atLineEnd_lexemes, withLast_flush]
    exact hlast
  have htype := TokenType.not_reserved hwants hreserved
  obtain ⟨xs, hxs⟩ := List.getLast?_eq_some_iff.mp hlast
  have hbefore : ∀ x ∈ xs.getLast?, last.type = .tokElse → x.type.isRedirect = false := by
    intro x hx helse
    rw [Bool.eq_false_iff]
    intro hredirect
    have hwords := hsound.flush_words
    rw [hxs, List.isChain_append] at hwords
    exact hwords.2.2 x hx last rfl hredirect helse
  have hasks : (last.type = .tokSc ∨ last.type = .tokPipe) ∨
      last.type = .tokElse ∧ ∀ x ∈ xs.getLast?, x.type.isRedirect = false :=
    htype.imp .inr fun helse => ⟨helse, fun x hx => hbefore x hx helse⟩
  have hsc : last.type ≠ .tokSc := by
    intro hsc
    rw [hsc] at hwants
    cases hwants
  have hkept := next_newline_kept hnext hdrops
  rw [withLast_flush, withLast_lexemes, hxs, List.append_assoc, List.append_assoc] at hkept
  rcases hkept with hkept | hkept
  · exact ⟨xs, last, .mark .tokSc, hkept ▸ List.prefix_refl _, hasks, .inl rfl⟩
  · exact ⟨xs, last, .mark .tokNl, hkept ▸ List.prefix_refl _, hasks, .inr ⟨rfl, hsc⟩⟩

/-- If no lexeme is cut short, the newlines were dropped. -/
theorem Alike.drops (hedit : Edited a cs ds) (h : Alike a a') (hsound : a.LineSound)
    (hlines : a.Throughout (fun a c => c = chr '\n' → a.BetweenCommands) (readBytes cs))
    (hscan : a'.scan (readBytes ds) = .ok b') (hcuts : ¬ CutsShort b'.lexemes) :
    DropsEdits a' (readBytes cs) (readBytes ds) := by
  induction hedit generalizing a' with
  | nil | unread => exact trivial
  | @step a x c d cs ds hat hnext _ ih =>
    by_cases hc : c = 255
    · obtain rfl := (editedAt_eof hat).mp hc
      subst hc
      exact trivial
    · have hd := mt (editedAt_eof hat).mpr hc
      rw [readBytes_cons hc] at hlines ⊢
      rw [readBytes_cons hd] at hscan ⊢
      obtain ⟨hline, hrest⟩ := hlines
      obtain ⟨x', hnext', hrun⟩ := scan_cons_eq_ok.mp hscan
      have hdrops : isBlank c = true → d = chr '\n' → a'.Drops := by
        rintro hblank rfl
        by_contra hkept
        cases hat with
        | keep => cases hblank
        | separator => cases hblank
        | blank _ _ hasking =>
          have hcut := cutsShort_of_kept hsound h hasking hnext' hkept
          exact hcuts (hcut.grows (scan_grows hrun))
      obtain ⟨b'', hgo, halike⟩ := h.edited hsound hat hline hdrops hnext
      obtain rfl : b'' = x' := Except.ok.inj (hgo.symm.trans hnext')
      refine ⟨hdrops, fun y hy => ?_⟩
      obtain rfl : b'' = y := Except.ok.inj (hgo.symm.trans hy)
      exact ih halike (hsound.reads (reads_of_next hnext) hline) (hrest x hnext) hrun

end Scanner

open Scanner

/-- The script with newlines delivers the same trees exactly if the newlines in place of blanks are
dropped: behind `else` they are not, and behind `|` only some are. -/
theorem newlines_for_semicolons_iff (h : Delivers fuel script trees)
    (hlines : OneCommandPerLine script) (hedit : Edited .start script script') :
    Delivers fuel script' trees ↔ DropsEdits .start (readBytes script) (readBytes script') := by
  obtain ⟨tl, hlex⟩ := h.lexScript
  obtain ⟨ls, hls, _⟩ := (mirrors_lexScript script).ok_left hlex
  obtain ⟨a, b, hscan, hend, rfl⟩ := scriptScan_eq_ok.mp hls
  constructor
  · intro h'
    obtain ⟨tl', hlex'⟩ := h'.lexScript
    obtain ⟨ls', hls', _⟩ := (mirrors_lexScript script').ok_left hlex'
    have hcuts := not_cutsShort h' hls'
    obtain ⟨a', b', hscan', hend', rfl⟩ := scriptScan_eq_ok.mp hls'
    exact (alike_refl .start).drops hedit lineSound_start hlines hscan'
      fun hcut => hcuts (hcut.grows (reads_of_next hend').grows)
  · intro hdrops
    obtain ⟨a', hscan', halike⟩ :=
      (alike_refl .start).scan hedit lineSound_start hlines hdrops hscan
    obtain ⟨b', hreads, halike'⟩ := halike.reads (reads_of_next hend) fun hzero => by cases hzero
    have hsame : b'.lexemes = b.lexemes := by
      obtain ⟨_, _⟩ := halike'
      rfl
    exact h.of_scan hls (scriptScan_eq_ok.mpr ⟨a', b', hscan', next_of_reads hreads, hsame⟩)

/-- The script `a| (b;c)` with a newline in place of the blank and of the `;`. -/
theorem newlines_for_semicolons_iff_subshell :
    Delivers 6 [97, 124, 10, 40, 98, 10, 99, 41, 10] [.pipe .fresh (.simple .fresh [[97]])
      (.subshell .fresh (.sequence .fresh (.simple .fresh [[98]]) (.simple .fresh [[99]])))] := by
  have hstream : makeCommandStream 6 [97, 124, 32, 40, 98, 59, 99, 41, 10] =
      .ok (some ⟨[.pipe .fresh (.simple .fresh [[97]]) (.subshell .fresh
        (.sequence .fresh (.simple .fresh [[98]]) (.simple .fresh [[99]])))], 0⟩) := by
    decide +kernel
  have hlines : OneCommandPerLine [97, 124, 32, 40, 98, 59, 99, 41, 10] := by
    unfold OneCommandPerLine
    decide +kernel
  have hedit : Edited .start ([97, 124] ++ 32 :: ([40, 98] ++ 59 :: ([99, 41, 10] ++ [])))
      ([97, 124] ++ 10 :: ([40, 98] ++ 10 :: ([99, 41, 10] ++ []))) := by
    refine .of_scan (b := ⟨[.word [97], .mark .tokPipe], [], false, false, 124, 124⟩)
      (by decide +kernel) (.step (b := ⟨[.word [97], .mark .tokPipe], [], false, false, 32, 124⟩)
        (.blank rfl rfl ⟨_, rfl, rfl⟩) (by decide +kernel) ?_)
    refine .of_scan (b := ⟨[.word [97], .mark .tokPipe, .mark .tokLparen], [98], false, false,
      98, 98⟩) (by decide +kernel) (.step (b := ⟨[.word [97], .mark .tokPipe, .mark .tokLparen,
        .word [98], .mark .tokSc], [], false, false, 59, 59⟩) ?_ (by decide +kernel) ?_)
    · exact .separator rfl (by decide +kernel)
        ⟨.word [98], by decide +kernel, rfl, by decide, by decide⟩
    · exact .of_scan (b := ⟨[.word [97], .mark .tokPipe, .mark .tokLparen, .word [98],
        .mark .tokSc, .word [99], .mark .tokRparen, .mark .tokNl], [], false, false, 10, 41⟩)
        (by decide +kernel) .nil
  exact (newlines_for_semicolons_iff (delivers_of_stream hstream) hlines hedit).mpr
    (by decide +kernel)

/-- A newline behind `else`: the script `if a;then b;else c;fi`. -/
theorem newline_behind_else :
    Delivers 6 [105, 102, 32, 97, 59, 116, 104, 101, 110, 32, 98, 59, 101, 108, 115, 101, 32, 99,
        59, 102, 105, 10]
      [.ifElse .fresh (.simple .fresh [[97]]) (.simple .fresh [[98]]) (.simple .fresh [[99]])] ∧
    OneCommandPerLine [105, 102, 32, 97, 59, 116, 104, 101, 110, 32, 98, 59, 101, 108, 115, 101,
        32, 99, 59, 102, 105, 10] ∧
    Edited .start [105, 102, 32, 97, 59, 116, 104, 101, 110, 32, 98, 59, 101, 108, 115, 101, 32, 99,
        59, 102, 105, 10] [105, 102, 32, 97, 59, 116, 104, 101, 110, 32, 98, 59, 101, 108, 115, 101,
        10, 99, 59, 102, 105, 10] ∧
    makeCommandStream 6 [105, 102, 32, 97, 59, 116, 104, 101, 110, 32, 98, 59, 101, 108, 115, 101,
        10, 99, 59, 102, 105, 10] = .error (.syntaxError 2 "Invalid token") := by
  refine ⟨delivers_of_stream (by decide +kernel), ?_, ?_, by decide +kernel⟩
  · unfold OneCommandPerLine
    decide +kernel
  · let ls : List Lexeme := [.mark .tokIf, .word [97], .mark .tokSc, .mark .tokThen, .word [98],
      .mark .tokSc]
    have hedit : Edited .start
        ([105, 102, 32, 97, 59, 116, 104, 101, 110, 32, 98, 59, 101, 108, 115, 101] ++
          32 :: ([99, 59, 102, 105, 10] ++ []))
        ([105, 102, 32, 97, 59, 116, 104, 101, 110, 32, 98, 59, 101, 108, 115, 101] ++
          10 :: ([99, 59, 102, 105, 10] ++ [])) := by
      refine .of_scan (b := ⟨ls, [101, 108, 115, 101], false, false, 101, 101⟩) (by decide +kernel)
        (.step (b := ⟨ls ++ [.mark .tokElse], [], false, false, 32, 101⟩)
          (.blank rfl rfl ⟨.mark .tokElse, by decide +kernel, rfl⟩) (by decide +kernel) ?_)
      exact .of_scan (b := ⟨ls ++ [.mark .tokElse, .word [99], .mark .tokSc, .mark .tokFi,
        .mark .tokNl], [], false, false, 10, 105⟩) (by decide +kernel) .nil
    exact hedit

end CS111.Shell
