import CS111.Shell.Continued
import CS111.Shell.ScannerRuns

/-!
# Blank lines, comments and trailing blanks

A script and the script with padding are scanned side by side: the same lines, with blanks and
comments inserted in front of their newlines and lines of blanks and comments behind. The padding is
harmless where the newlines behind it leave no token that the newlines of the script do not leave.
-/

namespace CS111.Shell

set_option autoImplicit false

open Fallible

variable {a a' b b' s : Scanner} {c d e : UInt8} {t : TokenType}
  {bs cs w : List UInt8} {ws : List (List UInt8)} {ls : List Lexeme}

/-! ## Padding -/

/-- A `#` and what it hides. -/
def IsComment (w : List UInt8) : Prop := ∃ text, w = chr '#' :: text ∧ chr '\n' ∉ text ∧ 255 ∉ text

/-- Blanks, and a comment behind them or none. -/
def IsFiller (w : List UInt8) : Prop :=
  ∃ bs cs, w = bs ++ cs ∧ (∀ c ∈ bs, isBlank c = true) ∧ (cs = [] ∨ IsComment cs)

/-- A line of a script with what is inserted in front of its newline and the lines behind. -/
structure PaddedLine where
  text : List UInt8
  tail : List UInt8
  after : List (List UInt8)

def plainScript (lines : List PaddedLine) : List UInt8 :=
  lines.flatMap fun line => line.text ++ [chr '\n']

def fillerLines (ws : List (List UInt8)) : List UInt8 := ws.flatMap fun w => w ++ [chr '\n']

def PaddedLine.padded (line : PaddedLine) : List UInt8 :=
  line.text ++ line.tail ++ chr '\n' :: fillerLines line.after

def paddedScript (lead : List (List UInt8)) (lines : List PaddedLine) : List UInt8 :=
  fillerLines lead ++ lines.flatMap PaddedLine.padded

/-- A comment at the end of a line has a blank before it. -/
structure PaddedLine.Valid (line : PaddedLine) : Prop where
  tail : IsFiller line.tail
  blank : line.tail.head? ≠ some (chr '#')
  after : ∀ w ∈ line.after, IsFiller w

namespace Scanner

/-- A filler behind which a newline leaves no token: it adds nothing, or the last token wants no
newline, or blanks alone stand behind a `;` inside of a compound command. -/
def Takes (a : Scanner) (w : List UInt8) : Prop :=
  (w = [] ∨ a.inComment = true) ∨ ∃ last ∈ a.flush.lexemes.getLast?, isReserved last.type = true ∨
    (∀ c ∈ w, isBlank c = true) ∧ a.lastSpecial = chr ';' ∧ a.flush.depth ≠ 0

instance (a : Scanner) (w : List UInt8) : Decidable (a.Takes w) :=
  inferInstanceAs (Decidable (_ ∨ _))

end Scanner

/-- What is inserted stands behind newlines that leave a token, or is taken. -/
def TakesPadding : Scanner → List PaddedLine → Prop
  | _, [] => True
  | a, line :: lines => 255 ∉ line.text → ∀ b, a.scan line.text = .ok b →
      (b.Drops → b.Takes line.tail) ∧
        ∀ d, b.next (chr '\n') = .ok d → (∀ w ∈ line.after, d.Takes w) ∧ TakesPadding d lines

instance decidableTakesPadding :
    ∀ (a : Scanner) (lines : List PaddedLine), Decidable (TakesPadding a lines)
  | _, [] => .isTrue trivial
  | a, line :: lines =>
    match hscan : a.scan line.text with
    | .error _ => .isTrue (by simp [TakesPadding, hscan])
    | .ok b =>
      match hnext : b.next (chr '\n') with
      | .error _ =>
        decidable_of_iff (255 ∉ line.text → b.Drops → b.Takes line.tail)
          (by simp [TakesPadding, hscan, hnext])
      | .ok d =>
        have := decidableTakesPadding d lines
        decidable_of_iff (255 ∉ line.text → (b.Drops → b.Takes line.tail) ∧
          (∀ w ∈ line.after, d.Takes w) ∧ TakesPadding d lines)
          (by simp [TakesPadding, hscan, hnext])

def HarmlessPadding (lead : List (List UInt8)) (lines : List PaddedLine) : Prop :=
  (∀ w ∈ lead, Scanner.start.Takes w) ∧ TakesPadding .start lines

instance (lead : List (List UInt8)) (lines : List PaddedLine) :
    Decidable (HarmlessPadding lead lines) := inferInstanceAs (Decidable (_ ∧ _))

theorem IsComment.head (h : IsComment w) : w.head? = some (chr '#') ∧ chr '#' ∈ w := by
  obtain ⟨text, rfl, _⟩ := h
  exact ⟨rfl, List.mem_cons_self⟩

theorem IsFiller.not_newline (h : IsFiller w) : chr '\n' ∉ w ∧ 255 ∉ w := by
  obtain ⟨bs, cs, rfl, hbs, hcs⟩ := h
  have hblanks : ∀ d : UInt8, isBlank d = false → d ∉ bs := by
    intro d hd hmem
    rw [hbs d hmem] at hd
    cases hd
  rw [List.mem_append, List.mem_append, not_or, not_or]
  refine ⟨⟨hblanks _ rfl, ?_⟩, hblanks _ rfl, ?_⟩
  · rcases hcs with rfl | ⟨text, rfl, hnl, _⟩
    · simp
    · exact fun hmem => (List.mem_cons.mp hmem).elim (by decide) hnl
  · rcases hcs with rfl | ⟨text, rfl, _, heof⟩
    · simp
    · exact fun hmem => (List.mem_cons.mp hmem).elim (by decide) heof

theorem eof_not_mem_fillerLines (h : ∀ w ∈ ws, IsFiller w) : 255 ∉ fillerLines ws := by
  intro hmem
  obtain ⟨w, hw, hmem⟩ := List.mem_flatMap.mp hmem
  rcases List.mem_append.mp hmem with hmem | hmem
  · exact (h w hw).not_newline.2 hmem
  · exact absurd (List.mem_singleton.mp hmem) (by decide)

namespace Scanner

/-! ## What a filler does -/

theorem scan_quiet (hcomment : a.inComment = true) (hnl : chr '\n' ∉ w) : a.scan w = .ok a := by
  induction w with
  | nil => rfl
  | cons c w ih =>
    rw [List.mem_cons, not_or] at hnl
    exact scan_cons_eq_ok.mpr
      ⟨a, next_of_reads (.skip hcomment fun hc => hnl.1 hc.symm), ih hnl.2⟩

theorem blank_special (hblank : isBlank c = true) :
    (a.flush.after c) = a.flush.withLast c a.lastSpecial := by
  have hc : c = chr ' ' ∨ c = chr '\t' := by simpa [isBlank] using hblank
  rw [← flush_lastSpecial]
  rcases hc with rfl | rfl
  · rfl
  · rfl

theorem scan_blanks (hopen : a.inComment = false) (hbs : ∀ c ∈ bs, isBlank c = true)
    (hne : bs ≠ []) : ∃ c, isBlank c = true ∧ a.scan bs = .ok (a.flush.withLast c a.lastSpecial) := by
  induction bs generalizing a with
  | nil => exact absurd rfl hne
  | cons c bs ih =>
    have hblank := hbs c List.mem_cons_self
    have hnext := next_of_reads (.blank hopen hblank)
    rw [blank_special hblank] at hnext
    by_cases hnil : bs = []
    · subst hnil
      exact ⟨c, hblank, scan_cons_eq_ok.mpr ⟨_, hnext, rfl⟩⟩
    · obtain ⟨c', hblank', hscan⟩ := ih (a := a.flush.withLast c a.lastSpecial)
        (by rw [withLast_inComment, flush_inComment, hopen])
        (fun d hd => hbs d (List.mem_cons_of_mem c hd)) hnil
      rw [withLast_flush, flush_flush] at hscan
      exact ⟨c', hblank', scan_cons_eq_ok.mpr ⟨_, hnext, hscan⟩⟩

theorem scan_comment (hopen : a.inComment = false) (hmay : a.mayComment = true)
    (h : IsComment w) : a.scan w =
      .ok (({ a with simple := false, inComment := true } : Scanner).withLast (chr '#') (chr '#')) := by
  obtain ⟨text, rfl, hnl, _⟩ := h
  exact scan_cons_eq_ok.mpr ⟨_, next_of_reads (.comment hopen hmay), scan_quiet rfl hnl⟩

theorem atLineEnd_comment (h : a.pending = []) :
    ({ a with simple := false, inComment := true } : Scanner).atLineEnd = a.atLineEnd := by
  rw [atLineEnd_eq a, flush_of_nil h, atLineEnd_eq]
  rw [flush_of_nil (show ({ a with simple := false, inComment := true } : Scanner).pending = [] from h)]

/-- Where a filler leads. Behind a comment it does nothing, and elsewhere it ends the word under
way. -/
inductive Filled (a : Scanner) (w : List UInt8) : Scanner → Prop
  | same : w = [] ∨ a.inComment = true → Filled a w a
  | blank {s : Scanner} : w ≠ [] → a.inComment = false → (∀ c ∈ w, isBlank c = true) →
      isBlank s.lastC = true → s.lastSpecial = a.lastSpecial →
      s.atLineEnd = a.atLineEnd.withLast s.lastC s.lastSpecial → Filled a w s
  | comment {s : Scanner} : chr '#' ∈ w → a.inComment = false → s.lastC = chr '#' →
      s.lastSpecial = chr '#' → s.atLineEnd = a.atLineEnd.withLast s.lastC s.lastSpecial →
      Filled a w s

theorem Filled.line (h : Filled a w s) :
    s.atLineEnd = a.atLineEnd.withLast s.lastC s.lastSpecial := by
  cases h with
  | same => rw [← withLast_atLineEnd, withLast_self]
  | blank _ _ _ _ _ hline => exact hline
  | comment _ _ _ _ hline => exact hline

theorem flush_atLineEnd (h : b.flush = a.flush) (d e : UInt8) :
    (b.withLast d e).atLineEnd = a.atLineEnd.withLast d e := by
  rw [withLast_atLineEnd, atLineEnd_eq, atLineEnd_eq, h]

/-- A filler is scanned, unless a comment begins behind a word. -/
theorem scan_filler (h : IsFiller w) (hbegin : a.inComment = false → w.head? = some (chr '#') →
    a.pending = [] ∧ a.mayComment = true) : ∃ s, a.scan w = .ok s ∧ Filled a w s := by
  by_cases hcomment : a.inComment = true
  · exact ⟨a, scan_quiet hcomment h.not_newline.1, .same (.inr hcomment)⟩
  have hopen : a.inComment = false := Bool.eq_false_iff.mpr hcomment
  obtain ⟨bs, cs, rfl, hbs, hcs⟩ := h
  by_cases hnil : bs = []
  · subst hnil
    rcases hcs with rfl | hcs
    · exact ⟨a, rfl, .same (.inl rfl)⟩
    · obtain ⟨hpending, hmay⟩ := hbegin hopen hcs.head.1
      refine ⟨_, scan_comment hopen hmay hcs, .comment hcs.head.2 hopen rfl rfl ?_⟩
      rw [withLast_atLineEnd, atLineEnd_comment hpending]
      rfl
  · obtain ⟨c, hblank, hscan⟩ := scan_blanks hopen hbs hnil
    rcases hcs with rfl | hcs
    · rw [List.append_nil]
      exact ⟨_, hscan, .blank hnil hopen hbs hblank rfl (flush_atLineEnd a.flush_flush _ _)⟩
    · have hmay : (a.flush.withLast c a.lastSpecial).mayComment = true := by
        have hc : c = chr ' ' ∨ c = chr '\t' := by simpa [isBlank] using hblank
        rcases hc with rfl | rfl
        · rfl
        · rfl
      have hopen' : (a.flush.withLast c a.lastSpecial).inComment = false := by
        rw [withLast_inComment, flush_inComment, hopen]
      have hpending : (a.flush.withLast c a.lastSpecial).pending = [] := a.flush_pending
      refine ⟨_, scan_append_eq_ok.mpr ⟨_, hscan, scan_comment hopen' hmay hcs⟩,
        .comment (List.mem_append_right bs hcs.head.2) hopen rfl rfl ?_⟩
      rw [withLast_atLineEnd, atLineEnd_comment hpending, flush_atLineEnd a.flush_flush]
      rfl

/-! ## The two scripts side by side -/

/-- A `;` does not stand as the last special character behind a `;` token. -/
def Settled (a : Scanner) : Prop :=
  a.lastSpecial = chr ';' → ∀ l ∈ a.lexemes.getLast?, l.type ≠ .tokSc

/-- The scanners differ in their last characters only, by what has been inserted. -/
inductive Near (a : Scanner) : Scanner → Prop
  | intro {d e : UInt8} : (d = a.lastC ∨ a.lastC = 0 ∧ d = chr '\n') →
      (e = a.lastSpecial ∨ e = chr '#' ∧ a.Settled) → Near a (a.withLast d e)

theorem near_refl (a : Scanner) : Near a a := .intro (.inl rfl) (.inl rfl)

theorem Near.runsOn (h : Near a a') : a'.runsOn = a.runsOn := by
  obtain ⟨rfl | ⟨hzero, rfl⟩, _⟩ := h
  · rfl
  · unfold Scanner.runsOn
    rw [hzero]
    rfl

theorem Near.arrow (h : Near a a') (hafter : a'.afterRedirect = true) : a'.lastC = a.lastC := by
  obtain ⟨rfl | ⟨_, rfl⟩, _⟩ := h
  · rfl
  · cases hafter

theorem Near.mayComment (h : Near a a') (hmay : a.mayComment = true) : a'.mayComment = true := by
  obtain ⟨rfl | ⟨_, rfl⟩, _⟩ := h
  · exact hmay
  · rfl

theorem Settled.of_flush (h : a.Settled) (hsound : a.Sound) (hlexemes : b.lexemes = a.flush.lexemes)
    (hspecial : b.lastSpecial = a.lastSpecial) : b.Settled := by
  intro hsemi
  rw [hspecial] at hsemi
  rw [hlexemes, flush_of_special hsound hsemi]
  exact h hsemi

theorem Near.inComment (h : Near a a') : a'.inComment = a.inComment := by
  obtain ⟨_, _⟩ := h
  rfl

theorem Near.atLineEnd (h : Near a a') :
    a'.atLineEnd = a.atLineEnd.withLast a'.lastC a'.lastSpecial := by
  obtain ⟨_, _⟩ := h
  exact withLast_atLineEnd

/-- The lexemes and the depth at the newline are those of `a`. -/
theorem swallowed_iff (h : s.atLineEnd = a.atLineEnd.withLast s.lastC s.lastSpecial) :
    s.Swallowed ↔ ∃ last ∈ a.flush.lexemes.getLast?,
      isReserved last.type = true ∨ s.lastSpecial = chr ';' ∧ a.flush.depth ≠ 0 := by
  unfold Swallowed swallows depth
  rw [h, withLast_lexemes, withLast_lastSpecial, atLineEnd_lexemes]
  rfl

/-- Where the last special characters differ, the last token is a newline or no `;`. -/
theorem Near.special_iff (h : Near a a') (hsound : a.Sound) {last : Lexeme} {D : Prop}
    (hlast : last ∈ a.flush.lexemes.getLast?) :
    isReserved last.type = true ∨ a'.lastSpecial = chr ';' ∧ D ↔
      isReserved last.type = true ∨ a.lastSpecial = chr ';' ∧ D := by
  obtain @⟨d, _, _, rfl | ⟨rfl, hsettled⟩⟩ := h
  · exact Iff.rfl
  · constructor
    · have hsign : (a.withLast d (chr '#')).lastSpecial ≠ chr ';' := show chr '#' ≠ chr ';' by decide
      exact fun h => h.imp_right fun hsemi => absurd hsemi.1 hsign
    · rintro (hreserved | ⟨hsemi, _⟩)
      · exact .inl hreserved
      · rw [flush_of_special hsound hsemi] at hlast
        obtain ⟨_, l, hl, htype⟩ := hsound.special hsemi
        obtain rfl : last = l := Option.some.inj (hlast.symm.trans hl)
        refine .inl ?_
        rw [htype.resolve_left (hsettled hsemi last hl)]
        rfl

theorem Near.drops_iff (h : Near a a') (hsound : a.Sound) : a'.Drops ↔ a.Drops := by
  unfold Drops
  rw [h.runsOn, swallowed_iff h.atLineEnd, swallowed_iff (near_refl a).atLineEnd]
  refine or_congr_right (exists_congr fun last => and_congr_right fun hlast => ?_)
  exact h.special_iff hsound hlast

/-- Where the filler is something of its own, the newline does not see what is in front of it. -/
theorem not_runsOn (hc : isBlank s.lastC = true ∨ s.lastC = chr '#') : s.runsOn = false := by
  have hc : s.lastC = chr ' ' ∨ s.lastC = chr '\t' ∨ s.lastC = chr '#' := by
    simpa [isBlank, or_assoc] using hc
  unfold runsOn
  rcases hc with hc | hc | hc
  · rw [hc]
    rfl
  · rw [hc]
    rfl
  · rw [hc]
    rfl

theorem Near.filled_line (h : Near a a') (hfill : Filled a' w s) :
    s.atLineEnd = a.atLineEnd.withLast s.lastC s.lastSpecial := by
  rw [hfill.line, h.atLineEnd]
  rfl

/-- Whether the newline behind a filler leaves a token. -/
theorem Near.filled_drops_iff (h : Near a a') (hfill : Filled a' w s) (hsound : a.Sound) :
    s.Drops ↔ a.Takes w ∧ (w = [] ∨ a.inComment = true → a.Drops) := by
  have hline := h.filled_line hfill
  cases hfill with
  | same hsame =>
    rw [h.inComment] at hsame
    rw [h.drops_iff hsound]
    exact ⟨fun hdrops => ⟨.inl hsame, fun _ => hdrops⟩, fun hdrops => hdrops.2 hsame⟩
  | blank hne hopen hblanks hlast hspecial =>
    rw [h.inComment] at hopen
    have hown : ¬ (w = [] ∨ a.inComment = true) := by simp [hne, hopen]
    simp only [Drops, not_runsOn (.inl hlast), Bool.false_eq_true, false_or, hown, false_imp_iff,
      and_true, Takes, swallowed_iff hline, hspecial]
    refine exists_congr fun last => and_congr_right fun hmem => ?_
    rw [h.special_iff hsound hmem]
    simp only [and_iff_right hblanks]
  | comment hmem hopen hlast hspecial =>
    rw [h.inComment] at hopen
    have hne : w ≠ [] := by
      rintro rfl
      cases hmem
    have hown : ¬ (w = [] ∨ a.inComment = true) := by simp [hne, hopen]
    have hsign : chr '#' ≠ chr ';' := by decide
    have hblanks : ¬ ∀ c ∈ w, isBlank c = true := fun hall => absurd (hall _ hmem) (by decide)
    simp only [Drops, not_runsOn (.inr hlast), Bool.false_eq_true, false_or, hown, false_imp_iff,
      and_true, Takes, swallowed_iff hline, hspecial, hsign, hblanks, false_and]

theorem Near.drops_of_filled (h : Near a a') (hfill : Filled a' w s) (hsound : a.Sound)
    (hdrops : s.Drops) : a.Drops := by
  obtain ⟨htakes, hown⟩ := (h.filled_drops_iff hfill hsound).mp hdrops
  rcases htakes with hsame | ⟨last, hlast, htakes⟩
  · exact hown hsame
  · exact .inr ((swallowed_iff (near_refl a).atLineEnd).mpr
      ⟨last, hlast, htakes.imp_right And.right⟩)

theorem Near.filled_arrow (h : Near a a') (hfill : Filled a' w s) (hafter : s.afterRedirect = true) :
    s.lastC = a.lastC := by
  cases hfill with
  | same => exact h.arrow hafter
  | blank _ _ _ hlast =>
    have hc : s.lastC = chr ' ' ∨ s.lastC = chr '\t' := by simpa [isBlank] using hlast
    unfold afterRedirect at hafter
    rcases hc with hc | hc
    · rw [hc] at hafter
      cases hafter
    · rw [hc] at hafter
      cases hafter
  | comment _ _ hlast =>
    unfold afterRedirect at hafter
    rw [hlast] at hafter
    cases hafter

/-- A comment is the last special character only behind a token that wants no newline, if the
newline is dropped. -/
theorem Near.filled_special (h : Near a a') (hfill : Filled a' w s) :
    s.lastSpecial = a.lastSpecial ∨ s.lastSpecial = chr '#' ∧ (a.Settled ∨ s.runsOn = false) := by
  have hnear : a'.lastSpecial = a.lastSpecial ∨ a'.lastSpecial = chr '#' ∧ a.Settled := by
    obtain ⟨_, he⟩ := h
    exact he
  cases hfill with
  | same => exact hnear.imp_right fun h => ⟨h.1, .inl h.2⟩
  | blank _ _ _ _ hspecial =>
    rw [hspecial]
    exact hnear.imp_right fun h => ⟨h.1, .inl h.2⟩
  | comment _ _ hlast hspecial => exact .inr ⟨hspecial, .inr (not_runsOn (.inr hlast))⟩

theorem Near.special_of_drops (h : Near a a') (hfill : Filled a' w s) (hsound : a.Sound)
    (hdrops : s.Drops) : s.lastSpecial = a.lastSpecial ∨ s.lastSpecial = chr '#' ∧
      ∀ {b : Scanner}, b.lexemes = a.flush.lexemes → b.lastSpecial = a.lastSpecial → b.Settled := by
  refine (h.filled_special hfill).imp_right fun hcomment => ⟨hcomment.1, fun hlexemes hspecial => ?_⟩
  rcases hcomment.2 with hsettled | hruns
  · exact hsettled.of_flush hsound hlexemes hspecial
  · have hswallowed := hdrops.resolve_left (by rw [hruns]; exact Bool.false_ne_true)
    obtain ⟨last, hlast, hreserved⟩ := (swallowed_iff (h.filled_line hfill)).mp hswallowed
    have hwaits : isReserved last.type = true := hreserved.resolve_right fun hsemi =>
      absurd (hcomment.1.symm.trans hsemi.1) (by decide)
    intro _ l hl hsc
    rw [hlexemes] at hl
    obtain rfl : l = last := Option.some.inj (hl.symm.trans hlast)
    rw [hsc] at hwaits
    cases hwaits

theorem near_after {x : Scanner} (he : strchr [chr ' ', chr '\t', chr '\n'] c = true →
    e = x.lastSpecial ∨ e = chr '#' ∧ (x.after c).Settled) :
    Near (x.after c) ((x.withLast d e).after c) := by
  rw [withLast_after]
  refine .intro (.inl rfl) ?_
  change (if strchr _ c = true then e else c) = (if strchr _ c = true then x.lastSpecial else c) ∨
    (if strchr _ c = true then e else c) = chr '#' ∧ _
  split
  · next hblank => exact he hblank
  · exact .inl rfl

theorem atLineEnd_lastSpecial (a : Scanner) : a.atLineEnd.lastSpecial = a.lastSpecial := by
  rw [atLineEnd_eq]
  exact flush_lastSpecial a

/-- The newline of a line, behind what is inserted. -/
theorem Near.newline (h : Near a a') (hfill : Filled a' w s) (hsound : a.Sound)
    (hdrops : a.Drops → s.Drops) (hnext : a.next (chr '\n') = .ok b) :
    ∃ b', s.next (chr '\n') = .ok b' ∧ Near b b' := by
  have hline := h.filled_line hfill
  have harrow : s.afterRedirect = true → a.afterRedirect = true ∧ s.lastC = a.lastC := by
    intro hafter
    have hlast := h.filled_arrow hfill hafter
    exact ⟨by rwa [afterRedirect, ← hlast], hlast⟩
  have hlexemes : s.atLineEnd.lexemes = a.atLineEnd.lexemes := by rw [hline, withLast_lexemes]
  have hdepth : s.atLineEnd.depth = a.atLineEnd.depth := by rw [depth, hlexemes, depth]
  have hspecial : ∀ t, (a.atLineEnd.emit t).lastSpecial = a.lastSpecial :=
    fun _ => a.atLineEnd_lastSpecial
  rcases next_newline_eq_ok_iff.mp hnext with
    ⟨hafter, ⟨hdrop, rfl⟩ | ⟨hkeep, hne, ⟨hdeep, rfl⟩ | ⟨hdeep, hplain, rfl⟩⟩⟩
  · refine ⟨_, next_of_reads (.dropped (fun hredirect => ?_) (hdrops hdrop)), ?_⟩
    · obtain ⟨hredirect, hlast⟩ := harrow hredirect
      rw [hlast]
      exact hafter hredirect
    · rw [hline]
      refine near_after fun _ => ?_
      rw [atLineEnd_lastSpecial]
      exact (h.special_of_drops hfill hsound (hdrops hdrop)).imp_right fun hcomment =>
        ⟨hcomment.1, hcomment.2 a.atLineEnd_lexemes a.atLineEnd_lastSpecial⟩
  · refine ⟨_, next_of_reads (.separator (fun hredirect => ?_)
      (fun hdrop => hkeep (h.drops_of_filled hfill hsound hdrop)) (hlexemes ▸ hne)
      (hdepth ▸ hdeep)), ?_⟩
    · obtain ⟨hredirect, hlast⟩ := harrow hredirect
      rw [hlast]
      exact hafter hredirect
    · rw [hline, withLast_emit]
      refine near_after fun _ => ?_
      rw [hspecial]
      refine (h.filled_special hfill).imp_right fun hcomment => ⟨hcomment.1, fun hsemi => ?_⟩
      obtain ⟨last, hlast⟩ := Option.isSome_iff_exists.mp (List.getLast?_isSome.mpr hne)
      refine absurd (.inr ⟨last, hlast, .inr ⟨?_, hdeep.ne'⟩⟩) hkeep
      rw [atLineEnd_lastSpecial, ← hspecial .tokSc]
      exact hsemi
  · refine ⟨_, next_of_reads (.ended (fun hdrop => hkeep (h.drops_of_filled hfill hsound hdrop))
      (hlexemes ▸ hne) (hdepth ▸ hdeep) ?_), ?_⟩
    · rw [Bool.eq_false_iff]
      intro hredirect
      rw [(harrow hredirect).1] at hplain
      cases hplain
    · rw [hline, withLast_emit]
      refine near_after fun _ => ?_
      rw [hspecial]
      refine (h.filled_special hfill).imp_right fun hcomment => ⟨hcomment.1, fun _ l hl hsc => ?_⟩
      obtain rfl : l = .mark .tokNl := Option.some.inj (hl.symm.trans (emit_last _ _))
      cases hsc

/-- A character that both scripts have. -/
theorem Near.next (h : Near a a') (hsound : a.Sound) (hnext : a.next c = .ok b) :
    ∃ b', a'.next c = .ok b' ∧ Near b b' := by
  by_cases hnewline : c = chr '\n'
  · subst hnewline
    exact h.newline (w := []) (.same (.inl rfl)) hsound (h.drops_iff hsound).mpr hnext
  have hcopy := h
  obtain @⟨d, e, hd, he⟩ := h
  have hflush : Near (a.flush.after c) ((a.withLast d e).flush.after c) := by
    rw [withLast_flush]
    refine near_after fun hblank => ?_
    rw [flush_lastSpecial]
    refine he.imp_right fun hcomment => ⟨hcomment.1, hcomment.2.of_flush hsound rfl ?_⟩
    change (if strchr _ c = true then a.flush.lastSpecial else c) = a.lastSpecial
    rw [if_pos hblank, flush_lastSpecial]
  have hafter : a.afterRedirect = false → (a.withLast d e).afterRedirect = false := by
    intro hplain
    rw [Bool.eq_false_iff]
    intro hredirect
    have hlast := hcopy.arrow hredirect
    rw [afterRedirect, ← hlast] at hplain
    exact Bool.false_ne_true (hplain.symm.trans hredirect)
  cases reads_of_next hnext with
  | skip hcomment hc =>
    exact ⟨_, next_of_reads (.skip hcomment hc), hcopy⟩
  | blank hopen hblank => exact ⟨_, next_of_reads (.blank hopen hblank), hflush⟩
  | nul hopen => exact ⟨_, next_of_reads (.nul hopen), hflush⟩
  | @redirect _ t hopen ht htext hplain =>
    refine ⟨_, next_of_reads (.redirect hopen ht htext (hafter hplain)), ?_⟩
    rw [withLast_emit]
    exact near_after (x := (a.emit t).setSimple true)
      fun hblank => absurd hblank (sign_not_blank (.inl ht) htext)
  | delimiter hopen ht htext hplain =>
    refine ⟨_, next_of_reads (.delimiter hopen ht htext (hafter hplain)), ?_⟩
    rw [withLast_emit]
    exact near_after fun hblank => absurd hblank (sign_not_blank (.inr ht) htext)
  | comment hopen hmay =>
    refine ⟨_, next_of_reads (.comment hopen (hcopy.mayComment hmay)), ?_⟩
    exact near_after (x := { a with simple := false, inComment := true })
      fun hblank => absurd hblank (by decide)
  | word hopen hchar =>
    refine ⟨_, next_of_reads (.word hopen hchar), ?_⟩
    refine near_after (x := a.put c) fun hblank => ?_
    simp only [strchr, decide_eq_true_eq, List.mem_cons, List.not_mem_nil, or_false] at hblank
    rcases hblank with rfl | rfl | rfl | rfl <;> cases hchar
  | dropped | separator | ended => exact absurd rfl hnewline

theorem Near.scan (h : Near a a') (hsound : a.Sound) (hscan : a.scan bs = .ok b) :
    ∃ b', a'.scan bs = .ok b' ∧ Near b b' := by
  induction bs generalizing a a' with
  | nil =>
    cases hscan
    exact ⟨a', rfl, h⟩
  | cons c bs ih =>
    obtain ⟨x, hnext, hscan⟩ := scan_cons_eq_ok.mp hscan
    obtain ⟨x', hnext', hnear⟩ := h.next hsound hnext
    obtain ⟨b', hscan', hnear'⟩ := ih hnear (hsound.reads (reads_of_next hnext)) hscan
    exact ⟨b', scan_cons_eq_ok.mpr ⟨x', hnext', hscan'⟩, hnear'⟩

end Scanner

end CS111.Shell
