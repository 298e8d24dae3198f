import CS111.Shell.Padding

/-!
# Scripts with padding

Padding that is taken leaves the lexemes of a script as they are. A newline behind padding that is
not taken leaves a token where a command or a pipeline has to go on.
-/

namespace CS111.Shell

set_option autoImplicit false

open Fallible

variable {a a' b b' d d' s : Scanner} {c : UInt8} {bs w script : List UInt8}
  {ws lead : List (List UInt8)} {line : PaddedLine} {lines : List PaddedLine} {fuel : Nat}
  {trees : List Command}

namespace Scanner

/-! ## Inserted lines -/

structure LineStart (a : Scanner) : Prop where
  pending : a.pending = []
  simple : a.simple = false
  inComment : a.inComment = false
  lastC : a.lastC = 0 ∨ a.lastC = chr '\n'

theorem lineStart_start : start.LineStart := ⟨rfl, rfl, rfl, .inl rfl⟩

theorem lineStart_of_newline (h : a.next (chr '\n') = .ok b) : b.LineStart := by
  have hpending : a.atLineEnd.pending = [] := flush_pending _
  have hline : a.atLineEnd.inComment = false := by rw [atLineEnd_eq]
  rcases next_newline_eq_ok_iff.mp h with ⟨_, ⟨_, rfl⟩ | ⟨_, _, ⟨_, rfl⟩ | ⟨_, _, rfl⟩⟩⟩
  · exact ⟨hpending, rfl, hline, .inr rfl⟩
  · exact ⟨rfl, rfl, hline, .inr rfl⟩
  · exact ⟨rfl, rfl, hline, .inr rfl⟩

theorem LineStart.atLineEnd (h : a.LineStart) : a.atLineEnd = a := by
  obtain ⟨hpending, hsimple, hopen, _⟩ := h
  rw [atLineEnd_eq, flush_of_nil hpending]
  cases a
  cases hsimple
  cases hopen
  rfl

theorem LineStart.mayComment (h : a.LineStart) : a.mayComment = true := by
  unfold Scanner.mayComment
  rcases h.lastC with hc | hc
  · rw [hc]
    rfl
  · rw [hc]
    rfl

theorem LineStart.drops (h : a.LineStart) : a.Drops := by
  refine .inl ?_
  unfold runsOn
  rcases h.lastC with hc | hc
  · rw [hc]
    rfl
  · rw [hc]
    rfl

theorem Near.pending (h : Near a a') : a'.pending = a.pending := by
  obtain ⟨_, _⟩ := h
  rfl

theorem Near.scan_filler (h : Near a a') (hstart : a.LineStart) (hw : IsFiller w) :
    ∃ s, a'.scan w = .ok s ∧ Filled a' w s :=
  Scanner.scan_filler hw fun _ _ => ⟨h.pending.trans hstart.pending, h.mayComment hstart.mayComment⟩

/-- An inserted line that is taken. -/
theorem Near.fillerLine (h : Near a a') (hsound : a.Sound) (hstart : a.LineStart)
    (hfill : Filled a' w s) (htakes : a.Takes w) :
    ∃ b, s.next (chr '\n') = .ok b ∧ Near a b := by
  have hdrops : s.Drops := (h.filled_drops_iff hfill hsound).mpr ⟨htakes, fun _ => hstart.drops⟩
  refine ⟨_, next_of_reads (.dropped (fun hredirect => ?_) hdrops), ?_⟩
  · have hlast := h.filled_arrow hfill hredirect
    rcases hstart.lastC with hzero | hnewline
    · rw [hlast, hzero]
    · rw [afterRedirect, hlast, hnewline] at hredirect
      cases hredirect
  · rw [h.filled_line hfill, hstart.atLineEnd]
    refine .intro (hstart.lastC.symm.imp Eq.symm fun hzero => ⟨hzero, rfl⟩) ?_
    have hflush : a.lexemes = a.flush.lexemes := by rw [flush_of_nil hstart.pending]
    exact (h.special_of_drops hfill hsound hdrops).imp_right fun hcomment =>
      ⟨hcomment.1, hcomment.2 hflush rfl⟩

theorem fillerLines_cons (w : List UInt8) (ws : List (List UInt8)) :
    fillerLines (w :: ws) = w ++ chr '\n' :: fillerLines ws := by
  rw [fillerLines, List.flatMap_cons, List.append_assoc]
  rfl

theorem Near.fillerLines (h : Near a a') (hsound : a.Sound) (hstart : a.LineStart)
    (hws : ∀ w ∈ ws, IsFiller w) (htakes : ∀ w ∈ ws, a.Takes w) :
    ∃ b, a'.scan (fillerLines ws) = .ok b ∧ Near a b := by
  induction ws generalizing a' with
  | nil => exact ⟨a', rfl, h⟩
  | cons w ws ih =>
    obtain ⟨hw, hws⟩ := List.forall_mem_cons.mp hws
    obtain ⟨htake, htakes⟩ := List.forall_mem_cons.mp htakes
    obtain ⟨s, hscan, hfill⟩ := h.scan_filler hstart hw
    obtain ⟨b, hnext, hnear⟩ := h.fillerLine hsound hstart hfill htake
    obtain ⟨f, hrest, hnear'⟩ := ih hnear hws htakes
    rw [fillerLines_cons]
    exact ⟨f, scan_append_eq_ok.mpr ⟨s, hscan, scan_cons_eq_ok.mpr ⟨b, hnext, hrest⟩⟩, hnear'⟩

/-! ## Padding that is taken -/

theorem plainScript_cons (line : PaddedLine) (lines : List PaddedLine) :
    plainScript (line :: lines) = line.text ++ chr '\n' :: plainScript lines := by
  rw [plainScript, List.flatMap_cons, List.append_assoc]
  rfl

theorem padded_cons (line : PaddedLine) (lines : List PaddedLine) :
    (line :: lines).flatMap PaddedLine.padded =
      line.text ++ (line.tail ++ chr '\n' :: (fillerLines line.after ++
        lines.flatMap PaddedLine.padded)) := by
  rw [List.flatMap_cons, PaddedLine.padded]
  simp only [List.append_assoc, List.cons_append]

/-- A line, and the padding in front of its newline and behind it. -/
theorem Near.tail (h : Near a a') (hsound : a.Sound) (hvalid : line.Valid)
    (hscan : a.scan line.text = .ok b) :
    b.Sound ∧ ∃ x s, a'.scan line.text = .ok x ∧ Near b x ∧ x.scan line.tail = .ok s ∧
      Filled x line.tail s := by
  obtain ⟨x, hscan', hnear⟩ := h.scan hsound hscan
  obtain ⟨s, htail, hfill⟩ :=
    Scanner.scan_filler (a := x) hvalid.tail fun _ hhead => absurd hhead hvalid.blank
  exact ⟨hsound.scan hscan, x, s, hscan', hnear, htail, hfill⟩

theorem filled_drops_of_takes (h : Near a a') (hfill : Filled a' w s) (hsound : a.Sound)
    (htakes : a.Drops → a.Takes w) (hdrops : a.Drops) : s.Drops :=
  (h.filled_drops_iff hfill hsound).mpr ⟨htakes hdrops, fun _ => hdrops⟩

/-- The padded lines have the same lexemes. -/
theorem Near.padded (h : Near a a') (hsound : a.Sound) (hvalid : ∀ line ∈ lines, line.Valid)
    (htakes : TakesPadding a lines) (hscan : a.scan (readBytes (plainScript lines)) = .ok b) :
    ∃ b', a'.scan (readBytes (lines.flatMap PaddedLine.padded)) = .ok b' ∧ b.Sound ∧ Near b b' := by
  induction lines generalizing a a' with
  | nil =>
    cases hscan
    exact ⟨a', rfl, hsound, h⟩
  | cons line lines ih =>
    obtain ⟨hline, hvalid⟩ := List.forall_mem_cons.mp hvalid
    rw [plainScript_cons] at hscan
    rw [padded_cons]
    by_cases heof : 255 ∈ line.text
    · rw [readBytes_append_eof heof] at hscan ⊢
      obtain ⟨b', hscan', hnear⟩ := h.scan hsound hscan
      exact ⟨b', hscan', hsound.scan hscan, hnear⟩
    · rw [readBytes_append heof, readBytes_cons (by decide)] at hscan
      obtain ⟨y, htext, hscan⟩ := scan_append_eq_ok.mp hscan
      obtain ⟨d, hnext, hrest⟩ := scan_cons_eq_ok.mp hscan
      obtain ⟨htail, hafter⟩ := htakes heof y htext
      obtain ⟨hlines, htakes⟩ := hafter d hnext
      obtain ⟨hsound', x, s, htext', hnear, hfiller, hfill⟩ := h.tail hsound hline htext
      obtain ⟨d', hnext', hnear⟩ := hnear.newline hfill hsound'
        (filled_drops_of_takes hnear hfill hsound' htail) hnext
      have hsoundLine := hsound'.reads (reads_of_next hnext)
      obtain ⟨f, hfillers, hnear⟩ :=
        hnear.fillerLines hsoundLine (lineStart_of_newline hnext) hline.after hlines
      obtain ⟨b', hrest', hb⟩ := ih hnear hsoundLine hvalid htakes hrest
      refine ⟨b', ?_, hb⟩
      rw [readBytes_append heof, readBytes_append hline.tail.not_newline.2,
        readBytes_cons (by decide), readBytes_append (eof_not_mem_fillerLines hline.after)]
      exact scan_append_eq_ok.mpr ⟨x, htext', scan_append_eq_ok.mpr ⟨s, hfiller,
        scan_cons_eq_ok.mpr ⟨d', hnext', scan_append_eq_ok.mpr ⟨f, hfillers, hrest'⟩⟩⟩⟩

/-! ## Padding that is not taken -/

/-- The last token wants no newline behind it, or no `;`. -/
def Waiting (a : Scanner) : Prop :=
  ∀ last ∈ a.flush.lexemes.getLast?, isReserved last.type = true ∨ last.type = .tokPipe ∨
    last.type = .tokSc ∧ 0 < a.flush.depth

/-- A newline would be dropped because of the last character. -/
def Fresh (a : Scanner) : Prop := a.lastC = 0 ∨ a.lastC = chr '\n' → a.Waiting

/-- No text character is NUL, and no more commands have been closed than opened at a newline. -/
def OrdinaryAt (a : Scanner) (c : UInt8) : Prop :=
  (c = 0 → a.inComment = true) ∧ (c = chr '\n' → 0 ≤ a.flush.depth)

instance (a : Scanner) (c : UInt8) : Decidable (a.OrdinaryAt c) :=
  inferInstanceAs (Decidable (_ ∧ _))

theorem fresh_start : start.Fresh := fun _ last hlast => by cases hlast

theorem Waiting.of_flush (h : a.Waiting) (hlexemes : b.flush.lexemes = a.flush.lexemes) :
    b.Waiting := by
  unfold Waiting depth at h ⊢
  rwa [hlexemes]

/-- Where a newline is dropped, something is to come. -/
theorem Drops.waiting (h : a.Drops) (hsound : a.Sound) (hfresh : a.Fresh)
    (hdepth : 0 ≤ a.flush.depth) : a.Waiting := by
  have hsign : ∀ {l : Lexeme}, isWordChar a.lastC = false → a.lexemes.getLast? = some l →
      ∀ last ∈ a.flush.lexemes.getLast?, last = l := by
    intro l hchar hl last hlast
    have hnil : a.pending = [] := by
      by_contra hne
      rw [hsound.begun hne] at hchar
      cases hchar
    rw [flush_of_nil hnil] at hlast
    exact Option.some.inj (hlast.symm.trans hl)
  rcases h with hruns | hswallowed
  · simp only [runsOn, strchr, decide_eq_true_eq, List.mem_cons, List.not_mem_nil, or_false]
      at hruns
    rcases hruns with hc | hc | hc | hc
    · exact hfresh (.inl hc)
    · exact hfresh (.inr hc)
    · obtain ⟨l, hl, htype⟩ := hsound.opening hc
      intro last hlast
      rw [hsign (by rw [hc]; decide) hl last hlast, htype]
      exact .inl rfl
    · obtain ⟨l, hl, htype⟩ := hsound.bar hc
      intro last hlast
      rw [hsign (by rw [hc]; decide) hl last hlast]
      exact .inr (.inl htype)
  · obtain ⟨last', hlast', hwaits⟩ := (swallowed_iff (near_refl a).atLineEnd).mp hswallowed
    intro last hlast
    obtain rfl : last = last' := Option.some.inj (hlast.symm.trans hlast')
    rcases hwaits with hreserved | ⟨hsemi, hne⟩
    · exact .inl hreserved
    · obtain ⟨hnil, l, hl, htype⟩ := hsound.special hsemi
      rw [flush_of_nil hnil] at hlast
      obtain rfl : last = l := Option.some.inj (hlast.symm.trans hl)
      rcases htype with htype | htype
      · exact .inr (.inr ⟨htype, by omega⟩)
      · rw [htype]
        exact .inl rfl

theorem Fresh.reads (h : a.Fresh) (hsound : a.Sound) (hr : Reads a c b)
    (hordinary : a.OrdinaryAt c) : b.Fresh := by
  have hother : c ≠ 0 → c ≠ chr '\n' → b.lastC = c → b.Fresh := by
    intro hzero hnewline hlast hc
    rw [hlast] at hc
    exact (hc.elim hzero hnewline).elim
  cases hr with
  | skip => exact h
  | blank hopen hblank =>
    refine hother ?_ ?_ rfl
    · rintro rfl
      cases hblank
    · rintro rfl
      cases hblank
  | nul hopen =>
    rw [hordinary.1 rfl] at hopen
    cases hopen
  | redirect _ ht htext =>
    rcases (isRedirect_text ht htext).1 with rfl | rfl
    · exact hother (by decide) (by decide) rfl
    · exact hother (by decide) (by decide) rfl
  | delimiter _ ht htext =>
    rcases (isDelimiter_text ht htext).1 with rfl | rfl | rfl | rfl
    · exact hother (by decide) (by decide) rfl
    · exact hother (by decide) (by decide) rfl
    · exact hother (by decide) (by decide) rfl
    · exact hother (by decide) (by decide) rfl
  | comment => exact hother (by decide) (by decide) rfl
  | word _ hchar =>
    exact hother (ne_of_isWordChar hchar (by decide)) (ne_of_isWordChar hchar (by decide)) rfl
  | dropped _ hdrops =>
    intro _
    refine (hdrops.waiting hsound h (hordinary.2 rfl)).of_flush ?_
    have hpending : (a.atLineEnd.after (chr '\n')).pending = [] := flush_pending _
    rw [flush_of_nil hpending]
    exact a.atLineEnd_lexemes
  | separator _ _ _ hdeep =>
    intro _ last hlast
    obtain rfl : last = .mark .tokSc := Option.some.inj (hlast.symm.trans (emit_last _ _))
    refine .inr (.inr ⟨rfl, ?_⟩)
    change 0 < rise Lexeme.nest ((a.atLineEnd.emit .tokSc).lexemes)
    rw [emit_line_lexemes, rise_append, ← atLineEnd_lexemes]
    exact lt_of_lt_of_eq hdeep (add_zero _).symm
  | ended =>
    intro _ last hlast
    obtain rfl : last = .mark .tokNl := Option.some.inj (hlast.symm.trans (emit_last _ _))
    exact .inl rfl

theorem Fresh.scan (h : a.Fresh) (hsound : a.Sound) (hordinary : a.Throughout OrdinaryAt bs)
    (hscan : a.scan bs = .ok b) : b.Fresh := by
  induction bs generalizing a with
  | nil =>
    cases hscan
    exact h
  | cons c bs ih =>
    obtain ⟨x, hnext, hrest⟩ := scan_cons_eq_ok.mp hscan
    have hreads := reads_of_next hnext
    exact ih (h.reads hsound hreads hordinary.1) (hsound.reads hreads) (hordinary.2 x hnext) hrest

/-- What a newline does that leaves a token behind something that waits. -/
theorem Waiting.cutsShort (h : a.Waiting)
    (hline : s.atLineEnd = a.atLineEnd.withLast s.lastC s.lastSpecial) (hkept : ¬ s.Drops)
    (hnext : s.next (chr '\n') = .ok b) : CutsShort b.lexemes := by
  have hlexemes : s.flush.lexemes = a.flush.lexemes := by
    rw [← atLineEnd_lexemes, hline, withLast_lexemes, atLineEnd_lexemes]
  have hdepth : s.atLineEnd.depth = a.flush.depth := by
    rw [depth, atLineEnd_lexemes, hlexemes, depth]
  have hwaits : ∀ last ∈ a.flush.lexemes.getLast?, last.type = .tokPipe ∨
      last.type = .tokSc ∧ 0 < a.flush.depth := by
    intro last hlast
    refine (h last hlast).resolve_left fun hreserved => hkept (.inr ?_)
    exact (swallowed_iff hline).mpr ⟨last, hlast, .inl hreserved⟩
  rcases next_newline_eq_ok_iff.mp hnext with ⟨_, ⟨hdrops, _⟩ | ⟨_, hne, hleft⟩⟩
  · exact absurd hdrops hkept
  rw [atLineEnd_lexemes, hlexemes] at hne
  obtain ⟨xs, last, hxs⟩ := (List.eq_nil_or_concat _).resolve_left hne
  rw [List.concat_eq_append] at hxs
  have hask := hwaits last (by rw [hxs]; exact List.getLast?_concat)
  have hadded : ∀ t, s.flush.lexemes ++ [.mark t] = xs ++ [last, .mark t] := by
    intro t
    rw [hlexemes, hxs, List.append_assoc]
    rfl
  have hasks : (last.type = .tokSc ∨ last.type = .tokPipe) ∨
      last.type = .tokElse ∧ ∀ x ∈ xs.getLast?, x.type.isRedirect = false :=
    .inl (hask.symm.imp_left And.left)
  rw [hdepth] at hleft
  rcases hleft with ⟨_, rfl⟩ | ⟨hdeep, _, rfl⟩
  · refine ⟨xs, last, .mark .tokSc, ?_, hasks, .inl rfl⟩
    rw [← hadded, ← emit_line_lexemes]
    exact List.prefix_refl _
  · have hpipe : last.type = .tokPipe := hask.resolve_right fun hsc => by omega
    refine ⟨xs, last, .mark .tokNl, ?_, hasks, .inr ⟨rfl, ?_⟩⟩
    · rw [← hadded, ← emit_line_lexemes]
      exact List.prefix_refl _
    · rw [hpipe]
      decide

theorem scan_unique {x : Except Exit Scanner} (h : x = .ok a) (h' : x = .ok b) : a = b :=
  Except.ok.inj (h.symm.trans h')

theorem Near.takes_fillerLines (h : Near a a') (hsound : a.Sound) (hstart : a.LineStart)
    (hwaiting : a.Waiting) (hws : ∀ w ∈ ws, IsFiller w)
    (hscan : a'.scan (Shell.fillerLines ws) = .ok b) (hcuts : ¬ CutsShort b.lexemes) :
    ∀ w ∈ ws, a.Takes w := by
  induction ws generalizing a' with
  | nil => exact fun w hw => by cases hw
  | cons w ws ih =>
    obtain ⟨hw, hws⟩ := List.forall_mem_cons.mp hws
    obtain ⟨s, hscan', hfill⟩ := h.scan_filler hstart hw
    rw [fillerLines_cons] at hscan
    obtain ⟨s', hfiller, hscan⟩ := scan_append_eq_ok.mp hscan
    obtain rfl := scan_unique hscan' hfiller
    obtain ⟨y, hnext, hrest⟩ := scan_cons_eq_ok.mp hscan
    have htakes : a.Takes w := by
      by_contra hnot
      have hkept : ¬ s.Drops := fun hdrops => hnot ((h.filled_drops_iff hfill hsound).mp hdrops).1
      exact hcuts ((hwaiting.cutsShort (h.filled_line hfill) hkept hnext).grows (scan_grows hrest))
    obtain ⟨y', hnext', hnear⟩ := h.fillerLine hsound hstart hfill htakes
    obtain rfl := scan_unique hnext hnext'
    exact List.forall_mem_cons.mpr ⟨htakes, ih hnear hws hrest⟩

/-- If no lexeme is cut short, the padding was taken. -/
theorem Near.takes (h : Near a a') (hsound : a.Sound) (hfresh : a.Fresh)
    (hvalid : ∀ line ∈ lines, line.Valid)
    (hordinary : a.Throughout OrdinaryAt (readBytes (plainScript lines)))
    (hscan : a.scan (readBytes (plainScript lines)) = .ok b)
    (hscan' : a'.scan (readBytes (lines.flatMap PaddedLine.padded)) = .ok b')
    (hcuts : ¬ CutsShort b'.lexemes) : TakesPadding a lines := by
  induction lines generalizing a a' with
  | nil => exact trivial
  | cons line lines ih =>
    intro heof y htext
    obtain ⟨hline, hvalid⟩ := List.forall_mem_cons.mp hvalid
    rw [plainScript_cons, readBytes_append heof, readBytes_cons (by decide)] at hscan hordinary
    rw [padded_cons, readBytes_append heof, readBytes_append hline.tail.not_newline.2,
      readBytes_cons (by decide), readBytes_append (eof_not_mem_fillerLines hline.after)] at hscan'
    obtain ⟨y', htext', hscan⟩ := scan_append_eq_ok.mp hscan
    obtain rfl := scan_unique htext htext'
    obtain ⟨d, hnext, hrest⟩ := scan_cons_eq_ok.mp hscan
    obtain ⟨hsound', x, s, hx, hnear, hs, hfill⟩ := h.tail hsound hline htext
    obtain ⟨x', hx', hscan'⟩ := scan_append_eq_ok.mp hscan'
    obtain rfl := scan_unique hx hx'
    obtain ⟨s', hs', hscan'⟩ := scan_append_eq_ok.mp hscan'
    obtain rfl := scan_unique hs hs'
    obtain ⟨d', hnext', hscan'⟩ := scan_cons_eq_ok.mp hscan'
    obtain ⟨f, hf, hrest'⟩ := scan_append_eq_ok.mp hscan'
    obtain ⟨hbefore, hbehind⟩ := hordinary.append
    have hfresh' := hfresh.scan hsound hbefore htext
    obtain ⟨hat, hordinary⟩ := hbehind y htext
    have htail : y.Drops → y.Takes line.tail := by
      intro hdrops
      by_contra hnot
      have hkept : ¬ s.Drops := fun hd => hnot ((hnear.filled_drops_iff hfill hsound').mp hd).1
      have hcut := (hdrops.waiting hsound' hfresh' (hat.2 rfl)).cutsShort (hnear.filled_line hfill)
        hkept hnext'
      exact hcuts ((hcut.grows (scan_grows hf)).grows (scan_grows hrest'))
    refine ⟨htail, fun e he => ?_⟩
    obtain rfl := scan_unique hnext he
    obtain ⟨z, hz, hnear⟩ := hnear.newline hfill hsound'
      (filled_drops_of_takes hnear hfill hsound' htail) hnext
    obtain rfl := scan_unique hnext' hz
    have hreads := reads_of_next hnext
    have hsoundLine := hsound'.reads hreads
    have hfreshLine := hfresh'.reads hsound' hreads hat
    have hstart := lineStart_of_newline hnext
    have hlines := hnear.takes_fillerLines hsoundLine hstart (hfreshLine hstart.lastC) hline.after hf
      fun hcut => hcuts (hcut.grows (scan_grows hrest'))
    obtain ⟨g, hg, hnear⟩ := hnear.fillerLines hsoundLine hstart hline.after hlines
    obtain rfl := scan_unique hf hg
    exact ⟨hlines, ih hnear hsoundLine hfreshLine hvalid (hordinary d hnext) hrest hrest'⟩

end Scanner

open Scanner

/-- The script has no NUL bytes outside of comments, and at no newline it has closed more commands
than it has opened: no `)` is the target of a redirection. -/
def Ordinary (script : List UInt8) : Prop :=
  Scanner.start.Throughout OrdinaryAt (readBytes script)

/-- The padded script delivers the same trees if the padding is taken, and, for ordinary scripts,
only then. -/
theorem padding_neutral_iff (h : Delivers fuel (plainScript lines) trees)
    (hlead : ∀ w ∈ lead, IsFiller w) (hvalid : ∀ line ∈ lines, line.Valid) :
    (HarmlessPadding lead lines → Delivers fuel (paddedScript lead lines) trees) ∧
      (Ordinary (plainScript lines) → Delivers fuel (paddedScript lead lines) trees →
        HarmlessPadding lead lines) := by
  obtain ⟨tl, hlex⟩ := h.lexScript
  obtain ⟨ls, hls, _⟩ := (mirrors_lexScript _).ok_left hlex
  obtain ⟨a, b, hscan, hend, rfl⟩ := scriptScan_eq_ok.mp hls
  have hpadded : readBytes (paddedScript lead lines) =
      fillerLines lead ++ readBytes (lines.flatMap PaddedLine.padded) :=
    readBytes_append (eof_not_mem_fillerLines hlead)
  constructor
  · rintro ⟨htakesLead, htakes⟩
    obtain ⟨f, hf, hnear⟩ :=
      (near_refl .start).fillerLines sound_start lineStart_start hlead htakesLead
    obtain ⟨a', hscan', hsound, hnear⟩ := hnear.padded sound_start hvalid htakes hscan
    obtain ⟨b', hend', hnear⟩ := hnear.next hsound hend
    have hsame : b'.lexemes = b.lexemes := by
      obtain ⟨_, _⟩ := hnear
      rfl
    refine h.of_scan hls (scriptScan_eq_ok.mpr ⟨a', b', ?_, hend', hsame⟩)
    rw [hpadded]
    exact scan_append_eq_ok.mpr ⟨f, hf, hscan'⟩
  · intro hordinary h'
    obtain ⟨tl', hlex'⟩ := h'.lexScript
    obtain ⟨ls', hls', _⟩ := (mirrors_lexScript _).ok_left hlex'
    have hcuts := not_cutsShort h' hls'
    obtain ⟨a', b', hscan', hend', rfl⟩ := scriptScan_eq_ok.mp hls'
    rw [hpadded] at hscan'
    obtain ⟨f, hf, hrest⟩ := scan_append_eq_ok.mp hscan'
    have hcuts' : ¬ CutsShort a'.lexemes := fun hcut => hcuts (hcut.grows (reads_of_next hend').grows)
    have htakes := (near_refl .start).takes_fillerLines sound_start lineStart_start
      (fresh_start (.inl rfl)) hlead hf fun hcut => hcuts' (hcut.grows (scan_grows hrest))
    obtain ⟨g, hg, hnear⟩ := (near_refl .start).fillerLines sound_start lineStart_start hlead htakes
    obtain rfl := scan_unique hf hg
    exact ⟨htakes, hnear.takes sound_start fresh_start hvalid hordinary hscan hrest hcuts'⟩

theorem isFiller_blanks (h : ∀ c ∈ w, isBlank c = true) : IsFiller w :=
  ⟨w, [], (List.append_nil w).symm, h, .inl rfl⟩

/-- An empty line and a comment around the command `a`, and a comment behind it. -/
theorem padding_neutral_iff_comments :
    Delivers 3 [10, 97, 32, 35, 99, 10, 35, 99, 10] [.simple .fresh [[97]]] := by
  have hplain : Delivers 3 (plainScript [⟨[97], [32, 35, 99], [[35, 99]]⟩])
      [.simple .fresh [[97]]] := delivers_of_stream (by decide +kernel)
  have hcomment : IsComment [35, 99] := ⟨[99], rfl, by decide, by decide⟩
  have hvalid : ∀ line ∈ [PaddedLine.mk [97] [32, 35, 99] [[35, 99]]], line.Valid := by
    refine List.forall_mem_singleton.mpr
      ⟨⟨[32], [35, 99], rfl, by decide +kernel, .inr hcomment⟩, by decide, ?_⟩
    have hafter : ∀ w ∈ ([[35, 99]] : List (List UInt8)), IsFiller w :=
      List.forall_mem_singleton.mpr ⟨[], [35, 99], rfl, by simp, .inr hcomment⟩
    exact hafter
  have hlead : ∀ w ∈ [([] : List UInt8)], IsFiller w :=
    List.forall_mem_singleton.mpr (isFiller_blanks (by simp))
  exact (padding_neutral_iff hplain hlead hvalid).1 (by decide +kernel)

/-- A line of one blank behind `if a`: the script `if a`, `then b`, `fi`. -/
theorem blank_line_inside_if :
    Delivers 6 (plainScript [⟨[105, 102, 32, 97], [], [[32]]⟩,
        ⟨[116, 104, 101, 110, 32, 98], [], []⟩, ⟨[102, 105], [], []⟩])
      [.ifThen .fresh (.simple .fresh [[97]]) (.simple .fresh [[98]])] ∧
    (∀ line ∈ [PaddedLine.mk [105, 102, 32, 97] [] [[32]],
      ⟨[116, 104, 101, 110, 32, 98], [], []⟩, ⟨[102, 105], [], []⟩], line.Valid) ∧
    makeCommandStream 6 (paddedScript [] [⟨[105, 102, 32, 97], [], [[32]]⟩,
        ⟨[116, 104, 101, 110, 32, 98], [], []⟩, ⟨[102, 105], [], []⟩]) =
      .error (.syntaxError 2 "Unexpected token") := by
  refine ⟨delivers_of_stream (by decide +kernel), ?_, by decide +kernel⟩
  have hnil : IsFiller [] := isFiller_blanks (by simp)
  have hblank : ∀ w ∈ ([[32]] : List (List UInt8)), IsFiller w :=
    List.forall_mem_singleton.mpr (isFiller_blanks (by decide +kernel))
  simp only [List.forall_mem_cons, List.not_mem_nil, false_imp_iff, implies_true, and_true]
  exact ⟨⟨hnil, by decide, hblank⟩, ⟨hnil, by decide, by simp⟩, ⟨hnil, by decide, by simp⟩⟩

end CS111.Shell
