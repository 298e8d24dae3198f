import CS111.Shell.LastLine
import CS111.Shell.ScannerRuns

/-!
# One tree for every command

The top-level commands of a script are the ranges of tokens between its newline tokens. The loop of
`make_command_stream` gets to each of them, but for a last one of a single token that no newline
token ends.
-/

namespace CS111.Shell

set_option autoImplicit false

open Fallible TokenList

variable {tl tl' : TokenList} {start s e i j k m n index fuel : Nat} {tok : Token} {c : Command}
  {cs : List Command} {l : Lexeme} {ls ls' : List Lexeme} {script : List UInt8} {a b : Scanner}

/-! ## The lines -/

/-- The ranges between newline tokens that are not empty; the line under way begins at `start`. -/
def lineRanges : List Token → Nat → Nat → List (Nat × Nat)
  | [], start, i => if start < i then [(start, i)] else []
  | tok :: toks, start, i =>
    if tok.type = .tokNl then
      (if start < i then [(start, i)] else []) ++ lineRanges toks (i + 1) (i + 1)
    else lineRanges toks start (i + 1)

def TokenList.lines (tl : TokenList) : List (Nat × Nat) := lineRanges tl.tokens 0 0

def TokenList.linesFrom (tl : TokenList) (start : Nat) : List (Nat × Nat) :=
  lineRanges (tl.tokens.drop start) start start

theorem drop_of_readToken (h : readToken tl i = .ok tok) :
    tl.tokens.drop i = tok :: tl.tokens.drop (i + 1) := by
  obtain ⟨hlt, hget⟩ := List.getElem?_eq_some_iff.mp (getElem?_of_readToken h)
  rw [List.drop_eq_getElem_cons hlt, hget]

theorem lineRanges_clear (hij : i ≤ j) (hj : j ≤ tl.numTokens)
    (hclear : ∀ k tok, i ≤ k → k < j → readToken tl k = .ok tok → tok.type ≠ .tokNl) :
    lineRanges (tl.tokens.drop i) start i = lineRanges (tl.tokens.drop j) start j := by
  induction hij with
  | refl => rfl
  | @step j hij ih =>
    obtain ⟨tok, hread⟩ : ∃ tok, readToken tl j = .ok tok := readToken_of_lt hj
    rw [ih (Nat.le_of_succ_le hj) fun k tok hik hkj => hclear k tok hik (Nat.lt_succ_of_lt hkj),
      drop_of_readToken hread, lineRanges,
      if_neg (hclear j tok hij (Nat.lt_succ_self j) hread)]

/-- A line that a newline token ends. -/
theorem linesFrom_ended (hlt : start < j) (hread : readToken tl j = .ok tok)
    (htype : tok.type = .tokNl)
    (hclear : ∀ k tok, start ≤ k → k < j → readToken tl k = .ok tok → tok.type ≠ .tokNl) :
    tl.linesFrom start = (start, j) :: tl.linesFrom (j + 1) := by
  have hle := Nat.le_of_lt (lt_of_readToken hread)
  rw [linesFrom, lineRanges_clear (Nat.le_of_lt hlt) hle hclear, drop_of_readToken hread,
    lineRanges, if_pos htype, if_pos hlt]
  rfl

theorem linesFrom_open (hlt : start < tl.numTokens)
    (hclear : ∀ k tok, start ≤ k → readToken tl k = .ok tok → tok.type ≠ .tokNl) :
    tl.linesFrom start = [(start, tl.numTokens)] := by
  have hnil : tl.tokens.drop tl.numTokens = [] := List.drop_of_length_le (Nat.le_refl _)
  rw [linesFrom, lineRanges_clear (Nat.le_of_lt hlt) (Nat.le_refl _)
    fun k tok hk _ => hclear k tok hk, hnil, lineRanges, if_pos hlt]

/-! ## The loop -/

/-- A newline token begins no line that is accepted. -/
theorem checkFailParse_newline (hread : readToken tl start = .ok tok) (htype : tok.type = .tokNl) :
    checkFailParse (parse fuel tl) tl start start ≠ .ok c := by
  intro h
  have hopens : tok.type.opens = false := by
    rw [htype]
    rfl
  obtain ⟨_, _, ⟨_, h⟩ | ⟨_, h⟩⟩ := checkFailParse_inv h
  · exact parse_empty (Nat.sub_le start 1) hread hopens h
  · exact parse_empty (Nat.le_refl start) hread hopens h

theorem readCommands_newline (hread : readToken tl start = .ok tok) (htype : tok.type = .tokNl) :
    readCommands fuel tl n start ≠ .ok cs := by
  intro h
  cases n with
  | zero => cases h
  | succ n =>
    rw [readCommands_succ] at h
    obtain ⟨index, hscan, h⟩ := bind_eq_ok.mp h
    obtain ⟨c, hparse, _⟩ := bind_eq_ok.mp h
    obtain ⟨hle, _, hclear, _⟩ := scanNewline_ok hscan
    obtain rfl : start = index := by
      refine Nat.le_antisymm hle (Nat.le_of_not_lt fun hlt => ?_)
      exact hclear start tok (Nat.le_refl start) hlt hread htype
    exact checkFailParse_newline hread htype hparse

/-- What one round does: it reads a line and is the last one, or another line follows. -/
theorem readCommands_inv (hlt : start < tl.numTokens)
    (h : readCommands fuel tl (n + 1) start = .ok cs) :
    ∃ index c, checkFailParse (parse fuel tl) tl start index = .ok c ∧ start < index ∧
      (∀ k tok, start ≤ k → k < index → readToken tl k = .ok tok → tok.type ≠ .tokNl) ∧
      (index = tl.numTokens ∧ cs = [c] ∨
        (∃ tok, readToken tl index = .ok tok ∧ tok.type = .tokNl) ∧
          (tl.numTokens ≤ index + 2 ∧ cs = [c] ∨
            index + 2 < tl.numTokens ∧ ∃ rest, cs = c :: rest ∧
              readCommands fuel tl n (index + 1) = .ok rest)) := by
  rw [readCommands_succ] at h
  obtain ⟨index, hscan, h⟩ := bind_eq_ok.mp h
  obtain ⟨c, hparse, h⟩ := bind_eq_ok.mp h
  obtain ⟨hle, hupper, hclear, hstop⟩ := scanNewline_ok hscan
  have hstart : start < index := by
    refine Nat.lt_of_le_of_ne hle ?_
    rintro rfl
    obtain ⟨tok, hread, htype⟩ := hstop (by omega)
    exact checkFailParse_newline hread htype hparse
  refine ⟨index, c, hparse, hstart, hclear, ?_⟩
  rcases Nat.lt_or_ge index tl.numTokens with hinside | hover
  · refine .inr ⟨hstop (by omega), ?_⟩
    split at h
    · cases h
      exact .inl ⟨by omega, rfl⟩
    · obtain ⟨rest, hrest, h⟩ := bind_eq_ok.mp h
      cases h
      exact .inr ⟨by omega, rest, rfl, hrest⟩
  · rw [if_pos (by omega)] at h
    cases h
    exact .inl ⟨by omega, rfl⟩

/-- No line is left out but a last one of a single token. -/
theorem lines_of_readCommands (h : readCommands fuel tl n start = .ok cs)
    (hlt : start < tl.numTokens) (hlong : ∀ s, tl.OpenLine s → s = 0 ∨ s + 1 < tl.numTokens) :
    List.Forall₂ (fun line c => checkFailParse (parse fuel tl) tl line.1 line.2 = .ok c)
      (tl.linesFrom start) cs := by
  induction n generalizing start cs with
  | zero => cases h
  | succ n ih =>
    obtain ⟨index, c, hparse, hstart, hclear, ⟨rfl, rfl⟩ | ⟨⟨tok, hread, htype⟩, hnext⟩⟩ :=
      readCommands_inv hlt h
    · rw [linesFrom_open hlt fun k tok hk hread => hclear k tok hk (lt_of_readToken hread) hread]
      exact .cons hparse .nil
    rw [linesFrom_ended hstart hread htype hclear]
    rcases hnext with ⟨hlast, rfl⟩ | ⟨hmore, rest, rfl, hrest⟩
    · have hnone : tl.linesFrom (index + 1) = [] := by
        have hinside := lt_of_readToken hread
        rcases Nat.eq_or_lt_of_le (Nat.succ_le_of_lt hinside) with hend | hend
        · have hnil : tl.tokens.drop (index + 1) = [] := List.drop_of_length_le (Nat.le_of_eq hend.symm)
          rw [linesFrom, hnil, lineRanges, if_neg (Nat.lt_irrefl _)]
        · obtain ⟨tok', hread'⟩ := readToken_of_lt hend
          have hnil : tl.tokens.drop (index + 1 + 1) = [] :=
            List.drop_of_length_le (show tl.numTokens ≤ _ by omega)
          by_cases htype' : tok'.type = .tokNl
          · rw [linesFrom, drop_of_readToken hread', hnil, lineRanges, if_pos htype',
              if_neg (Nat.lt_irrefl _), lineRanges, if_neg (Nat.lt_irrefl _)]
            rfl
          · have hopen : tl.OpenLine (index + 1) := by
              refine ⟨hend, .inr ⟨tok, hread, htype⟩, fun j tok'' hj hread'' => ?_⟩
              have hjlt := lt_of_readToken hread''
              obtain rfl : j = index + 1 := by omega
              rw [hread'] at hread''
              cases hread''
              exact htype'
            have := hlong _ hopen
            omega
      rw [hnone]
      exact .cons hparse .nil
    · exact .cons hparse (ih hrest (by omega))

/-- The loop does the same without the token behind the last line. -/
theorem readCommands_cut (hbegins : tl.BeginsProperly)
    (hend : tl.numTokens = m ∨ tl.ClosedAt m .tokNl ∨ tl.ClosedAt m .tokSc)
    (hfinished : (tl.cut m).LastLineFinished) (h : readCommands fuel tl n start = .ok cs)
    (hlt : start < m) (hstart : (tl.cut m).LineStart start) :
    readCommands fuel (tl.cut m) n start = .ok cs := by
  have hnum : tl.numTokens = m ∨ tl.numTokens = m + 1 := by
    rcases hend with hend | hend | hend
    · exact .inl hend
    · exact .inr hend.1
    · exact .inr hend.1
  have hcut : (tl.cut m).numTokens = m := numTokens_cut (by omega)
  induction n generalizing start cs with
  | zero => cases h
  | succ n ih =>
    obtain ⟨index, c, hparse, hsi, hclear, hnext⟩ := readCommands_inv (by omega) h
    have hclear' : ∀ k tok, start ≤ k → k < index → readToken (tl.cut m) k = .ok tok →
        tok.type ≠ .tokNl := by
      intro k tok hk hki hread
      have hkm := lt_of_readToken hread
      rw [hcut] at hkm
      rw [readToken_cut_of_lt hkm] at hread
      exact hclear k tok hk hki hread
    rw [readCommands_succ, hcut]
    rcases Nat.lt_or_ge index m with hinside | hover
    · obtain ⟨⟨tok, hread, htype⟩, hnext⟩ :=
        hnext.resolve_left fun hdone => absurd hdone.1 (by omega)
      have hread' : readToken (tl.cut m) index = .ok tok := by
        rwa [readToken_cut_of_lt hinside]
      have hscan : scanNewline (tl.cut m) (m - start) start = .ok index :=
        scanNewline_eq (Nat.le_of_lt hsi) (by omega) (by omega) hclear'
          fun _ => ⟨tok, hread', htype⟩
      rw [hscan]
      change (checkFailParse _ (tl.cut m) start index >>= _) = _
      rw [checkFailParse_cut hbegins hread (by rw [htype]; rfl) (Nat.zero_lt_of_lt hsi)
        (Nat.le_of_lt hsi) hinside, hparse]
      rcases hnext with ⟨hlast, rfl⟩ | ⟨hmore, rest, rfl, hrest⟩
      · exact if_pos (by omega)
      · rcases Nat.lt_or_ge (index + 2) m with hmore' | hless
        · refine (if_neg (by omega)).trans ?_
          rw [ih hrest (by omega) (.inr ⟨tok, hread', htype⟩)]
          rfl
        · have hopen : (tl.cut m).OpenLine (index + 1) := by
            refine ⟨by omega, .inr ⟨tok, hread', htype⟩, fun j tok' hj hread'' htype' => ?_⟩
            have hjlt := lt_of_readToken hread''
            rw [hcut] at hjlt
            obtain rfl : j = index + 1 := by omega
            rw [readToken_cut_of_lt hjlt] at hread''
            exact readCommands_newline hread'' htype' hrest
          have hlong := (hfinished _ hopen).1
          omega
    · have hopen : (tl.cut m).OpenLine start := by
        refine ⟨by omega, hstart, fun j tok hj hread => ?_⟩
        have hjlt := lt_of_readToken hread
        exact hclear' j tok hj (by omega) hread
      have hscan : scanNewline (tl.cut m) (m - start) start = .ok m :=
        scanNewline_eq (Nat.le_of_lt hlt) (by omega) (by omega)
          (fun k tok hk hkm => hclear' k tok hk (by omega)) fun hover => by omega
      have hindex : tl.numTokens = m ∧ index = m ∨ tl.ClosedAt m .tokNl ∧ index = m ∨
          tl.ClosedAt m .tokSc ∧ index = m + 1 := by
        have hle : index ≤ tl.numTokens := by
          obtain ⟨last, hlast, _⟩ := checkFailParse_inv hparse
          exact le_of_readBefore hlast
        rcases hend with hend | ⟨hnum, hnl⟩ | ⟨hnum, stop, hstop, hsc⟩
        · exact .inl ⟨hend, by omega⟩
        · refine .inr (.inl ⟨⟨hnum, hnl⟩, Nat.le_antisymm (Nat.le_of_not_lt fun hgt => ?_) hover⟩)
          obtain ⟨stop, hstop, htype⟩ := hnl
          exact hclear m stop (Nat.le_of_lt hlt) hgt hstop htype
        · refine .inr (.inr ⟨⟨hnum, stop, hstop, hsc⟩, ?_⟩)
          rcases hnext with ⟨hdone, _⟩ | ⟨⟨tok, hread, htype⟩, _⟩
          · omega
          · have hinside := lt_of_readToken hread
            obtain rfl : index = m := by omega
            rw [hstop] at hread
            cases hread
            rw [hsc] at htype
            cases htype
      have hends : ¬ EndsInWord (tl.range start m) := by
        have hends := (hfinished start hopen).2
        rwa [hcut, range_cut (Nat.le_refl m)] at hends
      rw [hscan]
      change (checkFailParse _ (tl.cut m) start m >>= _) = _
      rw [checkFailParse_tail hbegins hlt hends hparse hindex]
      have hone : cs = [c] := by
        rcases hnext with ⟨_, hone⟩ | ⟨_, ⟨_, hone⟩ | ⟨hmore, _⟩⟩
        · exact hone
        · exact hone
        · omega
      rw [hone]
      exact if_pos (by omega)

theorem readCommands_rounds (h : readCommands fuel tl n start = .ok cs)
    (hlt : start < tl.numTokens) (hle : tl.numTokens - start ≤ k) :
    readCommands fuel tl k start = .ok cs := by
  induction n generalizing start k cs with
  | zero => cases h
  | succ n ih =>
    obtain ⟨k, rfl⟩ : ∃ k', k = k' + 1 := ⟨k - 1, by omega⟩
    rw [readCommands_succ] at h ⊢
    obtain ⟨index, hscan, h⟩ := bind_eq_ok.mp h
    obtain ⟨c, hparse, h⟩ := bind_eq_ok.mp h
    have hle := (scanNewline_ok hscan).1
    rw [hscan]
    change (checkFailParse _ tl start index >>= _) = _
    rw [hparse]
    by_cases hdone : tl.numTokens - 1 ≤ index + 1
    · rw [if_pos hdone] at h
      exact (if_pos hdone).trans h
    · rw [if_neg hdone] at h
      refine (if_neg hdone).trans ?_
      obtain ⟨rest, hrest, h⟩ := bind_eq_ok.mp h
      rw [ih hrest (by omega) (by omega)]
      exact h

/-- If every line has its tree, then the last one has more than one token or is the first. -/
theorem long_of_readCommands (h : readCommands fuel tl n start = .ok cs)
    (hlt : start < tl.numTokens) (hlength : (tl.linesFrom start).length = cs.length)
    (hopen : tl.OpenLine s) (hle : start ≤ s) : s = start ∨ s + 1 < tl.numTokens := by
  induction n generalizing start cs with
  | zero => cases h
  | succ n ih =>
    obtain ⟨index, c, _, hstart, hclear, hnext⟩ := readCommands_inv hlt h
    have hbegins : s = start ∨ index < s := by
      rcases Nat.eq_or_lt_of_le hle with rfl | hbefore
      · exact .inl rfl
      · right
        refine Nat.lt_of_not_le fun hsi => ?_
        obtain ⟨tok, hread, htype⟩ := hopen.begins.resolve_left (by omega)
        obtain ⟨k, rfl, hread⟩ := readBefore_inv hread
        exact hclear k tok (by omega) hsi hread htype
    refine hbegins.imp_right fun hbehind => ?_
    have hslt := hopen.lt
    rcases hnext with ⟨rfl, _⟩ | ⟨⟨tok, hread, htype⟩, ⟨hlast, rfl⟩ | ⟨hmore, rest, rfl, hrest⟩⟩
    · omega
    · obtain rfl : s = index + 1 := by omega
      rw [linesFrom_ended hstart hread htype hclear, linesFrom_open hslt hopen.rest] at hlength
      cases hlength
    · rw [linesFrom_ended hstart hread htype hclear] at hlength
      rcases ih hrest (by omega) (Nat.succ.inj hlength) hbehind with rfl | hlong
      · exact hmore
      · exact hlong

/-- The last line of an accepted script does not end in a word, unless the loop leaves it out. -/
theorem not_endsInWord_of_readCommands (h : readCommands fuel tl n 0 = .ok cs)
    (hopen : tl.OpenLine s) (hlong : s = 0 ∨ s + 1 < tl.numTokens) :
    ¬ EndsInWord (tl.range s tl.numTokens) := by
  obtain ⟨c, hparse⟩ := openLine_of_readCommands h (Nat.zero_le s) hopen hlong
  obtain ⟨last, hlast, ⟨hsc, _⟩ | ⟨_, hparse⟩⟩ := checkFailParse_inv hparse
  · obtain ⟨k, hk, hread⟩ := readBefore_inv hlast
    have hlt := hopen.lt
    rw [hk, range_concat hread (by omega), endsInWord_concat]
    rintro ⟨⟨w, hw⟩, _⟩
    have htype := Token.lexeme_type tl last
    rw [hw, hsc] at htype
    cases htype
  · refine (finishedBefore_iff hopen.lt (Nat.le_refl _) (fun tok hread => ?_) hparse).mpr
      fun tok hread => ?_
    · exact absurd (lt_of_readToken hread) (Nat.lt_irrefl _)
    · have hfinished := finished_of_parse hopen.lt hparse hread
      constructor
      · intro close hclose
        obtain ⟨k, hk⟩ := hfinished.closed close hclose
        obtain ⟨_, _, ⟨_, hread, _⟩, _⟩ := id hk
        exact ⟨k, lt_of_readToken hread, hk⟩
      · intro hword
        obtain ⟨k, stop, hsk, hread, hne⟩ := hfinished.words hword
        exact ⟨k, stop, hsk, lt_of_readToken hread, hread, hne⟩

/-! ## The newline at the end -/

theorem Scanner.pending_of_comment {bs : List UInt8} (hscan : Scanner.start.scan bs = .ok a)
    (hcomment : a.inComment = true) : a.pending = [] := by
  have hinv : ∀ {b : Scanner} {bs : List UInt8}, b.Sound → (b.inComment = true → b.pending = []) →
      b.scan bs = .ok a → a.inComment = true → a.pending = [] := by
    intro b bs hsound hb hscan
    induction bs generalizing b with
    | nil =>
      cases hscan
      exact hb
    | cons c bs ih =>
      obtain ⟨b', hnext, hrest⟩ := bind_eq_ok.mp hscan
      have hreads := reads_of_next hnext
      refine ih (hsound.reads hreads) ?_ hrest
      cases hreads with
      | skip => exact hb
      | blank | nul => exact fun _ => flush_pending _
      | redirect | delimiter | separator | ended => exact fun _ => rfl
      | dropped => exact fun _ => flush_pending _
      | comment _ hmay =>
        intro _
        by_contra hne
        have hchar := hsound.begun hne
        rw [mayComment_not_word hmay] at hchar
        cases hchar
      | word hopen =>
        intro hcomment
        change b.inComment = true at hcomment
        rw [hopen] at hcomment
        cases hcomment
  exact hinv sound_start (fun h => by cases h) hscan hcomment

theorem Scanner.next_zero (hcomment : a.inComment = true → a.pending = []) :
    ∃ b, a.next 0 = .ok b ∧ b.lexemes = a.flush.lexemes := by
  cases hin : a.inComment with
  | true =>
    refine ⟨a, next_of_reads (.skip hin (by decide)), ?_⟩
    rw [flush_of_nil (hcomment hin)]
  | false => exact ⟨_, next_of_reads (.nul hin), rfl⟩

/-- What the newline adds. -/
theorem Scanner.next_newline (h : a.next (chr '\n') = .ok b) :
    b.pending = [] ∧ b.inComment = false ∧
      (b.lexemes = a.flush.lexemes ∨
        a.flush.lexemes ≠ [] ∧ (∀ l ∈ a.flush.lexemes.getLast?, l.type ≠ .tokNl) ∧
          (b.lexemes = a.flush.lexemes ++ [.mark .tokSc] ∨
            b.lexemes = a.flush.lexemes ++ [.mark .tokNl])) := by
  have hpending : a.atLineEnd.pending = [] := flush_pending _
  have hcomment : a.atLineEnd.inComment = false := flush_inComment _
  have hlast : ¬ a.Drops → ∀ l ∈ a.flush.lexemes.getLast?, l.type ≠ .tokNl := by
    intro hdrops l hl hnl
    refine hdrops (.inr ⟨l, ?_, .inl ?_⟩)
    · rw [atLineEnd_lexemes]
      exact hl
    · rw [hnl]
      rfl
  rcases next_newline_eq_ok_iff.mp h with
    ⟨_, ⟨_, rfl⟩ | ⟨hdrops, hne, ⟨_, rfl⟩ | ⟨_, _, rfl⟩⟩⟩
  · exact ⟨hpending, hcomment, .inl a.atLineEnd_lexemes⟩
  · rw [atLineEnd_lexemes] at hne
    exact ⟨rfl, hcomment, .inr ⟨hne, hlast hdrops, .inl (a.emit_line_lexemes .tokSc)⟩⟩
  · rw [atLineEnd_lexemes] at hne
    exact ⟨rfl, hcomment, .inr ⟨hne, hlast hdrops, .inr (a.emit_line_lexemes .tokNl)⟩⟩

/-- The newline at the end adds a `;` or a newline token, or nothing. -/
theorem scriptScan_newline (h : scriptScan (script ++ [chr '\n']) = .ok ls) :
    ∃ ls', scriptScan script = .ok ls' ∧
      (ls = ls' ∨ ls' ≠ [] ∧ (∀ l ∈ ls'.getLast?, l.type ≠ .tokNl) ∧
        (ls = ls' ++ [.mark .tokSc] ∨ ls = ls' ++ [.mark .tokNl])) := by
  by_cases hend : ∀ c ∈ script, decide (c ≠ 255) = true
  · have hall : script.takeWhile (· ≠ 255) = script := List.takeWhile_eq_self_iff.mpr hend
    have hall' : (script ++ [chr '\n']).takeWhile (· ≠ 255) = script ++ [chr '\n'] := by
      refine List.takeWhile_eq_self_iff.mpr fun c hc => ?_
      rcases List.mem_append.mp hc with hc | hc
      · exact hend c hc
      · rw [List.mem_singleton.mp hc]
        decide
    unfold scriptScan at h ⊢
    rw [hall', scan_append] at h
    rw [hall]
    obtain ⟨b, hscan, h⟩ := bind_eq_ok.mp h
    obtain ⟨a, hscan, hline⟩ := bind_eq_ok.mp hscan
    obtain ⟨b', hnext, hb⟩ := bind_eq_ok.mp hline
    cases hb
    obtain ⟨hpending, _, hlexemes⟩ := Scanner.next_newline hnext
    obtain ⟨d, hzero, hd⟩ := Scanner.next_zero (a := b) fun _ => hpending
    obtain ⟨a', hzero', ha'⟩ := Scanner.next_zero (Scanner.pending_of_comment hscan)
    rw [hzero] at h
    cases h
    rw [hd, Scanner.flush_of_nil hpending]
    refine ⟨a'.lexemes, ?_, ?_⟩
    · rw [hscan]
      change (a.next 0 >>= fun a => .ok a.lexemes) = _
      rw [hzero']
      rfl
    · rw [ha']
      exact hlexemes
  · obtain ⟨c, hc, hne⟩ : ∃ c ∈ script, ¬ decide (c ≠ 255) = true := by simpa using hend
    have hsame : (script ++ [chr '\n']).takeWhile (· ≠ 255) = script.takeWhile (· ≠ 255) := by
      rw [List.takeWhile_append, if_neg]
      intro hlength
      have hall : script.takeWhile (· ≠ 255) = script :=
        (List.takeWhile_prefix _).eq_of_length hlength
      exact hne (List.takeWhile_eq_self_iff.mp hall c hc)
    unfold scriptScan at h ⊢
    rw [hsame] at h
    exact ⟨ls, h, .inl rfl⟩

/-! ## Tokens with the same lexemes -/

theorem TokenList.Spelling.lexemes (h : tl.Spelling ls) : tl.tokens.map (Token.lexeme tl) =
    ls.map fun l => if l.type = .tokWord then .word l.text else .mark l.type := by
  unfold TokenList.Spelling at h
  generalize tl.tokens = tokens at h ⊢
  induction h with
  | nil => rfl
  | cons hl _ ih => rw [List.map_cons, List.map_cons, ih, Token.lexeme, hl.1, hl.2]

theorem TokenList.Spelling.range_eq (h : tl.Spelling ls) (h' : tl'.Spelling ls) (i j : Nat) :
    tl.range i j = tl'.range i j := by
  rw [range, range, List.map_take, List.map_drop, List.map_take, List.map_drop, h.lexemes,
    h'.lexemes]

theorem TokenList.Spelling.type_eq (h : tl.Spelling ls) (h' : tl'.Spelling ls)
    (hread : readToken tl i = .ok tok) : ∃ tok', readToken tl' i = .ok tok' ∧ tok.type = tok'.type := by
  obtain ⟨tok', hread', hsame⟩ := (h.sameTokens h' i).ok hread
  exact ⟨tok', hread', hsame.type⟩

theorem TokenList.OpenLine.spelling (h : tl.Spelling ls) (h' : tl'.Spelling ls)
    (hopen : tl.OpenLine s) : tl'.OpenLine s := by
  constructor
  · rw [h'.numTokens, ← h.numTokens]
    exact hopen.lt
  · refine hopen.begins.imp_right ?_
    rintro ⟨tok, hread, htype⟩
    obtain ⟨k, rfl, hread⟩ := readBefore_inv hread
    obtain ⟨tok', hread', htype'⟩ := h.type_eq h' hread
    exact ⟨tok', hread', htype'.symm.trans htype⟩
  · intro j tok hj hread
    obtain ⟨tok', hread', htype'⟩ := h'.type_eq h hread
    rw [htype']
    exact hopen.rest j tok' hj hread'

theorem TokenList.LastLineFinished.spelling (h : tl.Spelling ls) (h' : tl'.Spelling ls)
    (hfinished : tl.LastLineFinished) : tl'.LastLineFinished := by
  intro start hopen
  have hnum : tl'.numTokens = tl.numTokens := h'.numTokens.trans h.numTokens.symm
  rw [hnum, h'.range_eq h]
  exact hfinished start (hopen.spelling h' h)

theorem TokenList.Spelling.cut (h : tl.Spelling ls) (m : Nat) : (tl.cut m).Spelling (ls.take m) :=
  List.forall₂_take m h

/-! ## Every command -/

/-- What the parser makes of a line; a `;` may end the line. -/
structure TreeOf (fuel : Nat) (tl : TokenList) (line : Nat × Nat) (c : Command) : Prop where
  parsed : checkFailParse (parse fuel tl) tl line.1 line.2 = .ok c
  rendered : tl.Targeted line.1 line.2 → ∃ ls s, tl.range line.1 line.2 = ls ++ s ∧
    looseSeparators .tokNl s ∧ Renders looseSeparators c ls

/-- The script is accepted, and the calls of `read_command_stream` deliver a tree for every
top-level command, in order, and then no more. -/
def EveryCommand (fuel : Nat) (script : List UInt8) (cs : List Command) : Prop :=
  ∃ tl, lexScript script = .ok tl ∧ Delivers fuel script cs ∧
    List.Forall₂ (TreeOf fuel tl) tl.lines cs

/-- A line is a range in front of a newline token, or behind the last one. -/
theorem lineRanges_end {toks : List Token} {line : Nat × Nat}
    (hdrop : tl.tokens.drop i = toks) (hle : start ≤ i) (hi : i ≤ tl.numTokens)
    (hmem : line ∈ lineRanges toks start i) :
    line.1 < line.2 ∧ (line.2 = tl.numTokens ∨
      ∃ tok, readToken tl line.2 = .ok tok ∧ tok.type = .tokNl) := by
  induction toks generalizing start i with
  | nil =>
    have hend : tl.numTokens ≤ i := List.drop_eq_nil_iff.mp hdrop
    rw [lineRanges] at hmem
    split at hmem
    · next hlt =>
      rw [List.mem_singleton] at hmem
      rw [hmem]
      exact ⟨hlt, .inl (Nat.le_antisymm hi hend)⟩
    · cases hmem
  | cons tok toks ih =>
    have hlt : i < tl.numTokens := by
      refine Nat.lt_of_not_le fun hend => ?_
      rw [List.drop_of_length_le hend] at hdrop
      cases hdrop
    obtain ⟨tok', hread⟩ := readToken_of_lt hlt
    rw [drop_of_readToken hread] at hdrop
    obtain ⟨rfl, htail⟩ := List.cons.inj hdrop
    rw [lineRanges] at hmem
    split at hmem
    · next htype =>
      rcases List.mem_append.mp hmem with hmem | hmem
      · split at hmem
        · next hstart =>
          rw [List.mem_singleton] at hmem
          rw [hmem]
          exact ⟨hstart, .inr ⟨tok', hread, htype⟩⟩
        · cases hmem
      · exact ih htail (Nat.le_refl _) hlt hmem
    · exact ih htail (Nat.le_succ_of_le hle) hlt hmem

theorem treeOf_of_line {line : Nat × Nat} (hmem : line ∈ tl.lines)
    (hparse : checkFailParse (parse fuel tl) tl line.1 line.2 = .ok c) : TreeOf fuel tl line c := by
  obtain ⟨start, e⟩ := line
  refine ⟨hparse, fun htargets => ?_⟩
  obtain ⟨hlt, hend⟩ := lineRanges_end rfl (Nat.le_refl 0) (Nat.zero_le _) hmem
  dsimp only at hparse htargets hlt hend ⊢
  obtain ⟨last, hlast, ⟨hsc, hparse⟩ | ⟨_, hparse⟩⟩ := checkFailParse_inv hparse
  · obtain ⟨k, rfl, hread⟩ := readBefore_inv hlast
    rw [Nat.add_sub_cancel] at hparse
    have hlt' : start < k := by
      refine Nat.lt_of_le_of_ne (Nat.le_of_lt_succ hlt) ?_
      rintro rfl
      exact parse_empty (Nat.le_refl start) hread (by rw [hsc]; rfl) hparse
    have hshut : tl.Shut start k := shut_of_nesting hread (by rw [hsc]; decide)
    have hcuts : ¬ tl.CutsWords start k := by
      rintro ⟨⟨tok, hread', htype⟩, _⟩
      rw [hread] at hread'
      cases hread'
      rw [hsc] at htype
      cases htype
    have hrendered := rendered_of_parse hlt' hparse
      (htargets.sub (Nat.le_refl start) (Nat.le_of_lt hlt') (Nat.le_succ k)) hshut hcuts
    refine ⟨_, [.mark .tokSc], ?_, .inr rfl, hrendered.2.2⟩
    rw [range_concat hread (Nat.le_of_lt hlt'), Token.lexeme_mark hsc (by decide)]
  · have hlast : ∀ tok, readToken tl e = .ok tok → tok.type = .tokNl := by
      intro tok hread
      rcases hend with rfl | ⟨tok', hread', htype⟩
      · exact absurd (lt_of_readToken hread) (Nat.lt_irrefl _)
      · rw [hread] at hread'
        cases hread'
        exact htype
    have hshut : tl.Shut start e := by
      intro tok hread hnest
      rw [hlast tok hread] at hnest
      cases hnest
    have hcuts : ¬ tl.CutsWords start e := by
      rintro ⟨⟨tok, hread, htype⟩, _⟩
      rw [hlast tok hread] at htype
      cases htype
    refine ⟨_, [], (List.append_nil _).symm, .inl rfl, ?_⟩
    exact (rendered_of_parse hlt hparse htargets hshut hcuts).2.2

theorem everyCommand_of_readCommands (hlex : lexScript script = .ok tl) (hne : tl.numTokens ≠ 0)
    (h : readCommands fuel tl tl.numTokens 0 = .ok cs)
    (hlong : ∀ s, tl.OpenLine s → s = 0 ∨ s + 1 < tl.numTokens) : EveryCommand fuel script cs := by
  refine ⟨tl, hlex, (delivers_iff hlex).mpr (.inr ⟨hne, h⟩), ?_⟩
  have hall : List.Forall₂ _ tl.lines cs :=
    lines_of_readCommands h (Nat.pos_of_ne_zero hne) hlong
  rw [List.forall₂_iff_get] at hall ⊢
  refine ⟨hall.1, fun i hi hi' => ?_⟩
  exact treeOf_of_line (List.get_mem _ _) (hall.2 i hi hi')

theorem everyCommand_nil (hlex : lexScript script = .ok tl) (hzero : tl.numTokens = 0) :
    EveryCommand fuel script [] := by
  refine ⟨tl, hlex, (delivers_iff hlex).mpr (.inl ⟨hzero, rfl⟩), ?_⟩
  have hnil : tl.tokens = [] := List.length_eq_zero_iff.mp hzero
  rw [lines, hnil, lineRanges, if_neg (Nat.lt_irrefl 0)]
  exact .nil

theorem lastLineFinished_of_everyCommand (h : EveryCommand fuel script cs)
    (hlex : lexScript script = .ok tl) : tl.LastLineFinished := by
  intro s hopen
  obtain ⟨tl', hlex', hdelivers, hall⟩ := h
  rw [hlex] at hlex'
  cases hlex'
  have hlt := hopen.lt
  obtain ⟨hzero, _⟩ | ⟨_, htrees⟩ := (delivers_iff hlex).mp hdelivers
  · omega
  · have hlong := long_of_readCommands htrees (by omega) hall.length_eq hopen (Nat.zero_le s)
    exact ⟨hlong, not_endsInWord_of_readCommands htrees hopen hlong⟩

/-- What the last tokens of a script have to do with those of the script with a newline behind. -/
theorem closedAt_of_spelling {t : TokenType} (h : tl.Spelling (ls ++ [.mark t])) :
    tl.ClosedAt ls.length t := by
  refine ⟨by rw [h.numTokens, List.length_append, List.length_singleton], ?_⟩
  rcases h.read ls.length with ⟨_, hnone⟩ | ⟨tok, l, hread, hl, htype, _⟩
  · rw [List.getElem?_concat_length] at hnone
    cases hnone
  · rw [List.getElem?_concat_length] at hl
    cases hl
    exact ⟨tok, hread, htype⟩

/-- With the newline, the last line has a second token or is not left out. -/
theorem long_of_closedAt (hend : tl.ClosedAt m .tokNl ∨ tl.ClosedAt m .tokSc)
    (hlast : ∀ tok, readBefore tl m = .ok tok → tok.type ≠ .tokNl) (hopen : tl.OpenLine s) :
    s = 0 ∨ s + 1 < tl.numTokens := by
  have hlt := hopen.lt
  rcases hend with ⟨hnum, stop, hstop, htype⟩ | ⟨hnum, stop, hstop, htype⟩
  · exact absurd htype (hopen.rest m stop (by omega) hstop)
  · refine or_iff_not_imp_left.mpr fun hpos => ?_
    obtain ⟨tok, hread, hnl⟩ := hopen.begins.resolve_left hpos
    have hne : s ≠ m := by
      rintro rfl
      exact hlast tok hread hnl
    omega

theorem last_of_spelling (h : tl.Spelling (ls ++ ls')) (hlast : ∀ l ∈ ls.getLast?, l.type ≠ .tokNl)
    (hread : readBefore tl ls.length = .ok tok) : tok.type ≠ .tokNl := by
  obtain ⟨k, hk, hread⟩ := readBefore_inv hread
  rcases h.read k with ⟨hfault, _⟩ | ⟨tok', l, hread', hl, htype, _⟩
  · rw [hread] at hfault
    cases hfault
  · rw [hread] at hread'
    cases hread'
    rw [htype]
    refine hlast l ?_
    rw [List.getElem?_append_left (by omega)] at hl
    rw [List.getLast?_eq_getElem?, hk, Nat.add_sub_cancel]
    exact hl

/-- With and without its last newline, an accepted script delivers one and the same tree for every
command exactly if the last line does not need the token behind it. -/
theorem every_command_delivered_iff {s : Option CommandStream}
    (h : makeCommandStream fuel (script ++ [chr '\n']) = .ok s) :
    (∃ cs, EveryCommand fuel (script ++ [chr '\n']) cs ∧ EveryCommand fuel script cs) ↔
      ∀ tl, lexScript script = .ok tl → tl.LastLineFinished := by
  constructor
  · rintro ⟨cs, _, hevery⟩ tl hlex
    exact lastLineFinished_of_everyCommand hevery hlex
  intro hfinished
  obtain ⟨tl, hlex, h⟩ := bind_eq_ok.mp h
  obtain ⟨ls, hscan, hspell⟩ := (mirrors_lexScript _).ok_left hlex
  obtain ⟨ls', hscan', hls⟩ := scriptScan_newline hscan
  obtain ⟨tl', hlex', hspell'⟩ := (mirrors_lexScript _).ok_right hscan'
  have hcut : (tl.cut ls'.length).Spelling ls' := by
    have htake : ls.take ls'.length = ls' := by
      rcases hls with rfl | ⟨_, _, rfl | rfl⟩
      · exact List.take_length
      · exact List.take_left
      · exact List.take_left
    have hcut := hspell.cut ls'.length
    rwa [htake] at hcut
  have hend : tl.numTokens = ls'.length ∨ tl.ClosedAt ls'.length .tokNl ∨
      tl.ClosedAt ls'.length .tokSc := by
    rcases hls with rfl | ⟨_, _, rfl | rfl⟩
    · exact .inl hspell.numTokens
    · exact .inr (.inr (closedAt_of_spelling hspell))
    · exact .inr (.inl (closedAt_of_spelling hspell))
  split at h
  · next hzero =>
    have hnil : ls = [] := by
      rw [hspell.numTokens] at hzero
      exact List.length_eq_zero_iff.mp hzero
    have hnil' : ls' = [] := by
      rcases hls with rfl | ⟨_, _, rfl | rfl⟩
      · exact hnil
      · exact absurd hnil (by simp)
      · exact absurd hnil (by simp)
    refine ⟨[], everyCommand_nil hlex hzero, everyCommand_nil hlex' ?_⟩
    rw [hspell'.numTokens, hnil']
    rfl
  · next hne =>
    obtain ⟨cs, htrees, _⟩ := bind_eq_ok.mp h
    have hpos : 0 < ls'.length := by
      rcases hls with rfl | ⟨hne', _⟩
      · rw [hspell.numTokens] at hne
        exact Nat.pos_of_ne_zero hne
      · exact List.length_pos_iff.mpr hne'
    have hfinished' := hfinished tl' hlex'
    have hcut' := readCommands_cut (beginsProperly_of_readCommands htrees) hend
      (hfinished'.spelling hspell' hcut) htrees hpos (.inl rfl)
    have hnum : (tl.cut ls'.length).numTokens = ls'.length := hcut.numTokens
    have hrounds := readCommands_rounds (k := ls'.length) hcut' (by omega) (by omega)
    obtain ⟨cs', htrees', rfl⟩ :=
      ((hcut.sameTokens hspell').readCommands (hnum.trans hspell'.numTokens.symm) fuel _ 0).ok hrounds
    rw [← hspell'.numTokens] at htrees'
    refine ⟨cs, everyCommand_of_readCommands hlex hne htrees fun s hopen => ?_,
      everyCommand_of_readCommands hlex' (by rw [hspell'.numTokens]; omega) htrees'
        fun s hopen => (hfinished' s hopen).1⟩
    rcases hls with rfl | ⟨_, hlast, hls⟩
    · exact (hfinished'.spelling hspell' hspell s hopen).1
    · refine long_of_closedAt (hend.resolve_left ?_) (fun tok hread => ?_) hopen
      · rcases hls with rfl | rfl
        · rw [hspell.numTokens, List.length_append, List.length_singleton]
          omega
        · rw [hspell.numTokens, List.length_append, List.length_singleton]
          omega
      · rcases hls with rfl | rfl
        · exact last_of_spelling hspell hlast hread
        · exact last_of_spelling hspell hlast hread

/-- The command `a;`. -/
theorem every_command_delivered_iff_semicolon :
    ∃ cs, EveryCommand 3 [97, 59, 10] cs ∧ EveryCommand 3 [97, 59] cs := by
  have haccepted : makeCommandStream 3 ([97, 59] ++ [chr '\n']) =
      .ok (some ⟨[.simple .fresh [[97]]], 0⟩) := by decide +kernel
  refine (every_command_delivered_iff haccepted).mpr fun tl hlex => ?_
  have hlex' : lexScript [97, 59] =
      .ok ⟨[97, 0, 59, 0], [⟨.tokWord, 0, 1⟩, ⟨.tokSc, 2, 1⟩]⟩ := by decide +kernel
  rw [hlex] at hlex'
  cases hlex'
  intro start hopen
  have hstart : start = 0 := by
    obtain ⟨hlt, hbegins, _⟩ := hopen
    have hlt : start < 2 := hlt
    refine hbegins.resolve_right ?_
    rintro ⟨tok, hread, htype⟩
    obtain ⟨k, rfl, hread⟩ := readBefore_inv hread
    obtain rfl : k = 0 := by omega
    cases hread
    cases htype
  subst hstart
  refine ⟨.inl rfl, ?_⟩
  rintro ⟨xs, w, heq, _⟩
  have hlast := congrArg List.getLast? heq
  rw [List.getLast?_concat] at hlast
  cases hlast

/-- Of the commands `a` and `b` without a last newline, `b` is dropped. -/
theorem last_command_dropped :
    makeCommandStream 3 [97, 10, 98, 10] =
        .ok (some ⟨[.simple .fresh [[97]], .simple .fresh [[98]]], 0⟩) ∧
      ¬ ∃ cs, EveryCommand 3 [97, 10, 98, 10] cs ∧ EveryCommand 3 [97, 10, 98] cs := by
  have hboth : makeCommandStream 3 [97, 10, 98, 10] =
      .ok (some ⟨[.simple .fresh [[97]], .simple .fresh [[98]]], 0⟩) := by decide +kernel
  have hone : makeCommandStream 3 [97, 10, 98] = .ok (some ⟨[.simple .fresh [[97]]], 0⟩) := by
    decide +kernel
  refine ⟨hboth, ?_⟩
  rintro ⟨cs, ⟨_, _, ⟨s, hs, hresults⟩, _⟩, ⟨_, _, ⟨s', hs', hresults'⟩, _⟩⟩
  rw [hboth] at hs
  rw [hone] at hs'
  cases hs
  cases hs'
  have htwo := (hresults 2).trans (hresults' 2).symm
  cases htwo

/-! ## The array of the trees -/

/-- The loop with the array: a store at `count` checks `list_size`. -/
def storeCommands (fuel : Nat) (tl : TokenList) :
    Nat → Nat → List Command → Nat → Except Fault (List Command)
  | 0, _, _, _ => .error .outOfFuel
  | n + 1, start, commandTreeList, listSize => do
    let index ← scanNewline tl (tl.numTokens - start) start
    let last ← readBefore tl index
    let c ← parse fuel tl start (if last.type = .tokSc then index - 1 else index)
    if listSize ≤ commandTreeList.length then .error (.overrun commandTreeList.length)
    else
      let commandTreeList := commandTreeList ++ [c]
      if tl.numTokens - 1 ≤ index + 1 then .ok commandTreeList
      else
        storeCommands fuel tl n (index + 1) commandTreeList
          (if commandTreeList.length = listSize then listSize * 2 else listSize)

/-- The array grows in time, for any number of commands. -/
theorem storeCommands_eq {stored : List Command} {listSize : Nat}
    (hroom : stored.length < listSize) :
    storeCommands fuel tl n start stored listSize =
      readCommands fuel tl n start >>= fun cs => .ok (stored ++ cs) := by
  induction n generalizing start stored listSize with
  | zero => rfl
  | succ n ih =>
    rw [storeCommands, readCommands]
    cases scanNewline tl (tl.numTokens - start) start with
    | error fault => rfl
    | ok index =>
      dsimp only [bind, Except.bind]
      cases readBefore tl index with
      | error fault => rfl
      | ok last =>
        dsimp only
        cases parse fuel tl start (if last.type = .tokSc then index - 1 else index) with
        | error fault => rfl
        | ok c =>
          dsimp only
          rw [if_neg (Nat.not_le.mpr hroom)]
          by_cases hdone : tl.numTokens - 1 ≤ index + 1
          · rw [if_pos hdone, if_pos hdone]
          · have hnext : (stored ++ [c]).length <
                if (stored ++ [c]).length = listSize then listSize * 2 else listSize := by
              rw [List.length_append, List.length_singleton]
              split
              · omega
              · omega
            rw [if_neg hdone, if_neg hdone, ih hnext]
            cases readCommands fuel tl n (index + 1) with
            | error fault => rfl
            | ok rest =>
              dsimp only [bind, Except.bind]
              rw [List.append_assoc, List.singleton_append]

end CS111.Shell
