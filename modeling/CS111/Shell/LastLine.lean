import CS111.Shell.ParserSound
import CS111.Shell.ScriptReads

/-!
# The last line of a script

Without the newline at its end, a script loses the token behind its last line. The parser needs that
token only where the line ends in a word of a simple command, and the loop over the lines needs it
only where the line has no other token.
-/

namespace CS111.Shell

set_option autoImplicit false

open Fallible TokenList

variable {tl tl' : TokenList} {start e i j k m n index fuel : Nat} {tok : Token} {c : Command}
  {cs : List Command} {l : Lexeme} {ls xs ys : List Lexeme}

/-! ## Ranges that do not end in a word -/

theorem addRedirects_two {comm h : Header} (hadd : addRedirects tl comm i (n + 2) = .ok h) :
    ∃ tok target comm', readToken tl i = .ok tok ∧ tok.type.isRedirect = true ∧
      readToken tl (i + 1) = .ok target ∧ addRedirects tl comm' (i + 2) n = .ok h := by
  obtain ⟨tok, hread, hadd⟩ := bind_eq_ok.mp hadd
  split at hadd
  · next htype =>
    split at hadd
    · obtain ⟨target, htarget, hadd⟩ := bind_eq_ok.mp hadd
      exact ⟨tok, target, _, hread, by rw [htype]; rfl, htarget, hadd⟩
    · exact absurd hadd failAt_ne_ok
  · next htype =>
    split at hadd
    · obtain ⟨target, htarget, hadd⟩ := bind_eq_ok.mp hadd
      exact ⟨tok, target, _, hread, by rw [htype]; rfl, htarget, hadd⟩
    · exact absurd hadd failAt_ne_ok
  · exact absurd hadd failAt_ne_ok

/-- A target is no word of the command. -/
theorem not_endsInWord_of_addRedirects {comm h : Header} (hadd : addRedirects tl comm i n = .ok h)
    (hpos : 0 < n) : ¬ EndsInWord (xs ++ tl.range i (i + n)) := by
  induction n using Nat.strong_induction_on generalizing comm i xs with
  | _ n ih =>
    match n with
    | 1 => exact absurd hadd failAt_ne_ok
    | n + 2 =>
      obtain ⟨tok, target, comm', hread, hredirect, htarget, hadd⟩ := addRedirects_two hadd
      have hrange : tl.range i (i + (n + 2)) =
          [tok.lexeme tl, target.lexeme tl] ++ tl.range (i + 2) (i + 2 + n) := by
        have hend : i + (n + 2) = i + 2 + n := by omega
        rw [hend, range_cons hread (by omega), range_cons htarget (by omega)]
        rfl
      rw [hrange, ← List.append_assoc]
      rcases Nat.eq_zero_or_pos n with rfl | hpos
      · rw [Nat.add_zero, range_self, List.append_nil, List.append_cons, endsInWord_concat]
        rintro ⟨_, hlast⟩
        have hfalse := hlast (tok.lexeme tl) List.getLast?_concat
        rw [Token.lexeme_type, hredirect] at hfalse
        cases hfalse
      · exact ih n (by omega) hadd hpos

/-- As `Finished`, by a token of the range. -/
structure FinishedBefore (tl : TokenList) (start e : Nat) (tok : Token) : Prop where
  closed : ∀ close, tok.type.closer = some close →
    ∃ k, k < e ∧ OuterAt tl (tok.type.skipped start) (start + 1) 0 close k
  words : tok.type = .tokWord →
    ∃ k stop, start ≤ k ∧ k < e ∧ readToken tl k = .ok stop ∧ stop.type ≠ .tokWord

theorem TokenType.nesting_closer {t close : TokenType} (h : t.closer = some close) :
    nesting close = -1 := by
  cases t <;> cases h <;> rfl

theorem not_endsInWord_of_close (hread : readToken tl k = .ok tok) (hnest : nesting tok.type = -1)
    (hsk : start ≤ k) (hke : k < e) {h : Header}
    (hadd : addRedirects tl .fresh (k + 1) (e - (k + 1)) = .ok h) :
    ¬ EndsInWord (tl.range start e) := by
  rw [range_split hread hsk hke, List.append_cons]
  rcases Nat.eq_or_lt_of_le (Nat.succ_le_of_lt hke) with rfl | hlt
  · rw [range_self, List.append_nil, endsInWord_concat]
    rintro ⟨⟨w, hw⟩, _⟩
    have htype := Token.lexeme_type tl tok
    rw [hw] at htype
    rw [← htype] at hnest
    cases hnest
  · have hend : k + 1 + (e - (k + 1)) = e := by omega
    have hnot : ¬ EndsInWord (tl.range start k ++ [tok.lexeme tl] ++
        tl.range (k + 1) (k + 1 + (e - (k + 1)))) :=
      not_endsInWord_of_addRedirects hadd (by omega)
    rwa [hend] at hnot

theorem endsInWord_of_words (hlt : start < e) (he : e ≤ tl.numTokens)
    (hall : ∀ l ∈ tl.range start e, l.type = .tokWord) : EndsInWord (tl.range start e) := by
  obtain ⟨k, rfl⟩ : ∃ k, e = k + 1 := ⟨e - 1, by omega⟩
  obtain ⟨last, hlast⟩ : ∃ last, readToken tl k = .ok last := readToken_of_lt (by omega)
  rw [range_concat hlast (by omega)] at hall ⊢
  have hword := hall (last.lexeme tl) (by simp)
  rw [Token.lexeme_type] at hword
  refine endsInWord_concat.mpr ⟨⟨_, Token.lexeme_word hword⟩, fun l hl => ?_⟩
  rw [hall l (List.mem_append_left _ (List.mem_of_getLast? hl))]
  rfl

theorem finishedBefore_single {P : Nat → Nat → Except Fault Command} (hlt : start < e)
    (he : e ≤ tl.numTokens) (hopen : ∀ tok, readToken tl e = .ok tok → nesting tok.type ≠ -1)
    (h : parseSingle P tl start e = .ok c) (hread : readToken tl start = .ok tok) :
    ¬ EndsInWord (tl.range start e) ↔ FinishedBefore tl start e tok := by
  have hclosed : ∀ {close skip k h}, tok.type.closer = some close → tok.type.skipped start = skip →
      OuterAt tl skip (start + 1) 0 close k → k ≤ start + 1 + (e - (start + 1)) →
      addRedirects tl .fresh (k + 1) (e - (k + 1)) = .ok h →
      (¬ EndsInWord (tl.range start e) ↔ FinishedBefore tl start e tok) := by
    intro close skip k h hcloser hskip hk hke hadd
    have hnest := TokenType.nesting_closer hcloser
    obtain ⟨hsk, _, ⟨stop, hstop, htype⟩, _⟩ := id hk
    rw [← htype] at hnest
    have hke' : k < e := by
      refine Nat.lt_of_le_of_ne (by omega) ?_
      rintro rfl
      exact hopen stop hstop hnest
    constructor
    · intro _
      constructor
      · intro close' hcloser'
        rw [hcloser] at hcloser'
        cases hcloser'
        rw [hskip]
        exact ⟨k, hke', hk⟩
      · intro hword
        rw [hword] at hcloser
        cases hcloser
    · intro _
      exact not_endsInWord_of_close hstop hnest (by omega) hke' hadd
  obtain ⟨tok', hread', _, h⟩ := parseSingle_inv h
  rw [hread] at hread'
  cases hread'
  rcases h with ⟨htype, h⟩ | h | ⟨htype, h⟩ | ⟨htype, h⟩
  · obtain ⟨k, found, _, _, hscan, _, _, ⟨_, h, _, hadd, _⟩ | ⟨_, _, _, h, _, _, _, hadd, _⟩⟩ :=
      magicalIfParser_inv h
    · exact hclosed (by rw [htype]; rfl) (by rw [htype]; rfl) (scanForward_some hscan).2.1
        (scanForward_some hscan).1 hadd
    · exact hclosed (by rw [htype]; rfl) (by rw [htype]; rfl) (scanForward_some hscan).2.1
        (scanForward_some hscan).1 hadd
  · obtain ⟨type, k, found, _, _, _, h, htype, hscan, _, _, _, hadd, _⟩ :=
      magicalWhileUntilParser_inv h
    obtain ⟨tok', hread', htype⟩ := loopTypeAt_ok htype
    rw [hread] at hread'
    cases hread'
    cases type with
    | untilCommand =>
      exact hclosed (by rw [htype]; rfl) (by rw [htype]; rfl) (scanForward_some hscan).2.1
        (scanForward_some hscan).1 hadd
    | whileCommand =>
      exact hclosed (by rw [htype]; rfl) (by rw [htype]; rfl) (scanForward_some hscan).2.1
        (scanForward_some hscan).1 hadd
  · obtain ⟨k, found, _, h, hscan, _, hadd, _⟩ := magicalSubshellParser_inv h
    exact hclosed (by rw [htype]; rfl) (by rw [htype]; rfl) (scanForward_some hscan).2.1
      (scanForward_some hscan).1 hadd
  · obtain ⟨index, words, h, hlt', hscan, _, hadd, _⟩ := magicalWordParser_inv hread htype h
    obtain ⟨_, hie, hall, hstop⟩ := scanWords_ok hscan
    rcases Nat.lt_or_ge index e with hinside | hover
    · obtain ⟨stop, hread', hne⟩ := hstop (by omega)
      have hend : index + (e - index) = e := by omega
      have hnot : ¬ EndsInWord (tl.range start index ++ tl.range index (index + (e - index))) :=
        not_endsInWord_of_addRedirects hadd (by omega)
      rw [hend, ← range_append (by omega) (by omega)] at hnot
      refine ⟨fun _ => ⟨fun close hclose => ?_, fun _ => ?_⟩, fun _ => hnot⟩
      · rw [htype] at hclose
        cases hclose
      · exact ⟨index, stop, by omega, hinside, hread', hne⟩
    · have hwords : ∀ l ∈ tl.range start e, l.type = .tokWord := by
        intro l hl
        refine hall l ?_
        rw [range_append (Nat.le_of_lt hlt) hover]
        exact List.mem_append_left _ hl
      constructor
      · intro hnot
        exact absurd (endsInWord_of_words hlt he hwords) hnot
      · intro hfinished
        obtain ⟨k, stop, hsk, hke, hread', hne⟩ := hfinished.words htype
        have hword := hwords (stop.lexeme tl) (by rw [range_split hread' hsk hke]; simp)
        rw [Token.lexeme_type] at hword
        exact absurd hword hne

/-- Where the parser accepts a range, the range ends in a word exactly if its last command needs the
token behind it. -/
theorem finishedBefore_iff (hlt : start < e) (he : e ≤ tl.numTokens)
    (hopen : ∀ tok, readToken tl e = .ok tok → nesting tok.type ≠ -1)
    (h : parse fuel tl start e = .ok c) :
    ¬ EndsInWord (tl.range start e) ↔ ∀ tok, readToken tl (lastPart tl start e) = .ok tok →
      FinishedBefore tl (lastPart tl start e) e tok := by
  induction fuel generalizing start c with
  | zero => cases h
  | succ fuel ih =>
    have hsplit : ∀ {i tok}, start < i → i + 1 < e → readToken tl i = .ok tok →
        tok.type.isRedirect = false →
        (EndsInWord (tl.range start e) ↔ EndsInWord (tl.range (i + 1) e)) := by
      intro i tok hsi hie hread hredirect
      obtain ⟨next, hnext⟩ : ∃ next, readToken tl (i + 1) = .ok next :=
        readToken_of_lt (by omega)
      rw [range_split hread (by omega) (by omega)]
      exact endsInWord_append (by rwa [Token.lexeme_type]) (range_ne_nil hnext hie)
    obtain ⟨last, hlast, hends, ⟨i, a, b, hscan, ha, hb, _⟩ |
      ⟨hsc, ⟨i, a, b, hscan, ha, hb, _⟩ | ⟨hpipe, hsingle⟩⟩⟩ := parse_inv h
    · obtain ⟨hsi, hie, tok, hread, htype⟩ := halves_inv rfl hlt hlast hends hscan ha
      rw [hsplit hsi hie hread (by rw [htype]; rfl), ← lastPart_sequence hie hscan]
      exact ih hie hb
    · obtain ⟨hsi, hie, tok, hread, htype⟩ := halves_inv rfl hlt hlast hends hscan ha
      rw [hsplit hsi hie hread (by rw [htype]; rfl),
        ← lastPart_pipe (Nat.le_of_lt hsi) hie hsc hscan]
      exact ih hie hb
    · rw [lastPart, afterLast_none hsc, afterLast_none hpipe]
      obtain ⟨tok, hread⟩ := readToken_of_lt (Nat.lt_of_lt_of_le hlt he)
      rw [finishedBefore_single hlt he hopen hsingle hread]
      constructor
      · intro hfinished tok' hread'
        rw [hread] at hread'
        cases hread'
        exact hfinished
      · exact fun hall => hall tok hread

/-! ## Without the tokens behind the range -/

theorem numTokens_cut (hm : m ≤ tl.numTokens) : (tl.cut m).numTokens = m :=
  List.length_take_of_le hm

theorem range_cut (hjm : j ≤ m) : (tl.cut m).range i j = tl.range i j := by
  have htake : ((tl.tokens.take m).drop i).take (j - i) = (tl.tokens.drop i).take (j - i) := by
    rw [List.drop_take, List.take_take]
    congr 1
    omega
  exact congrArg (List.map (Token.lexeme tl)) htake

theorem readToken_cut_of_lt (him : i < m) : readToken (tl.cut m) i = readToken tl i := by
  rw [readToken_cut, if_pos him]

theorem readBefore_cut (him : i ≤ m) : readBefore (tl.cut m) i = readBefore tl i := by
  cases i with
  | zero => rfl
  | succ i => exact readToken_cut_of_lt him

theorem lastPart_cut (hlt : start < m) (hm : m ≤ tl.numTokens) :
    lastPart (tl.cut m) start m = lastPart tl start m := by
  have hscan : ∀ {sep i}, scanBack tl sep i m 0 = scanBack (tl.cut m) sep i m 0 := by
    intro sep i
    apply ((sameTokens_cut tl m).scanBack sep i m 0).eq_of_avoids
    exact inRange_scanBack (by omega) (by rw [numTokens_cut hm])
  unfold lastPart afterLast
  rw [hscan, hscan]

theorem FinishedBefore.cut (h : FinishedBefore tl start m tok) : Finished (tl.cut m) start tok := by
  constructor
  · intro close hclose
    obtain ⟨k, hkm, hle, hskip, ⟨stop, hread, htype⟩, hrise⟩ := h.closed close hclose
    refine ⟨k, hle, hskip, ⟨stop, ?_, htype⟩, ?_⟩
    · rwa [readToken_cut_of_lt hkm]
    · rwa [range_cut (Nat.le_of_lt hkm)]
  · intro hword
    obtain ⟨k, stop, hsk, hkm, hread, hne⟩ := h.words hword
    exact ⟨k, stop, hsk, by rwa [readToken_cut_of_lt hkm], hne⟩

theorem TokenList.BeginsProperly.cut (h : tl.BeginsProperly) (hpos : 0 < m) :
    (tl.cut m).BeginsProperly := by
  intro tok hread
  rw [readToken_cut_of_lt hpos] at hread
  exact h tok hread

/-- The token behind a range that does not end in a word is not needed. -/
theorem parse_cut (hbegins : tl.BeginsProperly) (hlt : start < m) (hm : m ≤ tl.numTokens)
    (hopen : ∀ tok, readToken tl m = .ok tok → nesting tok.type ≠ -1)
    (h : parse fuel tl start m = .ok c) (hends : ¬ EndsInWord (tl.range start m)) :
    parse fuel (tl.cut m) start m = .ok c := by
  have hall := (finishedBefore_iff hlt hm hopen h).mp hends
  have hnum := numTokens_cut hm
  have hfinished : ∀ tok, readToken (tl.cut m) (lastPart (tl.cut m) start (tl.cut m).numTokens) =
      .ok tok → Finished (tl.cut m) (lastPart (tl.cut m) start (tl.cut m).numTokens) tok := by
    rw [hnum, lastPart_cut hlt hm]
    intro tok hread
    have hlast : lastPart tl start m < m := by
      have hread := lt_of_readToken hread
      rwa [hnum] at hread
    rw [readToken_cut_of_lt hlast] at hread
    exact (hall tok hread).cut
  have hrange : InRange (parse fuel (tl.cut m) start m) := by
    have htail := @inRange_parse_tail (tl.cut m) start fuel
      (hbegins.cut (Nat.zero_lt_of_lt hlt)) (hnum.symm ▸ hlt) fun _ => hfinished
    rwa [hnum] at htail
  rw [← h]
  exact (((sameTokens_cut tl m).parse fuel start m).eq_of_avoids hrange).symm

/-- A line in front of a newline token. -/
theorem checkFailParse_cut (hbegins : tl.BeginsProperly) (hread : readToken tl e = .ok tok)
    (hopens : tok.type.opens = false) (hpos : 0 < e) (hle : start ≤ e) (hem : e < m) :
    checkFailParse (parse fuel (tl.cut m)) (tl.cut m) start e =
      checkFailParse (parse fuel tl) tl start e := by
  have hsame := sameTokens_cut tl m
  have hfenced : Fenced (tl.cut m) start e e :=
    fenced_at (by rwa [readToken_cut_of_lt hem]) hopens hpos hle
  have hbegins' := hbegins.cut (Nat.zero_lt_of_lt hem)
  have hrange : InRange (checkFailParse (parse fuel (tl.cut m)) (tl.cut m) start e) :=
    inRange_checkFailParse (inRange_parse_fenced hbegins') hbegins' hfenced
  exact ((hsame.checkFailParse (hsame.parse fuel) start e).eq_of_avoids hrange).symm

/-- Whether the last line has more than one token or is the only one, and does not end in a word. -/
def TokenList.LastLineFinished (tl : TokenList) : Prop :=
  ∀ start, tl.OpenLine start →
    (start = 0 ∨ start + 1 < tl.numTokens) ∧ ¬ EndsInWord (tl.range start tl.numTokens)

/-- The list has one more token than its first `m`, and this ends a line or a command. -/
def TokenList.ClosedAt (tl : TokenList) (m : Nat) (t : TokenType) : Prop :=
  tl.numTokens = m + 1 ∧ ∃ tok, readToken tl m = .ok tok ∧ tok.type = t

theorem cut_numTokens (tl : TokenList) : tl.cut tl.numTokens = tl := by
  have htake : tl.tokens.take tl.numTokens = tl.tokens := List.take_of_length_le (Nat.le_refl _)
  rw [TokenList.cut, htake]

/-- The last line does not need the token behind it. -/
theorem checkFailParse_tail (hbegins : tl.BeginsProperly) (hlt : start < m)
    (hends : ¬ EndsInWord (tl.range start m))
    (h : checkFailParse (parse fuel tl) tl start index = .ok c)
    (hindex : tl.numTokens = m ∧ index = m ∨ tl.ClosedAt m .tokNl ∧ index = m ∨
      tl.ClosedAt m .tokSc ∧ index = m + 1) :
    checkFailParse (parse fuel (tl.cut m)) (tl.cut m) start m = .ok c := by
  obtain ⟨last, hlast, h⟩ := checkFailParse_inv h
  rcases hindex with ⟨hnum, rfl⟩ | ⟨⟨hnum, stop, hstop, htype⟩, rfl⟩ |
    ⟨⟨hnum, stop, hstop, htype⟩, rfl⟩
  · rw [← hnum, cut_numTokens, hnum, checkFailParse, hlast]
    rcases h with ⟨hsc, h⟩ | ⟨hsc, h⟩
    · exact (if_pos hsc).trans h
    · exact (if_neg hsc).trans h
  · have hclosed : ∀ tok, readToken tl index = .ok tok → nesting tok.type ≠ -1 := by
      intro tok hread
      rw [hstop] at hread
      cases hread
      rw [htype]
      decide
    rw [checkFailParse, readBefore_cut (Nat.le_refl _), hlast]
    rcases h with ⟨hsc, h⟩ | ⟨hsc, h⟩
    · obtain ⟨k, rfl, hread⟩ := readBefore_inv hlast
      have hpos : 0 < k := by
        refine Nat.pos_of_ne_zero ?_
        rintro rfl
        exact (hbegins last hread).1 hsc
      have hfenced : Fenced (tl.cut (k + 1)) start k k :=
        fenced_at (by rwa [readToken_cut_of_lt (Nat.lt_succ_self k)]) (by rw [hsc]; rfl) hpos
          (Nat.le_of_lt_succ hlt)
      have hrange : InRange (parse fuel (tl.cut (k + 1)) start k) :=
        inRange_parse_fenced (hbegins.cut (Nat.succ_pos k)) hfenced
      refine (if_pos hsc).trans ?_
      rw [Nat.add_sub_cancel] at h ⊢
      rw [← h]
      exact (((sameTokens_cut tl (k + 1)).parse fuel start k).eq_of_avoids hrange).symm
    · refine (if_neg hsc).trans ?_
      exact parse_cut hbegins hlt (by omega) hclosed h hends
  · have hclosed : ∀ tok, readToken tl m = .ok tok → nesting tok.type ≠ -1 := by
      intro tok hread
      rw [hstop] at hread
      cases hread
      rw [htype]
      decide
    have hlast' : last = stop := by
      obtain ⟨k, hk, hread⟩ := readBefore_inv hlast
      obtain rfl : m = k := Nat.succ.inj hk
      rw [hstop] at hread
      exact (Except.ok.inj hread).symm
    obtain ⟨_, h⟩ := h.resolve_right fun hother => hother.1 (hlast' ▸ htype)
    rw [Nat.add_sub_cancel] at h
    cases fuel with
    | zero => cases h
    | succ fuel =>
      obtain ⟨before, hbefore, hbad, _⟩ := parse_inv h
      rw [checkFailParse, readBefore_cut (Nat.le_refl _), hbefore]
      refine (if_neg (ne_of_not_endsBadly hbad).1).trans ?_
      exact parse_cut hbegins hlt (by omega) hclosed h hends

end CS111.Shell
