import CS111.Shell.EveryCommand

/-!
# What stands behind `;`, `|` and `else`

In a range that the parser accepts, a command comes behind every `;`, `|` and `else`, or the token
that closes the command around it. A sign that is the target of a redirection is no exception:
another redirection comes behind it.
-/

namespace CS111.Shell

set_option autoImplicit false

open Fallible TokenList

variable {tl : TokenList} {start s e i j k m n p fuel : Nat} {tok : Token} {c : Command}
  {cs : List Command} {P : Nat → Nat → Except Fault Command} {script : List UInt8}

/-- A `;`, a `|`, or an `else` that is no target of a redirection of the range. -/
def TokenList.Asks (tl : TokenList) (start p : Nat) : Prop :=
  ∃ tok, readToken tl p = .ok tok ∧ ((tok.type = .tokSc ∨ tok.type = .tokPipe) ∨
    tok.type = .tokElse ∧
      (start < p → ∀ before, readBefore tl p = .ok before → before.type.isRedirect = false))

/-- Such a token is not the last one of the range, and no `;` comes behind it. -/
def TokenList.Continued (tl : TokenList) (start e : Nat) : Prop :=
  ∀ p, start ≤ p → p < e → tl.Asks start p →
    p + 1 < e ∧ ∀ next, readToken tl (p + 1) = .ok next → next.type ≠ .tokSc

theorem TokenList.Asks.sub (h : tl.Asks start p) (hsi : start ≤ i) : tl.Asks i p := by
  obtain ⟨tok, hread, hasks⟩ := h
  refine ⟨tok, hread, hasks.imp_right ?_⟩
  rintro ⟨htype, hbefore⟩
  exact ⟨htype, fun hip => hbefore (by omega)⟩

theorem TokenList.Asks.type (h : tl.Asks start p) (hread : readToken tl p = .ok tok) :
    (tok.type = .tokSc ∨ tok.type = .tokPipe) ∨ tok.type = .tokElse := by
  obtain ⟨tok', hread', hasks⟩ := h
  rw [hread] at hread'
  cases hread'
  exact hasks.imp_right And.left

theorem ne_semicolon_of_opens (h : tok.type.opens = true) : tok.type ≠ .tokSc := by
  intro hsc
  rw [hsc] at h
  cases h

/-- What a call on a part says about the tokens of the part: a `;` may end it. -/
theorem continued_checkFailParse
    (hP : ∀ {a b c}, P a b = .ok c → a < b → tl.Continued a b)
    (h : checkFailParse P tl start e = .ok c) (hp : start ≤ p) (hpe : p < e)
    (hasks : tl.Asks start p) :
    (p + 1 < e ∧ ∀ next, readToken tl (p + 1) = .ok next → next.type ≠ .tokSc) ∨
      p + 1 = e ∧ ∃ tok, readToken tl p = .ok tok ∧ tok.type = .tokSc := by
  obtain ⟨last, hlast, ⟨hsc, h⟩ | ⟨_, h⟩⟩ := checkFailParse_inv h
  · obtain ⟨k, rfl, hread⟩ := readBefore_inv hlast
    rw [Nat.add_sub_cancel] at h
    rcases Nat.eq_or_lt_of_le (Nat.le_of_lt_succ hpe) with rfl | hpk
    · exact .inr ⟨rfl, last, hread, hsc⟩
    · obtain ⟨hlt, hnext⟩ := hP h (by omega) p hp hpk hasks
      exact .inl ⟨by omega, hnext⟩
  · exact .inl (hP h (by omega) p hp hpe hasks)

/-- A part of a compound command in front of the token `t`. -/
theorem continued_part {t : TokenType}
    (hP : ∀ {a b c}, P a b = .ok c → a < b → tl.Continued a b)
    (h : checkFailParse P tl i j = .ok c) (hclose : ∃ tok, readToken tl j = .ok tok ∧ tok.type = t)
    (ht : t ≠ .tokSc) (hje : j ≤ e)
    (hlast : ∀ last, readBefore tl e = .ok last → last.type.endsBadly = false) (hp : i ≤ p)
    (hpj : p < j) (hasks : tl.Asks i p) :
    p + 1 < e ∧ ∀ next, readToken tl (p + 1) = .ok next → next.type ≠ .tokSc := by
  rcases continued_checkFailParse hP h hp hpj hasks with ⟨hlt, hnext⟩ | ⟨rfl, tok, hread, hsc⟩
  · exact ⟨by omega, hnext⟩
  · obtain ⟨close, hclose, htype⟩ := hclose
    constructor
    · refine Nat.lt_of_le_of_ne hje ?_
      rintro rfl
      have hbad := hlast tok hread
      rw [hsc] at hbad
      cases hbad
    · intro next hnext
      rw [hclose] at hnext
      cases hnext
      rw [htype]
      exact ht

/-- A sign among the redirections is a target. -/
theorem continued_addRedirects {comm h : Header} (hadd : addRedirects tl comm i n = .ok h)
    (hlast : ∀ last, readBefore tl (i + n) = .ok last → last.type.endsBadly = false)
    (hsi : start < i) (hip : i ≤ p) (hpn : p < i + n) (hasks : tl.Asks start p) :
    p + 1 < i + n ∧ ∀ next, readToken tl (p + 1) = .ok next → next.type ≠ .tokSc := by
  induction n using Nat.strong_induction_on generalizing comm i with
  | _ n ih =>
    match n with
    | 0 => omega
    | 1 => exact absurd hadd failAt_ne_ok
    | n + 2 =>
      obtain ⟨tok, target, comm', hread, hredirect, htarget, hadd⟩ := addRedirects_two hadd
      have hend : i + (n + 2) = i + 2 + n := by omega
      rw [hend] at hlast hpn ⊢
      rcases Nat.lt_or_ge p (i + 2) with hhere | hlater
      · have hne : p ≠ i := by
          rintro rfl
          rcases hasks.type hread with (htype | htype) | htype
          · rw [htype] at hredirect
            cases hredirect
          · rw [htype] at hredirect
            cases hredirect
          · rw [htype] at hredirect
            cases hredirect
        obtain rfl : p = i + 1 := by omega
        obtain ⟨tok', hread', hsign | ⟨_, hbefore⟩⟩ := hasks
        · rw [htarget] at hread'
          cases hread'
          cases n with
          | zero =>
            have hbad := hlast target htarget
            rcases hsign with hsign | hsign
            · rw [hsign] at hbad
              cases hbad
            · rw [hsign] at hbad
              cases hbad
          | succ n =>
            refine ⟨by omega, fun next hnext => ?_⟩
            match n, hadd with
            | 0, hadd => exact absurd hadd failAt_ne_ok
            | n + 1, hadd =>
              obtain ⟨op, _, _, hop, hredirect', _⟩ := addRedirects_two hadd
              rw [hnext] at hop
              cases hop
              intro hsc
              rw [hsc] at hredirect'
              cases hredirect'
        · have hfalse := hbefore (by omega) tok hread
          rw [hredirect] at hfalse
          cases hfalse
      · exact ih n (by omega) hadd hlast (by omega) hlater hpn

section Compound
theorem not_asks_of_type {t : TokenType} (hread : ∃ tok, readToken tl p = .ok tok ∧ tok.type = t)
    (hsc : t ≠ .tokSc) (hpipe : t ≠ .tokPipe) (helse : t ≠ .tokElse) : ¬ tl.Asks start p := by
  intro hasks
  obtain ⟨tok, hread, rfl⟩ := hread
  exact (hasks.type hread).elim (fun h => h.elim hsc hpipe) helse

/-- Behind the closing token of a compound command there are redirections. -/
theorem continued_behind {h : Header} (hadd : addRedirects tl .fresh (k + 1) (e - (k + 1)) = .ok h)
    (hlast : ∀ last, readBefore tl e = .ok last → last.type.endsBadly = false) (hsk : start ≤ k)
    (hkp : k < p) (hpe : p < e) (hasks : tl.Asks start p) :
    p + 1 < e ∧ ∀ next, readToken tl (p + 1) = .ok next → next.type ≠ .tokSc := by
  have hend : k + 1 + (e - (k + 1)) = e := by omega
  have hnext := continued_addRedirects hadd (by rwa [hend]) (Nat.lt_succ_of_le hsk) hkp
    (by omega) hasks
  rwa [hend] at hnext

variable (hP : ∀ {a b c}, P a b = .ok c → a < b → tl.Continued a b)
include hP

theorem continued_ifCommand
    (hopens : ∀ {a b c}, P a b = .ok c → ∃ tok, readToken tl a = .ok tok ∧ tok.type.opens = true)
    (hlast : ∀ last, readBefore tl e = .ok last → last.type.endsBadly = false) (hlt : start < e)
    (hread : readToken tl start = .ok tok) (htype : tok.type = .tokIf)
    (h : magicalIfParser P tl start e = .ok c) : tl.Continued start e := by
  intro p hsp hpe hasks
  have hstart : start < p := by
    refine Nat.lt_of_le_of_ne hsp ?_
    rintro rfl
    exact not_asks_of_type ⟨tok, hread, htype⟩ (by decide) (by decide) (by decide) hasks
  have hinner := hasks.sub (Nat.le_succ start)
  obtain ⟨k, found, j, cond, hscan, hthen, hcond, h⟩ := magicalIfParser_inv h
  obtain ⟨hke, hclose, hmarks⟩ := scanForward_some hscan
  have hmark : ∀ {t i}, found t = some i → i < k ∧ OuterAt tl (some (start + 1)) (start + 1) 0 t i :=
    fun hfound => (hmarks _ _ hfound).elim (fun hnone => by cases hnone) And.right
  obtain ⟨hjk, hsj, _, hj, _⟩ := hmark hthen
  obtain ⟨hsk, _, hk, _⟩ := hclose
  rcases Nat.lt_trichotomy p j with hpj | rfl | hjp
  · exact continued_part hP hcond hj (by decide) (by omega) hlast hstart hpj hinner
  · exact absurd hasks (not_asks_of_type hj (by decide) (by decide) (by decide))
  rcases Nat.lt_trichotomy p k with hpk | rfl | hkp
  · rcases h with ⟨body, _, hbody, _⟩ | ⟨m, body, other, _, helse, hbody, hother, _⟩
    · exact continued_part hP hbody hk (by decide) (by omega) hlast hjp hpk (hasks.sub (by omega))
    · obtain ⟨hmk, hsm, _, hm, _⟩ := hmark helse
      rcases Nat.lt_trichotomy p m with hpm | rfl | hmp
      · exact continued_part hP hbody hm (by decide) (by omega) hlast hjp hpm (hasks.sub (by omega))
      · obtain ⟨_, _, hother⟩ := checkFailParse_inv hother
        obtain ⟨next, hnext, hopen⟩ : ∃ tok, readToken tl (p + 1) = .ok tok ∧
            tok.type.opens = true := by
          rcases hother with ⟨_, hother⟩ | ⟨_, hother⟩
          · exact hopens hother
          · exact hopens hother
        have hne : p + 1 ≠ k := by
          rintro rfl
          obtain ⟨fi, hfi, hfitype⟩ := hk
          rw [hnext] at hfi
          cases hfi
          rw [hfitype] at hopen
          cases hopen
        refine ⟨by omega, fun next' hnext' => ?_⟩
        rw [hnext] at hnext'
        cases hnext'
        exact ne_semicolon_of_opens hopen
      · exact continued_part hP hother hk (by decide) (by omega) hlast hmp hpk (hasks.sub (by omega))
  · exact absurd hasks (not_asks_of_type hk (by decide) (by decide) (by decide))
  · rcases h with ⟨_, h, _, hadd, _⟩ | ⟨_, _, _, h, _, _, _, hadd, _⟩
    · exact continued_behind hadd hlast (by omega) hkp hpe hasks
    · exact continued_behind hadd hlast (by omega) hkp hpe hasks

theorem continued_loop
    (hlast : ∀ last, readBefore tl e = .ok last → last.type.endsBadly = false) (hlt : start < e)
    (h : magicalWhileUntilParser P tl start e = .ok c) : tl.Continued start e := by
  intro p hsp hpe hasks
  obtain ⟨type, k, found, j, cond, body, h, htype, hscan, hdo, hcond, hbody, hadd, _⟩ :=
    magicalWhileUntilParser_inv h
  obtain ⟨tok, hread, htype⟩ := loopTypeAt_ok htype
  have hstart : start < p := by
    refine Nat.lt_of_le_of_ne hsp ?_
    rintro rfl
    refine not_asks_of_type ⟨tok, hread, htype⟩ ?_ ?_ ?_ hasks
    · cases type <;> decide
    · cases type <;> decide
    · cases type <;> decide
  have hinner := hasks.sub (Nat.le_succ start)
  obtain ⟨hke, ⟨hsk, _, hk, _⟩, hmarks⟩ := scanForward_some hscan
  obtain ⟨_, hjk, hsj, _, hj, _⟩ := (hmarks _ _ hdo).resolve_left (fun hnone => by cases hnone)
  rcases Nat.lt_trichotomy p j with hpj | rfl | hjp
  · exact continued_part hP hcond hj (by decide) (by omega) hlast hstart hpj hinner
  · exact absurd hasks (not_asks_of_type hj (by decide) (by decide) (by decide))
  rcases Nat.lt_trichotomy p k with hpk | rfl | hkp
  · exact continued_part hP hbody hk (by decide) (by omega) hlast hjp hpk (hasks.sub (by omega))
  · exact absurd hasks (not_asks_of_type hk (by decide) (by decide) (by decide))
  · exact continued_behind hadd hlast (by omega) hkp hpe hasks

theorem continued_subshell
    (hlast : ∀ last, readBefore tl e = .ok last → last.type.endsBadly = false)
    (hread : readToken tl start = .ok tok) (htype : tok.type = .tokLparen)
    (h : magicalSubshellParser P tl start e = .ok c) : tl.Continued start e := by
  intro p hsp hpe hasks
  have hstart : start < p := by
    refine Nat.lt_of_le_of_ne hsp ?_
    rintro rfl
    exact not_asks_of_type ⟨tok, hread, htype⟩ (by decide) (by decide) (by decide) hasks
  obtain ⟨k, found, body, h, hscan, hbody, hadd, _⟩ := magicalSubshellParser_inv h
  obtain ⟨hke, ⟨hsk, _, hk, _⟩, _⟩ := scanForward_some hscan
  rcases Nat.lt_trichotomy p k with hpk | rfl | hkp
  · exact continued_part hP hbody hk (by decide) (by omega) hlast hstart hpk
      (hasks.sub (Nat.le_succ start))
  · exact absurd hasks (not_asks_of_type hk (by decide) (by decide) (by decide))
  · exact continued_behind hadd hlast (by omega) hkp hpe hasks

end Compound

theorem continued_words (hlast : ∀ last, readBefore tl e = .ok last → last.type.endsBadly = false)
    (hread : readToken tl start = .ok tok) (htype : tok.type = .tokWord)
    (h : magicalWordParser tl start e = .ok c) : tl.Continued start e := by
  intro p hsp hpe hasks
  obtain ⟨index, words, h, hlt', hscan, _, hadd, _⟩ := magicalWordParser_inv hread htype h
  obtain ⟨_, _, hall, _⟩ := scanWords_ok hscan
  rcases Nat.lt_or_ge p index with hword | hbehind
  · obtain ⟨tok', hread', _⟩ := id hasks
    have htype' := hall (tok'.lexeme tl) (by rw [range_split hread' hsp hword]; simp)
    rw [Token.lexeme_type] at htype'
    exact absurd hasks (not_asks_of_type ⟨tok', hread', htype'⟩ (by decide) (by decide) (by decide))
  · have hend : index + (e - index) = e := by omega
    have hnext := continued_addRedirects hadd (by rwa [hend]) hlt' hbehind (by omega) hasks
    rwa [hend] at hnext

/-- In an accepted range, a command or a redirection comes behind every such token. -/
theorem continued_of_parse (hlt : start < e) (h : parse fuel tl start e = .ok c) :
    tl.Continued start e := by
  induction fuel generalizing start e c with
  | zero => cases h
  | succ fuel ih =>
    have hP : ∀ {a b c}, parse fuel tl a b = .ok c → a < b → tl.Continued a b :=
      fun h hab => ih hab h
    have hhalves : ∀ {i a b sep}, parse fuel tl start i = .ok a → parse fuel tl (i + 1) e = .ok b →
        start < i → i + 1 < e → (∃ tok, readToken tl i = .ok tok ∧ tok.type = sep) →
        tl.Continued start e := by
      intro i a b sep ha hb hsi hie hsep p hsp hpe hasks
      rcases Nat.lt_trichotomy p i with hpi | rfl | hip
      · obtain ⟨hlt', hnext⟩ := ih hsi ha p hsp hpi hasks
        exact ⟨by omega, hnext⟩
      · refine ⟨hie, fun next hnext => ?_⟩
        obtain ⟨tok, hread, hopens⟩ := opens_of_parse hb
        rw [hnext] at hread
        cases hread
        exact ne_semicolon_of_opens hopens
      · exact ih hie hb p hip hpe (hasks.sub (by omega))
    obtain ⟨last, hlast, hends, ⟨i, a, b, hscan, ha, hb, _⟩ |
      ⟨_, ⟨i, a, b, hscan, ha, hb, _⟩ | ⟨_, hsingle⟩⟩⟩ := parse_inv h
    · obtain ⟨hsi, hie, hsep⟩ := halves_inv rfl hlt hlast hends hscan ha
      exact hhalves ha hb hsi hie hsep
    · obtain ⟨hsi, hie, hsep⟩ := halves_inv rfl hlt hlast hends hscan ha
      exact hhalves ha hb hsi hie hsep
    · have hlast' : ∀ last', readBefore tl e = .ok last' → last'.type.endsBadly = false := by
        intro last' hlast'
        rw [hlast] at hlast'
        cases hlast'
        exact hends
      obtain ⟨tok, hread, _, ⟨htype, h⟩ | h | ⟨htype, h⟩ | ⟨htype, h⟩⟩ := parseSingle_inv hsingle
      · exact continued_ifCommand hP opens_of_parse hlast' hlt hread htype h
      · exact continued_loop hP hlast' hlt h
      · exact continued_subshell hP hlast' hread htype h
      · exact continued_words hlast' hread htype h

/-- Where an accepted script has such a token, the line goes on behind it, but for a `;` at the end
of the line. -/
theorem continued_of_readCommands (h : readCommands fuel tl n start = .ok cs)
    (hp : start ≤ p) (hpe : p + 1 < tl.numTokens) (hasks : tl.Asks 0 p)
    (hread : readToken tl p = .ok tok) :
    ∀ next, readToken tl (p + 1) = .ok next →
      next.type ≠ .tokSc ∧ (tok.type ≠ .tokSc → next.type ≠ .tokNl) := by
  induction n generalizing start cs with
  | zero => cases h
  | succ n ih =>
    obtain ⟨index, c, hparse, hstart, hclear, hnext⟩ := readCommands_inv (by omega) h
    have hline : (∃ tok, readToken tl index = .ok tok ∧ tok.type = .tokNl) → index ≠ p := by
      rintro hnl rfl
      exact not_asks_of_type hnl (by decide) (by decide) (by decide) hasks
    rcases Nat.lt_or_ge p index with hinside | hbehind
    · have hsub : tl.Asks start p := hasks.sub (Nat.zero_le start)
      intro next hread'
      rcases continued_checkFailParse (fun h hab => continued_of_parse hab h) hparse hp hinside
        hsub with ⟨hlt, hnext⟩ | ⟨rfl, tok', hread'', hsc⟩
      · exact ⟨hnext next hread', fun _ => hclear (p + 1) next (by omega) hlt hread'⟩
      · rw [hread] at hread''
        cases hread''
        refine ⟨?_, fun hne => absurd hsc hne⟩
        rcases hnext with ⟨hend, _⟩ | ⟨⟨tok', hread'', htype⟩, _⟩
        · omega
        · rw [hread'] at hread''
          cases hread''
          rw [htype]
          decide
    · rcases hnext with ⟨rfl, _⟩ | ⟨hnl, ⟨hlast, _⟩ | ⟨hmore, rest, _, hrest⟩⟩
      · omega
      · exact absurd (by omega) (hline hnl)
      · rcases Nat.eq_or_lt_of_le hbehind with heq | hlt
        · exact absurd heq (hline hnl)
        · exact ih hrest hlt

/-! ## Scripts -/

/-- Somewhere a `;` stands behind a `;`, or a `;` or a newline token behind a `|` or behind an
`else` that is no target. -/
def CutsShort (ls : List Lexeme) : Prop :=
  ∃ xs l m, xs ++ [l, m] <+: ls ∧
    ((l.type = .tokSc ∨ l.type = .tokPipe) ∨
      l.type = .tokElse ∧ ∀ x ∈ xs.getLast?, x.type.isRedirect = false) ∧
    (m.type = .tokSc ∨ m.type = .tokNl ∧ l.type ≠ .tokSc)

theorem CutsShort.grows {ls ls' : List Lexeme} (h : CutsShort ls) (hgrows : ls <+: ls') :
    CutsShort ls' := by
  obtain ⟨xs, l, m, hprefix, hasks, hm⟩ := h
  exact ⟨xs, l, m, hprefix.trans hgrows, hasks, hm⟩

/-- In an accepted script, no command is cut short. -/
theorem not_cutsShort {ls : List Lexeme} (h : Delivers fuel script cs)
    (hscan : scriptScan script = .ok ls) : ¬ CutsShort ls := by
  rintro ⟨xs, l, m, ⟨ys, rfl⟩, hasks, hm⟩
  obtain ⟨tl, hlex, hspell⟩ := (mirrors_lexScript script).ok_right hscan
  have hnum : tl.numTokens = xs.length + 2 + ys.length := by
    rw [hspell.numTokens, List.length_append, List.length_append]
    rfl
  obtain ⟨hzero, _⟩ | ⟨_, htrees⟩ := (delivers_iff hlex).mp h
  · omega
  have hget : ∀ i l', (xs ++ [l, m] ++ ys)[i]? = some l' →
      ∃ tok, readToken tl i = .ok tok ∧ tok.type = l'.type := by
    intro i l' hl'
    rcases hspell.read i with ⟨_, hnone⟩ | ⟨tok, l'', hread, hl'', htype, _⟩
    · rw [hl'] at hnone
      cases hnone
    · rw [hl'] at hl''
      cases hl''
      exact ⟨tok, hread, htype⟩
  obtain ⟨tok, hread, htype⟩ := hget xs.length l (by simp)
  obtain ⟨next, hnext, hnexttype⟩ := hget (xs.length + 1) m (by simp)
  have hasks' : tl.Asks 0 xs.length := by
    refine ⟨tok, hread, ?_⟩
    rw [htype]
    refine hasks.imp_right ?_
    rintro ⟨helse, hbefore⟩
    refine ⟨helse, fun hpos before hread => ?_⟩
    obtain ⟨zs, x, rfl⟩ := (List.eq_nil_or_concat xs).resolve_left (List.length_pos_iff.mp hpos)
    rw [List.concat_eq_append] at hread hbefore hget
    rw [List.length_append, List.length_singleton] at hread
    obtain ⟨before', hread', hxtype⟩ := hget zs.length x (by simp)
    obtain rfl : before = before' := Except.ok.inj (hread.symm.trans hread')
    rw [hxtype]
    exact hbefore x List.getLast?_concat
  obtain ⟨hsc, hnl⟩ :=
    continued_of_readCommands htrees (Nat.zero_le _) (by omega) hasks' hread next hnext
  rw [hnexttype] at hsc hnl
  rcases hm with hm | ⟨hm, hne⟩
  · exact hsc hm
  · exact hnl (htype ▸ hne) hm

end CS111.Shell
