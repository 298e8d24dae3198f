import CS111.Shell.Scanning

/-!
# One call of `parse`

What a successful call has done, the trees that come out of it, and how deep the calls go.
-/

namespace CS111.Shell

set_option autoImplicit false

open TokenList

variable {tl : TokenList} {a b i j k n start e fuel : Nat} {tok : Token} {t : TokenType}
  {c : Command}

theorem readToken_of_lt (h : i < tl.numTokens) : ∃ tok, readToken tl i = .ok tok := by
  obtain ⟨tok, htok⟩ : ∃ tok, tl.tokens[i]? = some tok := ⟨_, List.getElem?_eq_getElem h⟩
  refine ⟨tok, ?_⟩
  rw [readToken, htok]

theorem parse_inv (h : parse (fuel + 1) tl start e = .ok c) :
    ∃ last, readBefore tl e = .ok last ∧ last.type.endsBadly = false ∧
      ((∃ i a b, scanBack tl .tokSc start e 0 = .ok (some i) ∧ parse fuel tl start i = .ok a ∧
          parse fuel tl (i + 1) e = .ok b ∧ c = .sequence .fresh a b) ∨
        scanBack tl .tokSc start e 0 = .ok none ∧
          ((∃ i a b, scanBack tl .tokPipe start e 0 = .ok (some i) ∧
              parse fuel tl start i = .ok a ∧ parse fuel tl (i + 1) e = .ok b ∧
              c = .pipe .fresh a b) ∨
            scanBack tl .tokPipe start e 0 = .ok none ∧
              parseSingle (parse fuel tl) tl start e = .ok c)) := by
  obtain ⟨last, hlast, h⟩ := Except.bind_ok.mp h
  refine ⟨last, hlast, ?_⟩
  split at h
  · cases h
  · next hends =>
    refine ⟨Bool.eq_false_iff.mpr hends, ?_⟩
    obtain ⟨r, hscan, h⟩ := Except.bind_ok.mp h
    cases r with
    | some i =>
      obtain ⟨a, ha, h⟩ := Except.bind_ok.mp h
      obtain ⟨b, hb, h⟩ := Except.bind_ok.mp h
      cases h
      exact .inl ⟨i, a, b, hscan, ha, hb, rfl⟩
    | none =>
      refine .inr ⟨hscan, ?_⟩
      obtain ⟨r, hscan', h⟩ := Except.bind_ok.mp h
      cases r with
      | some i =>
        obtain ⟨a, ha, h⟩ := Except.bind_ok.mp h
        obtain ⟨b, hb, h⟩ := Except.bind_ok.mp h
        cases h
        exact .inl ⟨i, a, b, hscan', ha, hb, rfl⟩
      | none => exact .inr ⟨hscan', h⟩

/-- The token before the range of a successful call, where it is one of the range. -/
theorem readBefore_inv {last : Token} (h : readBefore tl e = .ok last) :
    ∃ k, e = k + 1 ∧ readToken tl k = .ok last := by
  cases e with
  | zero => cases h
  | succ k => exact ⟨k, rfl, h⟩

theorem le_of_readBefore {last : Token} (h : readBefore tl e = .ok last) : e ≤ tl.numTokens := by
  obtain ⟨k, rfl, hread⟩ := readBefore_inv h
  exact lt_of_readToken hread

/-- The tokens that a command can begin with. -/
def TokenType.opens : TokenType → Bool
  | .tokIf | .tokWhile | .tokUntil | .tokLparen | .tokWord => true
  | _ => false

section Compound
variable {P : Nat → Nat → Except Fault Command}

theorem checkFailParse_inv (h : checkFailParse P tl a b = .ok c) :
    ∃ last, readBefore tl b = .ok last ∧
      (last.type = .tokSc ∧ P a (b - 1) = .ok c ∨ last.type ≠ .tokSc ∧ P a b = .ok c) := by
  obtain ⟨last, hlast, h⟩ := Except.bind_ok.mp h
  refine ⟨last, hlast, ?_⟩
  split at h
  · next hsc => exact .inl ⟨hsc, h⟩
  · next hsc => exact .inr ⟨hsc, h⟩

theorem magicalSubshellParser_inv (hparse : magicalSubshellParser P tl start e = .ok c) :
    ∃ k found body h, scanForward tl [] .tokRparen none (e - (start + 1)) (start + 1) 0
        (fun _ => none) = .ok (some k, found) ∧
      checkFailParse P tl (start + 1) k = .ok body ∧
      addRedirects tl .fresh (k + 1) (e - (k + 1)) = .ok h ∧ c = .subshell h body := by
  obtain ⟨⟨r, found⟩, hscan, hparse⟩ := Except.bind_ok.mp hparse
  cases r with
  | none => exact absurd hparse failAt_ne_ok
  | some k =>
    obtain ⟨body, hbody, hparse⟩ := Except.bind_ok.mp hparse
    obtain ⟨h, hadd, hparse⟩ := Except.bind_ok.mp hparse
    cases hparse
    exact ⟨k, found, body, h, hscan, hbody, hadd, rfl⟩

theorem loopTypeAt_ok {type : LoopType} (h : loopTypeAt tl start = .ok type) :
    ∃ tok, readToken tl start = .ok tok ∧ tok.type = type.keyword := by
  obtain ⟨tok, hread, h⟩ := Except.bind_ok.mp h
  refine ⟨tok, hread, ?_⟩
  split at h
  · next htype =>
    cases h
    exact htype
  · next htype =>
    cases h
    exact htype
  · exact absurd h failAt_ne_ok

theorem magicalWhileUntilParser_inv (hparse : magicalWhileUntilParser P tl start e = .ok c) :
    ∃ type k found j cond body h, loopTypeAt tl start = .ok type ∧
      scanForward tl [.tokDo] .tokDone (some (start + 1)) (e - (start + 1)) (start + 1) 0
        (fun _ => none) = .ok (some k, found) ∧ found .tokDo = some j ∧
      checkFailParse P tl (start + 1) j = .ok cond ∧ checkFailParse P tl (j + 1) k = .ok body ∧
      addRedirects tl .fresh (k + 1) (e - (k + 1)) = .ok h ∧ c = .loop type h cond body := by
  obtain ⟨type, htype, hparse⟩ := Except.bind_ok.mp hparse
  obtain ⟨⟨r, found⟩, hscan, hparse⟩ := Except.bind_ok.mp hparse
  cases r with
  | none => exact absurd hparse failAt_ne_ok
  | some k =>
    cases hdo : found .tokDo with
    | none =>
      simp only [hdo] at hparse
      exact absurd hparse failAt_ne_ok
    | some j =>
      simp only [hdo] at hparse
      obtain ⟨cond, hcond, hparse⟩ := Except.bind_ok.mp hparse
      obtain ⟨body, hbody, hparse⟩ := Except.bind_ok.mp hparse
      obtain ⟨h, hadd, hparse⟩ := Except.bind_ok.mp hparse
      cases hparse
      exact ⟨type, k, found, j, cond, body, h, htype, hscan, hdo, hcond, hbody, hadd, rfl⟩

theorem magicalIfParser_inv (hparse : magicalIfParser P tl start e = .ok c) :
    ∃ k found j cond, scanForward tl [.tokThen, .tokElse] .tokFi (some (start + 1))
        (e - (start + 1)) (start + 1) 0 (fun _ => none) = .ok (some k, found) ∧
      found .tokThen = some j ∧ checkFailParse P tl (start + 1) j = .ok cond ∧
      ((∃ thenPart h, checkFailParse P tl (j + 1) k = .ok thenPart ∧
          addRedirects tl .fresh (k + 1) (e - (k + 1)) = .ok h ∧ c = .ifThen h cond thenPart) ∨
        ∃ m thenPart elsePart h, found .tokElse = some m ∧
          checkFailParse P tl (j + 1) m = .ok thenPart ∧
          checkFailParse P tl (m + 1) k = .ok elsePart ∧
          addRedirects tl .fresh (k + 1) (e - (k + 1)) = .ok h ∧
          c = .ifElse h cond thenPart elsePart) := by
  obtain ⟨⟨r, found⟩, hscan, hparse⟩ := Except.bind_ok.mp hparse
  cases r with
  | none => exact absurd hparse failAt_ne_ok
  | some k =>
    cases hthen : found .tokThen with
    | none =>
      simp only [hthen] at hparse
      exact absurd hparse failAt_ne_ok
    | some j =>
      simp only [hthen] at hparse
      obtain ⟨cond, hcond, hparse⟩ := Except.bind_ok.mp hparse
      refine ⟨k, found, j, cond, hscan, hthen, hcond, ?_⟩
      cases helse : found .tokElse with
      | none =>
        simp only [helse] at hparse
        obtain ⟨thenPart, hbody, hparse⟩ := Except.bind_ok.mp hparse
        obtain ⟨h, hadd, hparse⟩ := Except.bind_ok.mp hparse
        cases hparse
        exact .inl ⟨thenPart, h, hbody, hadd, rfl⟩
      | some m =>
        simp only [helse] at hparse
        obtain ⟨thenPart, hbody, hparse⟩ := Except.bind_ok.mp hparse
        obtain ⟨elsePart, hother, hparse⟩ := Except.bind_ok.mp hparse
        obtain ⟨h, hadd, hparse⟩ := Except.bind_ok.mp hparse
        cases hparse
        exact .inr ⟨m, thenPart, elsePart, h, rfl, hbody, hother, hadd, rfl⟩

/-- The first token of a command decides what it is. -/
theorem parseSingle_inv (h : parseSingle P tl start e = .ok c) :
    ∃ tok, readToken tl start = .ok tok ∧ tok.type.opens = true ∧
      (tok.type = .tokIf ∧ magicalIfParser P tl start e = .ok c ∨
        magicalWhileUntilParser P tl start e = .ok c ∨
        tok.type = .tokLparen ∧ magicalSubshellParser P tl start e = .ok c ∨
        tok.type = .tokWord ∧ magicalWordParser tl start e = .ok c) := by
  obtain ⟨tok, hread, h⟩ := Except.bind_ok.mp h
  refine ⟨tok, hread, ?_⟩
  split at h
  · next htype => exact ⟨by rw [htype]; rfl, .inl ⟨htype, h⟩⟩
  · next htype => exact ⟨by rw [htype]; rfl, .inr (.inl h)⟩
  · next htype => exact ⟨by rw [htype]; rfl, .inr (.inl h)⟩
  · next htype => exact ⟨by rw [htype]; rfl, .inr (.inr (.inl ⟨htype, h⟩))⟩
  · next htype => exact ⟨by rw [htype]; rfl, .inr (.inr (.inr ⟨htype, h⟩))⟩
  · exact absurd h failAt_ne_ok

end Compound

theorem scanBack_empty {sep : TokenType} {last : Token} {r : Option Nat} (hle : e ≤ start)
    (hlast : readBefore tl e = .ok last) (hne : last.type ≠ sep)
    (h : scanBack tl sep start e 0 = .ok r) : r = none := by
  obtain ⟨k, rfl, hread⟩ := readBefore_inv hlast
  rw [scanBack_succ hread, if_neg fun hfound => hne hfound.2, if_neg (by omega)] at h
  cases h
  rfl

theorem ne_of_not_endsBadly (h : t.endsBadly = false) : t ≠ .tokSc ∧ t ≠ .tokPipe := by
  constructor
  · rintro rfl
    cases h
  · rintro rfl
    cases h

/-- No command is read from an empty range in front of a token that opens none. -/
theorem parse_empty (hle : e ≤ start) (hread : readToken tl start = .ok tok)
    (hopens : tok.type.opens = false) : parse fuel tl start e ≠ .ok c := by
  intro h
  cases fuel with
  | zero => cases h
  | succ fuel =>
    obtain ⟨last, hlast, hends, h⟩ := parse_inv h
    obtain ⟨hsc, hpipe⟩ := ne_of_not_endsBadly hends
    rcases h with ⟨i, a, b, hscan, _⟩ | ⟨_, ⟨i, a, b, hscan, _⟩ | ⟨_, h⟩⟩
    · cases scanBack_empty hle hlast hsc hscan
    · cases scanBack_empty hle hlast hpipe hscan
    · obtain ⟨tok', hread', hopens', _⟩ := parseSingle_inv h
      rw [hread] at hread'
      cases hread'
      rw [hopens] at hopens'
      cases hopens'

/-- Neither half of a sequence or a pipeline is empty. -/
theorem halves_inv {sep : TokenType} {first : Command} {last : Token}
    (hsep : sep.endsBadly = true) (hlt : start < e) (hlast : readBefore tl e = .ok last)
    (hends : last.type.endsBadly = false) (hscan : scanBack tl sep start e 0 = .ok (some i))
    (hfirst : parse fuel tl start i = .ok first) :
    start < i ∧ i + 1 < e ∧ ∃ tok, readToken tl i = .ok tok ∧ tok.type = sep := by
  obtain ⟨hie, hstart, ⟨tok, hread, rfl⟩, _, _⟩ := scanBack_some hscan
  obtain ⟨k, rfl, hend⟩ := readBefore_inv hlast
  have hopens : tok.type.opens = false := by
    cases htype : tok.type <;> simp only [htype, TokenType.endsBadly] at hsep <;>
      first | rfl | cases hsep
  refine ⟨?_, ?_, tok, hread, rfl⟩
  · refine Nat.lt_of_le_of_ne (by omega) ?_
    rintro rfl
    exact parse_empty (Nat.le_refl start) hread hopens hfirst
  · refine Nat.lt_of_le_of_ne hie fun heq => ?_
    obtain rfl : i = k := Nat.succ.inj heq
    rw [hread] at hend
    cases hend
    rw [hsep] at hends
    cases hends

/-! ## The trees -/

theorem addRedirects_status {comm h : Header} (hadd : addRedirects tl comm i n = .ok h) :
    h.status = comm.status := by
  induction n using Nat.strong_induction_on generalizing comm i with
  | _ n ih =>
    match n with
    | 0 =>
      cases hadd
      rfl
    | 1 => exact absurd hadd failAt_ne_ok
    | n + 2 =>
      obtain ⟨tok, _, hadd⟩ := Except.bind_ok.mp hadd
      split at hadd
      · split at hadd
        · obtain ⟨target, _, hadd⟩ := Except.bind_ok.mp hadd
          have hnext := ih n (by omega) hadd
          exact hnext
        · exact absurd hadd failAt_ne_ok
      · split at hadd
        · obtain ⟨target, _, hadd⟩ := Except.bind_ok.mp hadd
          have hnext := ih n (by omega) hadd
          exact hnext
        · exact absurd hadd failAt_ne_ok
      · exact absurd hadd failAt_ne_ok

theorem readWords_length {ws : List Word} (h : readWords tl i n = .ok ws) : ws.length = n := by
  induction n generalizing i ws with
  | zero =>
    cases h
    rfl
  | succ n ih =>
    obtain ⟨tok, _, h⟩ := Except.bind_ok.mp h
    obtain ⟨rest, hrest, h⟩ := Except.bind_ok.mp h
    cases h
    rw [List.length_cons, ih hrest]

theorem scanWords_start_lt (hread : readToken tl i = .ok tok) (htype : tok.type = .tokWord)
    (h : scanWords tl n i = .ok j) : i < j := by
  obtain ⟨hij, _, _, hstop⟩ := scanWords_ok h
  refine Nat.lt_of_le_of_ne hij ?_
  rintro rfl
  obtain ⟨tok', hread', hne⟩ := hstop (by omega)
  rw [hread] at hread'
  cases hread'
  exact hne htype

theorem magicalWordParser_inv (hread : readToken tl start = .ok tok) (htype : tok.type = .tokWord)
    (hparse : magicalWordParser tl start e = .ok c) :
    ∃ index ws h, start < index ∧ scanWords tl (e - start) start = .ok index ∧
      readWords tl start (index - start + 1) = .ok ws ∧
      addRedirects tl .fresh index (e - index) = .ok h ∧ c = .simple h ws.dropLast := by
  obtain ⟨index, hscan, hparse⟩ := Except.bind_ok.mp hparse
  obtain ⟨ws, hwords, hparse⟩ := Except.bind_ok.mp hparse
  obtain ⟨h, hadd, hparse⟩ := Except.bind_ok.mp hparse
  cases hparse
  exact ⟨index, ws, h, scanWords_start_lt hread htype hscan, hscan, hwords, hadd, rfl⟩

/-- A range that the backward loop has passed once has no `sep` for a second pass. -/
theorem scanBack_again {sep : TokenType} (hlt : start < e)
    (hclear : Clear (fun l => -l.nest) (fun l => l.type = sep) 0 (tl.range start e).reverse) :
    scanBack tl sep start e 0 ≠ .ok (some j) := by
  intro h
  obtain ⟨hje, hstart, ⟨tok, hread, htype⟩, _, hrise⟩ := scanBack_some h
  rw [range_split hread (by omega) hje, List.reverse_append, clear_append, List.reverse_cons,
    clear_append, rise_reverse, rise_neg, hrise] at hclear
  exact hclear.1.2.1 rfl ((Token.lexeme_type tl tok).trans htype)

/-- What a pass over the whole range says about the part before the token where it was at
depth 0. -/
theorem clear_split {sep : TokenType} (hread : readToken tl i = .ok tok) (hsi : start ≤ i)
    (hie : i < e) (hnest : nesting tok.type = 0)
    (hrise : rise Lexeme.nest (tl.range (i + 1) e) = 0)
    (hclear : Clear (fun l => -l.nest) (fun l => l.type = sep) 0 (tl.range start e).reverse) :
    Clear (fun l => -l.nest) (fun l => l.type = sep) 0 (tl.range start i).reverse ∧
      Clear (fun l => -l.nest) (fun l => l.type = sep) 0 (tl.range (i + 1) e).reverse := by
  rw [range_split hread hsi hie, List.reverse_append, clear_append, List.reverse_cons,
    clear_append, rise_append, rise_reverse, rise_neg, hrise, rise_cons, Token.nest_lexeme,
    hnest] at hclear
  exact ⟨hclear.2, hclear.1.1⟩

theorem parseSingle_free {P : Nat → Nat → Except Fault Command}
    (h : parseSingle P tl start e = .ok c) :
    c.isSequence = false ∧ c.isPipe = false ∧ ∀ sep, c.free sep := by
  obtain ⟨tok, hread, _, ⟨_, h⟩ | h | ⟨_, h⟩ | ⟨htype, h⟩⟩ := parseSingle_inv h
  · obtain ⟨k, found, j, cond, _, _, _, ⟨_, _, _, _, rfl⟩ | ⟨_, _, _, _, _, _, _, _, rfl⟩⟩ :=
      magicalIfParser_inv h
    · exact ⟨rfl, rfl, fun _ => trivial⟩
    · exact ⟨rfl, rfl, fun _ => trivial⟩
  · obtain ⟨_, _, _, _, _, _, _, _, _, _, _, _, _, rfl⟩ := magicalWhileUntilParser_inv h
    exact ⟨rfl, rfl, fun _ => trivial⟩
  · obtain ⟨_, _, _, _, _, _, _, rfl⟩ := magicalSubshellParser_inv h
    exact ⟨rfl, rfl, fun _ => trivial⟩
  · obtain ⟨_, _, _, _, _, _, _, rfl⟩ := magicalWordParser_inv hread htype h
    exact ⟨rfl, rfl, fun _ => trivial⟩

theorem parse_isSequence (hlt : start < e) (h : parse fuel tl start e = .ok c)
    (hclear : Clear (fun l => -l.nest) (fun l => l.type = .tokSc) 0 (tl.range start e).reverse) :
    c.isSequence = false := by
  cases fuel with
  | zero => cases h
  | succ fuel =>
    obtain ⟨_, _, _, ⟨i, a, b, hscan, _⟩ | ⟨_, ⟨i, a, b, _, _, _, rfl⟩ | ⟨_, h⟩⟩⟩ := parse_inv h
    · exact absurd hscan (scanBack_again hlt hclear)
    · rfl
    · exact (parseSingle_free h).1

theorem parse_isPipe (hlt : start < e) (h : parse fuel tl start e = .ok c)
    (hclear : Clear (fun l => -l.nest) (fun l => l.type = .tokPipe) 0 (tl.range start e).reverse) :
    c.isPipe = false := by
  cases fuel with
  | zero => cases h
  | succ fuel =>
    obtain ⟨_, _, _, ⟨i, a, b, _, _, _, rfl⟩ | ⟨_, ⟨i, a, b, hscan, _⟩ | ⟨_, h⟩⟩⟩ := parse_inv h
    · rfl
    · exact absurd hscan (scanBack_again hlt hclear)
    · exact (parseSingle_free h).2.1

/-- Without a `;` at its top the range gives a tree without sequences at its top. -/
theorem parse_free_sc (hlt : start < e) (h : parse fuel tl start e = .ok c)
    (hclear : Clear (fun l => -l.nest) (fun l => l.type = .tokSc) 0 (tl.range start e).reverse) :
    c.free .tokSc := by
  induction fuel generalizing start e c with
  | zero => cases h
  | succ fuel ih =>
    obtain ⟨last, hlast, hends, ⟨i, a, b, hscan, _⟩ | ⟨_, ⟨i, a, b, hscan, ha, hb, rfl⟩ | ⟨_, h⟩⟩⟩ :=
      parse_inv h
    · exact absurd hscan (scanBack_again hlt hclear)
    · obtain ⟨hsi, hie, tok, hread, htype⟩ := halves_inv rfl hlt hlast hends hscan ha
      obtain ⟨_, _, _, _, hrise⟩ := scanBack_some hscan
      obtain ⟨hleft, hright⟩ := clear_split hread (Nat.le_of_lt hsi) (by omega)
        (by rw [htype]; rfl) hrise hclear
      exact ⟨by decide, ih hsi ha hleft, ih hie hb hright⟩
    · exact (parseSingle_free h).2.2 _

section Compound
variable {P : Nat → Nat → Except Fault Command}

theorem checkFailParse_normal (hP : ∀ {a b c}, P a b = .ok c → c.Normal)
    (h : checkFailParse P tl a b = .ok c) : c.Normal := by
  obtain ⟨_, _, ⟨_, h⟩ | ⟨_, h⟩⟩ := checkFailParse_inv h
  · exact hP h
  · exact hP h

theorem parseSingle_normal (hP : ∀ {a b c}, P a b = .ok c → c.Normal)
    (h : parseSingle P tl start e = .ok c) : c.Normal := by
  obtain ⟨tok, hread, _, ⟨_, h⟩ | h | ⟨_, h⟩ | ⟨htype, h⟩⟩ := parseSingle_inv h
  · obtain ⟨k, found, j, cond, _, _, hcond, ⟨thenPart, h, hbody, hadd, rfl⟩ |
      ⟨m, thenPart, elsePart, h, _, hbody, hother, hadd, rfl⟩⟩ := magicalIfParser_inv h
    · exact ⟨addRedirects_status hadd, checkFailParse_normal hP hcond,
        checkFailParse_normal hP hbody⟩
    · exact ⟨addRedirects_status hadd, checkFailParse_normal hP hcond,
        checkFailParse_normal hP hbody, checkFailParse_normal hP hother⟩
  · obtain ⟨_, _, _, _, _, _, _, _, _, _, hcond, hbody, hadd, rfl⟩ := magicalWhileUntilParser_inv h
    exact ⟨addRedirects_status hadd, checkFailParse_normal hP hcond,
      checkFailParse_normal hP hbody⟩
  · obtain ⟨_, _, _, _, _, hbody, hadd, rfl⟩ := magicalSubshellParser_inv h
    exact ⟨addRedirects_status hadd, checkFailParse_normal hP hbody⟩
  · obtain ⟨index, ws, _, hlt, _, hwords, hadd, rfl⟩ := magicalWordParser_inv hread htype h
    refine ⟨addRedirects_status hadd, ?_⟩
    intro hnil
    have hlength := readWords_length hwords
    have hdrop : ws.dropLast.length = ws.length - 1 := List.length_dropLast
    rw [hnil, hlength, List.length_nil] at hdrop
    omega

end Compound

/-- Where the range is empty, the calls of `parse` for two halves do not come about. -/
theorem lt_of_scanBack {sep : TokenType} {last : Token} (hsep : sep.endsBadly = true)
    (hlast : readBefore tl e = .ok last) (hends : last.type.endsBadly = false)
    (hscan : scanBack tl sep start e 0 = .ok (some i)) : start < e := by
  by_contra hle
  have hne : last.type ≠ sep := by
    rintro rfl
    rw [hsep] at hends
    cases hends
  cases scanBack_empty (Nat.not_lt.mp hle) hlast hne hscan

/-- Every tree that comes out of `parse` is normal. -/
theorem parse_normal (h : parse fuel tl start e = .ok c) : c.Normal := by
  induction fuel generalizing start e c with
  | zero => cases h
  | succ fuel ih =>
    obtain ⟨last, hlast, hends, ⟨i, a, b, hscan, ha, hb, rfl⟩ |
      ⟨hnone, ⟨i, a, b, hscan, ha, hb, rfl⟩ | ⟨_, h⟩⟩⟩ := parse_inv h
    · have hlt := lt_of_scanBack rfl hlast hends hscan
      obtain ⟨_, hie, _⟩ := halves_inv rfl hlt hlast hends hscan ha
      obtain ⟨_, _, _, hclear, _⟩ := scanBack_some hscan
      exact ⟨rfl, ih ha, ih hb, parse_isSequence hie hb hclear⟩
    · have hlt := lt_of_scanBack rfl hlast hends hscan
      obtain ⟨hsi, hie, tok, hread, htype⟩ := halves_inv rfl hlt hlast hends hscan ha
      obtain ⟨_, _, _, hclear, hrise⟩ := scanBack_some hscan
      obtain ⟨hleft, hright⟩ := clear_split hread (Nat.le_of_lt hsi) (by omega)
        (by rw [htype]; rfl) hrise (scanBack_eq_none hnone hlt)
      exact ⟨rfl, ih ha, ih hb, parse_free_sc hsi ha hleft, parse_free_sc hie hb hright,
        parse_isPipe hie hb hclear⟩
    · exact parseSingle_normal ih h

/-! ## The depth of the calls -/

theorem Except.bind_error {α β : Type} {x : Except Fault α} {f : α → Except Fault β}
    {fault : Fault} (h : x >>= f = .error fault) :
    x = .error fault ∨ ∃ y, x = .ok y ∧ f y = .error fault := by
  cases x with
  | error fault' =>
    cases h
    exact .inl rfl
  | ok y => exact .inr ⟨y, rfl, h⟩

/-- The call ends with a tree or with an error. -/
def Ends {α : Type} (x : Except Fault α) : Prop := x ≠ .error .outOfFuel

theorem Ends.bind {α β : Type} {x : Except Fault α} {f : α → Except Fault β} (hx : Ends x)
    (hf : ∀ y, x = .ok y → Ends (f y)) : Ends (x >>= f) := by
  intro h
  rcases Except.bind_error h with h | ⟨y, hy, h⟩
  · exact hx h
  · exact hf y hy h

theorem ends_readToken : Ends (readToken tl i) := by
  unfold Ends readToken
  split
  · simp
  · simp

theorem ends_readBefore : Ends (readBefore tl i) := by
  cases i with
  | zero => simp [Ends, readBefore]
  | succ i => exact ends_readToken

theorem ends_failAt {α : Type} {message : String} : Ends (failAt (α := α) tl i message) :=
  ends_readToken.bind fun tok _ => by simp [Ends]

theorem ends_ok {α : Type} {r : α} : Ends (.ok r) := by
  simp [Ends]

theorem ends_scanBack {sep : TokenType} {d : Int} : Ends (scanBack tl sep start i d) := by
  induction i generalizing d with
  | zero => simp [Ends, scanBack]
  | succ i ih =>
    refine ends_readToken.bind fun tok _ => ?_
    split
    · exact ends_ok
    · split
      · exact ih
      · exact ends_ok

theorem ends_scanForward {marks : List TokenType} {close : TokenType} {skip : Option Nat}
    {d : Int} {found : TokenType → Option Nat} :
    Ends (scanForward tl marks close skip n i d found) := by
  induction n generalizing i d found with
  | zero =>
    refine ends_readToken.bind fun tok _ => ?_
    dsimp only
    split
    · exact ends_ok
    · exact ends_ok
  | succ n ih =>
    refine ends_readToken.bind fun tok _ => ?_
    dsimp only
    split
    · exact ends_ok
    · exact ih

theorem ends_addRedirects {comm : Header} : Ends (addRedirects tl comm i n) := by
  induction n using Nat.strong_induction_on generalizing comm i with
  | _ n ih =>
    match n with
    | 0 => exact ends_ok
    | 1 => exact ends_failAt
    | n + 2 =>
      refine ends_readToken.bind fun tok _ => ?_
      split
      · split
        · exact ends_readToken.bind fun target _ => ih n (by omega)
        · exact ends_failAt
      · split
        · exact ends_readToken.bind fun target _ => ih n (by omega)
        · exact ends_failAt
      · exact ends_failAt

theorem ends_scanWords : Ends (scanWords tl n i) := by
  induction n generalizing i with
  | zero =>
    refine ends_readToken.bind fun tok _ => ?_
    split
    · exact ends_ok
    · exact ends_ok
  | succ n ih =>
    refine ends_readToken.bind fun tok _ => ?_
    split
    · exact ends_ok
    · exact ih

theorem ends_readWords : Ends (readWords tl i n) := by
  induction n generalizing i with
  | zero => exact ends_ok
  | succ n ih => exact ends_readToken.bind fun tok _ => ih.bind fun rest _ => ends_ok

theorem ends_magicalWordParser : Ends (magicalWordParser tl start e) :=
  ends_scanWords.bind fun _ _ => ends_readWords.bind fun _ _ =>
    ends_addRedirects.bind fun _ _ => ends_ok

section Compound
variable {P : Nat → Nat → Except Fault Command}

theorem ends_checkFailParse (h : Ends (P a b)) (h' : Ends (P a (b - 1))) :
    Ends (checkFailParse P tl a b) := by
  refine ends_readBefore.bind fun last _ => ?_
  split
  · exact h'
  · exact h

theorem ends_checkFailParse_of_lt (hP : ∀ a b, b - a < n → Ends (P a b)) (hlt : b - a < n) :
    Ends (checkFailParse P tl a b) :=
  ends_checkFailParse (hP a b hlt) (hP a (b - 1) (by omega))

theorem ends_magicalIfParser (hP : ∀ a b, b - a < e - start → Ends (P a b)) :
    Ends (magicalIfParser P tl start e) := by
  refine ends_scanForward.bind fun r hscan => ?_
  obtain ⟨r, found⟩ := r
  cases r with
  | none => exact ends_failAt
  | some k =>
    obtain ⟨hle, hk, hmarks⟩ := scanForward_some hscan
    cases hthen : found .tokThen with
    | none =>
      simp only [hthen]
      exact ends_failAt
    | some j =>
      obtain ⟨_, hjk, hj⟩ := (hmarks _ j hthen).resolve_left (by simp)
      have hsj := hj.1
      simp only [hthen]
      refine (ends_checkFailParse_of_lt hP (by omega)).bind fun cond _ => ?_
      cases helse : found .tokElse with
      | none =>
        exact (ends_checkFailParse_of_lt hP (by omega)).bind fun _ _ =>
          ends_addRedirects.bind fun _ _ => ends_ok
      | some m =>
        obtain ⟨_, hmk, hm⟩ := (hmarks _ m helse).resolve_left (by simp)
        have hsm := hm.1
        exact (ends_checkFailParse_of_lt hP (by omega)).bind fun _ _ =>
          (ends_checkFailParse_of_lt hP (by omega)).bind fun _ _ =>
            ends_addRedirects.bind fun _ _ => ends_ok

theorem ends_loopTypeAt : Ends (loopTypeAt tl start) := by
  refine ends_readToken.bind fun tok _ => ?_
  split
  · exact ends_ok
  · exact ends_ok
  · exact ends_failAt

theorem ends_magicalWhileUntilParser (hP : ∀ a b, b - a < e - start → Ends (P a b)) :
    Ends (magicalWhileUntilParser P tl start e) := by
  refine ends_loopTypeAt.bind fun type _ => ends_scanForward.bind fun r hscan => ?_
  obtain ⟨r, found⟩ := r
  cases r with
  | none => exact ends_failAt
  | some k =>
    obtain ⟨hle, hk, hmarks⟩ := scanForward_some hscan
    cases hdo : found .tokDo with
    | none =>
      simp only [hdo]
      exact ends_failAt
    | some j =>
      obtain ⟨_, hjk, hj⟩ := (hmarks _ j hdo).resolve_left (by simp)
      have hsj := hj.1
      simp only [hdo]
      exact (ends_checkFailParse_of_lt hP (by omega)).bind fun _ _ =>
        (ends_checkFailParse_of_lt hP (by omega)).bind fun _ _ =>
          ends_addRedirects.bind fun _ _ => ends_ok

/-- The parenthesis may be closed at once; the call for what is inside then begins at `)`. -/
theorem ends_magicalSubshellParser (hP : ∀ a b, b - a < e - start → Ends (P a b))
    (hempty : ∀ {a b tok}, b ≤ a → readToken tl a = .ok tok → tok.type.opens = false →
      Ends (P a b)) :
    Ends (magicalSubshellParser P tl start e) := by
  refine ends_scanForward.bind fun r hscan => ?_
  obtain ⟨r, found⟩ := r
  cases r with
  | none => exact ends_failAt
  | some k =>
    obtain ⟨hle, ⟨hsk, _, ⟨close, hclose, hctype⟩, _⟩, _⟩ := scanForward_some hscan
    have hbody : Ends (checkFailParse P tl (start + 1) k) := by
      rcases Nat.eq_or_lt_of_le hsk with rfl | hlt
      · have hopens : close.type.opens = false := by
          rw [hctype]
          rfl
        exact ends_checkFailParse (hempty (Nat.le_refl _) hclose hopens)
          (hempty (Nat.sub_le _ 1) hclose hopens)
      · exact ends_checkFailParse_of_lt hP (by omega)
    exact hbody.bind fun _ _ => ends_addRedirects.bind fun _ _ => ends_ok

end Compound

theorem ends_parse_empty (hle : e ≤ start) (hread : readToken tl start = .ok tok)
    (hopens : tok.type.opens = false) : Ends (parse (fuel + 1) tl start e) := by
  refine ends_readBefore.bind fun last hlast => ?_
  split
  · simp [Ends]
  · next hends =>
    obtain ⟨hsc, hpipe⟩ := ne_of_not_endsBadly (Bool.eq_false_iff.mpr hends)
    refine ends_scanBack.bind fun r hscan => ?_
    rw [scanBack_empty hle hlast hsc hscan]
    refine ends_scanBack.bind fun r hscan' => ?_
    rw [scanBack_empty hle hlast hpipe hscan']
    refine ends_readToken.bind fun tok' hread' => ?_
    rw [hread] at hread'
    cases hread'
    cases htype : tok.type <;> simp only [htype, TokenType.opens] at hopens <;>
      first | exact ends_failAt | cases hopens

/-- The length of the range bounds the depth of the calls. -/
theorem ends_parse (hfuel : e - start + 2 ≤ fuel) : Ends (parse fuel tl start e) := by
  induction fuel generalizing start e with
  | zero => omega
  | succ fuel ih =>
    have hinner : ∀ a b, b - a < e - start → Ends (parse fuel tl a b) :=
      fun a b hlt => ih (by omega)
    have hempty : ∀ {a b tok}, b ≤ a → readToken tl a = .ok tok → tok.type.opens = false →
        Ends (parse fuel tl a b) := by
      intro a b tok hle hread hopens
      obtain ⟨fuel, rfl⟩ : ∃ m, fuel = m + 1 := ⟨fuel - 1, by omega⟩
      exact ends_parse_empty hle hread hopens
    refine ends_readBefore.bind fun last hlast => ?_
    split
    · simp [Ends]
    · next hends =>
      have hends := Bool.eq_false_iff.mpr hends
      have hhalves : ∀ {sep i}, sep.endsBadly = true → scanBack tl sep start e 0 = .ok (some i) →
          Ends (parse fuel tl start i) ∧ Ends (parse fuel tl (i + 1) e) := by
        intro sep i hsep hscan
        have hlt := lt_of_scanBack hsep hlast hends hscan
        obtain ⟨hie, hstart, _⟩ := scanBack_some hscan
        exact ⟨hinner _ _ (by omega), hinner _ _ (by omega)⟩
      refine ends_scanBack.bind fun r hscan => ?_
      cases r with
      | some i =>
        obtain ⟨hfirst, hsecond⟩ := hhalves rfl hscan
        exact hfirst.bind fun _ _ => hsecond.bind fun _ _ => ends_ok
      | none =>
        refine ends_scanBack.bind fun r hscan' => ?_
        cases r with
        | some i =>
          obtain ⟨hfirst, hsecond⟩ := hhalves rfl hscan'
          exact hfirst.bind fun _ _ => hsecond.bind fun _ _ => ends_ok
        | none =>
          refine ends_readToken.bind fun tok hread => ?_
          split
          · exact ends_magicalIfParser hinner
          · exact ends_magicalWhileUntilParser hinner
          · exact ends_magicalWhileUntilParser hinner
          · exact ends_magicalSubshellParser hinner hempty
          · exact ends_magicalWordParser
          · exact ends_failAt

end CS111.Shell
