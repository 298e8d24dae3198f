import CS111.Lib.Fallible
import CS111.Shell.ParserCalls
import CS111.Shell.ParserSimulation

/-!
# Which tokens the parser reads

A call on a range that is followed by a token with which no command begins reads nothing behind that
token. A call on a range up to the end of the array stays inside as well if its last part ends in
something else than a plain word, and closes what it opens. If not, it reads the token behind the
array, unless an error exit comes before.
-/

namespace CS111.Shell

set_option autoImplicit false

open Fallible TokenList

variable {tl : TokenList} {start e i j k n fuel : Nat} {d : Int} {tok : Token} {t : TokenType}

abbrev InRange {α : Type} (x : Except Fault α) : Prop := Avoids Fault.isOutOfRange x

theorem inRange_syntaxError {α : Type} {line : Nat} {message : String} :
    InRange (.error (.syntaxError line message) : Except Fault α) := avoids_error id

theorem inRange_readToken (h : i < tl.numTokens) : InRange (readToken tl i) := by
  obtain ⟨tok, hread⟩ := readToken_of_lt h
  rw [hread]
  exact avoids_ok tok

theorem inRange_readBefore (hpos : 0 < i) (h : i ≤ tl.numTokens) : InRange (readBefore tl i) := by
  obtain ⟨k, rfl⟩ := Nat.exists_eq_succ_of_ne_zero (Nat.ne_of_gt hpos)
  exact inRange_readToken h

theorem inRange_failAt {α : Type} {message : String} (h : i < tl.numTokens) :
    InRange (failAt tl i message : Except Fault α) :=
  (inRange_readToken h).bind fun _ _ => inRange_syntaxError

theorem scanBack_total {sep : TokenType} (hpos : 0 < i) (h : i ≤ tl.numTokens) :
    ∃ r, scanBack tl sep start i d = .ok r := by
  induction i generalizing d with
  | zero => omega
  | succ i ih =>
    obtain ⟨tok, hread⟩ := readToken_of_lt h
    rw [scanBack, hread]
    dsimp only [bind, Except.bind]
    split
    · exact ⟨_, rfl⟩
    · split
      · next hlt => exact ih (Nat.zero_lt_of_lt hlt) (Nat.le_of_succ_le h)
      · exact ⟨_, rfl⟩

theorem inRange_scanBack {sep : TokenType} (hpos : 0 < i) (h : i ≤ tl.numTokens) :
    InRange (scanBack tl sep start i d) := by
  obtain ⟨r, hr⟩ := scanBack_total hpos h
  rw [hr]
  exact avoids_ok r

section Forward
variable {marks : List TokenType} {close : TokenType} {skip : Option Nat}
  {found : TokenType → Option Nat}

theorem inRange_scanForward (h : i + n < tl.numTokens) :
    InRange (scanForward tl marks close skip n i d found) := by
  induction n generalizing i d found with
  | zero =>
    apply (inRange_readToken h).bind
    intro tok _
    dsimp only
    split
    · exact avoids_ok _
    · exact avoids_ok _
  | succ n ih =>
    apply (inRange_readToken (by omega)).bind
    intro tok _
    dsimp only
    split
    · exact avoids_ok _
    · exact ih (by omega)

/-- The scan does not get past the closing token. -/
theorem inRange_scanForward_of_close (hk : OuterAt tl skip i d close k) (hle : k ≤ i + n) :
    InRange (scanForward tl marks close skip n i d found) := by
  induction n generalizing i d found with
  | zero =>
    obtain ⟨hik, _, ⟨tok, hread, _⟩, _⟩ := hk
    exact inRange_scanForward (Nat.lt_of_le_of_lt hik (lt_of_readToken hread))
  | succ n ih =>
    obtain ⟨hik, hskip, ⟨close', hclose, rfl⟩, hrise⟩ := hk
    have hlt := lt_of_readToken hclose
    apply (inRange_readToken (Nat.lt_of_le_of_lt hik hlt)).bind
    intro tok hread
    dsimp only
    split
    · exact avoids_ok _
    · next hmiss =>
      rcases Nat.eq_or_lt_of_le hik with rfl | hlt'
      · rw [hread] at hclose
        cases hclose
        rw [range_self, rise_nil, Int.add_zero] at hrise
        exact absurd ⟨decide_eq_true ⟨hrise, hskip⟩, rfl⟩ hmiss
      · refine ih ⟨hlt', hskip, ⟨close', hclose, rfl⟩, ?_⟩ (by omega)
        rw [range_cons hread hlt', rise_cons, Token.nest_lexeme] at hrise
        omega

end Forward

theorem inRange_addRedirects {comm : Header} (h : i + n ≤ tl.numTokens) :
    InRange (addRedirects tl comm i n) := by
  induction n using Nat.strong_induction_on generalizing comm i with
  | _ n ih =>
    match n with
    | 0 => exact avoids_ok _
    | 1 => exact inRange_failAt h
    | n + 2 =>
      have hfail : ∀ message, InRange (failAt tl i message : Except Fault Header) :=
        fun message => inRange_failAt (by omega)
      apply (inRange_readToken (by omega)).bind
      intro tok _
      split
      · split
        · apply (inRange_readToken (by omega)).bind
          intro target _
          exact ih n (by omega) (by omega)
        · exact hfail _
      · split
        · apply (inRange_readToken (by omega)).bind
          intro target _
          exact ih n (by omega) (by omega)
        · exact hfail _
      · exact hfail _

/-- Words are read up to a token that is none. -/
theorem inRange_scanWords (hik : i ≤ k) (hread : readToken tl k = .ok tok)
    (hword : tok.type ≠ .tokWord) :
    InRange (scanWords tl n i) ∧ ∀ j, scanWords tl n i = .ok j → j ≤ k := by
  have hlt := lt_of_readToken hread
  have hnext : ∀ {tok' : Token}, readToken tl i = .ok tok' → ¬ tok'.type ≠ .tokWord → i + 1 ≤ k := by
    intro tok' hread' hword'
    refine Nat.lt_of_le_of_ne hik ?_
    rintro rfl
    rw [hread] at hread'
    cases hread'
    exact hword' hword
  induction n generalizing i with
  | zero =>
    obtain ⟨tok', hread'⟩ := readToken_of_lt (Nat.lt_of_le_of_lt hik hlt)
    rw [scanWords, hread']
    dsimp only [bind, Except.bind]
    split
    · refine ⟨avoids_ok _, fun j hj => ?_⟩
      cases hj
      exact hik
    · next hword' =>
      refine ⟨avoids_ok _, fun j hj => ?_⟩
      cases hj
      exact hnext hread' hword'
  | succ n ih =>
    obtain ⟨tok', hread'⟩ := readToken_of_lt (Nat.lt_of_le_of_lt hik hlt)
    rw [scanWords, hread']
    dsimp only [bind, Except.bind]
    split
    · refine ⟨avoids_ok _, fun j hj => ?_⟩
      cases hj
      exact hik
    · next hword' =>
      have hik' := hnext hread' hword'
      apply ih hik'
      intro tok'' hread'' hword''
      refine Nat.lt_of_le_of_ne hik' ?_
      rintro rfl
      rw [hread] at hread''
      cases hread''
      exact hword'' hword

theorem inRange_readWords (h : i + n ≤ tl.numTokens) : InRange (readWords tl i n) := by
  induction n generalizing i with
  | zero => exact avoids_ok _
  | succ n ih =>
    apply (inRange_readToken (by omega)).bind
    intro tok _
    apply (ih (by omega)).bind
    intro rest _
    exact avoids_ok _

theorem inRange_magicalWordParser (hsk : start ≤ k) (hread : readToken tl k = .ok tok)
    (hword : tok.type ≠ .tokWord) (he : e ≤ tl.numTokens) :
    InRange (magicalWordParser tl start e) := by
  have hlt := lt_of_readToken hread
  obtain ⟨hscan, hle⟩ := inRange_scanWords (n := e - start) hsk hread hword
  apply hscan.bind
  intro index hindex
  have hik := hle index hindex
  obtain ⟨hsi, _⟩ := scanWords_ok hindex
  apply (inRange_readWords (by omega)).bind
  intro words _
  apply (inRange_addRedirects (by omega)).bind
  intro h _
  exact avoids_ok _

/-! ## Calls on ranges -/

/-- The first token is neither `;` nor `|`. -/
def TokenList.BeginsProperly (tl : TokenList) : Prop :=
  ∀ tok, readToken tl 0 = .ok tok → tok.type ≠ .tokSc ∧ tok.type ≠ .tokPipe

/-- No command begins with the token at `k`, which is the one behind the range unless the range is
empty. -/
structure Fenced (tl : TokenList) (start e k : Nat) : Prop where
  pos : 0 < e
  startLe : start ≤ k
  endLe : e ≤ k
  atEnd : start ≤ e → k = e
  fence : ∃ tok, readToken tl k = .ok tok ∧ tok.type.opens = false

theorem Fenced.lt (h : Fenced tl start e k) : k < tl.numTokens := by
  obtain ⟨tok, hread, _⟩ := h.fence
  exact lt_of_readToken hread

theorem fenced_at (hread : readToken tl e = .ok tok) (hopens : tok.type.opens = false)
    (hpos : 0 < e) (hle : start ≤ e) : Fenced tl start e e :=
  ⟨hpos, hle, Nat.le_refl e, fun _ => rfl, ⟨tok, hread, hopens⟩⟩

theorem fenced_outerAt {skip : Option Nat} (h : OuterAt tl skip i d t k) (hpos : 0 < i)
    (hopens : t.opens = false) : Fenced tl i k k := by
  obtain ⟨hik, _, ⟨tok, hread, rfl⟩, _⟩ := h
  exact fenced_at hread hopens (by omega) hik

section Compound
variable {P : Nat → Nat → Except Fault Command}
  (hP : ∀ {a b k}, Fenced tl a b k → InRange (P a b))
include hP

theorem inRange_checkFailParse (hbegins : tl.BeginsProperly) (h : Fenced tl start e k) :
    InRange (checkFailParse P tl start e) := by
  have hlt := h.lt
  have hend := h.endLe
  apply (inRange_readBefore h.pos (by omega)).bind
  intro last hlast
  split
  · next hsc =>
    obtain ⟨i, rfl, hread⟩ := readBefore_inv hlast
    rw [Nat.add_sub_cancel]
    have hpos : 0 < i := by
      refine Nat.pos_of_ne_zero ?_
      rintro rfl
      exact (hbegins last hread).1 hsc
    by_cases hle : start ≤ i
    · exact hP (fenced_at hread (by rw [hsc]; rfl) hpos hle)
    · exact hP ⟨hpos, h.startLe, by omega, fun hle' => absurd hle' hle, h.fence⟩
  · exact hP h

theorem inRange_magicalSubshellParser (hbegins : tl.BeginsProperly) (hstart : start < tl.numTokens)
    (he : e ≤ tl.numTokens)
    (hscan : InRange (scanForward tl [] .tokRparen none (e - (start + 1)) (start + 1) 0
      fun _ => none)) :
    InRange (magicalSubshellParser P tl start e) := by
  apply hscan.bind
  rintro ⟨rparenIndex, found⟩ hfound
  cases rparenIndex with
  | none => exact inRange_failAt hstart
  | some k =>
    obtain ⟨_, hk, _⟩ := scanForward_some hfound
    have hinner := fenced_outerAt hk (Nat.succ_pos start) rfl
    have hlt := hinner.lt
    apply (inRange_checkFailParse hP hbegins hinner).bind
    intro body _
    apply (inRange_addRedirects (by omega)).bind
    intro h _
    exact avoids_ok _

omit hP in
theorem inRange_loopTypeAt (hstart : start < tl.numTokens) : InRange (loopTypeAt tl start) := by
  apply (inRange_readToken hstart).bind
  intro tok _
  split
  · exact avoids_ok _
  · exact avoids_ok _
  · exact inRange_failAt hstart

theorem inRange_magicalWhileUntilParser (hbegins : tl.BeginsProperly)
    (hstart : start < tl.numTokens) (he : e ≤ tl.numTokens)
    (hscan : InRange (scanForward tl [.tokDo] .tokDone (some (start + 1)) (e - (start + 1))
      (start + 1) 0 fun _ => none)) :
    InRange (magicalWhileUntilParser P tl start e) := by
  apply (inRange_loopTypeAt hstart).bind
  intro type _
  apply hscan.bind
  rintro ⟨doneIndex, found⟩ hfound
  cases doneIndex with
  | none => exact inRange_failAt hstart
  | some k =>
    obtain ⟨_, hk, hmarks⟩ := scanForward_some hfound
    have hlt := (fenced_outerAt hk (Nat.succ_pos start) rfl).lt
    cases hdo : found .tokDo with
    | none =>
      dsimp only
      rw [hdo]
      exact inRange_failAt hstart
    | some j =>
      obtain ⟨_, hjk, hj⟩ := (hmarks _ _ hdo).resolve_left (by simp)
      obtain ⟨_, _, ⟨close, hclose, htype⟩, _⟩ := hk
      have hbody : Fenced tl (j + 1) k k :=
        fenced_at hclose (by rw [htype]; rfl) (by omega) hjk
      dsimp only
      rw [hdo]
      apply (inRange_checkFailParse hP hbegins (fenced_outerAt hj (Nat.succ_pos start) rfl)).bind
      intro cond _
      apply (inRange_checkFailParse hP hbegins hbody).bind
      intro body _
      apply (inRange_addRedirects (by omega)).bind
      intro h _
      exact avoids_ok _

theorem inRange_magicalIfParser (hbegins : tl.BeginsProperly) (hstart : start < tl.numTokens)
    (he : e ≤ tl.numTokens)
    (hscan : InRange (scanForward tl [.tokThen, .tokElse] .tokFi (some (start + 1))
      (e - (start + 1)) (start + 1) 0 fun _ => none)) :
    InRange (magicalIfParser P tl start e) := by
  apply hscan.bind
  rintro ⟨fiIndex, found⟩ hfound
  cases fiIndex with
  | none => exact inRange_failAt hstart
  | some k =>
    obtain ⟨_, hk, hmarks⟩ := scanForward_some hfound
    have hlt := (fenced_outerAt hk (Nat.succ_pos start) rfl).lt
    cases hthen : found .tokThen with
    | none =>
      dsimp only
      rw [hthen]
      exact inRange_failAt hstart
    | some j =>
      obtain ⟨_, hjk, hj⟩ := (hmarks _ _ hthen).resolve_left (by simp)
      obtain ⟨_, _, ⟨close, hclose, htype⟩, _⟩ := hk
      have hopens : close.type.opens = false := by
        rw [htype]
        rfl
      dsimp only
      rw [hthen]
      apply (inRange_checkFailParse hP hbegins (fenced_outerAt hj (Nat.succ_pos start) rfl)).bind
      intro cond _
      cases helse : found .tokElse with
      | none =>
        apply (inRange_checkFailParse hP hbegins (fenced_at hclose hopens (by omega) hjk)).bind
        intro thenPart _
        apply (inRange_addRedirects (by omega)).bind
        intro h _
        exact avoids_ok _
      | some m =>
        obtain ⟨_, hmk, hm⟩ := (hmarks _ _ helse).resolve_left (by simp)
        obtain ⟨hsm, _, ⟨other, hother, hotype⟩, _⟩ := hm
        have hthenPart : ∃ k', Fenced tl (j + 1) m k' := by
          by_cases hle : j + 1 ≤ m
          · exact ⟨m, fenced_at hother (by rw [hotype]; rfl) (by omega) hle⟩
          · -- the `else` stands before the `then`
            exact ⟨k, by omega, hjk, by omega, fun hle' => absurd hle' hle, ⟨close, hclose, hopens⟩⟩
        obtain ⟨k', hfenced⟩ := hthenPart
        apply (inRange_checkFailParse hP hbegins hfenced).bind
        intro thenPart _
        apply (inRange_checkFailParse hP hbegins (fenced_at hclose hopens (by omega) hmk)).bind
        intro elsePart _
        apply (inRange_addRedirects (by omega)).bind
        intro h _
        exact avoids_ok _

end Compound

/-- The token with which a command that begins with a token of this type is closed. -/
def TokenType.closer : TokenType → Option TokenType
  | .tokIf => some .tokFi
  | .tokWhile | .tokUntil => some .tokDone
  | .tokLparen => some .tokRparen
  | _ => none

/-- The position at which the search for the closing token only counts. -/
def TokenType.skipped (t : TokenType) (start : Nat) : Option Nat :=
  if t = .tokLparen then none else some (start + 1)

/-- The command that begins at `start` is closed, or is a simple command with a token behind its
words. -/
structure Finished (tl : TokenList) (start : Nat) (tok : Token) : Prop where
  closed : ∀ close, tok.type.closer = some close →
    ∃ k, OuterAt tl (tok.type.skipped start) (start + 1) 0 close k
  words : tok.type = .tokWord →
    ∃ k stop, start ≤ k ∧ readToken tl k = .ok stop ∧ stop.type ≠ .tokWord

theorem inRange_parseSingle {P : Nat → Nat → Except Fault Command}
    (hP : ∀ {a b k}, Fenced tl a b k → InRange (P a b)) (hbegins : tl.BeginsProperly)
    (hread : readToken tl start = .ok tok) (he : e ≤ tl.numTokens)
    (hclosed : ∀ close, tok.type.closer = some close → ∀ marks,
      InRange (scanForward tl marks close (tok.type.skipped start) (e - (start + 1)) (start + 1) 0
        fun _ => none))
    (hwords : tok.type = .tokWord →
      ∃ k stop, start ≤ k ∧ readToken tl k = .ok stop ∧ stop.type ≠ .tokWord) :
    InRange (parseSingle P tl start e) := by
  have hstart := lt_of_readToken hread
  rw [parseSingle, hread]
  dsimp only [bind, Except.bind]
  split
  · next htype =>
    rw [htype] at hclosed
    exact inRange_magicalIfParser hP hbegins hstart he (hclosed _ rfl _)
  · next htype =>
    rw [htype] at hclosed
    exact inRange_magicalWhileUntilParser hP hbegins hstart he (hclosed _ rfl _)
  · next htype =>
    rw [htype] at hclosed
    exact inRange_magicalWhileUntilParser hP hbegins hstart he (hclosed _ rfl _)
  · next htype =>
    rw [htype] at hclosed
    exact inRange_magicalSubshellParser hP hbegins hstart he (hclosed _ rfl _)
  · next htype =>
    obtain ⟨k, stop, hsk, hstop, hword⟩ := hwords htype
    exact inRange_magicalWordParser hsk hstop hword he
  · exact inRange_failAt hstart

/-- One call of `parse`, by what it calls. The second half is looked at if the first one is
accepted. -/
theorem inRange_parse_step (hpos : 0 < e) (he : e ≤ tl.numTokens)
    (hsequence : ∀ last i, readBefore tl e = .ok last → last.type.endsBadly = false →
      scanBack tl .tokSc start e 0 = .ok (some i) → InRange (parse fuel tl start i) ∧
        ∀ c, parse fuel tl start i = .ok c → InRange (parse fuel tl (i + 1) e))
    (hpipe : ∀ last i, readBefore tl e = .ok last → last.type.endsBadly = false →
      scanBack tl .tokSc start e 0 = .ok none → scanBack tl .tokPipe start e 0 = .ok (some i) →
      InRange (parse fuel tl start i) ∧
        ∀ c, parse fuel tl start i = .ok c → InRange (parse fuel tl (i + 1) e))
    (hsingle : ∀ last, readBefore tl e = .ok last → last.type.endsBadly = false →
      scanBack tl .tokSc start e 0 = .ok none → scanBack tl .tokPipe start e 0 = .ok none →
      InRange (parseSingle (parse fuel tl) tl start e)) :
    InRange (parse (fuel + 1) tl start e) := by
  apply (inRange_readBefore hpos he).bind
  intro last hlast
  split
  · exact inRange_syntaxError
  · next hends =>
    rw [Bool.not_eq_true] at hends
    apply (inRange_scanBack hpos he).bind
    intro r hsc
    cases r with
    | some i =>
      obtain ⟨hfirst, hsecond⟩ := hsequence last i hlast hends hsc
      exact hfirst.bind fun c hc => (hsecond c hc).bind fun _ _ => avoids_ok _
    | none =>
      apply (inRange_scanBack hpos he).bind
      intro r hpipes
      cases r with
      | some i =>
        obtain ⟨hfirst, hsecond⟩ := hpipe last i hlast hends hsc hpipes
        exact hfirst.bind fun c hc => (hsecond c hc).bind fun _ _ => avoids_ok _
      | none => exact hsingle last hlast hends hsc hpipes

/-- Where the parser splits a range. -/
theorem split_inside {sep : TokenType} {last : Token} (hsep : sep = .tokSc ∨ sep = .tokPipe)
    (hlast : readBefore tl e = .ok last) (hends : last.type.endsBadly = false)
    (hscan : scanBack tl sep start e 0 = .ok (some i)) : start ≤ i ∧ i + 1 < e := by
  obtain ⟨hie, hstart, ⟨tok, hread, rfl⟩, _, _⟩ := scanBack_some hscan
  obtain ⟨k, rfl, hend⟩ := readBefore_inv hlast
  have hik : i < k := by
    refine Nat.lt_of_le_of_ne (Nat.le_of_lt_succ hie) ?_
    rintro rfl
    rw [hread] at hend
    cases hend
    rcases hsep with hsep | hsep <;> rw [hsep] at hends <;> cases hends
  omega

theorem split_at {sep : TokenType} {last : Token} (hsep : sep = .tokSc ∨ sep = .tokPipe)
    (hbegins : tl.BeginsProperly) (hlast : readBefore tl e = .ok last)
    (hends : last.type.endsBadly = false) (hscan : scanBack tl sep start e 0 = .ok (some i)) :
    Fenced tl start i i ∧ i + 1 < e := by
  obtain ⟨hsi, hie⟩ := split_inside hsep hlast hends hscan
  obtain ⟨_, _, ⟨tok, hread, rfl⟩, _, _⟩ := scanBack_some hscan
  have hopens : tok.type.opens = false := by
    rcases hsep with hsep | hsep <;> rw [hsep] <;> rfl
  have hpos : 0 < i := by
    refine Nat.pos_of_ne_zero ?_
    rintro rfl
    obtain ⟨hsc, hpipe⟩ := hbegins tok hread
    exact hsep.elim hsc hpipe
  exact ⟨fenced_at hread hopens hpos hsi, hie⟩

theorem inRange_parse_fenced (hbegins : tl.BeginsProperly) (h : Fenced tl start e k) :
    InRange (parse fuel tl start e) := by
  induction fuel generalizing start e k with
  | zero => exact avoids_error id
  | succ fuel ih =>
    have hlt := h.lt
    have hend := h.endLe
    have hsplit : ∀ {sep last i}, sep = .tokSc ∨ sep = .tokPipe → readBefore tl e = .ok last →
        last.type.endsBadly = false → scanBack tl sep start e 0 = .ok (some i) →
        InRange (parse fuel tl start i) ∧
          ∀ c, parse fuel tl start i = .ok c → InRange (parse fuel tl (i + 1) e) := by
      intro sep last i hsep hlast hends hscan
      obtain ⟨hfirst, hie⟩ := split_at hsep hbegins hlast hends hscan
      have hatEnd := h.atEnd (by have := hfirst.startLe; omega)
      exact ⟨ih hfirst, fun _ _ => ih ⟨h.pos, by omega, hend, fun _ => hatEnd, h.fence⟩⟩
    apply inRange_parse_step h.pos (by omega)
    · intro last i hlast hends hscan
      exact hsplit (.inl rfl) hlast hends hscan
    · intro last i hlast hends _ hscan
      exact hsplit (.inr rfl) hlast hends hscan
    · intro _ _ _ _ _
      obtain ⟨fence, hfence, hopens⟩ := h.fence
      obtain ⟨tok, hread⟩ := readToken_of_lt (Nat.lt_of_le_of_lt h.startLe hlt)
      have hnext : tok.type.opens = true → start < k := by
        intro hopen
        refine Nat.lt_of_le_of_ne h.startLe ?_
        rintro rfl
        rw [hread] at hfence
        cases hfence
        rw [hopens] at hopen
        cases hopen
      apply inRange_parseSingle ih hbegins hread (by omega)
      · intro close hclose marks
        have hopen : tok.type.opens = true := by
          cases htype : tok.type <;> rw [htype] at hclose <;> first | rfl | cases hclose
        have hstart := hnext hopen
        exact inRange_scanForward (by omega)
      · intro _
        refine ⟨k, fence, h.startLe, hfence, ?_⟩
        intro hword
        rw [hword] at hopens
        cases hopens

/-! ## The last part of a range -/

/-- Behind the last `sep` that is not enclosed by a command, counted from the end. -/
def afterLast (tl : TokenList) (sep : TokenType) (start e : Nat) : Nat :=
  match scanBack tl sep start e 0 with
  | .ok (some i) => i + 1
  | _ => start

/-- Where the last command begins that is no sequence and no pipeline. -/
def lastPart (tl : TokenList) (start e : Nat) : Nat :=
  afterLast tl .tokPipe (afterLast tl .tokSc start e) e

theorem afterLast_some {sep : TokenType} (h : scanBack tl sep start e 0 = .ok (some i)) :
    afterLast tl sep start e = i + 1 := by
  rw [afterLast, h]

theorem afterLast_none {sep : TokenType} (h : scanBack tl sep start e 0 = .ok none) :
    afterLast tl sep start e = start := by
  rw [afterLast, h]

theorem afterLast_clear {sep : TokenType} (hlt : start < e)
    (h : Clear (fun l => -l.nest) (fun l => l.type = sep) 0 (tl.range start e).reverse) :
    afterLast tl sep start e = start := by
  unfold afterLast
  split
  · next i hscan => exact absurd hscan (scanBack_again hlt h)
  · rfl

theorem lastPart_sequence (hlt : i + 1 < e) (h : scanBack tl .tokSc start e 0 = .ok (some i)) :
    lastPart tl (i + 1) e = lastPart tl start e := by
  obtain ⟨_, _, _, hclear, _⟩ := scanBack_some h
  rw [lastPart, lastPart, afterLast_some h, afterLast_clear hlt hclear]

theorem lastPart_pipe (hsi : start ≤ i) (hlt : i + 1 < e)
    (hsc : scanBack tl .tokSc start e 0 = .ok none)
    (h : scanBack tl .tokPipe start e 0 = .ok (some i)) :
    lastPart tl (i + 1) e = lastPart tl start e := by
  obtain ⟨hie, _, ⟨tok, hread, htype⟩, hclear, hrise⟩ := scanBack_some h
  have hnone := (clear_split hread hsi hie (by rw [htype]; rfl) hrise
    (scanBack_eq_none hsc (by omega))).2
  rw [lastPart, lastPart, afterLast_none hsc, afterLast_some h, afterLast_clear hlt hnone,
    afterLast_clear hlt hclear]

/-! ## What comes before an error exit -/

/-- At some depth of calls the parser accepts the range. -/
def TokenList.Accepts (tl : TokenList) (start e : Nat) : Prop :=
  ∃ fuel c, parse fuel tl start e = .ok c

/-- No error exit comes before the last part of the range. -/
structure TokenList.ComesToLast (tl : TokenList) (start e : Nat) : Prop where
  ending : ∀ last, readBefore tl e = .ok last → last.type.endsBadly = false
  sequence : ∀ i, scanBack tl .tokSc start e 0 = .ok (some i) → tl.Accepts start i
  pipe : ∀ i, scanBack tl .tokPipe (afterLast tl .tokSc start e) e 0 = .ok (some i) →
    tl.Accepts (afterLast tl .tokSc start e) i

theorem comesToLast_sequence (hlt : i + 1 < e)
    (h : scanBack tl .tokSc start e 0 = .ok (some i)) :
    tl.ComesToLast start e ↔ tl.Accepts start i ∧ tl.ComesToLast (i + 1) e := by
  obtain ⟨_, _, _, hclear, _⟩ := scanBack_some h
  have hafter : afterLast tl .tokSc (i + 1) e = afterLast tl .tokSc start e := by
    rw [afterLast_some h, afterLast_clear hlt hclear]
  constructor
  · rintro ⟨hending, hsequence, hpipe⟩
    refine ⟨hsequence i h, hending, fun j hj => absurd hj (scanBack_again hlt hclear), ?_⟩
    rwa [hafter]
  · rintro ⟨hfirst, hending, _, hpipe⟩
    rw [hafter] at hpipe
    refine ⟨hending, fun j hj => ?_, hpipe⟩
    rw [h] at hj
    cases hj
    exact hfirst

theorem comesToLast_pipe (hsi : start ≤ i) (hlt : i + 1 < e)
    (hsc : scanBack tl .tokSc start e 0 = .ok none)
    (h : scanBack tl .tokPipe start e 0 = .ok (some i)) :
    tl.ComesToLast start e ↔ tl.Accepts start i ∧ tl.ComesToLast (i + 1) e := by
  obtain ⟨hie, _, ⟨tok, hread, htype⟩, hclear, hrise⟩ := scanBack_some h
  have hnone := (clear_split hread hsi hie (by rw [htype]; rfl) hrise
    (scanBack_eq_none hsc (by omega))).2
  have hstart : afterLast tl .tokSc start e = start := afterLast_none hsc
  have hbehind : afterLast tl .tokSc (i + 1) e = i + 1 := afterLast_clear hlt hnone
  constructor
  · rintro ⟨hending, _, hpipe⟩
    rw [hstart] at hpipe
    refine ⟨hpipe i h, hending, fun j hj => absurd hj (scanBack_again hlt hnone), ?_⟩
    rw [hbehind]
    exact fun j hj => absurd hj (scanBack_again hlt hclear)
  · rintro ⟨hfirst, hending, _, _⟩
    refine ⟨hending, fun j hj => ?_, ?_⟩
    · rw [hsc] at hj
      cases hj
    · rw [hstart]
      intro j hj
      rw [h] at hj
      cases hj
      exact hfirst

theorem comesToLast_single {last : Token} (hlast : readBefore tl e = .ok last)
    (hends : last.type.endsBadly = false) (hsc : scanBack tl .tokSc start e 0 = .ok none)
    (hpipe : scanBack tl .tokPipe start e 0 = .ok none) : tl.ComesToLast start e := by
  refine ⟨fun last' hlast' => ?_, fun i hi => ?_, fun i hi => ?_⟩
  · rw [hlast] at hlast'
    cases hlast'
    exact hends
  · rw [hsc] at hi
    cases hi
  · rw [afterLast_none hsc, hpipe] at hi
    cases hi

/-- A range up to the end of the array. -/
theorem inRange_parse_tail (hbegins : tl.BeginsProperly) (hlt : start < tl.numTokens)
    (h : tl.ComesToLast start tl.numTokens →
      ∀ tok, readToken tl (lastPart tl start tl.numTokens) = .ok tok →
        Finished tl (lastPart tl start tl.numTokens) tok) :
    InRange (parse fuel tl start tl.numTokens) := by
  induction fuel generalizing start with
  | zero => exact avoids_error id
  | succ fuel ih =>
    apply inRange_parse_step (by omega) (Nat.le_refl _)
    · intro last i hlast hends hscan
      obtain ⟨hfirst, hie⟩ := split_at (.inl rfl) hbegins hlast hends hscan
      rw [← lastPart_sequence hie hscan, comesToLast_sequence hie hscan] at h
      exact ⟨inRange_parse_fenced hbegins hfirst, fun c hc => ih hie fun hlater =>
        h ⟨⟨fuel, c, hc⟩, hlater⟩⟩
    · intro last i hlast hends hsc hscan
      obtain ⟨hfirst, hie⟩ := split_at (.inr rfl) hbegins hlast hends hscan
      rw [← lastPart_pipe hfirst.startLe hie hsc hscan,
        comesToLast_pipe hfirst.startLe hie hsc hscan] at h
      exact ⟨inRange_parse_fenced hbegins hfirst, fun c hc => ih hie fun hlater =>
        h ⟨⟨fuel, c, hc⟩, hlater⟩⟩
    · intro last hlast hends hsc hpipe
      rw [lastPart, afterLast_none hsc, afterLast_none hpipe] at h
      obtain ⟨tok, hread⟩ := readToken_of_lt hlt
      have hfinished := h (comesToLast_single hlast hends hsc hpipe) tok hread
      apply inRange_parseSingle (inRange_parse_fenced hbegins) hbegins hread (Nat.le_refl _)
      · intro close hclose marks
        obtain ⟨k, hk⟩ := hfinished.closed close hclose
        have hkn : k < tl.numTokens := by
          obtain ⟨_, _, ⟨_, hread, _⟩, _⟩ := hk
          exact lt_of_readToken hread
        exact inRange_scanForward_of_close hk (by omega)
      · exact hfinished.words

/-- An accepted range begins with a token that opens a command. -/
theorem opens_of_parse {c : Command} (h : parse fuel tl start e = .ok c) :
    ∃ tok, readToken tl start = .ok tok ∧ tok.type.opens = true := by
  induction fuel generalizing e c with
  | zero => cases h
  | succ fuel ih =>
    obtain ⟨_, _, _, ⟨i, a, b, _, ha, _⟩ | ⟨_, ⟨i, a, b, _, ha, _⟩ | ⟨_, hsingle⟩⟩⟩ := parse_inv h
    · exact ih ha
    · exact ih ha
    · obtain ⟨tok, hread, hopens, _⟩ := parseSingle_inv hsingle
      exact ⟨tok, hread, hopens⟩

/-- The parser splits the tokens in front of `e` at a separator, then those in front of it, and so
on, until none is left. -/
inductive TokenList.LeadsBack (tl : TokenList) : Nat → Prop
  | nothing : tl.LeadsBack 0
  | sequence {e i : Nat} {last : Token} : readBefore tl e = .ok last →
      last.type.endsBadly = false → scanBack tl .tokSc 0 e 0 = .ok (some i) → tl.LeadsBack i →
      tl.LeadsBack e
  | pipe {e i : Nat} {last : Token} : readBefore tl e = .ok last →
      last.type.endsBadly = false → scanBack tl .tokSc 0 e 0 = .ok none →
      scanBack tl .tokPipe 0 e 0 = .ok (some i) → tl.LeadsBack i → tl.LeadsBack e

/-- Behind a first token that opens no command there is no second half to look at. -/
theorem inRange_parse_first (hread : readToken tl 0 = .ok tok) (hopens : tok.type.opens = false)
    (he : e ≤ tl.numTokens) (hback : ¬ tl.LeadsBack e) : InRange (parse fuel tl 0 e) := by
  have hrefused : ∀ {fuel i c}, parse fuel tl 0 i ≠ .ok c := by
    intro fuel i c h
    obtain ⟨tok', hread', hopens'⟩ := opens_of_parse h
    rw [hread] at hread'
    cases hread'
    rw [hopens] at hopens'
    cases hopens'
  induction fuel generalizing e with
  | zero => exact avoids_error id
  | succ fuel ih =>
    have hpos : 0 < e := by
      refine Nat.pos_of_ne_zero ?_
      rintro rfl
      exact hback .nothing
    apply inRange_parse_step hpos he
    · intro last i hlast hends hscan
      have hie := (scanBack_some hscan).1
      exact ⟨ih (by omega) fun h => hback (.sequence hlast hends hscan h),
        fun c hc => absurd hc hrefused⟩
    · intro last i hlast hends hsc hscan
      have hie := (scanBack_some hscan).1
      exact ⟨ih (by omega) fun h => hback (.pipe hlast hends hsc hscan h),
        fun c hc => absurd hc hrefused⟩
    · intro _ _ _ _ _
      rw [parseSingle, hread]
      have hfail : InRange (failAt tl 0 "Invalid token" : Except Fault Command) :=
        inRange_failAt (lt_of_readToken hread)
      cases htype : tok.type <;> rw [htype] at hopens <;> try cases hopens
      all_goals
        simp only [bind, Except.bind, htype]
        exact hfail

/-! ## Reads outside of the array -/

/-- A call of `parse` that splits its range overruns as its halves do. -/
theorem overruns_split {sep : TokenType} {last : Token} (hsep : sep = .tokSc ∨ sep = .tokPipe)
    (hlast : readBefore tl e = .ok last) (hends : last.type.endsBadly = false)
    (hsc : sep = .tokPipe → scanBack tl .tokSc start e 0 = .ok none)
    (hscan : scanBack tl sep start e 0 = .ok (some i))
    (h : ¬ InRange (parse fuel tl start i >>= fun _ => parse fuel tl (i + 1) e)) :
    ¬ InRange (parse (fuel + 1) tl start e) := by
  have hhalves : ∀ {join : Command → Command → Command}, ¬ InRange (do
      let first ← parse fuel tl start i
      let second ← parse fuel tl (i + 1) e
      .ok (join first second)) := by
    intro join
    cases hfirst : parse fuel tl start i with
    | error fault =>
      rw [hfirst] at h
      exact fun hin => h fun fault' hout heq => hin fault' hout (by cases heq; rfl)
    | ok first =>
      rw [hfirst] at h
      exact not_avoids_bind (x := parse fuel tl (i + 1) e) h
  rw [parse, hlast]
  simp only [bind, Except.bind, hends, Bool.false_eq_true, if_false]
  rcases hsep with rfl | rfl
  · rw [hscan]
    exact hhalves
  · rw [hsc rfl, hscan]
    exact hhalves

theorem overruns_deeper {fuel' : Nat} (hle : fuel ≤ fuel') (h : ¬ InRange (parse fuel tl start e)) :
    ¬ InRange (parse fuel' tl start e) := by
  intro hin
  apply h
  intro fault hout hx
  have hmatch := parse_deeper tl hle start e
  rw [hx] at hmatch
  generalize hy : parse fuel' tl start e = y at hmatch
  cases hmatch with
  | stopped hfuel =>
    cases hfuel
    exact hout
  | same => exact hin fault hout hy

theorem TokenList.Accepts.deep (h : tl.Accepts start e) (hfuel : e - start + 2 ≤ fuel) :
    ∃ c, parse fuel tl start e = .ok c := by
  obtain ⟨fuel', c, hc⟩ := h
  rcases Nat.le_total fuel' fuel with hle | hle
  · obtain ⟨c', hc', rfl⟩ := (parse_deeper tl hle start e).ok hc
    exact ⟨c, hc'⟩
  · have hmatch := parse_deeper tl hle start e
    rw [hc] at hmatch
    cases hx : parse fuel tl start e with
    | ok c' => exact ⟨c', rfl⟩
    | error fault =>
      rw [hx] at hmatch
      cases hmatch with
      | stopped houtOfFuel =>
        cases houtOfFuel
        exact absurd hx (ends_parse hfuel)

/-- A range from the first token on that is split until nothing is left. -/
theorem TokenList.LeadsBack.overruns (h : tl.LeadsBack e) :
    ∃ fuel, ¬ InRange (parse fuel tl 0 e) := by
  induction h with
  | nothing => exact ⟨1, fun hin => hin (.outOfRange (-1)) trivial rfl⟩
  | sequence hlast hends hscan _ ih =>
    obtain ⟨fuel, h⟩ := ih
    exact ⟨fuel + 1, overruns_split (.inl rfl) hlast hends (fun hne => by cases hne) hscan
      (not_avoids_bind h)⟩
  | pipe hlast hends hsc hscan _ ih =>
    obtain ⟨fuel, h⟩ := ih
    exact ⟨fuel + 1, overruns_split (.inr rfl) hlast hends (fun _ => hsc) hscan
      (not_avoids_bind h)⟩

theorem overruns_readToken (h : tl.numTokens ≤ i) : ¬ InRange (readToken tl i) := by
  have hnone : tl.tokens[i]? = none := List.getElem?_eq_none h
  rw [readToken, hnone]
  exact not_avoids_error trivial

/-- The scan for a closing token that is not there. -/
theorem overruns_scanForward {marks : List TokenType} {close : TokenType} {skip : Option Nat}
    {found : TokenType → Option Nat} (hn : i + n = tl.numTokens)
    (h : ∀ k, ¬ OuterAt tl skip i d close k) :
    ¬ InRange (scanForward tl marks close skip n i d found) := by
  induction n generalizing i d found with
  | zero =>
    rw [scanForward]
    exact not_avoids_bind (overruns_readToken (by omega))
  | succ n ih =>
    obtain ⟨tok, hread⟩ := readToken_of_lt (show i < tl.numTokens by omega)
    rw [scanForward, hread]
    simp only [bind, Except.bind]
    split
    · next hfound =>
      obtain ⟨houter, rfl⟩ := hfound
      exact absurd (OuterAt.here hread (of_decide_eq_true houter)) (h i)
    · exact ih (by omega) fun k hk => h k (hk.step hread)

theorem overruns_scanWords (hn : i + n = tl.numTokens)
    (h : ∀ k stop, i ≤ k → readToken tl k = .ok stop → stop.type = .tokWord) :
    ¬ InRange (scanWords tl n i) := by
  induction n generalizing i with
  | zero =>
    rw [scanWords]
    exact not_avoids_bind (overruns_readToken (by omega))
  | succ n ih =>
    obtain ⟨tok, hread⟩ := readToken_of_lt (show i < tl.numTokens by omega)
    rw [scanWords, hread]
    simp only [bind, Except.bind]
    split
    · next hne => exact absurd (h i tok (Nat.le_refl i) hread) hne
    · exact ih (by omega) fun k stop hk => h k stop (by omega)

/-- The last command is not closed, or a word is its last token. -/
theorem overruns_parseSingle {P : Nat → Nat → Except Fault Command}
    (hread : readToken tl start = .ok tok) (h : ¬ Finished tl start tok) :
    ¬ InRange (parseSingle P tl start tl.numTokens) := by
  have hlt := lt_of_readToken hread
  have hlength : start + 1 + (tl.numTokens - (start + 1)) = tl.numTokens := by omega
  have hopen : ∀ close, tok.type.closer = some close →
      (∀ k, ¬ OuterAt tl (tok.type.skipped start) (start + 1) 0 close k) →
        ¬ InRange (parseSingle P tl start tl.numTokens) := by
    intro close hclose hnone
    rw [parseSingle, hread]
    simp only [bind, Except.bind]
    cases htype : tok.type <;> rw [htype] at hclose hnone <;> cases hclose
    · exact not_avoids_bind (overruns_scanForward hlength hnone)
    · rw [magicalWhileUntilParser, loopTypeAt, hread]
      simp only [bind, Except.bind, htype]
      exact not_avoids_bind (overruns_scanForward hlength hnone)
    · rw [magicalWhileUntilParser, loopTypeAt, hread]
      simp only [bind, Except.bind, htype]
      exact not_avoids_bind (overruns_scanForward hlength hnone)
    · exact not_avoids_bind (overruns_scanForward hlength hnone)
  by_contra hin
  apply h
  constructor
  · intro close hclose
    by_contra hnone
    exact hopen close hclose (fun k hk => hnone ⟨k, hk⟩) hin
  · intro hword
    by_contra hnone
    have hwords : ∀ k stop, start ≤ k → readToken tl k = .ok stop → stop.type = .tokWord := by
      intro k stop hsk hstop
      by_contra hne
      exact hnone ⟨k, stop, hsk, hstop, hne⟩
    apply overruns_scanWords (n := tl.numTokens - start) (by omega) hwords
    rw [parseSingle, hread] at hin
    simp only [bind, Except.bind, hword] at hin
    by_contra hover
    exact not_avoids_bind hover hin

/-- The call on the last line comes to a last part that is not finished. -/
theorem overruns_tail (hlt : start < tl.numTokens) (hcomes : tl.ComesToLast start tl.numTokens)
    (hread : readToken tl (lastPart tl start tl.numTokens) = .ok tok)
    (h : ¬ Finished tl (lastPart tl start tl.numTokens) tok) :
    ∃ fuel, ¬ InRange (parse fuel tl start tl.numTokens) := by
  induction hn : tl.numTokens - start using Nat.strong_induction_on generalizing start with
  | _ n ih =>
  obtain ⟨last, hlast⟩ : ∃ last, readBefore tl tl.numTokens = .ok last := by
    obtain ⟨k, hk⟩ := Nat.exists_eq_succ_of_ne_zero (Nat.ne_of_gt (Nat.zero_lt_of_lt hlt))
    rw [hk]
    exact readToken_of_lt (by omega)
  have hends := hcomes.ending last hlast
  have hrest : ∀ {i}, i + 1 < tl.numTokens → start ≤ i → tl.Accepts start i →
      tl.ComesToLast (i + 1) tl.numTokens →
      lastPart tl (i + 1) tl.numTokens = lastPart tl start tl.numTokens →
      ∃ fuel, ¬ InRange (parse fuel tl start i >>= fun _ => parse fuel tl (i + 1) tl.numTokens) := by
    intro i hie hsi haccepts hlater hsame
    rw [← hsame] at hread h
    obtain ⟨fuel, hover⟩ := ih (tl.numTokens - (i + 1)) (by omega) hie hlater hread h rfl
    obtain ⟨c, hc⟩ := haccepts.deep (Nat.le_max_left (i - start + 2) fuel)
    refine ⟨max (i - start + 2) fuel, ?_⟩
    rw [hc]
    exact overruns_deeper (Nat.le_max_right _ _) hover
  obtain ⟨r, hsc⟩ : ∃ r, scanBack tl .tokSc start tl.numTokens 0 = .ok r :=
    scanBack_total (Nat.zero_lt_of_lt hlt) (Nat.le_refl _)
  cases r with
  | some i =>
    obtain ⟨hsi, hie⟩ := split_inside (.inl rfl) hlast hends hsc
    obtain ⟨hfirst, hlater⟩ := (comesToLast_sequence hie hsc).mp hcomes
    obtain ⟨fuel, hover⟩ := hrest hie hsi hfirst hlater (lastPart_sequence hie hsc)
    exact ⟨fuel + 1, overruns_split (.inl rfl) hlast hends (fun hne => by cases hne) hsc hover⟩
  | none =>
    obtain ⟨r, hpipe⟩ : ∃ r, scanBack tl .tokPipe start tl.numTokens 0 = .ok r :=
      scanBack_total (Nat.zero_lt_of_lt hlt) (Nat.le_refl _)
    cases r with
    | some i =>
      obtain ⟨hsi, hie⟩ := split_inside (.inr rfl) hlast hends hpipe
      obtain ⟨hfirst, hlater⟩ := (comesToLast_pipe hsi hie hsc hpipe).mp hcomes
      obtain ⟨fuel, hover⟩ := hrest hie hsi hfirst hlater (lastPart_pipe hsi hie hsc hpipe)
      exact ⟨fuel + 1, overruns_split (.inr rfl) hlast hends (fun _ => hsc) hpipe hover⟩
    | none =>
      rw [lastPart, afterLast_none hsc, afterLast_none hpipe] at hread h
      refine ⟨1, ?_⟩
      rw [parse, hlast]
      simp only [bind, Except.bind, hends, Bool.false_eq_true, if_false, hsc, hpipe]
      exact overruns_parseSingle hread h

end CS111.Shell
