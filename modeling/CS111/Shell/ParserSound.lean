import CS111.Shell.ParserCalls
import CS111.Shell.ReadCommand

/-!
# What the parser accepts

Where `parse` succeeds, the tokens of the range are a rendering of the tree, if the redirections
of the range have words as targets and no token behind the range is taken along. The parser checks
neither: it leaves the first to the tokenizer, which looks at the byte before only, and the second
to its callers.
-/

namespace CS111.Shell

set_option autoImplicit false

open TokenList

variable {tl : TokenList} {a b i j k n start e fuel : Nat} {tok : Token} {t : TokenType}
  {c : Command} {l : Lexeme} {xs ys rs ls : List Lexeme} {input output : Option Word}

/-- In the range, every redirection operator is followed by a word. -/
def TokenList.Targeted (tl : TokenList) (start e : Nat) : Prop :=
  (tl.range start e).IsChain TargetFollows

/-- The range has as many closing as opening tokens. -/
def TokenList.Balanced (tl : TokenList) (start e : Nat) : Prop :=
  rise Lexeme.nest (tl.range start e) = 0

/-- The last lexeme is a word, and not the target of a redirection. -/
def EndsInWord (ls : List Lexeme) : Prop :=
  ∃ xs w, ls = xs ++ [.word w] ∧ ∀ l ∈ xs.getLast?, l.type.isRedirect = false

/-- The range ends between two words of a simple command. -/
def TokenList.CutsWords (tl : TokenList) (start e : Nat) : Prop :=
  (∃ tok, readToken tl e = .ok tok ∧ tok.type = .tokWord) ∧ EndsInWord (tl.range start e)

/-- The tokens of the range are a rendering of the tree. -/
def TokenList.Rendered (tl : TokenList) (start e : Nat) (c : Command) : Prop :=
  e ≤ tl.numTokens ∧ c.Normal ∧ Renders looseSeparators c (tl.range start e)

/-! ## Parts of a range -/

theorem TokenList.Targeted.sub (h : tl.Targeted start e) (hsa : start ≤ a) (hab : a ≤ b)
    (hbe : b ≤ e) : tl.Targeted a b := by
  unfold Targeted at *
  rw [range_append hsa (Nat.le_trans hab hbe), range_append hab hbe] at h
  exact h.right_of_append.left_of_append

theorem endsInWord_concat :
    EndsInWord (xs ++ [l]) ↔
      (∃ w, l = .word w) ∧ ∀ m ∈ xs.getLast?, m.type.isRedirect = false := by
  constructor
  · rintro ⟨ys, w, heq, hlast⟩
    obtain ⟨rfl, hl⟩ := List.append_inj' heq rfl
    cases hl
    exact ⟨⟨w, rfl⟩, hlast⟩
  · rintro ⟨⟨w, rfl⟩, hlast⟩
    exact ⟨xs, w, rfl, hlast⟩

theorem endsInWord_append (hl : l.type.isRedirect = false) (hys : ys ≠ []) :
    EndsInWord (xs ++ l :: ys) ↔ EndsInWord ys := by
  rcases List.eq_nil_or_concat ys with rfl | ⟨zs, m, rfl⟩
  · exact absurd rfl hys
  · rw [List.concat_eq_append, ← List.cons_append, ← List.append_assoc, endsInWord_concat,
      endsInWord_concat]
    have hlast : (xs ++ l :: zs).getLast? = some (zs.getLast?.getD l) := by
      rw [List.getLast?_append, List.getLast?_cons]
      rfl
    rw [hlast]
    cases hz : zs.getLast? with
    | none => simp [hl]
    | some z => simp

theorem not_endsInWord_redirects (hrs : RendersRedirects input output rs) (hne : rs ≠ []) :
    ¬ EndsInWord (xs ++ rs) := by
  have harrow : ∀ {zs : List Lexeme} {t : TokenType} {w : Word}, t.isRedirect = true →
      ¬ EndsInWord (zs ++ [.mark t, .word w]) := by
    intro zs t w ht h
    rw [List.append_cons, endsInWord_concat] at h
    have hfalse := h.2 (.mark t) (by simp)
    rw [Lexeme.type, ht] at hfalse
    cases hfalse
  cases hrs with
  | none => exact absurd rfl hne
  | input i => exact harrow rfl
  | output o => exact harrow rfl
  | inputOutput i o =>
    rw [List.append_cons, List.append_cons]
    exact harrow rfl
  | outputInput i o =>
    rw [List.append_cons, List.append_cons]
    exact harrow rfl

theorem not_endsInWord_close (hrs : RendersRedirects input output rs) :
    ¬ EndsInWord (xs ++ .mark t :: rs) := by
  rcases List.eq_nil_or_concat rs with rfl | ⟨zs, m, rfl⟩
  · rw [endsInWord_concat]
    rintro ⟨⟨w, hw⟩, _⟩
    cases hw
  · rw [List.append_cons]
    exact not_endsInWord_redirects hrs (by simp)

/-! ## Accounting for the tokens -/

/-- The tokens that a call uses end at `e'`: at the end of its range, or one token behind it. -/
def TokenList.Covers (tl : TokenList) (start e e' : Nat) : Prop :=
  e' = e ∧ ¬ tl.CutsWords start e ∨ e' = e + 1 ∧ tl.CutsWords start e

/-- A closing token behind the range belongs to none of its commands. -/
def TokenList.Shut (tl : TokenList) (start e : Nat) : Prop :=
  ∀ tok, readToken tl e = .ok tok → nesting tok.type = -1 → tl.Balanced start e

/-- What the induction over the calls says about the calls inside. -/
def Accounts (tl : TokenList) (fuel : Nat) : Prop :=
  ∀ {start e : Nat} {c : Command}, start < e → parse fuel tl start e = .ok c →
    tl.Targeted start e → tl.Shut start e →
    ∃ e', tl.Covers start e e' ∧ Renders looseSeparators c (tl.range start e')

theorem TokenList.Covers.le {e' : Nat} (h : tl.Covers start e e') : e ≤ e' := by
  rcases h with ⟨rfl, _⟩ | ⟨rfl, _⟩
  · exact Nat.le_refl _
  · exact Nat.le_succ e

theorem shut_of_nesting (hread : readToken tl e = .ok tok) (h : nesting tok.type ≠ -1) :
    tl.Shut start e := by
  intro tok' hread' hclose
  rw [hread] at hread'
  cases hread'
  exact absurd hclose h

/-- Before a token that is not a word, the calls inside use their range and no more. -/
theorem Accounts.exact (hall : Accounts tl fuel) (hlt : start < e)
    (h : parse fuel tl start e = .ok c) (htargets : tl.Targeted start e) (hshut : tl.Shut start e)
    (hread : readToken tl e = .ok tok) (hword : tok.type ≠ .tokWord) :
    Renders looseSeparators c (tl.range start e) := by
  obtain ⟨e', ⟨rfl, _⟩ | ⟨_, ⟨tok', hread', htok'⟩, _⟩, hrenders⟩ := hall hlt h htargets hshut
  · exact hrenders
  · rw [hread] at hread'
    cases hread'
    exact absurd htok' hword

/-- The two halves of a sequence or a pipeline. -/
theorem Accounts.halves {sep : TokenType} {first second : Command} {last : Token}
    (hall : Accounts tl fuel) (hsep : sep = .tokSc ∨ sep = .tokPipe)
    (hlt : start < e) (hlast : readBefore tl e = .ok last) (hends : last.type.endsBadly = false)
    (hscan : scanBack tl sep start e 0 = .ok (some i)) (hfirst : parse fuel tl start i = .ok first)
    (hsecond : parse fuel tl (i + 1) e = .ok second) (htargets : tl.Targeted start e) :
    ∃ e', tl.Covers start e e' ∧ ∃ xs ys, tl.range start e' = xs ++ .mark sep :: ys ∧
      Renders looseSeparators first xs ∧ Renders looseSeparators second ys := by
  have hbad : sep.endsBadly = true := by rcases hsep with rfl | rfl <;> rfl
  have hword : sep ≠ .tokWord := by rcases hsep with rfl | rfl <;> decide
  have hnest : nesting sep ≠ -1 := by rcases hsep with rfl | rfl <;> decide
  have harrow : sep.isRedirect = false := by rcases hsep with rfl | rfl <;> rfl
  obtain ⟨hsi, hie, tok, hread, rfl⟩ := halves_inv hbad hlt hlast hends hscan hfirst
  obtain ⟨_, _, _, _, hrise⟩ := scanBack_some hscan
  have hxs := hall.exact hsi hfirst
    (htargets.sub (Nat.le_refl start) (Nat.le_of_lt hsi) (by omega))
    (shut_of_nesting hread hnest) hread hword
  obtain ⟨e', hcovers, hys⟩ := hall hie hsecond
    (htargets.sub (by omega) (Nat.le_of_lt hie) (Nat.le_refl _)) fun _ _ _ => hrise
  have hcut : tl.CutsWords start e ↔ tl.CutsWords (i + 1) e := by
    have hne : tl.range (i + 1) e ≠ [] := by
      obtain ⟨k, rfl, hend⟩ := readBefore_inv hlast
      rw [range_concat hend (Nat.le_of_lt_succ hie)]
      simp
    unfold CutsWords
    rw [range_split hread (Nat.le_of_lt hsi) (by omega), endsInWord_append _ hne]
    rw [Token.lexeme_type]
    exact harrow
  refine ⟨e', ?_, _, _, ?_, hxs, hys⟩
  · unfold Covers
    rw [hcut]
    exact hcovers
  · have hle := hcovers.le
    rw [range_split hread (Nat.le_of_lt hsi) (by omega), Token.lexeme_mark rfl hword]

/-- A part of a compound command, with the `;` that may stand behind it. -/
theorem Accounts.part (hall : Accounts tl fuel) (hread : readToken tl b = .ok tok)
    (hopens : tok.type.opens = false) (hab : a ≤ b)
    (h : checkFailParse (parse fuel tl) tl a b = .ok c) (htargets : tl.Targeted a b)
    (hbalanced : tl.Balanced a b) :
    ∃ xs s, tl.range a b = xs ++ s ∧ looseSeparators t s ∧ Renders looseSeparators c xs := by
  have hword : tok.type ≠ .tokWord := by
    intro he
    rw [he] at hopens
    cases hopens
  obtain ⟨last, hlast, ⟨hsc, h⟩ | ⟨_, h⟩⟩ := checkFailParse_inv h
  · obtain ⟨k, rfl, hlast⟩ := readBefore_inv hlast
    rw [Nat.add_sub_cancel] at h
    have hnot : last.type.opens = false := by rw [hsc]; rfl
    have hak : a < k := by
      by_contra hle
      rcases Nat.eq_or_lt_of_le (Nat.not_lt.mp hle) with rfl | hka
      · exact parse_empty (Nat.le_refl k) hlast hnot h
      · obtain rfl : a = k + 1 := by omega
        exact parse_empty (Nat.le_succ k) hread hopens h
    have hxs := hall.exact hak h
      (htargets.sub (Nat.le_refl a) (Nat.le_of_lt hak) (Nat.le_succ k))
      (shut_of_nesting hlast (by rw [hsc]; decide)) hlast (by rw [hsc]; decide)
    refine ⟨_, _, range_concat hlast (Nat.le_of_lt hak), .inr ?_, hxs⟩
    rw [Token.lexeme_mark hsc (by decide)]
  · have hlt : a < b := by
      refine Nat.lt_of_le_of_ne hab ?_
      rintro rfl
      exact parse_empty (Nat.le_refl a) hread hopens h
    have hxs := hall.exact hlt h htargets (fun _ _ _ => hbalanced) hread hword
    exact ⟨_, [], (List.append_nil _).symm, .inl rfl, hxs⟩

/-! ## The compound commands -/

section Compound
variable {skip : Option Nat} {t' : TokenType} {h : Header}

theorem OuterAt.balanced (hj : OuterAt tl skip i 0 t j) : tl.Balanced i j := by
  obtain ⟨_, _, _, hrise⟩ := hj
  rwa [Int.zero_add] at hrise

theorem OuterAt.between (hj : OuterAt tl skip i 0 t j) (hk : OuterAt tl skip i 0 t' k)
    (hlt : j < k) (ht : nesting t = 0) : tl.Balanced (j + 1) k := by
  have hij := hj.balanced
  have hik := hk.balanced
  obtain ⟨hle, _, ⟨tok, hread, rfl⟩, _⟩ := hj
  unfold TokenList.Balanced at *
  rw [range_split hread hle hlt, rise_append, rise_cons, Token.nest_lexeme, hij, ht] at hik
  omega

/-- The closing token is one of the range. -/
theorem OuterAt.lt_end (hk : OuterAt tl skip (start + 1) 0 t k) (hclose : nesting t = -1)
    (hle : k ≤ start + 1 + (e - (start + 1))) (hlt : start < e) (hshut : tl.Shut start e)
    (hread : readToken tl start = .ok tok) (hopen : nesting tok.type = 1) : k < e := by
  refine Nat.lt_of_le_of_ne (by omega) ?_
  rintro rfl
  have hinner := hk.balanced
  obtain ⟨_, _, ⟨close, hread', rfl⟩, _⟩ := hk
  have hall := hshut close hread' hclose
  unfold TokenList.Balanced at *
  rw [range_cons hread hlt, rise_cons, Token.nest_lexeme, hopen, hinner] at hall
  omega

theorem renders_tail (hadd : addRedirects tl .fresh k (e - k) = .ok h)
    (htargets : tl.Targeted start e) (hsk : start ≤ k) (hke : k ≤ e) :
    h.status = -1 ∧ RendersRedirects h.input h.output (tl.range k e) := by
  have htail := htargets.sub hsk hke (Nat.le_refl e)
  have hend : k + (e - k) = e := by omega
  unfold Targeted at htail
  rw [← hend] at htail
  have hrenders := renders_of_addRedirects hadd htail
  rwa [hend] at hrenders

theorem not_endsInWord_range (hclose : readToken tl k = .ok tok) (htype : tok.type = t)
    (ht : t ≠ .tokWord) (hsk : start ≤ k) (hke : k < e)
    (hrs : RendersRedirects input output (tl.range (k + 1) e)) :
    ¬ EndsInWord (tl.range start e) := by
  rw [range_split hclose hsk hke, Token.lexeme_mark htype ht]
  exact not_endsInWord_close hrs

theorem Accounts.subshell (hall : Accounts tl fuel) (hlt : start < e)
    (hread : readToken tl start = .ok tok) (htype : tok.type = .tokLparen)
    (hparse : magicalSubshellParser (parse fuel tl) tl start e = .ok c)
    (htargets : tl.Targeted start e) (hshut : tl.Shut start e) :
    ¬ EndsInWord (tl.range start e) ∧ Renders looseSeparators c (tl.range start e) := by
  obtain ⟨k, found, body, h, hscan, hbody, hadd, rfl⟩ := magicalSubshellParser_inv hparse
  obtain ⟨hle, hk, _⟩ := scanForward_some hscan
  have hke := hk.lt_end rfl hle hlt hshut hread (by rw [htype]; rfl)
  have hbalanced := hk.balanced
  obtain ⟨hsk, _, ⟨close, hclose, hctype⟩, _⟩ := hk
  obtain ⟨_, hrs⟩ := renders_tail hadd htargets (by omega) hke
  obtain ⟨xs, s, hxs, hs, hrenders⟩ := hall.part (t := .tokRparen) hclose (by rw [hctype]; rfl)
    hsk hbody (htargets.sub (Nat.le_succ start) hsk (Nat.le_of_lt hke)) hbalanced
  refine ⟨not_endsInWord_range hclose hctype (by decide) (by omega) hke hrs, ?_⟩
  rw [range_cons hread hlt, range_split hclose hsk hke, hxs, Token.lexeme_mark htype (by decide),
    Token.lexeme_mark hctype (by decide)]
  exact .subshell hrenders hs hrs

theorem Accounts.loop (hall : Accounts tl fuel) (hlt : start < e)
    (hparse : magicalWhileUntilParser (parse fuel tl) tl start e = .ok c)
    (htargets : tl.Targeted start e) (hshut : tl.Shut start e) :
    ¬ EndsInWord (tl.range start e) ∧ Renders looseSeparators c (tl.range start e) := by
  obtain ⟨type, k, found, j, cond, body, h, htype, hscan, hdo, hcond, hbody, hadd, rfl⟩ :=
    magicalWhileUntilParser_inv hparse
  obtain ⟨tok, hread, htype⟩ := loopTypeAt_ok htype
  obtain ⟨hle, hk, hmarks⟩ := scanForward_some hscan
  have hke := hk.lt_end rfl hle hlt hshut hread (by rw [htype, type.nesting_keyword])
  obtain ⟨_, hjk, hj⟩ := (hmarks _ j hdo).resolve_left (by simp)
  have hbetween := hj.between hk hjk rfl
  have hbalanced := hj.balanced
  obtain ⟨hsj, _, ⟨mark, hmark, hmtype⟩, _⟩ := hj
  obtain ⟨_, _, ⟨close, hclose, hctype⟩, _⟩ := hk
  obtain ⟨_, hrs⟩ := renders_tail hadd htargets (by omega) hke
  obtain ⟨xs, s₁, hxs, hs₁, hxsr⟩ := hall.part (t := .tokDo) hmark (by rw [hmtype]; rfl) hsj
    hcond (htargets.sub (by omega) hsj (by omega)) hbalanced
  obtain ⟨ys, s₂, hys, hs₂, hysr⟩ := hall.part (t := .tokDone) hclose (by rw [hctype]; rfl) hjk
    hbody (htargets.sub (by omega) hjk (by omega)) hbetween
  have hkeyword : type.keyword ≠ .tokWord := by cases type <;> decide
  refine ⟨not_endsInWord_range hclose hctype (by decide) (by omega) hke hrs, ?_⟩
  rw [range_cons hread hlt, range_split hmark hsj (by omega), range_split hclose hjk hke, hxs,
    hys, Token.lexeme_mark htype hkeyword, Token.lexeme_mark hmtype (by decide),
    Token.lexeme_mark hctype (by decide)]
  exact .loop hxsr hs₁ hysr hs₂ hrs

/-- A part that renders a command has no `else` of its own. -/
theorem not_outerAt_of_part (hj : OuterAt tl skip a 0 t j) (hjb : j < b)
    (hclosing : (Lexeme.mark t).closing) (hpart : Part (tl.range a b)) : False := by
  have hbalanced := hj.balanced
  obtain ⟨haj, _, ⟨mark, hmark, rfl⟩, _⟩ := hj
  have hclear := hpart.clear
  unfold TokenList.Balanced at hbalanced
  rw [range_split hmark haj hjb, clear_append, clear_cons, hbalanced] at hclear
  have hnot := hclear.2.1 rfl
  unfold Lexeme.closing at hnot hclosing
  rw [Token.lexeme_type] at hnot
  exact hnot hclosing

theorem Accounts.ifCommand (hall : Accounts tl fuel) (hlt : start < e)
    (hread : readToken tl start = .ok tok) (htype : tok.type = .tokIf)
    (hparse : magicalIfParser (parse fuel tl) tl start e = .ok c)
    (htargets : tl.Targeted start e) (hshut : tl.Shut start e) :
    ¬ EndsInWord (tl.range start e) ∧ Renders looseSeparators c (tl.range start e) := by
  obtain ⟨k, found, j, cond, hscan, hthen, hcond, hparse⟩ := magicalIfParser_inv hparse
  obtain ⟨hle, hk, hmarks⟩ := scanForward_some hscan
  have hke := hk.lt_end rfl hle hlt hshut hread (by rw [htype]; rfl)
  obtain ⟨_, hjk, hj⟩ := (hmarks _ j hthen).resolve_left (by simp)
  obtain ⟨hsj, _, ⟨mark, hmark, hmtype⟩, _⟩ := id hj
  obtain ⟨hsk, _, ⟨close, hclose, hctype⟩, _⟩ := id hk
  obtain ⟨xs, s₁, hxs, hs₁, hxsr⟩ := hall.part (t := .tokThen) hmark (by rw [hmtype]; rfl) hsj
    hcond (htargets.sub (by omega) hsj (by omega)) hj.balanced
  rcases hparse with ⟨thenPart, h, hbody, hadd, rfl⟩ |
    ⟨m, thenPart, elsePart, h, helse, hbody, hother, hadd, rfl⟩
  · obtain ⟨_, hrs⟩ := renders_tail hadd htargets (by omega) hke
    obtain ⟨ys, s₂, hys, hs₂, hysr⟩ := hall.part (t := .tokFi) hclose (by rw [hctype]; rfl) hjk
      hbody (htargets.sub (by omega) hjk (by omega)) (hj.between hk hjk rfl)
    refine ⟨not_endsInWord_range hclose hctype (by decide) (by omega) hke hrs, ?_⟩
    rw [range_cons hread hlt, range_split hmark hsj (by omega), range_split hclose hjk hke, hxs,
      hys, Token.lexeme_mark htype (by decide), Token.lexeme_mark hmtype (by decide),
      Token.lexeme_mark hctype (by decide)]
    exact .ifThen hxsr hs₁ hysr hs₂ hrs
  · obtain ⟨_, hmk, hm⟩ := (hmarks _ m helse).resolve_left (by simp)
    obtain ⟨hsm, _, ⟨other, hmark', hotype⟩, _⟩ := id hm
    have hjm : j < m := by
      rcases Nat.lt_trichotomy j m with hjm | rfl | hmj
      · exact hjm
      · rw [hmark] at hmark'
        cases hmark'
        rw [hmtype] at hotype
        cases hotype
      · -- the `else` would belong to the condition
        refine (not_outerAt_of_part hm hmj (by simp [Lexeme.closing, Lexeme.type]) ?_).elim
        rw [hxs]
        exact hxsr.part id hs₁
    obtain ⟨_, hrs⟩ := renders_tail hadd htargets (by omega) hke
    obtain ⟨ys, s₂, hys, hs₂, hysr⟩ := hall.part (t := .tokElse) hmark' (by rw [hotype]; rfl)
      hjm hbody (htargets.sub (by omega) hjm (by omega)) (hj.between hm hjm rfl)
    obtain ⟨zs, s₃, hzs, hs₃, hzsr⟩ := hall.part (t := .tokFi) hclose (by rw [hctype]; rfl) hmk
      hother (htargets.sub (by omega) hmk (by omega)) (hm.between hk hmk rfl)
    refine ⟨not_endsInWord_range hclose hctype (by decide) (by omega) hke hrs, ?_⟩
    rw [range_cons hread hlt, range_split hmark hsj (by omega), range_split hmark' hjm (by omega),
      range_split hclose hmk hke, hxs, hys, hzs, Token.lexeme_mark htype (by decide),
      Token.lexeme_mark hmtype (by decide), Token.lexeme_mark hotype (by decide),
      Token.lexeme_mark hctype (by decide)]
    exact .ifElse hxsr hs₁ hysr hs₂ hzsr hs₃ hrs

theorem cutsWords_of_words (hlt : start < e) (he : e + 1 < tl.numTokens)
    (hall : ∀ l ∈ tl.range start (e + 1), l.type = .tokWord) : tl.CutsWords start e := by
  obtain ⟨k, rfl⟩ : ∃ k, e = k + 1 := ⟨e - 1, by omega⟩
  obtain ⟨tok, hread⟩ : ∃ tok, readToken tl (k + 1) = .ok tok := readToken_of_lt (by omega)
  obtain ⟨last, hlast⟩ : ∃ last, readToken tl k = .ok last := readToken_of_lt (by omega)
  rw [range_concat hread (by omega), range_concat hlast (by omega)] at hall
  have hword := hall (tok.lexeme tl) (by simp)
  have hword' := hall (last.lexeme tl) (by simp)
  rw [Token.lexeme_type] at hword hword'
  refine ⟨⟨tok, hread, hword⟩, ?_⟩
  rw [range_concat hlast (by omega), endsInWord_concat]
  refine ⟨⟨_, Token.lexeme_word hword'⟩, fun l hl => ?_⟩
  have htype := hall l (by simp [List.mem_of_getLast? hl])
  rw [htype]
  rfl

/-- The words may go on behind the range: the loop looks at the token at `e` as well. -/
theorem covers_words (hlt : start < e) (hread : readToken tl start = .ok tok)
    (htype : tok.type = .tokWord) (he : e ≤ tl.numTokens)
    (hparse : magicalWordParser tl start e = .ok c) (htargets : tl.Targeted start e) :
    ∃ e', tl.Covers start e e' ∧ Renders looseSeparators c (tl.range start e') := by
  obtain ⟨index, hscan, hparse⟩ := Except.bind_ok.mp hparse
  obtain ⟨ws, hwords, hparse⟩ := Except.bind_ok.mp hparse
  obtain ⟨h, hadd, hparse⟩ := Except.bind_ok.mp hparse
  cases hparse
  obtain ⟨hsi, hie, hall, hstop⟩ := scanWords_ok hscan
  have hindex : start + (index - start) = index := by omega
  obtain ⟨hrange, hlen⟩ := readWords_ok hwords (by rwa [hindex])
  rw [hindex] at hrange hlen
  have hlt' : start < index := by
    refine Nat.lt_of_le_of_ne hsi ?_
    rintro rfl
    obtain ⟨tok', hread', hne⟩ := hstop (by omega)
    rw [hread] at hread'
    cases hread'
    exact hne htype
  rcases Nat.lt_or_ge e index with hover | hle
  · obtain rfl : index = e + 1 := by omega
    rw [Nat.sub_eq_zero_of_le (Nat.le_succ e)] at hadd
    cases hadd
    refine ⟨e + 1, .inr ⟨rfl, cutsWords_of_words hlt hlen hall⟩, ?_⟩
    rw [hrange, ← List.append_nil (List.map _ _)]
    exact .simple .none
  · obtain ⟨_, hrs⟩ := renders_tail hadd htargets hsi hle
    have hsplit : tl.range start e = tl.range start index ++ tl.range index e :=
      range_append hsi hle
    refine ⟨e, .inl ⟨rfl, ?_⟩, ?_⟩
    · rintro ⟨⟨tok', hread', htok'⟩, hends⟩
      rcases Nat.eq_or_lt_of_le hle with rfl | hindexe
      · obtain ⟨tok'', hread'', hne⟩ := hstop (by omega)
        rw [hread'] at hread''
        cases hread''
        exact hne htok'
      · have hne : tl.range index e ≠ [] := by
          intro hnil
          have hlength := length_range (a := index) he
          rw [hnil, List.length_nil] at hlength
          omega
        rw [hsplit] at hends
        exact not_endsInWord_redirects hrs hne hends
    · rw [hsplit, hrange]
      exact .simple hrs

theorem covers_single (hall : Accounts tl fuel) (hlt : start < e) (he : e ≤ tl.numTokens)
    (h : parseSingle (parse fuel tl) tl start e = .ok c) (htargets : tl.Targeted start e)
    (hshut : tl.Shut start e) :
    ∃ e', tl.Covers start e e' ∧ Renders looseSeparators c (tl.range start e') := by
  have hclosed : ¬ EndsInWord (tl.range start e) ∧ Renders looseSeparators c (tl.range start e) →
      ∃ e', tl.Covers start e e' ∧ Renders looseSeparators c (tl.range start e') :=
    fun ⟨hends, hrenders⟩ => ⟨e, .inl ⟨rfl, fun hcuts => hends hcuts.2⟩, hrenders⟩
  obtain ⟨tok, hread, _, ⟨htype, h⟩ | h | ⟨htype, h⟩ | ⟨htype, h⟩⟩ := parseSingle_inv h
  · exact hclosed (hall.ifCommand hlt hread htype h htargets hshut)
  · exact hclosed (hall.loop hlt h htargets hshut)
  · exact hclosed (hall.subshell hlt hread htype h htargets hshut)
  · exact covers_words hlt hread htype he h htargets

end Compound

theorem accounts (tl : TokenList) (fuel : Nat) : Accounts tl fuel := by
  induction fuel with
  | zero =>
    intro start e c _ h
    cases h
  | succ fuel ih =>
    intro start e c hlt h htargets hshut
    obtain ⟨last, hlast, hends, h⟩ := parse_inv h
    rcases h with ⟨i, a, b, hscan, ha, hb, rfl⟩ | ⟨_, ⟨i, a, b, hscan, ha, hb, rfl⟩ | ⟨_, h⟩⟩
    · obtain ⟨e', hcovers, xs, ys, hrange, hxs, hys⟩ :=
        ih.halves (.inl rfl) hlt hlast hends hscan ha hb htargets
      refine ⟨e', hcovers, ?_⟩
      rw [hrange]
      exact .sequence hxs hys
    · obtain ⟨e', hcovers, xs, ys, hrange, hxs, hys⟩ :=
        ih.halves (.inr rfl) hlt hlast hends hscan ha hb htargets
      refine ⟨e', hcovers, ?_⟩
      rw [hrange]
      exact .pipe hxs hys
    · exact covers_single ih hlt (le_of_readBefore hlast) h htargets hshut

/-! ## Renderings -/

/-- The operators of a list have their targets, whatever comes after the list. -/
def Targets (ls : List Lexeme) : Prop :=
  ∀ zs : List Lexeme, zs.IsChain TargetFollows → (ls ++ zs).IsChain TargetFollows

theorem Targets.append (hxs : Targets xs) (hys : Targets ys) : Targets (xs ++ ys) := by
  intro zs hzs
  rw [List.append_assoc]
  exact hxs _ (hys zs hzs)

theorem Targets.cons (hl : l.type.isRedirect = false) (hxs : Targets xs) : Targets (l :: xs) := by
  intro zs hzs
  rw [List.cons_append, List.isChain_cons]
  refine ⟨fun m _ harrow => ?_, hxs zs hzs⟩
  rw [hl] at harrow
  cases harrow

theorem Targets.nil : Targets [] := fun _ hzs => hzs

theorem Targets.redirect {t : TokenType} {w : Word} (hxs : Targets xs) :
    Targets (.mark t :: .word w :: xs) := by
  intro zs hzs
  have htail := (Targets.cons (l := .word w) rfl hxs) zs hzs
  rw [List.cons_append, List.cons_append, List.isChain_cons_cons]
  exact ⟨fun _ => rfl, htail⟩

theorem RendersRedirects.targets (h : RendersRedirects input output rs) : Targets rs := by
  cases h with
  | none => exact .nil
  | input | output => exact .redirect .nil
  | inputOutput | outputInput => exact .redirect (.redirect .nil)

theorem targets_separator {s : List Lexeme} (hs : looseSeparators t s) : Targets s := by
  rcases hs with rfl | rfl
  · exact .nil
  · exact .cons rfl .nil

theorem Renders.targets (h : Renders looseSeparators c ls) : Targets ls := by
  induction h with
  | @simple h word rs hrs =>
    refine Targets.append ?_ hrs.targets
    induction word with
    | nil => exact .nil
    | cons w word ih => exact .cons rfl ih
  | sequence _ _ iha ihb => exact iha.append (.cons rfl ihb)
  | pipe _ _ iha ihb => exact iha.append (.cons rfl ihb)
  | subshell _ hs hrs ih =>
    exact .cons rfl ((ih.append (targets_separator hs)).append (.cons rfl hrs.targets))
  | @loop k _ _ _ _ _ _ _ _ _ hs₁ _ hs₂ hrs iha ihb =>
    have hkeyword : (Lexeme.mark k.keyword).type.isRedirect = false := by cases k <;> rfl
    exact .cons hkeyword ((iha.append (targets_separator hs₁)).append
      (.cons rfl ((ihb.append (targets_separator hs₂)).append (.cons rfl hrs.targets))))
  | ifThen _ hs₁ _ hs₂ hrs iha ihb =>
    exact .cons rfl ((iha.append (targets_separator hs₁)).append
      (.cons rfl ((ihb.append (targets_separator hs₂)).append (.cons rfl hrs.targets))))
  | ifElse _ hs₁ _ hs₂ _ hs₃ hrs iha ihb ihc =>
    exact .cons rfl ((iha.append (targets_separator hs₁)).append
      (.cons rfl ((ihb.append (targets_separator hs₂)).append
        (.cons rfl ((ihc.append (targets_separator hs₃)).append (.cons rfl hrs.targets))))))

theorem Renders.isChain (h : Renders looseSeparators c ls) : ls.IsChain TargetFollows := by
  have hchain := h.targets [] List.IsChain.nil
  rwa [List.append_nil] at hchain

def Header.wordCount (h : Header) : Nat := h.input.toList.length + h.output.toList.length

/-- The words of a tree, with the targets of its redirections. -/
def Command.wordCount : Command → Nat
  | .simple h word => word.length + h.wordCount
  | .sequence _ a b | .pipe _ a b => a.wordCount + b.wordCount
  | .subshell h a => a.wordCount + h.wordCount
  | .loop _ h a b | .ifThen h a b => a.wordCount + b.wordCount + h.wordCount
  | .ifElse h a b c => a.wordCount + b.wordCount + c.wordCount + h.wordCount

def Lexeme.isWord (l : Lexeme) : Bool := l.type = .tokWord

theorem RendersRedirects.countP {h : Header} (hrs : RendersRedirects h.input h.output rs) :
    rs.countP Lexeme.isWord = h.wordCount := by
  obtain ⟨status, input, output⟩ := h
  cases hrs <;> rfl

theorem countP_separator {s : List Lexeme} (hs : looseSeparators t s) :
    s.countP Lexeme.isWord = 0 := by
  rcases hs with rfl | rfl
  · rfl
  · rfl

theorem Renders.countP (h : Renders looseSeparators c ls) :
    ls.countP Lexeme.isWord = c.wordCount := by
  have hmark : ∀ {t : TokenType}, t ≠ .tokWord → (Lexeme.mark t).isWord = false := by
    intro t ht
    exact decide_eq_false ht
  induction h with
  | @simple h word rs hrs =>
    have hall : (word.map Lexeme.word).countP Lexeme.isWord = word.length := by
      rw [List.countP_map]
      exact List.countP_eq_length.mpr fun _ _ => rfl
    rw [List.countP_append, hall, hrs.countP]
    rfl
  | sequence _ _ iha ihb | pipe _ _ iha ihb =>
    simp [List.countP_append, iha, ihb, hmark, Command.wordCount]
  | subshell _ hs hrs ih =>
    simp [List.countP_append, ih, hmark, Command.wordCount, hrs.countP,
      countP_separator hs]
  | @loop k _ _ _ _ _ _ _ _ _ hs₁ _ hs₂ hrs iha ihb =>
    have hkeyword : k.keyword ≠ .tokWord := by cases k <;> decide
    simp [List.countP_append, iha, ihb, hmark, hkeyword, Command.wordCount,
      hrs.countP, countP_separator hs₁, countP_separator hs₂]
    omega
  | ifThen _ hs₁ _ hs₂ hrs iha ihb =>
    simp [List.countP_append, iha, ihb, hmark, Command.wordCount,
      hrs.countP, countP_separator hs₁, countP_separator hs₂]
    omega
  | ifElse _ hs₁ _ hs₂ _ hs₃ hrs iha ihb ihc =>
    simp [List.countP_append, iha, ihb, ihc, hmark, Command.wordCount,
      hrs.countP, countP_separator hs₁, countP_separator hs₂, countP_separator hs₃]
    omega

theorem cutsWords_not_rendered (hcuts : tl.CutsWords start e) (hle : start ≤ e)
    (h : Renders looseSeparators c (tl.range start (e + 1))) :
    ¬ Renders looseSeparators c (tl.range start e) := by
  intro h'
  obtain ⟨⟨tok, hread, htype⟩, _⟩ := hcuts
  have hcount := h.countP
  rw [range_concat hread hle, List.countP_append, h'.countP, Token.lexeme_word htype] at hcount
  simp [Lexeme.isWord, Lexeme.type] at hcount

/-- The part of a rendering that `parse` was asked for. -/
theorem rendered_of_parse (hlt : start < e) (h : parse fuel tl start e = .ok c)
    (htargets : tl.Targeted start e) (hshut : tl.Shut start e) (hcuts : ¬ tl.CutsWords start e) :
    tl.Rendered start e c := by
  obtain ⟨e', ⟨rfl, _⟩ | ⟨_, hcuts'⟩, hrenders⟩ := accounts tl fuel hlt h htargets hshut
  · refine ⟨?_, parse_normal h, hrenders⟩
    cases fuel with
    | zero => cases h
    | succ fuel =>
      obtain ⟨last, hlast, _⟩ := parse_inv h
      exact le_of_readBefore hlast
  · exact absurd hcuts' hcuts

/-- Where `parse` succeeds, the tokens of the range are a rendering of the tree exactly if every
redirection operator is followed by a word and the range is not cut off inside of a command; and
then `parse` fails on everything else. A newline token cuts no command off. -/
theorem parse_rendered_iff {tl : TokenList} {start e fuel : Nat} (hlt : start < e) :
    (∀ c, parse fuel tl start e = .ok c → (tl.Rendered start e c ↔
        tl.Targeted start e ∧ tl.Shut start e ∧ ¬ tl.CutsWords start e)) ∧
      (tl.Targeted start e → tl.Shut start e → ¬ tl.CutsWords start e →
        (∀ c, ¬ tl.Rendered start e c) → e - start + 2 ≤ fuel →
        ∃ fault, parse fuel tl start e = .error fault ∧ fault ≠ .outOfFuel) ∧
      ∀ tok, readToken tl e = .ok tok → tok.type = .tokNl →
        tl.Shut start e ∧ ¬ tl.CutsWords start e := by
  refine ⟨fun c h => ⟨?_, fun ⟨htargets, hshut, hcuts⟩ =>
    rendered_of_parse hlt h htargets hshut hcuts⟩, ?_, ?_⟩
  · rintro ⟨_, _, hrenders⟩
    have htargets : tl.Targeted start e := hrenders.isChain
    have hshut : tl.Shut start e := fun _ _ _ => (hrenders.level id (.inl rfl)).rise_eq
    refine ⟨htargets, hshut, fun hcuts => ?_⟩
    obtain ⟨e', ⟨_, hnot⟩ | ⟨rfl, _⟩, hover⟩ := accounts tl fuel hlt h htargets hshut
    · exact hnot hcuts
    · exact cutsWords_not_rendered hcuts (Nat.le_of_lt hlt) hover hrenders
  · intro htargets hshut hcuts hnone hfuel
    cases h : parse fuel tl start e with
    | ok c => exact absurd (rendered_of_parse hlt h htargets hshut hcuts) (hnone c)
    | error fault =>
      refine ⟨fault, rfl, ?_⟩
      rintro rfl
      exact ends_parse hfuel h
  · intro tok hread htype
    refine ⟨shut_of_nesting hread (by rw [htype]; decide), ?_⟩
    rintro ⟨⟨tok', hread', htype'⟩, _⟩
    rw [hread] at hread'
    cases hread'
    rw [htype] at htype'
    cases htype'

theorem parse_rendered_iff_redirect : TokenList.Rendered ⟨[97, 0, 62, 0, 98, 0, 10, 0],
    [⟨.tokWord, 0, 1⟩, ⟨.tokRab, 2, 1⟩, ⟨.tokWord, 4, 1⟩, ⟨.tokNl, 6, 2⟩]⟩ 0 3
    (.simple ⟨-1, none, some [98]⟩ [[97]]) := by
  let tl : TokenList := ⟨[97, 0, 62, 0, 98, 0, 10, 0],
    [⟨.tokWord, 0, 1⟩, ⟨.tokRab, 2, 1⟩, ⟨.tokWord, 4, 1⟩, ⟨.tokNl, 6, 2⟩]⟩
  have hparse : parse 5 tl 0 3 = .ok (.simple ⟨-1, none, some [98]⟩ [[97]]) := rfl
  obtain ⟨hiff, _, hnewline⟩ := @parse_rendered_iff tl 0 3 5 (by decide)
  obtain ⟨hshut, hcuts⟩ := hnewline ⟨.tokNl, 6, 2⟩ rfl rfl
  refine (hiff _ hparse).mpr ⟨?_, hshut, hcuts⟩
  simp [tl, Targeted, range, TargetFollows, Token.lexeme, Lexeme.type, TokenType.isRedirect]

/-- The lexer refuses `a>)` but not `a > )`, where `)` becomes the target of the redirection; and in
front of `)` and of a word, a range takes the token behind it along. -/
theorem parse_accepts_more :
    (makeCommandStream 5 [97, 62, 41, 10] = .error (.syntaxError 1 "Unexpected `)'") ∧
      ∃ (tl : TokenList) (c : Command), lexScript [97, 32, 62, 32, 41, 10] = .ok tl ∧
        makeCommandStream 5 [97, 32, 62, 32, 41, 10] = .ok (some ⟨[c], 0⟩) ∧
        (∃ tok, readToken tl 3 = .ok tok ∧ tok.type = .tokNl) ∧
        parse 5 tl 0 3 = .ok c ∧ ¬ tl.Rendered 0 3 c) ∧
    (∃ (tl : TokenList) (c : Command), (∃ tok, readToken tl 3 = .ok tok ∧ tok.type = .tokNl) ∧
      parse 5 tl 0 2 = .ok c ∧ ¬ tl.Rendered 0 2 c) ∧
    ∃ (tl : TokenList) (c : Command), (∃ tok, readToken tl 2 = .ok tok ∧ tok.type = .tokNl) ∧
      parse 5 tl 0 1 = .ok c ∧ ¬ tl.Rendered 0 1 c := by
  refine ⟨⟨by decide +kernel, ⟨[97, 0, 62, 0, 41, 0, 10, 0],
      [⟨.tokWord, 0, 1⟩, ⟨.tokRab, 2, 1⟩, ⟨.tokRparen, 4, 1⟩, ⟨.tokNl, 6, 2⟩]⟩,
      .simple ⟨-1, none, some [41]⟩ [[97]], by decide +kernel, by decide +kernel, ⟨_, rfl, rfl⟩,
      rfl, ?_⟩,
    ⟨⟨[40, 0, 97, 0, 41, 0, 10, 0],
      [⟨.tokLparen, 0, 1⟩, ⟨.tokWord, 2, 1⟩, ⟨.tokRparen, 4, 1⟩, ⟨.tokNl, 6, 2⟩]⟩,
      .subshell .fresh (.simple .fresh [[97]]), ⟨_, rfl, rfl⟩, rfl, ?_⟩,
    ⟨⟨[97, 0, 98, 0, 10, 0], [⟨.tokWord, 0, 1⟩, ⟨.tokWord, 2, 1⟩, ⟨.tokNl, 4, 2⟩]⟩,
      .simple .fresh [[97], [98]], ⟨_, rfl, rfl⟩, rfl, ?_⟩⟩
  · rintro ⟨_, _, hrenders⟩
    have hchain := hrenders.isChain
    simp [range, TargetFollows, Token.lexeme, Lexeme.type, TokenType.isRedirect] at hchain
  · rintro ⟨_, _, hrenders⟩
    have hrise := (hrenders.level id (.inl rfl)).rise_eq
    cases hrise
  · rintro ⟨_, _, hrenders⟩
    have hcount := hrenders.countP
    cases hcount

end CS111.Shell
