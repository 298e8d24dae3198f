import Mathlib.Data.List.Chain
import CS111.Shell.ParserComplete
import CS111.Shell.Printing

/-!
# What the loops of the parser find

`tl.range start e` are the lexemes of the tokens in `[start, e)`. For each loop there is a lemma
that says what the range looks like when the loop has ended.
-/

namespace CS111.Shell

set_option autoImplicit false

def Token.lexeme (tl : TokenList) (tok : Token) : Lexeme :=
  if tok.type = .tokWord then .word (tl.text tok) else .mark tok.type

def TokenList.range (tl : TokenList) (start e : Nat) : List Lexeme :=
  ((tl.tokens.drop start).take (e - start)).map (Token.lexeme tl)

variable {tl : TokenList} {a b i j m n start e : Nat} {d : Int} {tok : Token} {t : TokenType}

theorem Except.bind_ok {α β : Type} {x : Except Fault α} {f : α → Except Fault β} {r : β} :
    x >>= f = .ok r ↔ ∃ y, x = .ok y ∧ f y = .ok r := by
  cases x with
  | error fault => simp [bind, Except.bind]
  | ok y => simp [bind, Except.bind]

theorem failAt_ne_ok {α : Type} {message : String} {r : α} : failAt tl i message ≠ .ok r := by
  intro h
  obtain ⟨_, _, hfail⟩ := Except.bind_ok.mp h
  cases hfail

theorem Token.lexeme_type (tl : TokenList) (tok : Token) : (tok.lexeme tl).type = tok.type := by
  unfold Token.lexeme
  split
  · next h => exact h.symm
  · rfl

theorem Token.lexeme_word (h : tok.type = .tokWord) : tok.lexeme tl = .word (tl.text tok) :=
  if_pos h

theorem Token.lexeme_mark (h : tok.type = t) (ht : t ≠ .tokWord) : tok.lexeme tl = .mark t := by
  rw [Token.lexeme, if_neg (h ▸ ht), h]

theorem Token.nest_lexeme : (tok.lexeme tl).nest = nesting tok.type := by
  rw [Lexeme.nest, Token.lexeme_type]

/-! ## Ranges -/

namespace TokenList

theorem getElem?_of_readToken (h : readToken tl i = .ok tok) : tl.tokens[i]? = some tok := by
  unfold readToken at h
  split at h
  · next tok' hget =>
    cases h
    exact hget
  · cases h

theorem lt_of_readToken (h : readToken tl i = .ok tok) : i < tl.numTokens :=
  (List.getElem?_eq_some_iff.mp (getElem?_of_readToken h)).1

@[simp] theorem range_self : tl.range a a = [] := by
  simp [range]

theorem range_append (ham : a ≤ m) (hmb : m ≤ b) :
    tl.range a b = tl.range a m ++ tl.range m b := by
  have hlen : b - a = m - a + (b - m) := by omega
  have hdrop : a + (m - a) = m := by omega
  rw [range, range, range, ← List.map_append, hlen, List.take_add, List.drop_drop, hdrop]

theorem range_succ_self (h : readToken tl i = .ok tok) : tl.range i (i + 1) = [tok.lexeme tl] := by
  obtain ⟨hlt, hget⟩ := List.getElem?_eq_some_iff.mp (getElem?_of_readToken h)
  rw [range, Nat.add_sub_cancel_left, List.drop_eq_getElem_cons hlt, hget]
  rfl

theorem range_cons (h : readToken tl a = .ok tok) (hlt : a < b) :
    tl.range a b = tok.lexeme tl :: tl.range (a + 1) b := by
  rw [range_append (Nat.le_succ a) hlt, range_succ_self h]
  rfl

theorem range_concat (h : readToken tl b = .ok tok) (hle : a ≤ b) :
    tl.range a (b + 1) = tl.range a b ++ [tok.lexeme tl] := by
  rw [range_append hle (Nat.le_succ b), range_succ_self h]

theorem range_split (h : readToken tl i = .ok tok) (hai : a ≤ i) (hib : i < b) :
    tl.range a b = tl.range a i ++ tok.lexeme tl :: tl.range (i + 1) b := by
  rw [range_append hai (Nat.le_of_lt hib), range_cons h hib]

theorem length_range (h : b ≤ tl.numTokens) : (tl.range a b).length = b - a := by
  have hlen : b ≤ tl.tokens.length := h
  rw [range, List.length_map, List.length_take, List.length_drop]
  omega

theorem range_ne_nil (h : readToken tl a = .ok tok) (hlt : a < b) : tl.range a b ≠ [] := by
  rw [range_cons h hlt]
  exact List.cons_ne_nil _ _

end TokenList

open TokenList

/-! ## The loops -/

/-- The backward loop has stopped at the last `sep` at depth 0. -/
theorem scanBack_some {sep : TokenType} (h : scanBack tl sep start i d = .ok (some j)) :
    j < i ∧ (start ≤ j ∨ j + 1 = i) ∧ (∃ tok, readToken tl j = .ok tok ∧ tok.type = sep) ∧
      Clear (fun l => -l.nest) (fun l => l.type = sep) d (tl.range (j + 1) i).reverse ∧
      rise Lexeme.nest (tl.range (j + 1) i) = d := by
  induction i generalizing d with
  | zero => cases h
  | succ k ih =>
    obtain ⟨tok, hread, h⟩ := Except.bind_ok.mp h
    split at h
    · next hfound =>
      cases h
      obtain ⟨rfl, htype⟩ := hfound
      exact ⟨Nat.lt_succ_self j, .inr rfl, ⟨tok, hread, htype⟩, by simp, by simp⟩
    · next hmiss =>
      split at h
      · next hlt =>
        obtain ⟨hji, hstart, htok, hclear, hrise⟩ := ih h
        have hrange := range_concat hread (Nat.succ_le_of_lt hji)
        refine ⟨by omega, .inl (by omega), htok, ?_, ?_⟩
        · rw [hrange, List.reverse_append, List.reverse_singleton, List.singleton_append,
            clear_cons, Token.nest_lexeme, Token.lexeme_type, ← Int.sub_eq_add_neg]
          exact ⟨fun hd htype => hmiss ⟨hd, htype⟩, hclear⟩
        · rw [hrange, rise_append, hrise, rise_cons, rise_nil, Token.nest_lexeme]
          omega
      · cases h

theorem scanBack_eq_none {sep : TokenType} (h : scanBack tl sep start i d = .ok none)
    (hlt : start < i) :
    Clear (fun l => -l.nest) (fun l => l.type = sep) d (tl.range start i).reverse := by
  induction i generalizing d with
  | zero => cases h
  | succ i ih =>
    obtain ⟨tok, hread, h⟩ := Except.bind_ok.mp h
    split at h
    · cases h
    · next hmiss =>
      rw [range_concat hread (Nat.le_of_lt_succ hlt), List.reverse_append,
        List.reverse_singleton, List.singleton_append, clear_cons, Token.nest_lexeme,
        Token.lexeme_type, ← Int.sub_eq_add_neg]
      refine ⟨fun hd htype => hmiss ⟨hd, htype⟩, ?_⟩
      split at h
      · next hlt' => exact ih h hlt'
      · next hge =>
        obtain rfl : i = start := by omega
        simp

section Forward
variable {marks : List TokenType} {close : TokenType} {skip : Option Nat}
  {found found' : TokenType → Option Nat} {k : Nat}

/-- Where the forward loop met a token of type `t` outside of nested commands. -/
def OuterAt (tl : TokenList) (skip : Option Nat) (index : Nat) (d : Int) (t : TokenType) (j : Nat) :
    Prop :=
  index ≤ j ∧ some j ≠ skip ∧ (∃ tok, readToken tl j = .ok tok ∧ tok.type = t) ∧
    d + rise Lexeme.nest (tl.range index j) = 0

theorem OuterAt.here (hread : readToken tl i = .ok tok) (houter : d = 0 ∧ some i ≠ skip) :
    OuterAt tl skip i d tok.type i :=
  ⟨Nat.le_refl i, houter.2, ⟨tok, hread, rfl⟩, by simp [houter.1]⟩

theorem OuterAt.step (hread : readToken tl i = .ok tok)
    (h : OuterAt tl skip (i + 1) (d + nesting tok.type) t j) : OuterAt tl skip i d t j := by
  obtain ⟨hle, hskip, htok, hrise⟩ := h
  refine ⟨by omega, hskip, htok, ?_⟩
  rw [range_cons hread hle, rise_cons, Token.nest_lexeme]
  omega

/-- The forward loop has found the end of the command, and has seen the marks before it. -/
theorem scanForward_some
    (h : scanForward tl marks close skip n i d found = .ok (some k, found')) :
    k ≤ i + n ∧ OuterAt tl skip i d close k ∧
      ∀ t j, found' t = some j → found t = some j ∨ (t ∈ marks ∧ j < k ∧ OuterAt tl skip i d t j) := by
  induction n generalizing i d found with
  | zero =>
    obtain ⟨tok, hread, h⟩ := Except.bind_ok.mp h
    dsimp only at h
    split at h
    · next hclose =>
      cases h
      obtain ⟨houter, rfl⟩ := hclose
      exact ⟨Nat.le_refl _, .here hread (of_decide_eq_true houter), fun t j h => .inl h⟩
    · cases h
  | succ n ih =>
    obtain ⟨tok, hread, h⟩ := Except.bind_ok.mp h
    dsimp only at h
    split at h
    · next hclose =>
      cases h
      obtain ⟨houter, rfl⟩ := hclose
      exact ⟨by omega, .here hread (of_decide_eq_true houter), fun t j h => .inl h⟩
    · obtain ⟨hk, hclose, hmarks⟩ := ih h
      refine ⟨by omega, hclose.step hread, fun t j hj => ?_⟩
      rcases hmarks t j hj with hj | ⟨hmem, hjk, hj⟩
      · split at hj
        · next hmark =>
          obtain ⟨houter, hmem⟩ := hmark
          by_cases ht : t = tok.type
          · subst ht
            rw [Function.update_self] at hj
            cases hj
            exact .inr ⟨hmem, hclose.1, .here hread (of_decide_eq_true houter)⟩
          · rw [Function.update_of_ne ht] at hj
            exact .inl hj
        · exact .inl hj
      · exact .inr ⟨hmem, hjk, hj.step hread⟩

end Forward

/-- A redirection operator is followed by a word. -/
def TargetFollows (l l' : Lexeme) : Prop := l.type.isRedirect = true → l'.type = .tokWord

/-- One round of `addRedirects`. -/
theorem addRedirects_step {comm h : Header} (hadd : addRedirects tl comm i (n + 1) = .ok h)
    (hchain : (tl.range i (i + (n + 1))).IsChain TargetFollows) :
    ∃ m w, n = m + 1 ∧ ∃ t, tl.range i (i + (n + 1)) =
        .mark t :: .word w :: tl.range (i + 2) (i + 2 + m) ∧
      (t = .tokLab ∧ comm.input = none ∧
          addRedirects tl { comm with input := some w } (i + 2) m = .ok h ∨
        t = .tokRab ∧ comm.output = none ∧
          addRedirects tl { comm with output := some w } (i + 2) m = .ok h) := by
  cases n with
  | zero => exact absurd hadd failAt_ne_ok
  | succ m =>
    have hgoal : ∀ {tok target : Token} {t : TokenType}, readToken tl i = .ok tok →
        tok.type = t → t.isRedirect = true → readToken tl (i + 1) = .ok target →
        tl.range i (i + (m + 1 + 1)) =
          .mark t :: .word (tl.text target) :: tl.range (i + 2) (i + 2 + m) := by
      intro tok target t hread htype ht htarget
      have hrange : tl.range i (i + (m + 1 + 1)) =
          tok.lexeme tl :: target.lexeme tl :: tl.range (i + 2) (i + 2 + m) := by
        rw [range_cons hread (by omega), range_cons htarget (by omega)]
        congr 3
        omega
      rw [hrange] at hchain ⊢
      have hword := hchain.rel
      rw [TargetFollows, Token.lexeme_type, Token.lexeme_type, htype] at hword
      have hne : t ≠ .tokWord := by
        rintro rfl
        cases ht
      rw [Token.lexeme_mark htype hne, Token.lexeme_word (hword ht)]
    obtain ⟨tok, hread, hadd⟩ := Except.bind_ok.mp hadd
    split at hadd
    · next htype =>
      split at hadd
      · next hnone =>
        obtain ⟨target, htarget, hadd⟩ := Except.bind_ok.mp hadd
        exact ⟨m, _, rfl, _, hgoal hread htype rfl htarget, .inl ⟨rfl, hnone, hadd⟩⟩
      · exact absurd hadd failAt_ne_ok
    · next htype =>
      split at hadd
      · next hnone =>
        obtain ⟨target, htarget, hadd⟩ := Except.bind_ok.mp hadd
        exact ⟨m, _, rfl, _, hgoal hread htype rfl htarget, .inr ⟨rfl, hnone, hadd⟩⟩
      · exact absurd hadd failAt_ne_ok
    · exact absurd hadd failAt_ne_ok

theorem addRedirects_full {comm h : Header} (hadd : addRedirects tl comm i n = .ok h)
    (hchain : (tl.range i (i + n)).IsChain TargetFollows) (hin : comm.input ≠ none)
    (hout : comm.output ≠ none) : n = 0 ∧ h = comm := by
  cases n with
  | zero =>
    cases hadd
    exact ⟨rfl, rfl⟩
  | succ n =>
    obtain ⟨_, _, _, _, _, ⟨_, hnone, _⟩ | ⟨_, hnone, _⟩⟩ := addRedirects_step hadd hchain
    · exact absurd hnone hin
    · exact absurd hnone hout

/-- What `addRedirects` accepts is a list of redirections. -/
theorem renders_of_addRedirects {h : Header} (hadd : addRedirects tl .fresh i n = .ok h)
    (hchain : (tl.range i (i + n)).IsChain TargetFollows) :
    h.status = -1 ∧ RendersRedirects h.input h.output (tl.range i (i + n)) := by
  cases n with
  | zero =>
    cases hadd
    rw [Nat.add_zero, range_self]
    exact ⟨rfl, .none⟩
  | succ n =>
    obtain ⟨m, w, rfl, t, hrange, hfirst⟩ := addRedirects_step hadd hchain
    have htail : (tl.range (i + 2) (i + 2 + m)).IsChain TargetFollows := by
      rw [hrange] at hchain
      exact hchain.tail.tail
    rw [hrange]
    cases m with
    | zero =>
      rw [Nat.add_zero, range_self]
      rcases hfirst with ⟨rfl, _, hadd⟩ | ⟨rfl, _, hadd⟩
      · cases hadd
        exact ⟨rfl, .input w⟩
      · cases hadd
        exact ⟨rfl, .output w⟩
    | succ m =>
      rcases hfirst with ⟨rfl, _, hadd⟩ | ⟨rfl, _, hadd⟩
      · obtain ⟨m, w', rfl, t, hrange', hsecond⟩ := addRedirects_step hadd htail
        have htail' : (tl.range (i + 2 + 2) (i + 2 + 2 + m)).IsChain TargetFollows := by
          rw [hrange'] at htail
          exact htail.tail.tail
        rcases hsecond with ⟨_, hnone, _⟩ | ⟨rfl, _, hadd⟩
        · cases hnone
        · obtain ⟨rfl, rfl⟩ := addRedirects_full hadd htail' (by simp) (by simp)
          rw [hrange', Nat.add_zero, range_self]
          exact ⟨rfl, .inputOutput w w'⟩
      · obtain ⟨m, w', rfl, t, hrange', hsecond⟩ := addRedirects_step hadd htail
        have htail' : (tl.range (i + 2 + 2) (i + 2 + 2 + m)).IsChain TargetFollows := by
          rw [hrange'] at htail
          exact htail.tail.tail
        rcases hsecond with ⟨rfl, _, hadd⟩ | ⟨_, hnone, _⟩
        · obtain ⟨rfl, rfl⟩ := addRedirects_full hadd htail' (by simp) (by simp)
          rw [hrange', Nat.add_zero, range_self]
          exact ⟨rfl, .outputInput w' w⟩
        · cases hnone

/-- The words of a simple command end before the first other token, or behind the range. -/
theorem scanWords_ok (h : scanWords tl n i = .ok j) :
    i ≤ j ∧ j ≤ i + n + 1 ∧ (∀ l ∈ tl.range i j, l.type = .tokWord) ∧
      (j ≤ i + n → tl.Stops j) := by
  induction n generalizing i with
  | zero =>
    obtain ⟨tok, hread, h⟩ := Except.bind_ok.mp h
    split at h
    · next hne =>
      cases h
      exact ⟨by omega, by omega, by simp, fun _ => ⟨tok, hread, hne⟩⟩
    · next hword =>
      cases h
      have htype : tok.type = .tokWord := not_not.mp hword
      refine ⟨by omega, by omega, ?_, fun _ => by omega⟩
      simp [range_succ_self hread, Token.lexeme_type, htype]
  | succ n ih =>
    obtain ⟨tok, hread, h⟩ := Except.bind_ok.mp h
    split at h
    · next hne =>
      cases h
      exact ⟨by omega, by omega, by simp, fun _ => ⟨tok, hread, hne⟩⟩
    · next hword =>
      have htype : tok.type = .tokWord := not_not.mp hword
      obtain ⟨hij, hjn, hwords, hstop⟩ := ih h
      refine ⟨by omega, by omega, ?_, fun hle => hstop (by omega)⟩
      rw [range_cons hread hij]
      intro l hl
      rcases List.mem_cons.mp hl with rfl | hl
      · rw [Token.lexeme_type, htype]
      · exact hwords l hl

theorem readWords_ok {ws : List Word} (h : readWords tl i (n + 1) = .ok ws)
    (hwords : ∀ l ∈ tl.range i (i + n), l.type = .tokWord) :
    tl.range i (i + n) = ws.dropLast.map .word ∧ i + n < tl.numTokens := by
  induction n generalizing i ws with
  | zero =>
    obtain ⟨tok, hread, h⟩ := Except.bind_ok.mp h
    obtain ⟨rest, hrest, h⟩ := Except.bind_ok.mp h
    cases hrest
    cases h
    exact ⟨by simp, lt_of_readToken hread⟩
  | succ n ih =>
    obtain ⟨tok, hread, h⟩ := Except.bind_ok.mp h
    obtain ⟨rest, hrest, h⟩ := Except.bind_ok.mp h
    cases h
    have hnext : i + 1 + n = i + (n + 1) := by omega
    have hrange : tl.range i (i + (n + 1)) = tok.lexeme tl :: tl.range (i + 1) (i + 1 + n) := by
      rw [hnext]
      exact range_cons hread (by omega)
    rw [hrange] at hwords ⊢
    obtain ⟨htail, hlt⟩ := ih hrest fun l hl => hwords l (List.mem_cons_of_mem _ hl)
    have htype := hwords _ List.mem_cons_self
    rw [Token.lexeme_type] at htype
    have hne : rest ≠ [] := by
      rintro rfl
      obtain ⟨_, _, hrest⟩ := Except.bind_ok.mp hrest
      obtain ⟨_, _, hrest⟩ := Except.bind_ok.mp hrest
      cases hrest
    refine ⟨?_, by omega⟩
    rw [htail, Token.lexeme_word htype, List.dropLast_cons_of_ne_nil hne]
    rfl

end CS111.Shell
