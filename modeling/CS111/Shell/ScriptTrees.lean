import CS111.Shell.FrontEnd
import CS111.Shell.ParserSimulation
import CS111.Shell.ScannerState

/-!
# The trees of a script

What a script delivers depends on its lexemes only.
-/

namespace CS111.Shell

set_option autoImplicit false

open Fallible

variable {tl tl' : TokenList} {ls : List Lexeme} {script script' : List UInt8} {fuel : Nat}
  {cs : List Command}

/-- The script is accepted, and the calls of `read_command_stream` deliver these trees, and then no
more. -/
def Delivers (fuel : Nat) (script : List UInt8) (cs : List Command) : Prop :=
  ∃ s, makeCommandStream fuel script = .ok s ∧
    ∀ n, readResults n s = (List.range n).map fun k => cs[k]?

theorem TokenList.Spelling.read (h : tl.Spelling ls) (i : Nat) :
    (readToken tl i = .error (.outOfRange i) ∧ ls[i]? = none) ∨
      ∃ tok l, readToken tl i = .ok tok ∧ ls[i]? = some l ∧ tok.type = l.type ∧
        tl.text tok = l.text := by
  unfold readToken
  have hget := List.forall₂_iff_get.mp h
  obtain ⟨hlength, hall⟩ := hget
  by_cases hi : i < tl.tokens.length
  · right
    have hi' : i < ls.length := hlength ▸ hi
    obtain ⟨htype, htext⟩ := hall i hi hi'
    refine ⟨tl.tokens[i], ls[i], ?_, List.getElem?_eq_getElem hi', htype, htext⟩
    rw [List.getElem?_eq_getElem hi]
  · left
    rw [List.getElem?_eq_none (Nat.le_of_not_lt hi), List.getElem?_eq_none (by omega)]
    exact ⟨rfl, rfl⟩

theorem TokenList.Spelling.sameTokens (h : tl.Spelling ls) (h' : tl'.Spelling ls) :
    SameTokens (fun _ => True) tl tl' := by
  intro i
  rcases h.read i with ⟨hread, _⟩ | ⟨tok, l, hread, hl, htype, htext⟩
  · rw [hread]
    exact .stopped trivial
  · rcases h'.read i with ⟨_, hnone⟩ | ⟨tok', l', hread', hl', htype', htext'⟩
    · rw [hl] at hnone
      cases hnone
    · rw [hl] at hl'
      cases hl'
      rw [hread, hread']
      exact .value ⟨htype.trans htype'.symm, htext.trans htext'.symm, .inr fun _ _ => trivial⟩

theorem TokenList.Spelling.numTokens (h : tl.Spelling ls) : tl.numTokens = ls.length := h.length_eq

theorem readResults_none (n : Nat) :
    readResults n none = (List.range n).map fun k => ([] : List Command)[k]? := by
  induction n with
  | zero => rfl
  | succ n ih =>
    rw [readResults, List.range_succ_eq_map, List.map_cons, List.map_map]
    exact congrArg _ ih

theorem trees_unique {cs' : List Command} {s : Option CommandStream}
    (h : ∀ n, readResults n s = (List.range n).map fun k => cs[k]?)
    (h' : ∀ n, readResults n s = (List.range n).map fun k => cs'[k]?) : cs = cs' := by
  apply List.ext_getElem?
  intro k
  have hlast := congrArg List.getLast? ((h (k + 1)).symm.trans (h' (k + 1)))
  rw [List.range_succ, List.map_append, List.map_append, List.map_singleton, List.map_singleton,
    List.getLast?_concat, List.getLast?_concat] at hlast
  exact Option.some.inj hlast

/-- What is delivered, by the tokens. -/
theorem delivers_iff (hlex : lexScript script = .ok tl) : Delivers fuel script cs ↔
    tl.numTokens = 0 ∧ cs = [] ∨ tl.numTokens ≠ 0 ∧ readCommands fuel tl tl.numTokens 0 = .ok cs := by
  unfold Delivers makeCommandStream
  rw [hlex]
  dsimp only [bind, Except.bind]
  constructor
  · rintro ⟨s, hstream, hresults⟩
    split at hstream
    · next hzero =>
      cases hstream
      exact .inl ⟨hzero, trees_unique hresults readResults_none⟩
    · next hne =>
      obtain ⟨trees, htrees, hs⟩ := bind_eq_ok.mp hstream
      cases hs
      have heq : trees = cs :=
        trees_unique (fun n => by simpa using readResults_eq n 0) hresults
      rw [← heq]
      exact .inr ⟨hne, htrees⟩
  · rintro (⟨hzero, rfl⟩ | ⟨hne, htrees⟩)
    · rw [if_pos hzero]
      exact ⟨none, rfl, readResults_none⟩
    · rw [if_neg hne, htrees]
      exact ⟨some ⟨cs, 0⟩, rfl, fun n => by simpa using readResults_eq n 0⟩

theorem delivers_of_stream (h : makeCommandStream fuel script = .ok (some ⟨cs, 0⟩)) :
    Delivers fuel script cs := ⟨_, h, fun n => by simpa using readResults_eq n 0⟩

theorem Delivers.lexScript (h : Delivers fuel script cs) : ∃ tl, lexScript script = .ok tl := by
  obtain ⟨s, hstream, _⟩ := h
  obtain ⟨tl, hlex, _⟩ := bind_eq_ok.mp hstream
  exact ⟨tl, hlex⟩

/-- Two scripts with the same lexemes deliver the same trees. -/
theorem Delivers.of_scan (h : Delivers fuel script cs) (hls : scriptScan script = .ok ls)
    (hls' : scriptScan script' = .ok ls) : Delivers fuel script' cs := by
  obtain ⟨tl, hlex, hspell⟩ := (mirrors_lexScript script).ok_right hls
  obtain ⟨tl', hlex', hspell'⟩ := (mirrors_lexScript script').ok_right hls'
  have hnum : tl.numTokens = tl'.numTokens := hspell.numTokens.trans hspell'.numTokens.symm
  rw [delivers_iff hlex'] 
  rw [delivers_iff hlex, hnum] at h
  apply h.imp_right
  rintro ⟨hne, htrees⟩
  obtain ⟨trees', htrees', rfl⟩ :=
    ((hspell.sameTokens hspell').readCommands hnum fuel tl'.numTokens 0).ok htrees
  exact ⟨hne, htrees'⟩

end CS111.Shell
