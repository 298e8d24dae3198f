import CS111.Lib.Fallible
import CS111.Shell.ReadCommand

/-!
# What the parser sees of its tokens

The parser uses the line of a token only to report an error. On two arrays whose tokens agree in
type and text it does the same, as long as the first array has the tokens that it reads.
-/

namespace CS111.Shell

set_option autoImplicit false

open Fallible

/-- Two tokens that only differ in their lines, which does not matter where errors are of `P`. -/
structure SameToken (P : Fault → Prop) (tl tl' : TokenList) (tok tok' : Token) : Prop where
  type : tok.type = tok'.type
  text : tl.text tok = tl'.text tok'
  line : tok.lineNum = tok'.lineNum ∨ ∀ line message, P (.syntaxError line message)

def SameTokens (P : Fault → Prop) (tl tl' : TokenList) : Prop :=
  ∀ i, Matches P (SameToken P tl tl') (readToken tl i) (readToken tl' i)

namespace SameTokens

variable {P : Fault → Prop} {tl tl' : TokenList} (h : SameTokens P tl tl')
include h

theorem readBefore (i : Nat) :
    Matches P (SameToken P tl tl') (readBefore tl i) (readBefore tl' i) := by
  cases i with
  | zero => exact .same
  | succ i => exact h i

omit h in
theorem syntaxError {α : Type} {tok tok' : Token} (htok : SameToken P tl tl' tok tok')
    (message : String) :
    Matches P (Eq (α := α)) (.error (.syntaxError tok.lineNum message))
      (.error (.syntaxError tok'.lineNum message)) := by
  rcases htok.line with hline | hP
  · rw [hline]
    exact .same
  · exact .stopped (hP _ _)

theorem failAt {α : Type} (i : Nat) (message : String) :
    Matches P (Eq (α := α)) (failAt tl i message) (failAt tl' i message) := by
  apply (h i).bind
  intro tok tok' htok
  exact syntaxError htok message

theorem scanBack (sep : TokenType) (start i : Nat) (inCommand : Int) :
    Matches P Eq (scanBack tl sep start i inCommand) (scanBack tl' sep start i inCommand) := by
  induction i generalizing inCommand with
  | zero => exact .same
  | succ i ih =>
    apply (h i).bind
    intro tok tok' htok
    rw [htok.type]
    split
    · exact .value rfl
    · split
      · exact ih _
      · exact .value rfl

theorem scanForward (marks : List TokenType) (close : TokenType) (skip : Option Nat)
    (n index : Nat) (inCommand : Int) (found : TokenType → Option Nat) :
    Matches P Eq (scanForward tl marks close skip n index inCommand found)
      (scanForward tl' marks close skip n index inCommand found) := by
  induction n generalizing index inCommand found with
  | zero =>
    apply (h index).bind
    intro tok tok' htok
    rw [htok.type]
    exact .refl
  | succ n ih =>
    apply (h index).bind
    intro tok tok' htok
    rw [htok.type]
    dsimp only
    split
    · exact .refl
    · exact ih _ _ _

theorem addRedirects (comm : Header) (start n : Nat) :
    Matches P Eq (addRedirects tl comm start n) (addRedirects tl' comm start n) := by
  induction n using Nat.strongRecOn generalizing comm start with
  | ind n ih =>
    match n with
    | 0 => exact .refl
    | 1 => exact h.failAt start _
    | n + 2 =>
      apply (h start).bind
      intro tok tok' htok
      rw [htok.type]
      split
      · split
        · apply (h (start + 1)).bind
          intro target target' htarget
          rw [htarget.text]
          exact ih n (by omega) _ _
        · exact h.failAt start _
      · split
        · apply (h (start + 1)).bind
          intro target target' htarget
          rw [htarget.text]
          exact ih n (by omega) _ _
        · exact h.failAt start _
      · exact h.failAt start _

theorem scanWords (n index : Nat) :
    Matches P Eq (scanWords tl n index) (scanWords tl' n index) := by
  induction n generalizing index with
  | zero =>
    apply (h index).bind
    intro tok tok' htok
    rw [htok.type]
    exact .refl
  | succ n ih =>
    apply (h index).bind
    intro tok tok' htok
    rw [htok.type]
    split
    · exact .refl
    · exact ih _

theorem readWords (i n : Nat) : Matches P Eq (readWords tl i n) (readWords tl' i n) := by
  induction n generalizing i with
  | zero => exact .refl
  | succ n ih =>
    apply (h i).bind
    intro tok tok' htok
    apply (ih (i + 1)).bind
    rintro rest _ rfl
    rw [htok.text]
    exact .refl

theorem magicalWordParser (start e : Nat) :
    Matches P Eq (magicalWordParser tl start e) (magicalWordParser tl' start e) := by
  apply (h.scanWords _ _).bind
  rintro index _ rfl
  apply (h.readWords _ _).bind
  rintro words _ rfl
  apply (h.addRedirects _ _ _).bind
  rintro comm _ rfl
  exact .refl

section Compound
variable {p p' : Nat → Nat → Except Fault Command} (hp : ∀ a b, Matches P Eq (p a b) (p' a b))
include hp

theorem checkFailParse (start e : Nat) :
    Matches P Eq (checkFailParse p tl start e) (checkFailParse p' tl' start e) := by
  apply (h.readBefore e).bind
  intro tok tok' htok
  rw [htok.type]
  split
  · exact hp _ _
  · exact hp _ _

theorem magicalIfParser (start e : Nat) :
    Matches P Eq (magicalIfParser p tl start e) (magicalIfParser p' tl' start e) := by
  apply (h.scanForward _ _ _ _ _ _ _).bind
  rintro ⟨fiIndex, found⟩ _ rfl
  cases fiIndex with
  | none => exact h.failAt start _
  | some fiIndex =>
    dsimp only
    cases found .tokThen with
    | none => exact h.failAt start _
    | some thenIndex =>
      apply (h.checkFailParse hp _ _).bind
      rintro cond _ rfl
      cases found .tokElse with
      | none =>
        apply (h.checkFailParse hp _ _).bind
        rintro thenPart _ rfl
        apply (h.addRedirects _ _ _).bind
        rintro comm _ rfl
        exact .refl
      | some elseIndex =>
        apply (h.checkFailParse hp _ _).bind
        rintro thenPart _ rfl
        apply (h.checkFailParse hp _ _).bind
        rintro elsePart _ rfl
        apply (h.addRedirects _ _ _).bind
        rintro comm _ rfl
        exact .refl

omit hp in
theorem loopTypeAt (start : Nat) : Matches P Eq (loopTypeAt tl start) (loopTypeAt tl' start) := by
  apply (h start).bind
  intro tok tok' htok
  rw [htok.type]
  split
  · exact .refl
  · exact .refl
  · exact h.failAt start _

theorem magicalWhileUntilParser (start e : Nat) :
    Matches P Eq (magicalWhileUntilParser p tl start e)
      (magicalWhileUntilParser p' tl' start e) := by
  apply (h.loopTypeAt start).bind
  rintro type _ rfl
  apply (h.scanForward _ _ _ _ _ _ _).bind
  rintro ⟨doneIndex, found⟩ _ rfl
  cases doneIndex with
  | none => exact h.failAt start _
  | some doneIndex =>
    dsimp only
    cases found .tokDo with
    | none => exact h.failAt start _
    | some doIndex =>
      apply (h.checkFailParse hp _ _).bind
      rintro cond _ rfl
      apply (h.checkFailParse hp _ _).bind
      rintro body _ rfl
      apply (h.addRedirects _ _ _).bind
      rintro comm _ rfl
      exact .refl

theorem magicalSubshellParser (start e : Nat) :
    Matches P Eq (magicalSubshellParser p tl start e) (magicalSubshellParser p' tl' start e) := by
  apply (h.scanForward _ _ _ _ _ _ _).bind
  rintro ⟨rparenIndex, found⟩ _ rfl
  cases rparenIndex with
  | none => exact h.failAt start _
  | some rparenIndex =>
    apply (h.checkFailParse hp _ _).bind
    rintro body _ rfl
    apply (h.addRedirects _ _ _).bind
    rintro comm _ rfl
    exact .refl

theorem parseSingle (start e : Nat) :
    Matches P Eq (parseSingle p tl start e) (parseSingle p' tl' start e) := by
  apply (h start).bind
  intro tok tok' htok
  rw [htok.type]
  split
  · exact h.magicalIfParser hp start e
  · exact h.magicalWhileUntilParser hp start e
  · exact h.magicalWhileUntilParser hp start e
  · exact h.magicalSubshellParser hp start e
  · exact h.magicalWordParser start e
  · exact h.failAt start _

end Compound

/-- One call, by the calls that it makes. -/
theorem parse_succ {fuel fuel' : Nat}
    (hp : ∀ a b, Matches P Eq (Shell.parse fuel tl a b) (Shell.parse fuel' tl' a b)) (start e : Nat) :
    Matches P Eq (Shell.parse (fuel + 1) tl start e) (Shell.parse (fuel' + 1) tl' start e) := by
  apply (h.readBefore e).bind
  intro last last' hlast
  rw [hlast.type]
  split
  · exact syntaxError hlast _
  · apply (h.scanBack .tokSc start e 0).bind
    rintro r _ rfl
    cases r with
    | some i =>
      apply (hp start i).bind
      rintro first _ rfl
      apply (hp (i + 1) e).bind
      rintro second _ rfl
      exact .refl
    | none =>
      apply (h.scanBack .tokPipe start e 0).bind
      rintro r _ rfl
      cases r with
      | some i =>
        apply (hp start i).bind
        rintro first _ rfl
        apply (hp (i + 1) e).bind
        rintro second _ rfl
        exact .refl
      | none => exact h.parseSingle hp start e

theorem parse (fuel start e : Nat) :
    Matches P Eq (parse fuel tl start e) (parse fuel tl' start e) := by
  induction fuel generalizing start e with
  | zero => exact .same
  | succ fuel ih => exact h.parse_succ ih start e

theorem scanNewline (n index : Nat) :
    Matches P Eq (scanNewline tl n index) (scanNewline tl' n index) := by
  induction n generalizing index with
  | zero => exact .refl
  | succ n ih =>
    apply (h index).bind
    intro tok tok' htok
    rw [htok.type]
    split
    · exact .refl
    · exact ih _

theorem readCommands (hnum : tl.numTokens = tl'.numTokens) (fuel n start : Nat) :
    Matches P Eq (readCommands fuel tl n start) (readCommands fuel tl' n start) := by
  induction n generalizing start with
  | zero => exact .same
  | succ n ih =>
    unfold Shell.readCommands
    rw [hnum]
    apply (h.scanNewline _ _).bind
    rintro index _ rfl
    apply (h.readBefore index).bind
    intro last last' hlast
    rw [hlast.type]
    apply (h.parse fuel _ _).bind
    rintro c _ rfl
    split
    · exact .refl
    · apply (ih (index + 1)).bind
      rintro rest _ rfl
      exact .refl

end SameTokens

theorem sameTokens_refl (P : Fault → Prop) (tl : TokenList) : SameTokens P tl tl := by
  intro i
  cases readToken tl i with
  | error fault => exact .same
  | ok tok => exact .value ⟨rfl, rfl, .inl rfl⟩

/-- A call that comes to an end does so at every greater depth. -/
theorem parse_deeper (tl : TokenList) {fuel fuel' : Nat} (hle : fuel ≤ fuel') (start e : Nat) :
    Matches (· = .outOfFuel) Eq (parse fuel tl start e) (parse fuel' tl start e) := by
  induction fuel generalizing fuel' start e with
  | zero => exact .stopped rfl
  | succ fuel ih =>
    obtain ⟨fuel', rfl⟩ := Nat.exists_eq_succ_of_ne_zero (Nat.ne_of_gt (Nat.zero_lt_of_lt hle))
    exact (sameTokens_refl _ tl).parse_succ (fun a b => ih (Nat.le_of_succ_le_succ hle) a b) start e

/-- A read behind the end of the tokens, or before the first. -/
def Fault.isOutOfRange : Fault → Prop
  | .outOfRange _ => True
  | _ => False

/-- The first `m` tokens. -/
def TokenList.cut (tl : TokenList) (m : Nat) : TokenList := { tl with tokens := tl.tokens.take m }

theorem readToken_cut (tl : TokenList) (m i : Nat) :
    readToken (tl.cut m) i = if i < m then readToken tl i else .error (.outOfRange i) := by
  unfold readToken TokenList.cut
  by_cases hlt : i < m
  · rw [List.getElem?_take_of_lt hlt, if_pos hlt]
  · rw [List.getElem?_eq_none (by simp only [List.length_take]; omega), if_neg hlt]

theorem sameTokens_cut (tl : TokenList) (m : Nat) :
    SameTokens Fault.isOutOfRange (tl.cut m) tl := by
  intro i
  rw [readToken_cut]
  by_cases hlt : i < m
  · rw [if_pos hlt]
    cases readToken tl i with
    | error fault => exact .same
    | ok tok => exact .value ⟨rfl, rfl, .inl rfl⟩
  · rw [if_neg hlt]
    exact .stopped trivial

end CS111.Shell
