import CS111.Shell.LexerMemory

/-!
# The buffers of the lexer

The bytes behind `last_token_index` are the word under way. Between two calls there is room for one more
byte, and room for a token is made before it is stored.
-/

namespace CS111.Shell

set_option autoImplicit false

open Fallible Memory

variable {env : Surroundings} {s s' s₀ : LexerMem} {st st' : MemState} {c : UInt8} {w : Word}
  {offset : Nat} {bytes front back : List UInt8}

/-- `w` stands at the offset in the filled part of `lexerbuf`, with its NUL. -/
structure LexerMem.HasText (s : LexerMem) (offset : Nat) (w : Word) : Prop where
  noNul : 0 ∉ w
  filled : offset + w.length < s.lexerbuf.count
  bytes : load s.lexerbuf.cells offset (w.length + 1) = w ++ [0]

/-- What holds between two calls of `lexer_putchar_i`. -/
structure LexerMem.Inv (s : LexerMem) : Prop where
  room : s.lexerbuf.count < s.lexerbuf.capacity
  tokensRoom : s.tokens.count ≤ s.tokens.capacity
  tokensBlock : 0 < s.tokens.capacity
  index : s.lastTokenIndex ≤ s.lexerbuf.count
  word : ∀ k, s.lastTokenIndex ≤ k → k < s.lexerbuf.count → s.lexerbuf.cells k ≠ 0
  nul : 0 < s.lastTokenIndex → s.lexerbuf.cells (s.lastTokenIndex - 1) = 0
  texts : ∀ i, i < s.tokens.count → ∃ w, w ≠ [] ∧ s.HasText (s.tokens.cells i).offset w ∧
    (s.tokens.cells i).offset < s.lastTokenIndex
  increasing : ∀ i j, i < j → j < s.tokens.count →
    (s.tokens.cells i).offset < (s.tokens.cells j).offset

/-- What is in the arrays stays there. -/
structure LexerMem.Extends (s s' : LexerMem) : Prop where
  lexerbuf : s.lexerbuf.Extends s'.lexerbuf
  tokens : s.tokens.Extends s'.tokens

/-- A state that a call may come to. -/
structure LexerMem.After (s s' : LexerMem) : Prop where
  inv : s'.Inv
  extends_ : s.Extends s'

namespace LexerMem

theorem Extends.refl (s : LexerMem) : s.Extends s := ⟨.refl _, .refl _⟩

theorem Extends.trans (h : s₀.Extends s) (h' : s.Extends s') : s₀.Extends s' :=
  ⟨h.lexerbuf.trans h'.lexerbuf, h.tokens.trans h'.tokens⟩

theorem HasText.mono (h : s.HasText offset w) (hext : s.lexerbuf.Extends s'.lexerbuf) :
    s'.HasText offset w where
  noNul := h.noNul
  filled := Nat.lt_of_lt_of_le h.filled hext.count
  bytes := by
    rw [← h.bytes]
    have hfilled := h.filled
    exact load_congr fun k hk => hext.cells _ (by omega)

/-- A text is the only one at its offset. -/
theorem HasText.unique {w' : Word} (h : s.HasText offset w) (h' : s.HasText offset w') : w = w' :=
  load_until_unique h.bytes h'.bytes h.noNul h'.noNul

theorem Inv.set (h : s.Inv) (lineNum : Nat) (isCommand : Int) (simple : Bool) :
    Inv { s with lineNum := lineNum, isCommand := isCommand, simpleCommand := simple } where
  room := h.room
  tokensRoom := h.tokensRoom
  tokensBlock := h.tokensBlock
  index := h.index
  word := h.word
  nul := h.nul
  texts := by
    intro i hi
    obtain ⟨w, hne, htext, hlt⟩ := h.texts i hi
    exact ⟨w, hne, htext.mono (.refl _), hlt⟩
  increasing := h.increasing

theorem Inv.roomForToken (env : Surroundings) (h : s.Inv) :
    s.tokens.count < (s.tokens.grow env.freshTokens).capacity := by
  have hroom : (s.tokens.grow env.freshTokens).count < _ :=
    Doubling.grow_room h.tokensRoom h.tokensBlock
  rwa [Doubling.grow_count] at hroom

theorem After.set (h : s.After s') (simple : Bool) : s.After { s' with simpleCommand := simple } :=
  ⟨h.inv.set _ _ _, h.extends_.lexerbuf, h.extends_.tokens⟩

theorem After.trans (h : s₀.After s) (h' : s.After s') : s₀.After s' :=
  ⟨h'.inv, h.extends_.trans h'.extends_⟩

/-! ## One byte -/

/-- The token behind the array. -/
def behind (s : LexerMem) : Token := s.tokens.cells s.tokens.count

/-- The state after a store into the token behind the array. -/
def mark (s : LexerMem) (f : Token → Token) : LexerMem :=
  { s with tokens :=
      { s.tokens with cells := Function.update s.tokens.cells s.tokens.count (f s.behind) } }

@[simp] theorem mark_behind (f : Token → Token) : (s.mark f).behind = f s.behind :=
  Function.update_self ..

theorem mark_mark (f g : Token → Token) : (s.mark f).mark g = s.mark fun tok => g (f tok) := by
  have hbehind : (s.mark f).behind = f s.behind := mark_behind f
  unfold mark at hbehind ⊢
  rw [hbehind]
  simp only [Function.update_idem]

theorem setToken_eq (h : s.tokens.count < s.tokens.capacity) (f : Token → Token) :
    s.setToken f = .ok (s.mark f) := by
  unfold setToken
  rw [Doubling.put_eq h]
  rfl

/-- The association that `lexer_assign_type` finds. -/
def found (s : LexerMem) (offset : Nat) : Option (TokenType × Word) :=
  if s.simpleCommand then none else tokAssociations.find? fun assoc => s.isText offset assoc.2

def typeAt (s : LexerMem) (offset : Nat) : TokenType := (s.found offset).elim .tokWord Prod.fst

/-- The state after `lexer_assign_type`. -/
def assigned (s : LexerMem) : LexerMem :=
  { s.mark fun tok => { tok with type := s.typeAt tok.offset } with
    isCommand := s.isCommand + commandChange (s.typeAt s.behind.offset)
    simpleCommand := s.simpleCommand || (s.found s.behind.offset).isNone }

theorem assigned_of_found (h : s.found s.behind.offset = none) :
    s.assigned = { s.mark fun tok => { tok with type := .tokWord } with simpleCommand := true } := by
  have htype : s.typeAt s.behind.offset = .tokWord := by rw [typeAt, h]; rfl
  unfold assigned mark
  simp only [htype, h, Option.isNone_none, Bool.or_true]
  simp [commandChange]

theorem assigned_of_some {type : TokenType} {text : Word}
    (h : s.found s.behind.offset = some (type, text)) :
    s.assigned = { s.mark fun tok => { tok with type := type } with
      isCommand := s.isCommand + commandChange type } := by
  have htype : s.typeAt s.behind.offset = type := by rw [typeAt, h]; rfl
  unfold assigned mark
  simp only [htype, h, Option.isNone_some, Bool.or_false]

theorem assignType_eq (h : s.tokens.count < s.tokens.capacity) : s.assignType = .ok s.assigned := by
  unfold assignType
  rw [setToken_eq h]
  simp only [bind, Except.bind]
  obtain ⟨s₁, hs₁⟩ : ∃ s₁, (s.mark fun tok => { tok with type := .tokWord }) = s₁ := ⟨_, rfl⟩
  have hbehind : s₁.behind = { s.behind with type := .tokWord } := by rw [← hs₁, mark_behind]
  have hsame : s₁.simpleCommand = s.simpleCommand := by rw [← hs₁]; rfl
  rw [hs₁]
  by_cases hsimple : s.simpleCommand = true
  · have hfound : s.found s.behind.offset = none := if_pos hsimple
    rw [if_pos (hsame.trans hsimple), assigned_of_found hfound, hs₁, ← hsame.trans hsimple]
  · have hfind : (tokAssociations.find? fun assoc =>
        s₁.isText (s₁.tokens.cells s₁.tokens.count).offset assoc.2) = s.found s.behind.offset := by
      have hoffset : s₁.behind.offset = s.behind.offset := by rw [hbehind]
      change (tokAssociations.find? fun assoc => s₁.isText s₁.behind.offset assoc.2) = _
      rw [hoffset, found, if_neg hsimple, ← hs₁]
      rfl
    rw [if_neg (by rwa [hsame])]
    simp only [hfind]
    cases hassoc : s.found s.behind.offset with
    | none => rw [assigned_of_found hassoc, hs₁]
    | some assoc =>
      obtain ⟨type, text⟩ := assoc
      have hroom : s₁.tokens.count < s₁.tokens.capacity := by rw [← hs₁]; exact h
      have hboth : (s₁.mark fun tok => { tok with type := type }) =
          s.mark fun tok => { tok with type := type } := by rw [← hs₁, mark_mark]
      simp only
      rw [setToken_eq hroom, assigned_of_some hassoc, hboth]
      rfl

/-- The state when the NUL is stored and there is room for a token. -/
def nulStored (env : Surroundings) (s : LexerMem) : LexerMem :=
  { s with
    tokens := s.tokens.grow env.freshTokens
    lexerbuf := { s.lexerbuf with cells := Function.update s.lexerbuf.cells s.lexerbuf.count 0 } }

/-- The state when the word under way has become a token. -/
def ended (env : Surroundings) (s : LexerMem) : LexerMem :=
  let s₁ := ((s.nulStored env).mark fun tok => { tok with offset := s.lastTokenIndex }).assigned.mark
    fun tok => { tok with lineNum := s.lineNum }
  { s₁ with tokens := s₁.tokens.push, lastTokenIndex := s.lexerbuf.count + 1 }.advance env

/-- No word is under way: the buffer is empty, or ends with a NUL. -/
def AtNul (s : LexerMem) : Prop :=
  (1 ≤ s.lexerbuf.count ∧ s.lexerbuf.cells (s.lexerbuf.count - 1) = 0) ∨ s.lexerbuf.count = 0

theorem putcharI_nul (h : s.AtNul) : s.putcharI env 0 = .ok s := by
  unfold putcharI
  rw [if_pos rfl]
  exact if_pos h

theorem putcharI_ended (h : s.Inv) (hword : ¬ s.AtNul) : s.putcharI env 0 = .ok (s.ended env) := by
  have hroom : (s.tokens.grow env.freshTokens).count < (s.tokens.grow env.freshTokens).capacity := by
    rw [Doubling.grow_count]
    exact h.roomForToken env
  have hput : putByte { s with tokens := s.tokens.grow env.freshTokens } 0 = .ok (s.nulStored env) := by
    unfold putByte
    simp only
    rw [Doubling.put_eq h.room]
    rfl
  unfold putcharI
  rw [if_pos rfl]
  refine (if_neg hword).trans ?_
  simp only [hput, bind, Except.bind]
  obtain ⟨s₁, hs₁⟩ : ∃ s₁,
      ((s.nulStored env).mark fun tok => { tok with offset := s.lastTokenIndex }) = s₁ := ⟨_, rfl⟩
  have hoffset : (s.nulStored env).setToken
      (fun tok => { tok with offset := (s.nulStored env).lastTokenIndex }) = .ok s₁ := by
    rw [← hs₁]
    exact setToken_eq hroom _
  have htype : s₁.assignType = .ok s₁.assigned := by
    rw [← hs₁]
    exact assignType_eq hroom
  have hline : s₁.assigned.setToken (fun tok => { tok with lineNum := s₁.assigned.lineNum }) =
      .ok (s₁.assigned.mark fun tok => { tok with lineNum := s.lineNum }) := by
    rw [← hs₁]
    exact setToken_eq hroom _
  rw [hoffset]
  simp only
  rw [htype]
  simp only
  rw [hline, ended, hs₁, ← hs₁]
  rfl

/-- The state when a byte of a word is stored. -/
def stored (env : Surroundings) (s : LexerMem) (c : UInt8) : LexerMem :=
  advance env { s with lexerbuf :=
    { s.lexerbuf with cells := Function.update s.lexerbuf.cells s.lexerbuf.count c } }

theorem putcharI_stored (h : s.Inv) (hc : c ≠ 0) : s.putcharI env c = .ok (s.stored env c) := by
  unfold putcharI putByte
  rw [if_neg hc, Doubling.put_eq h.room]
  rfl

/-- A byte is stored behind the filled part, which becomes one longer. -/
structure Stores (s s' : LexerMem) (c : UInt8) : Prop where
  count : s'.lexerbuf.count = s.lexerbuf.count + 1
  cells : ∀ i, i < s.lexerbuf.count → s'.lexerbuf.cells i = s.lexerbuf.cells i
  last : s'.lexerbuf.cells s.lexerbuf.count = c
  room : s'.lexerbuf.count < s'.lexerbuf.capacity

theorem Stores.lexerbuf (h : s.Stores s' c) : s.lexerbuf.Extends s'.lexerbuf :=
  ⟨by rw [h.count]; exact Nat.le_succ _, h.cells⟩

theorem advance_stores (h : s.lexerbuf.count < s.lexerbuf.capacity)
    (hbuf : s'.lexerbuf = { s.lexerbuf with
      cells := Function.update s.lexerbuf.cells s.lexerbuf.count c }) :
    s.Stores (s'.advance env) c := by
  have hext : s'.lexerbuf.push.Extends (s'.advance env).lexerbuf :=
    Doubling.grow_extends (by rw [hbuf]; exact h)
  have hcount : s'.lexerbuf.push.count = s.lexerbuf.count + 1 := by rw [hbuf]; rfl
  constructor
  · exact Doubling.grow_count.trans hcount
  · intro i hi
    rw [hext.cells i (by omega), hbuf]
    exact Function.update_of_ne (Nat.ne_of_lt hi) _ _
  · rw [hext.cells _ (by omega), hbuf]
    exact Function.update_self ..
  · have hpos : 0 < s.lexerbuf.capacity := Nat.lt_of_le_of_lt (Nat.zero_le _) h
    exact Doubling.grow_room (by rw [hbuf]; exact h) (by rw [hbuf]; exact hpos)

/-- A byte of a word. -/
theorem Inv.store (h : s.Inv) (hstores : s.Stores s' c) (hc : c ≠ 0) (htokens : s'.tokens = s.tokens)
    (hindex : s'.lastTokenIndex = s.lastTokenIndex) : s.After s' := by
  have hext := hstores.lexerbuf
  refine ⟨?_, hext, by rw [htokens]; exact .refl _⟩
  constructor
  · exact hstores.room
  · rw [htokens]
    exact h.tokensRoom
  · rw [htokens]
    exact h.tokensBlock
  · rw [hindex]
    exact Nat.le_trans h.index hext.count
  · intro k hlow hhigh
    rw [hindex] at hlow
    rw [hstores.count] at hhigh
    rcases Nat.lt_succ_iff_lt_or_eq.mp hhigh with hk | rfl
    · rw [hstores.cells k hk]
      exact h.word k hlow hk
    · rw [hstores.last]
      exact hc
  · intro hpos
    rw [hindex] at hpos ⊢
    have hle := h.index
    rw [hstores.cells _ (by omega)]
    exact h.nul hpos
  · intro i hi
    rw [htokens] at hi ⊢
    obtain ⟨w, hne, htext, hlt⟩ := h.texts i hi
    exact ⟨w, hne, htext.mono hext, by rwa [hindex]⟩
  · rw [htokens]
    exact h.increasing

/-- The NUL behind a word, which becomes a token. -/
theorem Inv.token (h : s.Inv) (hstores : s.Stores s' 0) (hpos : 0 < s.lexerbuf.count)
    (hlast : s.lexerbuf.cells (s.lexerbuf.count - 1) ≠ 0)
    (htokens : s.tokens.Extends s'.tokens) (hcount : s'.tokens.count = s.tokens.count + 1)
    (hcapacity : s'.tokens.count ≤ s'.tokens.capacity)
    (hoffset : (s'.tokens.cells s.tokens.count).offset = s.lastTokenIndex)
    (hindex : s'.lastTokenIndex = s.lexerbuf.count + 1) : s.After s' := by
  have hext := hstores.lexerbuf
  have hbegun : s.lastTokenIndex < s.lexerbuf.count := by
    refine Nat.lt_of_le_of_ne h.index fun heq => hlast ?_
    rw [← heq]
    exact h.nul (by omega)
  refine ⟨?_, hext, htokens⟩
  constructor
  · exact hstores.room
  · exact hcapacity
  · omega
  · exact Nat.le_of_eq (hindex.trans hstores.count.symm)
  · intro k hlow hhigh
    rw [hindex] at hlow
    rw [hstores.count] at hhigh
    omega
  · intro _
    rw [hindex]
    exact hstores.last
  · intro i hi
    rw [hcount] at hi
    rcases Nat.lt_succ_iff_lt_or_eq.mp hi with hold | rfl
    · obtain ⟨w, hne, htext, hlt⟩ := h.texts i hold
      rw [htokens.cells i hold]
      exact ⟨w, hne, htext.mono hext, by omega⟩
    · rw [hoffset]
      refine ⟨load s.lexerbuf.cells s.lastTokenIndex (s.lexerbuf.count - s.lastTokenIndex), ?_, ?_,
        by omega⟩
      · intro hnil
        have hlen := congrArg List.length hnil
        rw [load_length] at hlen
        simp only [List.length_nil] at hlen
        omega
      · have hend : s.lastTokenIndex + (s.lexerbuf.count - s.lastTokenIndex) = s.lexerbuf.count :=
          Nat.add_sub_cancel' (Nat.le_of_lt hbegun)
        constructor
        · intro hmem
          obtain ⟨k, hk, hzero⟩ := List.mem_map.mp hmem
          rw [List.mem_range] at hk
          exact h.word _ (Nat.le_add_right _ k) (by omega) hzero
        · rw [load_length, hend, hstores.count]
          exact Nat.lt_succ_self _
        · rw [load_length, load_succ, hend, hstores.last]
          rw [load_congr fun k hk => hstores.cells _ (by omega)]
  · intro i j hij hj
    rw [hcount] at hj
    rcases Nat.lt_succ_iff_lt_or_eq.mp hj with hold | rfl
    · rw [htokens.cells i (by omega), htokens.cells j hold]
      exact h.increasing i j hij hold
    · obtain ⟨w, -, -, hlt⟩ := h.texts i hij
      rw [htokens.cells i hij, hoffset]
      exact hlt

/-- All the fields of the token behind the array are stored. -/
theorem ended_tokens_eq (env : Surroundings) (s : LexerMem) :
    (s.ended env).tokens = ((s.nulStored env).mark fun _ =>
      ⟨(s.nulStored env).typeAt s.lastTokenIndex, s.lastTokenIndex, s.lineNum⟩).tokens.push := by
  obtain ⟨s₁, hs₁⟩ : ∃ s₁,
      ((s.nulStored env).mark fun tok => { tok with offset := s.lastTokenIndex }) = s₁ := ⟨_, rfl⟩
  have hmarks : (s₁.assigned.mark fun tok => { tok with lineNum := s.lineNum }).tokens =
      ((s₁.mark fun tok => { tok with type := s₁.typeAt tok.offset }).mark
        fun tok => { tok with lineNum := s.lineNum }).tokens := rfl
  have htype : s₁.typeAt = (s.nulStored env).typeAt := by
    rw [← hs₁]
    rfl
  change (((s.nulStored env).mark _).assigned.mark _).tokens.push = _
  rw [hs₁, hmarks, htype, ← hs₁, mark_mark, mark_mark]

theorem ended_tokens (env : Surroundings) (h : s.Inv) : s.tokens.Extends (s.ended env).tokens ∧
    (s.ended env).tokens.count = s.tokens.count + 1 ∧
    (s.ended env).tokens.capacity = (s.tokens.grow env.freshTokens).capacity ∧
    (s.ended env).tokens.cells s.tokens.count =
      ⟨(s.nulStored env).typeAt s.lastTokenIndex, s.lastTokenIndex, s.lineNum⟩ := by
  have hcount : (s.nulStored env).tokens.count = s.tokens.count := Doubling.grow_count
  rw [ended_tokens_eq]
  refine ⟨?_, congrArg (· + 1) hcount, rfl, ?_⟩
  · exact (Doubling.grow_extends h.tokensRoom).trans
      ((Doubling.put_extends _ _).trans (Doubling.push_extends _))
  · rw [← hcount]
    exact mark_behind fun _ =>
      ⟨(s.nulStored env).typeAt s.lastTokenIndex, s.lastTokenIndex, s.lineNum⟩

theorem stored_after (env : Surroundings) (h : s.Inv) (hc : c ≠ 0) : s.After (s.stored env c) :=
  h.store (advance_stores h.room rfl) hc rfl rfl

theorem ended_after (env : Surroundings) (h : s.Inv) (hword : ¬ s.AtNul) :
    s.After (s.ended env) := by
  obtain ⟨hlast, hcount⟩ := not_or.mp hword
  have hpos : 0 < s.lexerbuf.count := Nat.pos_of_ne_zero hcount
  obtain ⟨hext, hmore, hcapacity, htoken⟩ := ended_tokens env h
  refine h.token (advance_stores h.room rfl) hpos (fun h0 => hlast ⟨hpos, h0⟩) hext hmore ?_
    (by rw [htoken]) rfl
  rw [hmore, hcapacity]
  exact Nat.succ_le_of_lt (h.roomForToken env)

theorem putcharI_after (h : s.Inv) (c : UInt8) : Succeeds s.After (s.putcharI env c) := by
  by_cases hc : c = 0
  · subst hc
    by_cases hnul : s.AtNul
    · rw [putcharI_nul hnul]
      exact .ok ⟨h, .refl s⟩
    · rw [putcharI_ended h hnul]
      exact .ok (ended_after env h hnul)
  · rw [putcharI_stored h hc]
    exact .ok (stored_after env h hc)

end LexerMem

/-! ## A call -/

/-- The exit through `error`. -/
def Fault.IsSyntaxError (fault : Fault) : Prop := ∃ line message, fault = .syntaxError line message

/-- The computation comes to a state after `s`, or takes the error exit. -/
abbrev Continues (s : LexerMem) (x : Except Fault LexerMem) : Prop :=
  Allows Fault.IsSyntaxError s.After x

open LexerMem

theorem putcharI_continues (h : s₀.After s) (c : UInt8) : Continues s₀ (s.putcharI env c) :=
  ((putcharI_after h.inv c).mono fun _ h' => h.trans h').allows

theorem fail_continues {before after : String} : Continues s₀ (s.fail before c after) :=
  .stopped ⟨_, _, rfl⟩

theorem delimiter_continues {lastC : UInt8} (h : s₀.After s) :
    Continues s₀ (MemState.delimiter env lastC s c) := by
  unfold MemState.delimiter
  split
  · exact fail_continues
  · refine (putcharI_continues h 0).bind fun s₁ h₁ => ?_
    exact (putcharI_continues (h₁.set false) c).bind fun s₂ h₂ => putcharI_continues h₂ 0

theorem redirect_continues (h : st.lexer.Inv) : Continues st.lexer (st.redirect env c) := by
  unfold MemState.redirect
  split
  · exact fail_continues
  · refine (putcharI_continues ⟨h, .refl _⟩ 0).bind fun s₁ h₁ => ?_
    refine (putcharI_continues (h₁.set false) c).bind fun s₂ h₂ => ?_
    exact (putcharI_continues h₂ 0).bind fun s₃ h₃ => .value (h₃.set true)

theorem newline_continues (h : st.lexer.Inv) : Continues st.lexer (st.newline env) := by
  unfold MemState.newline
  split
  · exact .stopped ⟨_, _, rfl⟩
  · have hcounted : st.lexer.After { st.lexer with lineNum := st.lexer.lineNum + 1 } :=
      ⟨h.set _ _ _, .refl _, .refl _⟩
    refine (putcharI_continues hcounted 0).bind fun s₁ h₁ => ?_
    have hflushed := h₁.set false
    simp only
    split
    · exact .value hflushed
    · split
      · exact (putcharI_continues hflushed _).bind fun s₂ h₂ => putcharI_continues h₂ 0
      · exact delimiter_continues hflushed

/-- A state of `lexer_putchar` after another. -/
def MemState.After (st st' : MemState) : Prop := st.lexer.After st'.lexer

theorem switch_continues (env : Surroundings) (c : UInt8) (h : st.lexer.Inv) :
    Allows Fault.IsSyntaxError st.After (st.switch env c) := by
  have hself : st.lexer.After st.lexer := ⟨h, .refl _⟩
  unfold MemState.switch
  split
  · exact (putcharI_continues hself 0).bind fun s hs => .value hs
  split
  · exact (redirect_continues h).bind fun s hs => .value hs
  split
  · exact (newline_continues h).bind fun s hs => .value hs
  split
  · exact (delimiter_continues hself).bind fun s hs => .value hs
  split
  · split
    · exact .value (hself.set false)
    · exact .stopped ⟨_, _, rfl⟩
  split
  · exact (putcharI_continues hself c).bind fun s hs => .value hs
  · exact .stopped ⟨_, _, rfl⟩

theorem putchar_continues (h : st.lexer.Inv) (c : UInt8) :
    Allows Fault.IsSyntaxError st.After (st.putchar env c) := by
  unfold MemState.putchar
  split
  · exact .value ⟨h, .refl _⟩
  · have hinv : ({ st with consumeSwitch := false } : MemState).lexer.Inv := h
    exact (switch_continues env c hinv).bind fun st' hst' => .value hst'

/-! ## A run -/

theorem init_inv (env : Surroundings) : (MemState.init env).lexer.Inv where
  room := (by decide : 0 < initBufSize)
  tokensRoom := Nat.zero_le _
  tokensBlock := (by decide : 0 < initBufSize)
  index := Nat.le_refl 0
  word := fun _ _ hk => absurd hk (Nat.not_lt_zero _)
  nul := fun h0 => absurd h0 (Nat.lt_irrefl 0)
  texts := fun _ hi => absurd hi (Nat.not_lt_zero _)
  increasing := fun _ _ _ hj => absurd hj (Nat.not_lt_zero _)

theorem foldlM_continues (env : Surroundings) (h : st.lexer.Inv) (bytes : List UInt8) :
    Allows Fault.IsSyntaxError st.After (bytes.foldlM (MemState.putchar env) st) := by
  have hself : st.After st := ⟨h, .refl _⟩
  refine Allows.foldlM (fun st' c hst' => ?_) hself bytes
  exact (putchar_continues hst'.inv c).mono fun st'' hst'' => LexerMem.After.trans hst' hst''

/-- The offsets of the tokens increase, and each token has a text that is not empty and lies in the
filled part. -/
structure LexerMem.WellFormed (s : LexerMem) : Prop where
  increasing : ∀ i j, i < j → j < s.tokens.count →
    (s.tokens.cells i).offset < (s.tokens.cells j).offset
  texts : ∀ i, i < s.tokens.count → ∃ w, w ≠ [] ∧ s.HasText (s.tokens.cells i).offset w

/-- The tokens of `s` are the first ones of `s'`, with their types, offsets, lines and texts. -/
structure LexerMem.Keeps (s s' : LexerMem) : Prop where
  count : s.tokens.count ≤ s'.tokens.count
  tokens : ∀ i, i < s.tokens.count → s'.tokens.cells i = s.tokens.cells i
  texts : ∀ i, i < s.tokens.count → ∀ w, s.HasText (s.tokens.cells i).offset w →
    s'.HasText (s'.tokens.cells i).offset w

theorem LexerMem.Extends.keeps (h : s.Extends s') : s.Keeps s' where
  count := h.tokens.count
  tokens := h.tokens.cells
  texts := by
    intro i hi w htext
    rw [h.tokens.cells i hi]
    exact htext.mono h.lexerbuf

/-- A run that does not take the error exit stores only inside the blocks, and what it has stored as a
token stays. -/
theorem lexer_buffers_grow (env : Surroundings) (bytes : List UInt8)
    (hexit : ∀ line message, MemState.putchars env bytes ≠ .error (.syntaxError line message)) :
    ∃ st, MemState.putchars env bytes = .ok st ∧ st.lexer.WellFormed ∧
      ∀ front back, bytes = front ++ back →
        ∃ st₁, MemState.putchars env front = .ok st₁ ∧ st₁.lexer.Keeps st.lexer := by
  have hall := foldlM_continues env (init_inv env) bytes
  obtain ⟨st, hrun, hst⟩ := hall.succeeds fun fault hfault heq => by
    obtain ⟨line, message, rfl⟩ := hfault
    exact hexit line message heq
  refine ⟨st, hrun, ⟨hst.inv.increasing, fun i hi => ?_⟩, fun front back hsplit => ?_⟩
  · obtain ⟨w, hne, htext, -⟩ := hst.inv.texts i hi
    exact ⟨w, hne, htext⟩
  · rw [hsplit, List.foldlM_append] at hrun
    obtain ⟨st₁, hfront, hback⟩ := bind_eq_ok.mp hrun
    have hinv : st₁.lexer.Inv := by
      have hfirst := foldlM_continues env (init_inv env) front
      rw [hfront] at hfirst
      exact hfirst.ok.inv
    have hrest := foldlM_continues env hinv back
    rw [hback] at hrest
    exact ⟨st₁, hfront, hrest.ok.extends_.keeps⟩

/-- Blocks full of the byte 7, and a word in front of the token array. -/
def sampleSurroundings : Surroundings where
  freshBytes _ _ := 7
  freshTokens _ _ := ⟨.tokCol, 7, 7⟩
  beforeTokens _ := ⟨.tokWord, 0, 0⟩

/-- A newline behind a blank, where the lexer reads in front of the token array, and a command. -/
def blankLine : List UInt8 := [chr ' ', chr '\n', chr 'a', chr '|', chr 'b', 0]

theorem blankLine_accepted : (MemState.putchars sampleSurroundings blankLine).isOk = true := by
  rfl

theorem lexer_buffers_grow_blankLine :
    ∃ st, MemState.putchars sampleSurroundings blankLine = .ok st ∧ st.lexer.WellFormed ∧
      ∀ front back, blankLine = front ++ back →
        ∃ st₁, MemState.putchars sampleSurroundings front = .ok st₁ ∧ st₁.lexer.Keeps st.lexer :=
  lexer_buffers_grow sampleSurroundings blankLine fun line message heq => by
    have hok := blankLine_accepted
    rw [heq] at hok
    cases hok

end CS111.Shell
