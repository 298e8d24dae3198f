import CS111.Shell.LexerBuffers
import CS111.Shell.LexerReads
import CS111.Shell.ReadCommand
import Mathlib.Data.List.Find

/-!
# The lexer of lists is the one on the blocks

What the blocks hold up to the counts of the arrays are the lists of `Lexer`. The two go apart only
where the lexer reads in front of the token array.
-/

namespace CS111.Shell

set_option autoImplicit false

open Fallible Memory

variable {env : Surroundings} {s : Lexer} {m : LexerMem} {st : LexerState} {mt : MemState}
  {c lastC : UInt8} {w str : Word} {offset : Nat}

/-- The lists are what the blocks hold. -/
structure Lexer.Views (s : Lexer) (m : LexerMem) : Prop where
  inv : m.Inv
  lexerbuf : s.lexerbuf = m.lexerbuf.toList
  bufSize : s.bufSize = m.lexerbuf.capacity
  tokens : s.tokens = m.tokens.toList
  tokensCount : s.tokensCount = m.tokens.capacity
  lastTokenIndex : s.lastTokenIndex = m.lastTokenIndex
  lineNum : s.lineNum = m.lineNum
  isCommand : s.isCommand = m.isCommand
  simpleCommand : s.simpleCommand = m.simpleCommand

structure LexerState.Views (st : LexerState) (mt : MemState) : Prop where
  lexer : st.lexer.Views mt.lexer
  consumeSwitch : st.consumeSwitch = mt.consumeSwitch
  lastC : st.lastC = mt.lastC
  lastSpecial : st.lastSpecial = mt.lastSpecial

/-- A read outside of the token array. -/
def Fault.IsOutOfRange (fault : Fault) : Prop := ∃ index, fault = .outOfRange index

/-- The blocks do what the lists do, unless there is a read outside of the token array. -/
abbrev Refines (x : Except Fault Lexer) (x' : Except Fault LexerMem) : Prop :=
  Matches Fault.IsOutOfRange Lexer.Views x x'

theorem Lexer.Views.setSimple (h : s.Views m) (simple : Bool) :
    Lexer.Views { s with simpleCommand := simple } { m with simpleCommand := simple } :=
  { h with inv := h.inv.set _ _ _, simpleCommand := rfl }

theorem Lexer.Views.setLine (h : s.Views m) (lineNum : Nat) :
    Lexer.Views { s with lineNum := lineNum } { m with lineNum := lineNum } :=
  { h with inv := h.inv.set _ _ _, lineNum := rfl }

/-! ## The type of a token -/

theorem LexerMem.HasText.textAt (h : m.HasText offset w) : TextAt m.lexerbuf.toList offset w := by
  obtain ⟨k, hk⟩ := Nat.exists_eq_add_of_lt h.filled
  refine ⟨load m.lexerbuf.cells 0 offset, load m.lexerbuf.cells (offset + (w.length + 1)) k, ?_,
    load_length .., h.noNul⟩
  have hcount : m.lexerbuf.count = offset + (w.length + 1 + k) := by omega
  unfold Doubling.toList
  rw [hcount, load_add, load_split, h.bytes]
  simp

/-- The text at an offset is compared with one of those of `tok_associations`. -/
theorem isText_eq (hbytes : load m.lexerbuf.cells offset (w.length + 1) = w ++ [0]) (hw : 0 ∉ w)
    (hstr : 0 ∉ str) : m.isText offset str = decide (str = w) := by
  rw [LexerMem.isText, decide_eq_decide]
  constructor
  · exact fun h => load_until_unique h hbytes hstr hw
  · rintro rfl
    exact hbytes

theorem tokAssociations_noNul : ∀ assoc ∈ tokAssociations, 0 ∉ assoc.2 := by
  decide

theorem found_eq (hbytes : load m.lexerbuf.cells offset (w.length + 1) = w ++ [0]) (hw : 0 ∉ w) :
    m.found offset =
      if m.simpleCommand then none else tokAssociations.find? fun assoc => assoc.2 = w := by
  unfold LexerMem.found
  congr 1
  exact List.find?_congr fun assoc hassoc =>
    isText_eq hbytes hw (tokAssociations_noNul assoc hassoc)

theorem lexerAssignType_found {found : Option (TokenType × Word)}
    (h : (if s.simpleCommand then none
      else tokAssociations.find? fun assoc => assoc.2 = cstring s.lexerbuf offset) = found) :
    lexerAssignType s offset = (found.elim .tokWord Prod.fst,
      { s with
        isCommand := s.isCommand + commandChange (found.elim .tokWord Prod.fst)
        simpleCommand := s.simpleCommand || found.isNone }) := by
  subst h
  unfold lexerAssignType
  by_cases hsimple : s.simpleCommand = true
  · rw [if_pos hsimple, if_pos hsimple]
    simp [commandChange, ← hsimple]
  · rw [if_neg hsimple, if_neg hsimple]
    cases tokAssociations.find? fun assoc => assoc.2 = cstring s.lexerbuf offset with
    | none => simp [commandChange]
    | some assoc => simp

/-! ## One byte -/

theorem Lexer.Views.length (h : s.Views m) : s.lexerbuf.length = m.lexerbuf.count := by
  rw [h.lexerbuf, Doubling.toList_length]

theorem Lexer.Views.store (h : s.Views m) : s.store c = .ok { s with
    lexerbuf := s.lexerbuf ++ [c]
    bufSize := if m.lexerbuf.count + 1 = m.lexerbuf.capacity then m.lexerbuf.capacity * 2
      else m.lexerbuf.capacity } := by
  have hroom := h.inv.room
  unfold Lexer.store
  rw [h.length, h.bufSize, if_neg (Nat.not_le.mpr hroom)]

theorem putcharI_views (h : s.Views m) (hc : c ≠ 0) :
    Refines (lexerPutcharI s c) (m.putcharI env c) := by
  obtain ⟨hlist, hcapacity⟩ := Doubling.put_push_grow env.freshBytes h.inv.room c
  have hinv := (LexerMem.stored_after env h.inv hc).inv
  rw [LexerMem.putcharI_stored h.inv hc, lexerPutcharI, if_neg hc, h.store]
  refine .value { h with inv := hinv, lexerbuf := ?_, bufSize := hcapacity.symm }
  exact (congrArg (· ++ [c]) h.lexerbuf).trans hlist.symm

theorem atNul_iff (h : s.Views m) :
    m.AtNul ↔ s.lexerbuf = [] ∨ s.lexerbuf.getLast? = some 0 := by
  unfold LexerMem.AtNul
  rw [h.lexerbuf]
  rcases Nat.eq_zero_or_pos m.lexerbuf.count with hzero | hpos
  · have hnil : m.lexerbuf.toList = [] := List.length_eq_zero_iff.mp (by simpa using hzero)
    simp [hzero, hnil]
  · have hne : m.lexerbuf.count ≠ 0 := Nat.pos_iff_ne_zero.mp hpos
    rw [Doubling.toList_succ hpos]
    simp [hne, Nat.succ_le_of_lt hpos]

/-- The word that a NUL ends. -/
theorem ended_word (env : Surroundings) (h : m.Inv) (hword : ¬ m.AtNul) :
    ∃ w, TextAt (m.lexerbuf.toList ++ [0]) m.lastTokenIndex w ∧
      load (m.nulStored env).lexerbuf.cells m.lastTokenIndex (w.length + 1) = w ++ [0] := by
  have hinv := (LexerMem.ended_after env h hword).inv
  obtain ⟨-, hcount, -, htoken⟩ := LexerMem.ended_tokens env h
  obtain ⟨w, -, htext, -⟩ := hinv.texts m.tokens.count (by rw [hcount]; exact Nat.lt_succ_self _)
  rw [htoken] at htext
  obtain ⟨hlist, -⟩ := Doubling.put_push_grow env.freshBytes h.room 0
  have hext : (m.nulStored env).lexerbuf.push.Extends (m.ended env).lexerbuf :=
    Doubling.grow_extends (Nat.succ_le_of_lt h.room)
  have hfilled : (m.ended env).lexerbuf.count = (m.nulStored env).lexerbuf.push.count :=
    Doubling.grow_count
  have htextAt := htext.textAt
  change TextAt (m.ended env).lexerbuf.toList _ _ at htextAt
  refine ⟨w, ?_, ?_⟩
  · rw [← hlist]
    exact htextAt
  · have hlt := htext.filled
    simp only at hlt
    rw [← htext.bytes]
    exact load_congr fun k hk => (hext.cells _ (by omega)).symm

theorem ended_command (env : Surroundings) (m : LexerMem) :
    (m.ended env).isCommand =
        m.isCommand + commandChange ((m.nulStored env).typeAt m.lastTokenIndex) ∧
      (m.ended env).simpleCommand =
        (m.simpleCommand || ((m.nulStored env).found m.lastTokenIndex).isNone) := by
  obtain ⟨m₁, hm₁⟩ : ∃ m₁,
      ((m.nulStored env).mark fun tok => { tok with offset := m.lastTokenIndex }) = m₁ := ⟨_, rfl⟩
  have hoffset : m₁.behind.offset = m.lastTokenIndex := by rw [← hm₁, LexerMem.mark_behind]
  have hfound : m₁.found = (m.nulStored env).found := by
    rw [← hm₁]
    rfl
  have hcommand : m₁.isCommand = m.isCommand ∧ m₁.simpleCommand = m.simpleCommand := by
    rw [← hm₁]
    exact ⟨rfl, rfl⟩
  change (LexerMem.assigned (LexerMem.mark _ _)).isCommand = _ ∧
    (LexerMem.assigned (LexerMem.mark _ _)).simpleCommand = _
  rw [hm₁, LexerMem.assigned, LexerMem.typeAt, LexerMem.typeAt, hoffset, hfound, hcommand.1,
    hcommand.2]
  exact ⟨rfl, rfl⟩

theorem ended_views (h : s.Views m) (hword : ¬ m.AtNul) :
    Refines (s.store 0 >>= Lexer.addToken) (.ok (m.ended env)) := by
  obtain ⟨w, htext, hbytes⟩ := ended_word env h.inv hword
  obtain ⟨hlist, hcapacity⟩ := Doubling.put_push_grow env.freshBytes h.inv.room 0
  obtain ⟨-, -, htokensCapacity, -⟩ := LexerMem.ended_tokens env h.inv
  obtain ⟨hcommand, hsimple⟩ := ended_command env m
  obtain ⟨s₁, hs₁⟩ : ∃ s₁, { s with
      lexerbuf := s.lexerbuf ++ [0]
      bufSize := if m.lexerbuf.count + 1 = m.lexerbuf.capacity then m.lexerbuf.capacity * 2
        else m.lexerbuf.capacity } = s₁ := ⟨_, rfl⟩
  have hfound : (if s₁.simpleCommand then none
      else tokAssociations.find? fun assoc => assoc.2 = cstring s₁.lexerbuf s₁.lastTokenIndex) =
        (m.nulStored env).found m.lastTokenIndex := by
    have hcstring : cstring s₁.lexerbuf s₁.lastTokenIndex = w := by
      rw [← hs₁]
      simp only
      rw [h.lexerbuf, h.lastTokenIndex]
      exact htext.cstring_eq
    have hsame : s₁.simpleCommand = (m.nulStored env).simpleCommand := by
      rw [← hs₁]
      exact h.simpleCommand
    obtain ⟨-, -, -, -, hnoNul⟩ := htext
    rw [hcstring, hsame, found_eq hbytes hnoNul]
  have hlength : s₁.tokens.length = m.tokens.count := by
    rw [← hs₁]
    exact (congrArg List.length h.tokens).trans (Doubling.toList_length _)
  have hcap : s₁.tokensCount = m.tokens.capacity := by
    rw [← hs₁]
    exact h.tokensCount
  have hroom := h.inv.roomForToken env
  rw [Doubling.grow_capacity] at hroom htokensCapacity
  have hadd : s₁.addToken = .ok { s₁ with
      tokens := s₁.tokens ++
        [⟨(m.nulStored env).typeAt m.lastTokenIndex, s₁.lastTokenIndex, s₁.lineNum⟩]
      tokensCount := (m.ended env).tokens.capacity
      lastTokenIndex := s₁.lexerbuf.length
      isCommand := s₁.isCommand + commandChange ((m.nulStored env).typeAt m.lastTokenIndex)
      simpleCommand := s₁.simpleCommand || ((m.nulStored env).found m.lastTokenIndex).isNone } := by
    unfold Lexer.addToken
    simp only [hlength, hcap, lexerAssignType_found hfound]
    rw [if_neg (Nat.not_le.mpr hroom), htokensCapacity]
    rfl
  rw [h.store, hs₁]
  change Refines s₁.addToken _
  rw [hadd]
  have htokens : (m.ended env).tokens.toList = m.tokens.toList ++
      [⟨(m.nulStored env).typeAt m.lastTokenIndex, m.lastTokenIndex, m.lineNum⟩] := by
    rw [LexerMem.ended_tokens_eq]
    refine (Doubling.put_push_toList _ _).trans (congrArg (· ++ _) ?_)
    exact Doubling.grow_toList h.inv.tokensRoom
  subst hs₁
  refine .value ⟨(LexerMem.ended_after env h.inv hword).inv, ?_, hcapacity.symm, ?_, rfl, ?_,
    h.lineNum, ?_, ?_⟩
  · exact (congrArg (· ++ [0]) h.lexerbuf).trans hlist.symm
  · rw [htokens, ← h.tokens, ← h.lastTokenIndex, ← h.lineNum]
  · change (s.lexerbuf ++ [0]).length = m.lexerbuf.count + 1
    rw [List.length_append, h.length, List.length_singleton]
  · rw [hcommand, ← h.isCommand]
  · rw [hsimple, ← h.simpleCommand]

theorem putcharI_refines (env : Surroundings) (h : s.Views m) (c : UInt8) :
    Refines (lexerPutcharI s c) (m.putcharI env c) := by
  by_cases hc : c = 0
  · subst hc
    by_cases hnul : m.AtNul
    · rw [lexerPutcharI, if_pos rfl, if_pos ((atNul_iff h).mp hnul), LexerMem.putcharI_nul hnul]
      exact .value h
    · rw [lexerPutcharI, if_pos rfl, if_neg fun hlist => hnul ((atNul_iff h).mpr hlist),
        LexerMem.putcharI_ended h.inv hnul]
      exact ended_views h hnul
  · exact putcharI_views h hc

/-! ## A call -/

theorem fail_refines {α β : Type} {V : α → β → Prop} {before after : String} (h : s.Views m) :
    Matches Fault.IsOutOfRange V (s.fail before c after) (m.fail before c after) := by
  unfold Lexer.fail LexerMem.fail
  rw [h.lineNum]
  exact .same

theorem delimiter_refines (env : Surroundings) (h : s.Views m) (lastC c : UInt8) :
    Refines (lexerDelimiter lastC s c) (MemState.delimiter env lastC m c) := by
  unfold lexerDelimiter MemState.delimiter
  split
  · exact fail_refines h
  · refine (putcharI_refines env h 0).bind fun s₁ m₁ h₁ => ?_
    refine (putcharI_refines env (h₁.setSimple false) c).bind fun s₂ m₂ h₂ => ?_
    exact putcharI_refines env h₂ 0

theorem redirect_refines (env : Surroundings) (h : st.Views mt) (c : UInt8) :
    Refines (lexerRedirect st c) (mt.redirect env c) := by
  unfold lexerRedirect MemState.redirect
  rw [h.lastC]
  split
  · exact fail_refines h.lexer
  · refine (putcharI_refines env h.lexer 0).bind fun s₁ m₁ h₁ => ?_
    refine (putcharI_refines env (h₁.setSimple false) c).bind fun s₂ m₂ h₂ => ?_
    exact (putcharI_refines env h₂ 0).bind fun s₃ m₃ h₃ => .value (h₃.setSimple true)

/-- The token in front, which is read in the array or not at all. -/
theorem readBefore_refines (env : Surroundings) (h : s.Views m) :
    Matches Fault.IsOutOfRange Eq (readBefore s.tokenList s.tokens.length)
      (.ok (m.lastToken env)) := by
  have hlength : s.tokens.length = m.tokens.count := by rw [h.tokens, Doubling.toList_length]
  unfold LexerMem.lastToken
  rw [hlength]
  rcases Nat.eq_zero_or_pos m.tokens.count with hzero | hpos
  · rw [hzero]
    exact .stopped ⟨-1, rfl⟩
  · have hlast : s.tokenList.tokens[m.tokens.count - 1]? =
        some (m.tokens.cells (m.tokens.count - 1)) := by
      change s.tokens[_]? = _
      rw [h.tokens, Doubling.toList_succ hpos, List.getElem?_append_right (by simp)]
      simp
    obtain ⟨n, hn⟩ := Nat.exists_eq_add_of_lt hpos
    rw [Nat.zero_add] at hn
    rw [hn, Nat.add_sub_cancel] at hlast
    rw [hn, if_neg (Nat.succ_ne_zero n), Nat.add_sub_cancel, readBefore, readToken, hlast]
    exact .value rfl

theorem newline_refines (env : Surroundings) (h : st.Views mt) :
    Refines (lexerNewline st) (mt.newline env) := by
  unfold lexerNewline MemState.newline
  rw [h.lastC, h.lastSpecial, h.lexer.lineNum]
  split
  · exact .same
  · refine (putcharI_refines env (h.lexer.setLine _) 0).bind fun s₁ m₁ h₁ => ?_
    have hflushed := h₁.setSimple false
    simp only
    by_cases hopen : strchr [chr '\n', chr '(', chr '|'] mt.lastC = true
    · rw [if_pos hopen, if_pos (.inl hopen)]
      exact .value hflushed
    · have hread := readBefore_refines env hflushed
      have hcommand : s₁.isCommand = m₁.isCommand := h₁.isCommand
      rw [if_neg hopen]
      generalize readBefore _ _ = x at hread ⊢
      generalize LexerMem.lastToken env _ = last at hread ⊢
      cases hread with
      | stopped hfault => exact .stopped hfault
      | value heq =>
        subst heq
        change Refines (if _ then _ else _) _
        simp only [or_iff_right hopen, hcommand]
        rw [hcommand] at hflushed
        split
        · exact .value hflushed
        split
        · exact (putcharI_refines env hflushed _).bind fun s₂ m₂ h₂ => putcharI_refines env h₂ 0
        · exact delimiter_refines env hflushed _ _

/-- The states of `lexer_putchar` correspond, unless there is a read outside of the token array. -/
abbrev RefinesState (x : Except Fault LexerState) (x' : Except Fault MemState) : Prop :=
  Matches Fault.IsOutOfRange LexerState.Views x x'

theorem switch_refines (env : Surroundings) (h : st.Views mt) (c : UInt8) :
    RefinesState (lexerSwitch st c) (mt.switch env c) := by
  have hput : ∀ {s : Lexer} {m : LexerMem}, s.Views m →
      LexerState.Views { st with lexer := s } { mt with lexer := m } :=
    fun hlexer => { h with lexer := hlexer }
  unfold lexerSwitch MemState.switch
  split
  · exact (putcharI_refines env h.lexer 0).bind fun s m hs => .value (hput hs)
  split
  · exact (redirect_refines env h c).bind fun s m hs => .value (hput hs)
  split
  · exact (newline_refines env h).bind fun s m hs => .value (hput hs)
  split
  · rw [h.lastC]
    refine (delimiter_refines env h.lexer mt.lastC c).bind fun s m hs => ?_
    exact .value { hput hs with lastC := rfl }
  split
  · rw [h.lastC]
    split
    · exact .value { h with lexer := h.lexer.setSimple false, consumeSwitch := rfl, lastC := rfl }
    · exact fail_refines h.lexer
  split
  · exact (putcharI_refines env h.lexer c).bind fun s m hs => .value (hput hs)
  · exact fail_refines h.lexer

theorem putchar_refines (env : Surroundings) (h : st.Views mt) (c : UInt8) :
    RefinesState (lexerPutchar st c) (mt.putchar env c) := by
  unfold lexerPutchar MemState.putchar
  rw [h.consumeSwitch]
  split
  · exact .value h
  · have hopen : LexerState.Views { st with consumeSwitch := false }
        { mt with consumeSwitch := false } := { h with consumeSwitch := rfl }
    refine (switch_refines env hopen c).bind fun st₁ mt₁ h₁ => ?_
    rw [h₁.lastSpecial]
    exact .value { h₁ with lastC := rfl, lastSpecial := rfl }

/-! ## A run -/

theorem init_views (env : Surroundings) : lexerInit.Views (MemState.init env) where
  lexer :=
    { inv := init_inv env, lexerbuf := rfl, bufSize := rfl, tokens := rfl, tokensCount := rfl
      lastTokenIndex := rfl, lineNum := rfl, isCommand := rfl, simpleCommand := rfl }
  consumeSwitch := rfl
  lastC := rfl
  lastSpecial := rfl

theorem putchars_refines (env : Surroundings) (bytes : List UInt8) :
    RefinesState (bytes.foldlM lexerPutchar lexerInit) (MemState.putchars env bytes) :=
  Matches.foldlM (fun _ _ c h => putchar_refines env h c) (init_views env) bytes

/-- What the lexer has in its blocks behind a script. -/
def LexerMem.tokenList (m : LexerMem) : TokenList := ⟨m.lexerbuf.toList, m.tokens.toList⟩

/-- The bytes that `read_command_stream` gives to `lexer_putchar`. -/
def lexedBytes (script : List UInt8) : List UInt8 := script.takeWhile (· ≠ 255) ++ [0]

theorem Lexer.Views.tokenList (h : s.Views m) : s.tokenList = m.tokenList := by
  rw [Lexer.tokenList, h.lexerbuf, h.tokens]
  rfl

/-- The tokens of a script, or its syntax error, are those of the blocks, whatever lies around them. -/
theorem lexScript_refines (env : Surroundings) (script : List UInt8) :
    Matches Fault.IsOutOfRange (fun tl mt => tl = mt.lexer.tokenList) (lexScript script)
      (MemState.putchars env (lexedBytes script)) := by
  have hlast : MemState.putchars env (lexedBytes script) =
      MemState.putchars env (script.takeWhile (· ≠ 255)) >>= fun mt =>
        mt.putchar env 0 >>= fun mt => .ok mt := by
    unfold MemState.putchars lexedBytes
    rw [List.foldlM_append]
    rfl
  rw [hlast]
  refine (putchars_refines env _).bind fun st mt h => ?_
  exact (putchar_refines env h 0).bind fun st mt h => .value h.lexer.tokenList

/-- The capacities that are kept beside the lists are never exceeded. -/
theorem lexScript_no_overrun (script : List UInt8) (index : Nat) :
    lexScript script ≠ .error (.overrun index) := by
  intro hoverrun
  have hmatch := lexScript_refines sampleSurroundings script
  rw [hoverrun] at hmatch
  have hrun := foldlM_continues sampleSurroundings (init_inv sampleSurroundings) (lexedBytes script)
  change Allows _ _ (MemState.putchars _ _) at hrun
  generalize MemState.putchars sampleSurroundings (lexedBytes script) = x at hmatch hrun
  cases hmatch with
  | stopped hfault =>
    obtain ⟨_, heq⟩ := hfault
    cases heq
  | same =>
    cases hrun with
    | stopped hfault =>
      obtain ⟨_, _, heq⟩ := hfault
      cases heq

end CS111.Shell
