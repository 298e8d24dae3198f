import CS111.Lib.Doubling
import CS111.Lib.Fallible
import CS111.Lib.Memory
import CS111.Shell.Tokenizer

/-!
# The lexer and its blocks of memory

`tokenizer.c` once more, with the blocks that `lexerbuf` and `lexertokens.tokens` point to. The
allocations succeed. Before the first token the lexer reads in front of the token array, and goes on
with what it finds there.
-/

namespace CS111.Shell

set_option autoImplicit false

open Memory

/-- The variables at file level and those of `lexer_putchar_i`; `buf_index` and `num_tokens` are the
counts of the arrays, `buf_size` and `tokens_count` their capacities. -/
structure LexerMem where
  lexerbuf : Doubling UInt8
  tokens : Doubling Token
  lastTokenIndex : Nat
  lineNum : Nat
  isCommand : Int
  simpleCommand : Bool

/-- With the variables of `lexer_putchar`. -/
structure MemState where
  lexer : LexerMem
  consumeSwitch : Bool
  lastC : UInt8
  lastSpecial : UInt8

/-- What lies in memory that the lexer has not stored: in new blocks of a size, and in front of the token
array when it is read there. -/
structure Surroundings where
  freshBytes : Nat → Nat → UInt8
  freshTokens : Nat → Nat → Token
  beforeTokens : LexerMem → Token

def storedAt {α : Type} (index : Nat) : Option α → Except Fault α
  | some a => .ok a
  | none => .error (.overrun index)

namespace LexerMem
variable (s : LexerMem)

/-- `lexerbuf[buf_index] = c`. -/
def putByte (c : UInt8) : Except Fault LexerMem := do
  let buf ← storedAt s.lexerbuf.count (s.lexerbuf.put c)
  .ok { s with lexerbuf := buf }

/-- A store into `lexertokens.tokens[num_tokens]`. -/
def setToken (f : Token → Token) : Except Fault LexerMem := do
  let tokens ← storedAt s.tokens.count (s.tokens.put (f (s.tokens.cells s.tokens.count)))
  .ok { s with tokens := tokens }

/-- `strcmp(str, lexerbuf + offset) == 0`. -/
def isText (offset : Nat) (str : Word) : Bool :=
  load s.lexerbuf.cells offset (str.length + 1) = str ++ [0]

/-- `lexer_assign_type` of the token behind the array. -/
def assignType : Except Fault LexerMem := do
  let s ← s.setToken fun tok => { tok with type := .tokWord }
  if s.simpleCommand then .ok s
  else
    let offset := (s.tokens.cells s.tokens.count).offset
    match tokAssociations.find? fun assoc => s.isText offset assoc.2 with
    | some (type, _) =>
      let s ← s.setToken fun tok => { tok with type := type }
      .ok { s with isCommand := s.isCommand + commandChange type }
    | none => .ok { s with simpleCommand := true }

end LexerMem

section Functions
variable (env : Surroundings)

/-- `buf_index++` and the reallocation at the end of `lexer_putchar_i`. -/
def LexerMem.advance (s : LexerMem) : LexerMem :=
  { s with lexerbuf := s.lexerbuf.push.grow env.freshBytes }

def LexerMem.putcharI (s : LexerMem) (c : UInt8) : Except Fault LexerMem := do
  if c = 0 then
    if (1 ≤ s.lexerbuf.count ∧ s.lexerbuf.cells (s.lexerbuf.count - 1) = 0) ∨
        s.lexerbuf.count = 0 then
      .ok s
    else
      let s := { s with tokens := s.tokens.grow env.freshTokens }
      let s ← s.putByte 0
      let s ← s.setToken fun tok => { tok with offset := s.lastTokenIndex }
      let s ← s.assignType
      let s ← s.setToken fun tok => { tok with lineNum := s.lineNum }
      let s := { s with tokens := s.tokens.push, lastTokenIndex := s.lexerbuf.count + 1 }
      .ok (s.advance env)
  else
    let s ← s.putByte c
    .ok (s.advance env)

def LexerMem.fail {α : Type} (s : LexerMem) (before : String) (c : UInt8) (after : String) :
    Except Fault α :=
  .error (.syntaxError s.lineNum (before ++ String.singleton (Char.ofNat c.toNat) ++ after))

/-- `lexertokens.tokens[lexertokens.num_tokens - 1]`. -/
def LexerMem.lastToken (s : LexerMem) : Token :=
  if s.tokens.count = 0 then env.beforeTokens s else s.tokens.cells (s.tokens.count - 1)

namespace MemState

def redirect (st : MemState) (c : UInt8) : Except Fault LexerMem :=
  if strchr [chr '<', chr '>'] st.lastC then st.lexer.fail "Unexpected `" c "'"
  else do
    let s ← st.lexer.putcharI env 0
    let s ← { s with simpleCommand := false }.putcharI env c
    let s ← s.putcharI env 0
    .ok { s with simpleCommand := true }

/-- The code of `|`, `;`, `(` and `)`, which a newline may run into. -/
def delimiter (lastC : UInt8) (s : LexerMem) (c : UInt8) : Except Fault LexerMem :=
  if strchr [chr '<', chr '>'] lastC then s.fail "Unexpected `" c "'"
  else do
    let s ← s.putcharI env 0
    let s ← { s with simpleCommand := false }.putcharI env c
    s.putcharI env 0

def newline (st : MemState) : Except Fault LexerMem :=
  if strchr [chr '<', chr '>'] st.lastC ∧ st.lastC ≠ 0 then
    .error (.syntaxError st.lexer.lineNum "Unexpected newline")
  else do
    let s ← { st.lexer with lineNum := st.lexer.lineNum + 1 }.putcharI env 0
    let s := { s with simpleCommand := false }
    if strchr [chr '\n', chr '(', chr '|'] st.lastC ∨ isReserved (s.lastToken env).type ∨
        (st.lastSpecial = chr ';' ∧ s.isCommand ≠ 0) then
      .ok s
    else if 0 < s.isCommand ∧ ¬ isReserved (s.lastToken env).type then do
      let s ← s.putcharI env (chr ';')
      s.putcharI env 0
    else delimiter env st.lastC s (chr '\n')

/-- The `switch` of `lexer_putchar`. -/
def switch (st : MemState) (c : UInt8) : Except Fault MemState := do
  if c = chr ' ' ∨ c = chr '\t' then
    let s ← st.lexer.putcharI env 0
    .ok { st with lexer := s }
  else if c = chr '>' ∨ c = chr '<' then
    let s ← st.redirect env c
    .ok { st with lexer := s }
  else if c = chr '\n' then
    let s ← st.newline env
    .ok { st with lexer := s }
  else if c = chr '|' ∨ c = chr ';' ∨ c = chr '(' ∨ c = chr ')' then
    let s ← delimiter env st.lastC st.lexer c
    .ok { st with lexer := s }
  else if c = chr '#' then
    if strchr [chr ' ', chr '\t', chr '\n', chr ';', chr '|', chr '(', chr ')'] st.lastC then
      .ok { st with lexer := { st.lexer with simpleCommand := false }, consumeSwitch := true }
    else st.lexer.fail "Invalid character `" c "'"
  else if isalnum c ∨ strchr wordPunctuation c then
    let s ← st.lexer.putcharI env c
    .ok { st with lexer := s }
  else st.lexer.fail "`" c "' is not valid."

def putchar (st : MemState) (c : UInt8) : Except Fault MemState :=
  if st.consumeSwitch ∧ c ≠ chr '\n' then .ok st
  else do
    let st ← { st with consumeSwitch := false }.switch env c
    .ok { st with
      lastSpecial := if strchr [chr ' ', chr '\t', chr '\n'] c then st.lastSpecial else c
      lastC := c }

/-- `lexer_init`, with the variables as the program starts with them. -/
def init : MemState where
  lexer :=
    { lexerbuf := ⟨env.freshBytes initBufSize, 0, initBufSize⟩
      tokens := ⟨env.freshTokens initBufSize, 0, initBufSize⟩
      lastTokenIndex := 0
      lineNum := 1
      isCommand := 0
      simpleCommand := false }
  consumeSwitch := false
  lastC := 0
  lastSpecial := 0

/-- The bytes are given to `lexer_putchar` one after the other. -/
def putchars (bytes : List UInt8) : Except Fault MemState := bytes.foldlM (putchar env) (init env)

end MemState

end Functions

end CS111.Shell
