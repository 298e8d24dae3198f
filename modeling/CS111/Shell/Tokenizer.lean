import CS111.Shell.Token

/-!
# The lexer

`tokenizer.c`. The filled part of `lexerbuf` is a list, so that `buf_index` is its length; the
capacities of the two buffers are kept beside it, and a store checks them.
-/

namespace CS111.Shell

set_option autoImplicit false

def chr (c : Char) : UInt8 := UInt8.ofNat c.toNat

def tokAssociations : List (TokenType × Word) :=
  [(.tokIf, [chr 'i', chr 'f']),
    (.tokThen, [chr 't', chr 'h', chr 'e', chr 'n']),
    (.tokFi, [chr 'f', chr 'i']),
    (.tokElse, [chr 'e', chr 'l', chr 's', chr 'e']),
    (.tokWhile, [chr 'w', chr 'h', chr 'i', chr 'l', chr 'e']),
    (.tokUntil, [chr 'u', chr 'n', chr 't', chr 'i', chr 'l']),
    (.tokDo, [chr 'd', chr 'o']),
    (.tokDone, [chr 'd', chr 'o', chr 'n', chr 'e']),
    (.tokSc, [chr ';']),
    (.tokPipe, [chr '|']),
    (.tokLparen, [chr '(']),
    (.tokRparen, [chr ')']),
    (.tokLab, [chr '<']),
    (.tokRab, [chr '>']),
    (.tokNl, [chr '\n'])]

/-- The variables at file level and those of `lexer_putchar_i`. -/
structure Lexer where
  lexerbuf : List UInt8
  bufSize : Nat
  tokens : List Token
  tokensCount : Nat
  lastTokenIndex : Nat
  lineNum : Nat
  isCommand : Int
  simpleCommand : Bool
  deriving Repr, DecidableEq

/-- With the variables of `lexer_putchar`. -/
structure LexerState where
  lexer : Lexer
  consumeSwitch : Bool
  lastC : UInt8
  lastSpecial : UInt8
  deriving Repr, DecidableEq

def initBufSize : Nat := 64

def lexerInit : LexerState :=
  ⟨⟨[], initBufSize, [], initBufSize, 0, 1, 0, false⟩, false, 0, 0⟩

def Lexer.tokenList (s : Lexer) : TokenList := ⟨s.lexerbuf, s.tokens⟩

def isReserved : TokenType → Bool
  | .tokWhile | .tokUntil | .tokIf | .tokLparen | .tokThen | .tokDo | .tokNl => true
  | _ => false

/-- How a new token changes `is_command`. -/
def commandChange : TokenType → Int
  | .tokIf | .tokWhile | .tokUntil | .tokLparen => 1
  | .tokFi | .tokDone | .tokRparen => -1
  | _ => 0

/-- The type of the token at `offset`, and the changed `is_command` and `simple_command`. -/
def lexerAssignType (s : Lexer) (offset : Nat) : TokenType × Lexer :=
  if s.simpleCommand then (.tokWord, s)
  else
    match tokAssociations.find? fun assoc => assoc.2 = cstring s.lexerbuf offset with
    | some (type, _) => (type, { s with isCommand := s.isCommand + commandChange type })
    | none => (.tokWord, { s with simpleCommand := true })

/-- `lexerbuf[buf_index++] = c`, then the reallocation at the end of `lexer_putchar_i`. -/
def Lexer.store (s : Lexer) (c : UInt8) : Except Fault Lexer :=
  if s.bufSize ≤ s.lexerbuf.length then .error (.overrun s.lexerbuf.length)
  else
    .ok { s with
      lexerbuf := s.lexerbuf ++ [c]
      bufSize := if s.lexerbuf.length + 1 = s.bufSize then s.bufSize * 2 else s.bufSize }

/-- The token that ends at the NUL just stored. -/
def Lexer.addToken (s : Lexer) : Except Fault Lexer :=
  let tokensCount := if s.tokens.length = s.tokensCount then s.tokensCount * 2 else s.tokensCount
  if tokensCount ≤ s.tokens.length then .error (.overrun s.tokens.length)
  else
    let (type, s) := lexerAssignType s s.lastTokenIndex
    .ok { s with
      tokens := s.tokens ++ [⟨type, s.lastTokenIndex, s.lineNum⟩]
      tokensCount := tokensCount
      lastTokenIndex := s.lexerbuf.length }

def lexerPutcharI (s : Lexer) (c : UInt8) : Except Fault Lexer :=
  if c = 0 then
    if s.lexerbuf = [] ∨ s.lexerbuf.getLast? = some 0 then .ok s
    else do
      let s ← s.store 0
      s.addToken
  else s.store c

/-- The NUL at the end of `s` is found as well. -/
def strchr (s : List UInt8) (c : UInt8) : Bool := c = 0 ∨ c ∈ s

def isalnum (c : UInt8) : Bool :=
  (48 ≤ c ∧ c ≤ 57) ∨ (65 ≤ c ∧ c ≤ 90) ∨ (97 ≤ c ∧ c ≤ 122)

/-- The characters of words, in "!%+,-./:@^_". -/
def wordPunctuation : List UInt8 :=
  [chr '!', chr '%', chr '+', chr ',', chr '-', chr '.', chr '/', chr ':', chr '@', chr '^',
    chr '_']

def Lexer.fail {α : Type} (s : Lexer) (before : String) (c : UInt8) (after : String) :
    Except Fault α :=
  .error (.syntaxError s.lineNum (before ++ String.singleton (Char.ofNat c.toNat) ++ after))

def lexerRedirect (st : LexerState) (c : UInt8) : Except Fault Lexer :=
  if strchr [chr '<', chr '>'] st.lastC then st.lexer.fail "Unexpected `" c "'"
  else do
    let s ← lexerPutcharI st.lexer 0
    let s ← lexerPutcharI { s with simpleCommand := false } c
    let s ← lexerPutcharI s 0
    .ok { s with simpleCommand := true }

/-- The code of `|`, `;`, `(` and `)`, which a newline may run into. -/
def lexerDelimiter (lastC : UInt8) (s : Lexer) (c : UInt8) : Except Fault Lexer :=
  if strchr [chr '<', chr '>'] lastC then s.fail "Unexpected `" c "'"
  else do
    let s ← lexerPutcharI s 0
    let s ← lexerPutcharI { s with simpleCommand := false } c
    lexerPutcharI s 0

def lexerNewline (st : LexerState) : Except Fault Lexer :=
  if strchr [chr '<', chr '>'] st.lastC ∧ st.lastC ≠ 0 then
    .error (.syntaxError st.lexer.lineNum "Unexpected newline")
  else do
    let s ← lexerPutcharI { st.lexer with lineNum := st.lexer.lineNum + 1 } 0
    let s := { s with simpleCommand := false }
    if strchr [chr '\n', chr '(', chr '|'] st.lastC then .ok s
    else
      let last ← readBefore s.tokenList s.tokens.length
      if isReserved last.type ∨ (st.lastSpecial = chr ';' ∧ s.isCommand ≠ 0) then .ok s
      else if 0 < s.isCommand ∧ ¬ isReserved last.type then do
        let s ← lexerPutcharI s (chr ';')
        lexerPutcharI s 0
      else lexerDelimiter st.lastC s (chr '\n')

/-- The `switch` of `lexer_putchar`. -/
def lexerSwitch (st : LexerState) (c : UInt8) : Except Fault LexerState := do
  if c = chr ' ' ∨ c = chr '\t' then
    let s ← lexerPutcharI st.lexer 0
    .ok { st with lexer := s }
  else if c = chr '>' ∨ c = chr '<' then
    let s ← lexerRedirect st c
    .ok { st with lexer := s }
  else if c = chr '\n' then
    let s ← lexerNewline st
    .ok { st with lexer := s }
  else if c = chr '|' ∨ c = chr ';' ∨ c = chr '(' ∨ c = chr ')' then
    let s ← lexerDelimiter st.lastC st.lexer c
    .ok { st with lexer := s }
  else if c = chr '#' then
    if strchr [chr ' ', chr '\t', chr '\n', chr ';', chr '|', chr '(', chr ')'] st.lastC then
      .ok { st with lexer := { st.lexer with simpleCommand := false }, consumeSwitch := true }
    else st.lexer.fail "Invalid character `" c "'"
  else if isalnum c ∨ strchr wordPunctuation c then
    let s ← lexerPutcharI st.lexer c
    .ok { st with lexer := s }
  else st.lexer.fail "`" c "' is not valid."

def lexerPutchar (st : LexerState) (c : UInt8) : Except Fault LexerState :=
  if st.consumeSwitch ∧ c ≠ chr '\n' then .ok st
  else do
    let st ← lexerSwitch { st with consumeSwitch := false } c
    .ok { st with
      lastSpecial := if strchr [chr ' ', chr '\t', chr '\n'] c then st.lastSpecial else c
      lastC := c }

end CS111.Shell
