import Mathlib.Data.List.Basic

/-!
# Tokens

The declarations of `tokenizer.h`. A token is named by its offset in the token buffer, where its
text ends at the next NUL.
-/

namespace CS111.Shell

set_option autoImplicit false

abbrev Word := List UInt8

inductive TokenType where
  | tokIf | tokThen | tokFi | tokElse | tokWhile | tokUntil
  | tokDo | tokDone | tokWord | tokSc | tokPipe | tokLparen
  | tokRparen | tokLab | tokRab | tokNl | tokCol
  deriving Repr, DecidableEq

structure Token where
  type : TokenType
  offset : Nat
  lineNum : Nat
  deriving Repr, DecidableEq

structure TokenList where
  tokenBuffer : List UInt8
  tokens : List Token
  deriving Repr, DecidableEq

def TokenList.numTokens (tl : TokenList) : Nat := tl.tokens.length

/-- The C string at an offset. -/
def cstring (buffer : List UInt8) (offset : Nat) : Word :=
  (buffer.drop offset).takeWhile (· ≠ 0)

/-- What ends a call early. `syntaxError` is the exit through `error`, which prints the line, the
text ": Syntax error: " and the message; `outOfRange` is a read outside of the token array and
`overrun` a store behind the end of a lexer buffer. -/
inductive Fault where
  | syntaxError (line : Nat) (message : String)
  | outOfRange (index : Int)
  | overrun (index : Nat)
  | outOfFuel
  deriving Repr, DecidableEq

def TokenList.text (tl : TokenList) (tok : Token) : Word := cstring tl.tokenBuffer tok.offset

def readToken (tl : TokenList) (i : Nat) : Except Fault Token :=
  match tl.tokens[i]? with
  | some tok => .ok tok
  | none => .error (.outOfRange i)

/-- Reads the token at `i - 1`. -/
def readBefore (tl : TokenList) : Nat → Except Fault Token
  | 0 => .error (.outOfRange (-1))
  | i + 1 => readToken tl i

def failAt {α : Type} (tl : TokenList) (i : Nat) (message : String) : Except Fault α := do
  let tok ← readToken tl i
  .error (.syntaxError tok.lineNum message)

end CS111.Shell
