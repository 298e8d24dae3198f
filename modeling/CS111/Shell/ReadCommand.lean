import CS111.Shell.Parser
import CS111.Shell.Tokenizer

/-!
# Reading command streams

`read-command.c`. A script is the list of the bytes that `get_next_byte` delivers before the end
of the file. The fuel bounds the depth of the calls of the parser.
-/

namespace CS111.Shell

set_option autoImplicit false

/-- `command_tree_list` up to `list_size`. -/
structure CommandStream where
  commandTreeList : List Command
  readIndex : Nat
  deriving Repr, DecidableEq

/-- The byte 255 becomes `EOF` when it is converted to `char`. -/
def lexScript (script : List UInt8) : Except Fault TokenList := do
  let st ← (script.takeWhile (· ≠ 255)).foldlM lexerPutchar lexerInit
  let st ← lexerPutchar st 0
  .ok st.lexer.tokenList

/-- The inner loop; the first argument is `num_tokens - index`. -/
def scanNewline (tl : TokenList) : Nat → Nat → Except Fault Nat
  | 0, index => .ok index
  | n + 1, index => do
    let tok ← readToken tl index
    if tok.type = .tokNl then .ok index else scanNewline tl n (index + 1)

/-- The loop over the complete commands, from `index` on. -/
def readCommands (fuel : Nat) (tl : TokenList) : Nat → Nat → Except Fault (List Command)
  | 0, _ => .error .outOfFuel
  | n + 1, start => do
    let index ← scanNewline tl (tl.numTokens - start) start
    let last ← readBefore tl index
    let c ← parse fuel tl start (if last.type = .tokSc then index - 1 else index)
    if tl.numTokens - 1 ≤ index + 1 then .ok [c]
    else
      let rest ← readCommands fuel tl n (index + 1)
      .ok (c :: rest)

def makeCommandStream (fuel : Nat) (script : List UInt8) :
    Except Fault (Option CommandStream) := do
  let tl ← lexScript script
  if tl.numTokens = 0 then .ok none
  else
    let trees ← readCommands fuel tl tl.numTokens 0
    .ok (some ⟨trees, 0⟩)

def readCommandStream : Option CommandStream → Option Command × Option CommandStream
  | none => (none, none)
  | some s =>
    match s.commandTreeList[s.readIndex]? with
    | some c => (some c, some { s with readIndex := s.readIndex + 1 })
    | none => (none, some s)

/-- The results of `n` calls. -/
def readResults : Nat → Option CommandStream → List (Option Command)
  | 0, _ => []
  | n + 1, s => (readCommandStream s).1 :: readResults n (readCommandStream s).2

end CS111.Shell
