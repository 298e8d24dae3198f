import CS111.Shell.Command

/-!
# The parser

`parser.c`. A `do … while (index++ < end)` loop from `index` is a recursion on `end - index`, and
`do … while (i-- > start)` one on `i + 1`. `parse` takes the depth of its calls as fuel.
-/

namespace CS111.Shell

set_option autoImplicit false

/-- How a token changes `in_command` in a pass from left to right. -/
def nesting : TokenType → Int
  | .tokIf | .tokLparen | .tokWhile | .tokUntil => 1
  | .tokFi | .tokRparen | .tokDone => -1
  | _ => 0

/-- The two scanning loops of `parse`, for the last `sep` that is not enclosed by a command. -/
def scanBack (tl : TokenList) (sep : TokenType) (start : Nat) :
    Nat → Int → Except Fault (Option Nat)
  | 0, _ => .error (.outOfRange (-1))
  | i + 1, inCommand => do
    let tok ← readToken tl i
    if inCommand = 0 ∧ tok.type = sep then .ok (some i)
    else if start < i then scanBack tl sep start i (inCommand - nesting tok.type)
    else .ok none

/-- The loop with which the compound commands look for their end. It records where it saw the
`marks` outside of nested commands; at the index `skip` it only counts. -/
def scanForward (tl : TokenList) (marks : List TokenType) (close : TokenType) (skip : Option Nat) :
    Nat → Nat → Int → (TokenType → Option Nat) →
      Except Fault (Option Nat × (TokenType → Option Nat))
  | n, index, inCommand, found => do
    let tok ← readToken tl index
    let outer : Bool := inCommand = 0 ∧ some index ≠ skip
    if outer ∧ tok.type = close then .ok (some index, found)
    else
      let found :=
        if outer ∧ tok.type ∈ marks then Function.update found tok.type (some index) else found
      match n with
      | 0 => .ok (none, found)
      | n + 1 => scanForward tl marks close skip n (index + 1) (inCommand + nesting tok.type) found

/-- The last argument is `end - start`. -/
def addRedirects (tl : TokenList) : Header → Nat → Nat → Except Fault Header
  | comm, _, 0 => .ok comm
  | _, start, 1 => failAt tl start "Unexpected token"
  | comm, start, n + 2 => do
    let tok ← readToken tl start
    match tok.type with
    | .tokLab =>
      if comm.input = none then
        let target ← readToken tl (start + 1)
        addRedirects tl { comm with input := some (tl.text target) } (start + 2) n
      else failAt tl start "Invalid I/O Redirection"
    | .tokRab =>
      if comm.output = none then
        let target ← readToken tl (start + 1)
        addRedirects tl { comm with output := some (tl.text target) } (start + 2) n
      else failAt tl start "Invalid I/O Redirection"
    | _ => failAt tl start "Unexpected token"

def scanWords (tl : TokenList) : Nat → Nat → Except Fault Nat
  | n, index => do
    let tok ← readToken tl index
    if tok.type ≠ .tokWord then .ok index
    else
      match n with
      | 0 => .ok (index + 1)
      | n + 1 => scanWords tl n (index + 1)

def readWords (tl : TokenList) : Nat → Nat → Except Fault (List Word)
  | _, 0 => .ok []
  | i, n + 1 => do
    let tok ← readToken tl i
    let rest ← readWords tl (i + 1) n
    .ok (tl.text tok :: rest)

/-- One more text is read than there are words; the null pointer takes its place. -/
def magicalWordParser (tl : TokenList) (start e : Nat) : Except Fault Command := do
  let index ← scanWords tl (e - start) start
  let words ← readWords tl start (index - start + 1)
  let h ← addRedirects tl .fresh index (e - index)
  .ok (.simple h words.dropLast)

section Compound
variable (parse : Nat → Nat → Except Fault Command)

def checkFailParse (tl : TokenList) (start e : Nat) : Except Fault Command := do
  let tok ← readBefore tl e
  if tok.type = .tokSc then parse start (e - 1) else parse start e

def magicalIfParser (tl : TokenList) (start e : Nat) : Except Fault Command := do
  let (fiIndex, found) ← scanForward tl [.tokThen, .tokElse] .tokFi (some (start + 1))
    (e - (start + 1)) (start + 1) 0 fun _ => none
  match fiIndex with
  | none => failAt tl start "Expected `fi'"
  | some fiIndex =>
    match found .tokThen with
    | none => failAt tl start "Expected `then'"
    | some thenIndex =>
      let cond ← checkFailParse parse tl (start + 1) thenIndex
      match found .tokElse with
      | some elseIndex =>
        let thenPart ← checkFailParse parse tl (thenIndex + 1) elseIndex
        let elsePart ← checkFailParse parse tl (elseIndex + 1) fiIndex
        let h ← addRedirects tl .fresh (fiIndex + 1) (e - (fiIndex + 1))
        .ok (.ifElse h cond thenPart elsePart)
      | none =>
        let thenPart ← checkFailParse parse tl (thenIndex + 1) fiIndex
        let h ← addRedirects tl .fresh (fiIndex + 1) (e - (fiIndex + 1))
        .ok (.ifThen h cond thenPart)

def loopTypeAt (tl : TokenList) (start : Nat) : Except Fault LoopType := do
  let tok ← readToken tl start
  match tok.type with
  | .tokUntil => .ok .untilCommand
  | .tokWhile => .ok .whileCommand
  | _ => failAt tl start "Invalid token..just in case"

def magicalWhileUntilParser (tl : TokenList) (start e : Nat) : Except Fault Command := do
  let type ← loopTypeAt tl start
  let (doneIndex, found) ← scanForward tl [.tokDo] .tokDone (some (start + 1))
    (e - (start + 1)) (start + 1) 0 fun _ => none
  match doneIndex with
  | none => failAt tl start "Expected `done'"
  | some doneIndex =>
    match found .tokDo with
    | none => failAt tl start "Expected `do'"
    | some doIndex =>
      let cond ← checkFailParse parse tl (start + 1) doIndex
      let body ← checkFailParse parse tl (doIndex + 1) doneIndex
      let h ← addRedirects tl .fresh (doneIndex + 1) (e - (doneIndex + 1))
      .ok (.loop type h cond body)

def magicalSubshellParser (tl : TokenList) (start e : Nat) : Except Fault Command := do
  let (rparenIndex, _) ← scanForward tl [] .tokRparen none
    (e - (start + 1)) (start + 1) 0 fun _ => none
  match rparenIndex with
  | none => failAt tl start "Expected `)'"
  | some rparenIndex =>
    let body ← checkFailParse parse tl (start + 1) rparenIndex
    let h ← addRedirects tl .fresh (rparenIndex + 1) (e - (rparenIndex + 1))
    .ok (.subshell h body)

/-- The last part of `parse`: a command without pipes and semicolons at its top. -/
def parseSingle (tl : TokenList) (start e : Nat) : Except Fault Command := do
  let tok ← readToken tl start
  match tok.type with
  | .tokIf => magicalIfParser parse tl start e
  | .tokWhile | .tokUntil => magicalWhileUntilParser parse tl start e
  | .tokLparen => magicalSubshellParser parse tl start e
  | .tokWord => magicalWordParser tl start e
  | _ => failAt tl start "Invalid token"

end Compound

/-- The tokens that may not come last. -/
def TokenType.endsBadly : TokenType → Bool
  | .tokSc | .tokPipe | .tokLab | .tokRab => true
  | _ => false

def parse : Nat → TokenList → Nat → Nat → Except Fault Command
  | 0, _, _, _ => .error .outOfFuel
  | fuel + 1, tl, start, e => do
    let last ← readBefore tl e
    if last.type.endsBadly then .error (.syntaxError last.lineNum "Unexpected token")
    else
      match ← scanBack tl .tokSc start e 0 with
      | some i =>
        let first ← parse fuel tl start i
        let second ← parse fuel tl (i + 1) e
        .ok (.sequence .fresh first second)
      | none =>
        match ← scanBack tl .tokPipe start e 0 with
        | some i =>
          let first ← parse fuel tl start i
          let second ← parse fuel tl (i + 1) e
          .ok (.pipe .fresh first second)
        | none => parseSingle (parse fuel tl) tl start e

end CS111.Shell
