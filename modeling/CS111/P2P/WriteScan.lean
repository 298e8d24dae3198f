import Mathlib.Data.Nat.Digits.Defs
import Mathlib.Logic.Relation
import CS111.Lib.Words
import CS111.P2P.TaskBuffer

/-!
# Writing and scanning messages

`osp2p_writef` and `osp2p_vsnscanf`. A string is the list of its bytes without the final NUL, and
so is a format. `malloc` and `realloc` succeed, and the character classes are those of the C locale.

The scanner runs in steps: `Mode` says in which of its loops it is, and a step also gives the
offsets from `begin_s` that it reads.
-/

namespace CS111.P2P

set_option autoImplicit false

open Memory

def chars (l : List Char) : List UInt8 := l.map fun c => UInt8.ofNat c.toNat

section Classes
variable (c : UInt8)

def isspace : Bool := c == 32 || (9 ≤ c && c ≤ 13)

def isdigit : Bool := 48 ≤ c && c ≤ 57

def isupper : Bool := 65 ≤ c && c ≤ 90

def islower : Bool := 97 ≤ c && c ≤ 122

def isalnum : Bool := isdigit c || isupper c || islower c

def isxdigit : Bool := isdigit c || (65 ≤ c && c ≤ 70) || (97 ≤ c && c ≤ 102)

def tolower : UInt8 := if isupper c then c + 32 else c

end Classes

section Quoting

/-- `"0123456789ABCDEF"[d]`. -/
def hexDigit (d : UInt8) : UInt8 := if d < 10 then 48 + d else 55 + d

/-- Letters, digits and `$-_.+!*'(),`. -/
def unquoted (c : UInt8) : Bool :=
  isalnum c || [36, 45, 95, 46, 43, 33, 42, 39, 40, 41, 44].contains c

def quoteByte (c : UInt8) : List UInt8 :=
  if unquoted c then [c] else [37, hexDigit (c / 16), hexDigit (c &&& 15)]

def httpQuote (s : List UInt8) : List UInt8 := s.flatMap quoteByte

/-- The result is only used for hexadecimal digits. -/
def xvalue (c : UInt8) : UInt8 := if isdigit c then c - 48 else tolower c - 97 + 10

end Quoting

section Writing

/-- The arguments of `osp2p_writef`; an address is in host byte order. -/
inductive Arg where
  | string (s : List UInt8)
  | int (i : Int)
  | addr (a : UInt32)
  deriving Repr, DecidableEq

/-- The decimal digits of `n`. -/
def decimal (n : Nat) : List UInt8 :=
  if n = 0 then [48] else (Nat.digits 10 n).reverse.map fun d => UInt8.ofNat (48 + d)

def formatInt (i : Int) : List UInt8 :=
  if i < 0 then 45 :: decimal i.natAbs else decimal i.natAbs

/-- Byte `i` of an address, the most significant one first. -/
def addrByte (a : UInt32) (i : Nat) : Nat := a.toNat / 256 ^ (3 - i) % 256

def inetNtoa (a : UInt32) : List UInt8 :=
  decimal (addrByte a 0) ++ 46 :: decimal (addrByte a 1) ++ 46 :: decimal (addrByte a 2) ++
    46 :: decimal (addrByte a 3)

/-- The message; `none` when the arguments are not those of the format. -/
def message : List UInt8 → List Arg → Option (List UInt8)
  | [], _ => some []
  | 37 :: 115 :: format, .string s :: args => (message format args).map (httpQuote s ++ ·)
  | 37 :: 100 :: format, .int i :: args => (message format args).map (formatInt i ++ ·)
  | 37 :: 73 :: format, .addr a :: args => (message format args).map (inetNtoa a ++ ·)
  | 37 :: 115 :: _, _ => none
  | 37 :: 100 :: _, _ => none
  | 37 :: 73 :: _, _ => none
  | 37 :: 37 :: format, args => (message format args).map (37 :: ·)
  | c :: format, args => (message format args).map (c :: ·)

/-- The loop over `write`: the bytes taken, and the return value, or `none` when the loop is still
running after the calls listed. -/
def writeLoop : List WriteCall → List UInt8 → List UInt8 × Option Int
  | _, [] => ([], some 0)
  | [], _ :: _ => ([], none)
  | fd :: calls, c :: rest =>
    match fd.transfer (c :: rest).length with
    | .error e => if e.again then writeLoop calls (c :: rest) else ([], some (-1))
    | .ok amt =>
      if amt = 0 then ([], some (-1))
      else
        let (sent, ret) := writeLoop calls ((c :: rest).drop amt)
        ((c :: rest).take amt ++ sent, ret)

def osp2pWritef (calls : List WriteCall) (format : List UInt8) (args : List Arg) :
    Option (List UInt8 × Option Int) :=
  (message format args).map (writeLoop calls)

end Writing

section Scanning

def INT_MAX : Int := 2147483647

/-- What a conversion stores through its argument. -/
inductive Stored where
  | string (s : List UInt8)
  | int (i : Int)
  | addr (a : UInt32)
  deriving Repr, DecidableEq

/-- `string` has what has been written to `str`, `quad` the loop variables of `%I`, `decimal` the
one of `%d`; `blanks` skips blanks of the message, and `exit` is the label. -/
inductive Mode where
  | format
  | string (str : List UInt8)
  | quad (i : Nat) (x : Int) (value : Nat)
  | decimal (value : Int)
  | blanks
  | exit
  deriving Repr, DecidableEq

structure Scan where
  mode : Mode
  format : List UInt8
  pos : Nat
  stored : List Stored
  deriving Repr, DecidableEq

def Scan.start (format : List UInt8) : Scan := ⟨.format, format, 0, []⟩

def Scan.goto (c : Scan) (mode : Mode) : Scan := { c with mode := mode }

/-- The end of a conversion. -/
def Scan.store (c : Scan) (v : Stored) : Scan :=
  { c with mode := .format, format := c.format.drop 2, stored := c.stored ++ [v] }

def digitValue (c : UInt8) : Int := c.toNat - 48

/-- The byte at `s`, `none` at `end_s`: the scanner compares the pointers before it reads. -/
def peek (m : Bytes) (len pos : Nat) : Option UInt8 := if pos = len then none else some (m pos)

/-- The byte that `%` and two hexadecimal digits stand for. -/
def quotedAt (m : Bytes) (pos : Nat) : Option UInt8 :=
  if m pos = 37 ∧ isxdigit (m (pos + 1)) ∧ isxdigit (m (pos + 2)) then
    some (xvalue (m (pos + 1)) * 16 + xvalue (m (pos + 2)))
  else none

/-- What the test for a quoted byte looks at behind the `%`. -/
def quoteReads (m : Bytes) (pos : Nat) : List Nat :=
  if m pos ≠ 37 then [] else if isxdigit (m (pos + 1)) then [pos + 1, pos + 2] else [pos + 1]

/-- What the loop over the format distinguishes; `%%` is a literal `%`. -/
inductive Directive where
  | string
  | addr
  | int
  | count
  | blank
  | literal (c : UInt8)
  deriving Repr, DecidableEq

/-- The directive at the head of a format, and the format behind it. -/
def directive : List UInt8 → Option (Directive × List UInt8)
  | [] => none
  | 37 :: 115 :: format => some (.string, format)
  | 37 :: 73 :: format => some (.addr, format)
  | 37 :: 100 :: format => some (.int, format)
  | 37 :: 110 :: format => some (.count, format)
  | 37 :: 37 :: format => some (.literal 37, format)
  | c :: format => some (if isspace c then .blank else .literal c, format)

/-- The head of the loop over the format. A conversion and a blank stay in front of the format until
they are done with. -/
def Scan.formatStep (cur : Option UInt8) (c : Scan) : Option Scan :=
  match directive c.format with
  | none => none
  | some (.string, _) => some (c.goto (.string []))
  | some (.addr, _) => some (c.goto (.quad 0 (-1) 0))
  | some (.int, _) => some (c.goto (if cur.any isdigit then .decimal 0 else .exit))
  | some (.count, _) => some (c.store (.int (toInt32 (u32 c.pos))))
  | some (.blank, _) => some (c.goto (if cur.any isspace then .blanks else .exit))
  | some (.literal f, format) =>
    some (if cur = some f then { c with pos := c.pos + 1, format := format } else c.goto .exit)

/-- Whether the head of the loop looks at the message. -/
def Scan.formatReads (c : Scan) : Bool :=
  match directive c.format with
  | none | some (.string, _) | some (.addr, _) | some (.count, _) => false
  | some (.int, _) | some (.blank, _) | some (.literal _, _) => true

def Scan.stringStep (cur quoted : Option UInt8) (c : Scan) (str : List UInt8) : Scan :=
  match cur with
  | none => c.store (.string str)
  | some b =>
    if isspace b then c.store (.string str)
    else
      match quoted with
      | some q => { c with mode := .string (str ++ [q]), pos := c.pos + 3 }
      | none => { c with mode := .string (str ++ [b]), pos := c.pos + 1 }

def Scan.quadStep (cur : Option UInt8) (c : Scan) (i : Nat) (x : Int) (value : Nat) : Scan :=
  match cur.filter fun b => isdigit b && decide (x ≤ 255) with
  | some b =>
    { c with
      mode := .quad i ((if x < 0 then 0 else 10 * x) + digitValue b) value
      pos := c.pos + 1 }
  | none =>
    if x < 0 ∨ x > 255 ∨ (i < 3 ∧ cur ≠ some 46) then c.goto .exit
    else
      let value := u32 (value * 256 + x.toNat)
      if i < 3 then { c with mode := .quad (i + 1) (-1) value, pos := c.pos + 1 }
      else c.store (.addr (UInt32.ofNat value))

def Scan.decimalStep (cur : Option UInt8) (c : Scan) (value : Int) : Scan :=
  match cur.filter isdigit with
  | some b =>
    if value < (INT_MAX - digitValue b) / 10 then
      { c with mode := .decimal (10 * value + digitValue b), pos := c.pos + 1 }
    else c.goto .exit
  | none => c.store (.int value)

def Scan.blanksStep (cur : Option UInt8) (c : Scan) : Scan :=
  if cur.any isspace then { c with pos := c.pos + 1 }
  else { c with mode := .format, format := c.format.dropWhile isspace }

/-- One round of a loop; `none` when the function returns. -/
def Scan.step (m : Bytes) (len : Nat) (c : Scan) : Option Scan :=
  let cur := peek m len c.pos
  match c.mode with
  | .format => c.formatStep cur
  | .string str => some (c.stringStep cur (quotedAt m c.pos) str)
  | .quad i x value => some (c.quadStep cur i x value)
  | .decimal value => some (c.decimalStep cur value)
  | .blanks => some (c.blanksStep cur)
  | .exit => none

/-- The offsets that the step reads. -/
def Scan.reads (m : Bytes) (len : Nat) (c : Scan) : List Nat :=
  if c.pos = len then []
  else
    match c.mode with
    | .format => if c.formatReads then [c.pos] else []
    | .string _ => if isspace (m c.pos) then [c.pos] else c.pos :: quoteReads m c.pos
    | .quad _ _ _ | .decimal _ | .blanks => [c.pos]
    | .exit => []

def Scan.ret (c : Scan) : Int := if c.format = [] then 0 else -1

def ScanStep (m : Bytes) (len : Nat) (c c' : Scan) : Prop := c.step m len = some c'

abbrev Scans (m : Bytes) (len : Nat) : Scan → Scan → Prop := Relation.ReflTransGen (ScanStep m len)

/-- `osp2p_vsnscanf` on `len` bytes returns in the state `c`. -/
def Returns (m : Bytes) (len : Nat) (format : List UInt8) (c : Scan) : Prop :=
  Scans m len (.start format) c ∧ c.step m len = none

/-- The states of a run, for evaluation. -/
def Scan.run (m : Bytes) (len : Nat) : Nat → Scan → Scan
  | 0, c => c
  | fuel + 1, c =>
    match c.step m len with
    | none => c
    | some c => c.run m len fuel

end Scanning

section Peers

/-- `"GET %s OSP2P\n"`. -/
def getFormat : List UInt8 :=
  chars ['G', 'E', 'T', ' ', '%', 's', ' ', 'O', 'S', 'P', '2', 'P', '\n']

/-- `"PEER %s %I:%d"`. -/
def peerFormat : List UInt8 :=
  chars ['P', 'E', 'E', 'R', ' ', '%', 's', ' ', '%', 'I', ':', '%', 'd']

structure Peer where
  aliasName : List UInt8
  addr : UInt32
  port : Int
  deriving Repr, DecidableEq

/-- `parse_peer` gets the peer `p` from `len` bytes. -/
def ParsesPeer (m : Bytes) (len : Nat) (p : Peer) : Prop :=
  ∃ c, Returns m len peerFormat c ∧ c.ret ≥ 0 ∧
    c.stored = [.string p.aliasName, .addr p.addr, .int p.port] ∧ p.port > 0 ∧ p.port ≤ 65535

end Peers

end CS111.P2P
