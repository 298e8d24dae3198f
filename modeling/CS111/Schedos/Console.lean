import Mathlib.Logic.Function.Basic
import CS111.Lib.CString
import CS111.Lib.Fallible

/-!
# Printing on the console

`console_putc`, `fill_numbuf` and `console_vprintf`. The cursor is an offset from `CONSOLE_BEGIN`. A store
outside the screen or outside `numbuf`, a read behind the NUL of the format and an argument that is
missing stop the function with a fault. Signed arithmetic wraps.
-/

namespace CS111.Schedos.Console

set_option autoImplicit false

/-- `fuel` is the fault of a loop over the format that has not come to its end in time. -/
inductive Fault where
  | screen | numbuf | format | argument | fuel
  deriving Repr, DecidableEq

inductive ArgKind where
  | word | string
  deriving Repr, DecidableEq

/-- What `va_arg` gets. -/
inductive Arg where
  | word (v : UInt32)
  | string (s : CString)
  deriving DecidableEq

def Arg.kind : Arg → ArgKind
  | word _ => .word
  | string _ => .string

abbrev Numbuf := Nat → UInt8

/-- What `console_vprintf` works on. -/
structure Printer where
  cells : Nat → UInt16
  cursor : Nat
  color : UInt32
  numbuf : Numbuf
  args : List Arg

def consoleEnd : Nat := 80 * 25

section Characters

/-- A character on the screen. -/
def cell (c : UInt8) (color : UInt32) : UInt16 := (c.toUInt32 ||| color).toUInt16

/-- `*cursor++ = c`. -/
def Printer.store (s : Printer) (c : UInt16) : Except Fault Printer :=
  if s.cursor < consoleEnd then
    .ok { s with cells := Function.update s.cells s.cursor c, cursor := s.cursor + 1 }
  else .error .screen

/-- The loop over `pos`, which has `n` rounds to go. -/
def fillRow (color : UInt32) : Nat → Printer → Except Fault Printer
  | 0, s => .ok s
  | n + 1, s => do
    let s ← s.store (cell 32 color)
    fillRow color n s

def consolePutc (color : UInt32) (s : Printer) (c : UInt8) : Except Fault Printer :=
  let s := if s.cursor ≥ consoleEnd then { s with cursor := 0 } else s
  if c = '\n'.toUInt8 then fillRow color (80 - s.cursor % 80) s else s.store (cell c color)

/-- A loop that prints one character after the other. -/
def putAll (s : Printer) (l : List UInt8) : Except Fault Printer := l.foldlM (consolePutc s.color) s

def repeated (n : Int32) (c : Char) : List UInt8 := List.replicate n.toNatClampNeg c.toUInt8

end Characters

section Numbers

def chars (l : List Char) : List UInt8 := l.map Char.toUInt8

def upperDigits : List UInt8 :=
  chars ['0', '1', '2', '3', '4', '5', '6', '7', '8', '9', 'A', 'B', 'C', 'D', 'E', 'F']

def lowerDigits : List UInt8 :=
  chars ['0', '1', '2', '3', '4', '5', '6', '7', '8', '9', 'a', 'b', 'c', 'd', 'e', 'f']

def numbufSize : Nat := 20

def storeNumbuf (buf : Numbuf) (i : Nat) (c : UInt8) : Except Fault Numbuf :=
  if i < numbufSize then .ok (Function.update buf i c) else .error .numbuf

/-- The loop of `fill_numbuf`; the pointer comes first, and 0 is the start of `numbuf`. -/
def fillDigits (base : UInt32) (digits : List UInt8) :
    Nat → UInt32 → Numbuf → Except Fault (Numbuf × Nat)
  | 0, _, _ => .error .numbuf
  | p + 1, val, buf => do
    let buf ← storeNumbuf buf p (digits.getD (val % base).toNat 0)
    let val := val / base
    if val ≠ 0 then fillDigits base digits p val buf else return (buf, p)

/-- `fill_numbuf`, where `numbuf_end` is `numbuf + NUMBUFSIZ`. -/
def fillNumbuf (buf : Numbuf) (val base : UInt32) (digits : List UInt8) (precision : Int32) :
    Except Fault (Numbuf × Nat) := do
  let p := numbufSize - 1
  let buf ← storeNumbuf buf p 0
  if precision ≠ 0 ∨ val ≠ 0 then fillDigits base digits p val buf else return (buf, p)

/-- The string that begins at `p`. -/
def numbufString (buf : Numbuf) (p : Nat) : Except Fault (List UInt8) :=
  let bytes := (List.range' p (numbufSize - p)).map buf
  if 0 ∈ bytes then .ok (bytes.takeWhile (· ≠ 0)) else .error .numbuf

structure Number where
  val : UInt32
  base : UInt32
  digits : List UInt8
  negative : Bool

/-- What the conversions of numbers give to `fill_numbuf`. -/
def number (c : UInt8) : Option (UInt32 → Number) :=
  if c = 'd'.toUInt8 then
    some fun x =>
      ⟨if 0 < x.toInt32 then x else (-x.toInt32).toUInt32, 10, upperDigits, decide (x.toInt32 < 0)⟩
  else if c = 'u'.toUInt8 then some fun x => ⟨x, 10, upperDigits, false⟩
  else if c = 'x'.toUInt8 then some fun x => ⟨x, 16, lowerDigits, false⟩
  else if c = 'X'.toUInt8 then some fun x => ⟨x, 16, upperDigits, false⟩
  else none

end Numbers

section Directives
variable (f : CString)

def readFormat (i : Nat) : Except Fault UInt8 :=
  match f.byteAt i with
  | some c => .ok c
  | none => .error .format

/-- A loop over the format. -/
def scanFormat {α : Type} (step : α → UInt8 → Option α) (i : Nat) (a : α) : Except Fault (Nat × α) :=
  match f.scan step (f.bytes.length + 1) i a with
  | some r => .ok r
  | none => .error .fuel

def vaWord (s : Printer) : Except Fault (UInt32 × Printer) :=
  match s.args with
  | .word v :: args => .ok (v, { s with args := args })
  | _ => .error .argument

def vaString (s : Printer) : Except Fault (CString × Printer) :=
  match s.args with
  | .string str :: args => .ok (str, { s with args := args })
  | _ => .error .argument

/-- `#0- +`; a flag is the bit of its index. -/
def flagChars : List UInt8 := chars ['#', '0', '-', ' ', '+']

def flagZero : UInt32 := 2
def flagLeftjustify : UInt32 := 4
def flagSpacepositive : UInt32 := 8
def flagPluspositive : UInt32 := 16

def flagStep (flags : UInt32) (c : UInt8) : Option UInt32 :=
  (flagChars.idxOf? c).map fun k => flags ||| 1 <<< UInt32.ofNat k

def isDigit (c : UInt8) : Bool := '0'.toUInt8 ≤ c && c ≤ '9'.toUInt8

def digitStep (v : Int32) (c : UInt8) : Option Int32 :=
  if isDigit c then some (10 * v + Int32.ofNat c.toNat - 48) else none

/-- A width or a precision: a number that begins with a byte of `first`, a `*` or nothing. -/
def parseNumber (first : UInt8 → Bool) (i : Nat) (s : Printer) :
    Except Fault (Nat × Int32 × Printer) := do
  let c ← readFormat f i
  if first c then
    let (i, v) ← scanFormat f digitStep i 0
    return (i, v, s)
  else if c = '*'.toUInt8 then
    let (v, s) ← vaWord s
    return (i + 1, v.toInt32, s)
  else return (i, -1, s)

def isWidthStart (c : UInt8) : Bool := '1'.toUInt8 ≤ c && c ≤ '9'.toUInt8

def parseWidth (i : Nat) (s : Printer) : Except Fault (Nat × Int32 × Printer) :=
  parseNumber f isWidthStart i s

def parsePrecision (i : Nat) (s : Printer) : Except Fault (Nat × Int32 × Printer) := do
  let c ← readFormat f i
  if c = '.'.toUInt8 then
    let (i, precision, s) ← parseNumber f isDigit (i + 1) s
    return (i, if precision < 0 then 0 else precision, s)
  else return (i, -1, s)

/-- What a conversion prints: its `data`, and whether this is a number and a negative one. -/
structure Item where
  data : List UInt8
  numeric : Bool
  negative : Bool

/-- A single character, as the string that `numbuf` holds. -/
def charItem (c : UInt8) (s : Printer) : Except Fault (Item × Printer) := do
  let buf ← storeNumbuf s.numbuf 0 c
  let buf ← storeNumbuf buf 1 0
  let data ← numbufString buf 0
  return (⟨data, false, false⟩, { s with numbuf := buf })

def numberItem (number : UInt32 → Number) (precision : Int32) (s : Printer) :
    Except Fault (Item × Printer) := do
  let (v, s) ← vaWord s
  let x := number v
  let (buf, p) ← fillNumbuf s.numbuf x.val x.base x.digits precision
  let data ← numbufString buf p
  return (⟨data, true, x.negative⟩, { s with numbuf := buf })

/-- The switch over the conversion character, without `%C`. At the NUL the pointer goes one back. -/
def convert (c : UInt8) (i : Nat) (precision : Int32) (s : Printer) :
    Except Fault (Nat × Item × Printer) := do
  match number c with
  | some number =>
    let (item, s) ← numberItem number precision s
    return (i, item, s)
  | none =>
    if c = 's'.toUInt8 then
      let (str, s) ← vaString s
      return (i, ⟨str.bytes, false, false⟩, s)
    else if c = 'c'.toUInt8 then
      let (v, s) ← vaWord s
      let (item, s) ← charItem v.toUInt8 s
      return (i, item, s)
    else
      let (item, s) ← charItem (if c ≠ 0 then c else '%'.toUInt8) s
      return (if c = 0 then i - 1 else i, item, s)

def printItem (flags : UInt32) (width precision : Int32) (item : Item) (s : Printer) :
    Except Fault Printer := do
  let len : Int32 := Int32.ofNat
    (if precision ≥ 0 then min item.data.length precision.toNatClampNeg else item.data.length)
  let sign : Char :=
    if item.numeric ∧ item.negative then '-'
    else if flags &&& flagPluspositive ≠ 0 then '+'
    else if flags &&& flagSpacepositive ≠ 0 then ' '
    else '\x00'
  let signLen : Int32 := if sign ≠ '\x00' then 1 else 0
  let zeros : Int32 :=
    if item.numeric ∧ precision > len then precision - len
    else if flags &&& (flagZero ||| flagLeftjustify) = flagZero ∧ item.numeric ∧ precision < 0 ∧
        len + signLen < width then
      width - len - signLen
    else 0
  let width := width - (len + zeros + signLen)
  let left : Bool := flags &&& flagLeftjustify ≠ 0
  let s ← putAll s (if left then [] else repeated width ' ')
  let width := if left ∨ width ≤ 0 then width else 0
  let s ← putAll s (if sign ≠ '\x00' then [sign.toUInt8] else [])
  let s ← putAll s (repeated zeros '0')
  let s ← putAll s (item.data.take len.toNatClampNeg)
  putAll s (repeated width ' ')

/-- A `%` and what belongs to it, from the byte behind the `%` on. -/
def directive (i : Nat) (s : Printer) : Except Fault (Nat × Printer) := do
  let (i, flags) ← scanFormat f flagStep i 0
  let (i, width, s) ← parseWidth f i s
  let (i, precision, s) ← parsePrecision f i s
  let c ← readFormat f i
  if c = 'C'.toUInt8 then
    let (v, s) ← vaWord s
    return (i, { s with color := v })
  else
    let (i, item, s) ← convert c i precision s
    let s ← printItem flags width precision item s
    return (i, s)

def vprintfLoop : Nat → Nat → Printer → Except Fault Printer
  | 0, _, _ => .error .fuel
  | fuel + 1, i, s => do
    let c ← readFormat f i
    if c = 0 then return s
    else if c ≠ '%'.toUInt8 then
      let s ← consolePutc s.color s c
      vprintfLoop fuel (i + 1) s
    else
      let (i, s) ← directive f (i + 1) s
      vprintfLoop fuel (i + 1) s

/-- The cursor that `console_vprintf` returns is the one of its last state. -/
def consoleVprintf (s : Printer) : Except Fault Printer := vprintfLoop f (f.bytes.length + 1) 0 s

end Directives

end CS111.Schedos.Console
