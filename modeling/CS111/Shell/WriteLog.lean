import CS111.Lib.Memory
import CS111.Lib.Run
import CS111.Shell.Tokenizer

/-!
# The profiling log

`write_log`, and the processes of one shell that write to the same log. The four times are the text
that `snprintf` makes of them. `F_SETLKW` gives the lock of the file to one process at a time, and a
file that is open with `O_APPEND` takes every `write` at its end.
-/

namespace CS111.Shell

set_option autoImplicit false

open Memory

/-! ## The text of a line -/

/-- `times` has the four times with a blank behind each. A command has its first word apart. -/
structure ProfileTimes where
  times : Word
  command : Option (Word × List Word)
  pid : Nat
  deriving Repr, DecidableEq

/-- What `snprintf` leaves in `buf` from `pos` on, and its result. -/
def snprintf (buf : Nat → UInt8) (pos size : Nat) (text : Word) : (Nat → UInt8) × Nat :=
  (if size = 0 then buf else store buf pos (text.take (size - 1) ++ [0]), text.length)

/-- `[%d]`. -/
def pidText (pid : Nat) : Word :=
  chr '[' :: ((Nat.toDigits 10 pid).map chr ++ [chr ']'])

/-- The loop over the arguments from `i` on. Once the buffer is full `added` is not set, and has the
value `stale i`; `none` is the exit through `error`. -/
def putArguments (stale : Nat → Int) : Nat → List Word → (Nat → UInt8) → Nat →
    Option ((Nat → UInt8) × Nat)
  | _, [], buf, numChars => some (buf, numChars)
  | i, w :: ws, buf, numChars =>
    if numChars < 1023 then
      let (buf, added) := snprintf buf numChars (1023 - numChars) (chr ' ' :: w)
      putArguments stale (i + 1) ws buf (numChars + added)
    else if stale i < 0 then none
    else putArguments stale (i + 1) ws buf (numChars + (stale i).toNat)

/-- The bytes of the first `write`, from a buffer that is not initialized. -/
def logBytes (stale : Nat → Int) (buf : Nat → UInt8) (pt : ProfileTimes) : Option (List UInt8) :=
  let numBytes (numChars : Nat) := if numChars > 1023 then 1023 else numChars
  match pt.command with
  | none =>
    let (buf, numChars) := snprintf buf 0 1023 (pt.times ++ pidText pt.pid)
    some (load buf 0 (numBytes numChars))
  | some (w, ws) => do
    let (buf, numChars) := snprintf buf 0 1023 (pt.times ++ w)
    let (buf, numChars) ← putArguments stale 1 ws buf numChars
    some (load buf 0 (numBytes numChars))

/-! ## The processes -/

/-- Where a process is in `write_log`: `locked` has the bytes for the first `write`, and `wrote`
whether it took them all. -/
inductive LogStage where
  | outside
  | locked (bytes : List UInt8)
  | wrote (all : Bool)
  | done
  deriving Repr, DecidableEq

structure Logger where
  canWrite : Bool
  stage : LogStage
  deriving Repr, DecidableEq

structure LogState where
  file : List UInt8
  holder : Option Nat
  proc : Nat → Option Logger

/-- The answer of `write` to some bytes. -/
inductive WriteAnswer where
  | all
  | part (n : Nat)
  | failed
  deriving Repr, DecidableEq

def WriteAnswer.taken : WriteAnswer → List UInt8 → List UInt8
  | .all, bytes => bytes
  | .part n, bytes => bytes.take n
  | .failed, _ => []

/-- `call` is a call of `write_log` up to the lock. -/
inductive LogAction where
  | call (p : Nat) (pt : ProfileTimes) (stale : Nat → Int) (buf : Nat → UInt8)
  | writeText (p : Nat) (answer : WriteAnswer)
  | writeNewline (p : Nat) (answer : WriteAnswer)
  | unlock (p : Nat)
  | fork (p child : Nat)
  | exit (p : Nat)

namespace LogState

def setProc (s : LogState) (p : Nat) (l : Option Logger) : LogState :=
  { s with proc := fun q => if q = p then l else s.proc q }

def append (s : LogState) (bytes : List UInt8) : LogState := { s with file := s.file ++ bytes }

/-- The shell behind `prepare_profiling`. -/
def start (file : List UInt8) (shell : Nat) : LogState :=
  ⟨file, none, fun q => if q = shell then some ⟨true, .outside⟩ else none⟩

def next (s : LogState) : LogAction → Option LogState
  | .call p pt stale buf =>
    match s.proc p, s.holder, logBytes stale buf pt with
    | some ⟨true, .outside⟩, none, some bytes =>
      some { s.setProc p (some ⟨true, .locked bytes⟩) with holder := some p }
    | _, _, _ => none
  | .writeText p answer =>
    match s.proc p with
    | some ⟨canWrite, .locked bytes⟩ =>
      some ((s.append (answer.taken bytes)).setProc p
        (some ⟨canWrite, .wrote (answer.taken bytes = bytes ∧ answer ≠ .failed)⟩))
    | _ => none
  | .writeNewline p answer =>
    match s.proc p with
    | some ⟨canWrite, .wrote all⟩ =>
      some ((s.append (answer.taken [10])).setProc p (some ⟨canWrite && all, .done⟩))
    | _ => none
  | .unlock p =>
    match s.proc p with
    | some ⟨canWrite, .done⟩ =>
      some { s.setProc p (some ⟨canWrite, .outside⟩) with holder := none }
    | _ => none
  | .fork p child =>
    match s.proc p, s.proc child with
    | some ⟨canWrite, .outside⟩, none => some (s.setProc child (some ⟨canWrite, .outside⟩))
    | _, _ => none
  | .exit p =>
    match s.proc p with
    | some ⟨_, .outside⟩ => some (s.setProc p none)
    | _ => none

end LogState

def LogStep (s : LogState) (a : LogAction) (t : LogState) : Prop := s.next a = some t

end CS111.Shell
