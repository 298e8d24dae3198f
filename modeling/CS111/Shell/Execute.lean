import Mathlib.Data.List.GetD
import CS111.Lib.Logged
import CS111.Shell.Command
import CS111.Shell.Tokenizer

/-!
# Executing commands

`execute-command.c` without profiling. `fork`, `pipe` and `wait4` succeed; whether an `open`
succeeds and how a program ends is up to the `World`. What a child process does to its copy of the
tree and of the descriptors is lost, so a child is a run of its own, of which the parent sees the
exit status. The fuel bounds the depth of the calls and the rounds of a loop.
-/

namespace CS111.Shell

set_option autoImplicit false

inductive WaitStatus where
  | exited (code : UInt8)
  | signaled (sig : UInt8)
  | stopped (sig : UInt8)
  deriving Repr, DecidableEq

/-- `WEXITSTATUS`, `WTERMSIG` or `WSTOPSIG`. -/
def WaitStatus.value : WaitStatus → Int
  | .exited n | .signaled n | .stopped n => n.toNat

/-- `exit(status)`. -/
def exitWith (status : Int) : WaitStatus := .exited (UInt8.ofNat (status % 256).toNat)

section Descriptors

inductive Access where
  | read | write
  deriving Repr, DecidableEq

/-- What a descriptor refers to: what it was at the start of the shell, a file, or the end of a
pipe. -/
inductive Description where
  | given (n : Nat)
  | file (name : Word) (access : Access)
  | pipe (id : List Nat) (access : Access)
  deriving Repr, DecidableEq

abbrev Descriptors := List (Option Description)

def lookup (fds : Descriptors) (n : Nat) : Option Description := fds.getD n none

def put (fds : Descriptors) (n : Nat) (d : Option Description) : Descriptors :=
  (List.range (max fds.length (n + 1))).map fun k => if k = n then d else lookup fds k

def lowestFree (fds : Descriptors) : Nat := fds.findIdx fun d => d.isNone

def close (fds : Descriptors) (fd : Int) : Descriptors :=
  if fd < 0 then fds else put fds fd.toNat none

/-- A descriptor that is not open leaves `new` as it is. -/
def dup2 (fds : Descriptors) (old : Int) (new : Nat) : Descriptors :=
  if old < 0 then fds
  else
    match lookup fds old.toNat with
    | some d => put fds new (some d)
    | none => fds

theorem lookup_put (fds : Descriptors) (n k : Nat) (d : Option Description) :
    lookup (put fds n d) k = if k = n then d else lookup fds k := by
  unfold put
  by_cases hk : k < max fds.length (n + 1)
  · rw [lookup, List.getD_eq_getElem _ _ (by simpa using hk), List.getElem_map, List.getElem_range]
  · have hout : lookup fds k = none := List.getD_eq_default _ _ (by omega)
    rw [lookup, List.getD_eq_default _ _ (by simpa using hk), if_neg (by omega), hout]

theorem lookup_lowestFree (fds : Descriptors) : lookup fds (lowestFree fds) = none := by
  by_cases h : lowestFree fds < fds.length
  · have hnone := List.findIdx_getElem (w := h)
    rw [lookup, List.getD_eq_getElem _ _ h]
    exact Option.isNone_iff_eq_none.mp hnone
  · exact List.getD_eq_default _ _ (Nat.le_of_not_lt h)

end Descriptors

/-- `ticks` counts what the process has asked the system for, so that `key` names each request. -/
structure Process where
  fds : Descriptors
  id : List Nat
  ticks : Nat
  deriving Repr, DecidableEq

def Process.key (p : Process) : List Nat := p.ticks :: p.id

def Process.tick (p : Process) : Process := { p with ticks := p.ticks + 1 }

def Process.fork (p : Process) : Process := ⟨p.fds, p.key, 0⟩

def Process.close (p : Process) (fd : Int) : Process := { p with fds := Shell.close p.fds fd }

def Process.allocate (p : Process) (d : Description) : Process :=
  { p with fds := put p.fds (lowestFree p.fds) (some d) }

section Process
variable (p : Process)

@[simp] theorem Process.tick_id : p.tick.id = p.id := rfl
@[simp] theorem Process.tick_fds : p.tick.fds = p.fds := rfl
@[simp] theorem Process.fork_id : p.fork.id = p.key := rfl
@[simp] theorem Process.fork_fds : p.fork.fds = p.fds := rfl
@[simp] theorem Process.close_id (fd : Int) : (p.close fd).id = p.id := rfl
@[simp] theorem Process.close_fds (fd : Int) : (p.close fd).fds = Shell.close p.fds fd := rfl
@[simp] theorem Process.allocate_id (d : Description) : (p.allocate d).id = p.id := rfl

end Process

structure World where
  opens : List Nat → Bool
  ends : List Nat → WaitStatus

/-- Where a standard stream comes from, by the text of a command: from a file, which the `open` of
this key opens if it can, or from the pipe of a pipeline. -/
inductive Source where
  | file (name : Word) (key : List Nat)
  | pipeEnd (id : List Nat)
  deriving Repr, DecidableEq

/-- A call under way: a command with the redirections of its header, or one side of a pipeline. -/
structure Call where
  input : Option Source
  output : Option Source
  deriving Repr, DecidableEq

/-- `start` is a program that is started, under the calls listed from the inside out, with its
standard streams. `colon` is an execution of `:` and lists the descriptors that it has opened.
`loopEnd` has the statuses that a loop finds in its body and condition when it is over. -/
inductive Event where
  | start (word : List Word) (status : WaitStatus) (calls : List Call)
      (stdin stdout : Option Description)
  | colon (id : List Nat) (opened : List Nat)
  | loopEnd (bodyRan : Bool) (body cond : Int)
  deriving Repr, DecidableEq

abbrev Execution (α : Type) := Logged Event WaitStatus α

def Command.status : Command → Int
  | .simple h _ | .sequence h _ _ | .pipe h _ _ | .subshell h _ | .loop _ h _ _ | .ifThen h _ _
  | .ifElse h _ _ _ => h.status

def Command.setStatus (status : Int) : Command → Command
  | .simple h word => .simple { h with status := status } word
  | .sequence h a b => .sequence { h with status := status } a b
  | .pipe h a b => .pipe { h with status := status } a b
  | .subshell h a => .subshell { h with status := status } a
  | .loop type h a b => .loop type { h with status := status } a b
  | .ifThen h a b => .ifThen { h with status := status } a b
  | .ifElse h a b c => .ifElse { h with status := status } a b c

section Redirections
variable (w : World)

/-- The descriptor, or -1, and the process. -/
def openFile (name : Word) (access : Access) (p : Process) : Int × Process :=
  if w.opens p.key then (lowestFree p.fds, (p.allocate (.file name access)).tick) else (-1, p.tick)

/-- The stream `fd` of a command that may be redirected to `name`. -/
def redirect (name : Option Word) (access : Access) (fd : Int) (p : Process) : Int × Process :=
  match name with
  | none => (fd, p)
  | some name => openFile w name access p

/-- The streams of a command, and what it is to the calls for its parts. -/
structure Opened where
  input : Int
  output : Int
  call : Call
  process : Process

def openRedirects (h : Header) (input output : Int) (p : Process) : Opened :=
  let (i, q) := redirect w h.input .read input p
  let (o, r) := redirect w h.output .write output q
  ⟨i, o, ⟨h.input.map fun name => .file name p.key, h.output.map fun name => .file name q.key⟩, r⟩

def closeRedirect (name : Option Word) (fd : Int) (p : Process) : Process :=
  if name ≠ none then p.close fd else p

def closeRedirects (h : Header) (o : Opened) (p : Process) : Process :=
  closeRedirect h.output o.output (closeRedirect h.input o.input p)

/-- The descriptor that the redirection of a stream has opened. -/
def ownDescriptor (name : Option Word) (fd : Int) : List Nat :=
  if name ≠ none ∧ fd ≠ -1 then [fd.toNat] else []

def ownDescriptors (h : Header) (o : Opened) : List Nat :=
  ownDescriptor h.input o.input ++ ownDescriptor h.output o.output

end Redirections

/-- How a child process ends that executes a command and exits with its status. -/
def child (x : Execution (Command × Process)) : Execution WaitStatus := do
  match ← x.attempt with
  | .ok (c, _) => pure (exitWith c.status)
  | .error status => pure status

def colonWord : Word := [chr ':']

def execWord : Word := [chr 'e', chr 'x', chr 'e', chr 'c']

/-- The standard streams between `dup2` and `execvp`. -/
def programStreams (o : Opened) : Option Description × Option Description :=
  let fds := if o.input ≠ -1 then dup2 o.process.fds o.input 0 else o.process.fds
  let fds := if o.output ≠ -1 then dup2 fds o.output 1 else fds
  (lookup fds 0, lookup fds 1)

def startProgram (word : List Word) (status : WaitStatus) (calls : List Call) (o : Opened) :
    Execution Unit :=
  let (stdin, stdout) := programStreams o
  Logged.tell (.start word status (o.call :: calls) stdin stdout)

/-- `:` returns without closing anything. After `exec` the shell itself is gone; without a program
`execvp` fails. -/
def executeSimple (w : World) (h : Header) (word : List Word) (input output : Int)
    (calls : List Call) (p : Process) : Execution (Command × Process) := do
  let o := openRedirects w h input output p
  if word.head? = some colonWord then
    Logged.tell (.colon o.process.id (ownDescriptors h o))
    pure (.simple { h with status := 0 } word, o.process)
  else if word.head? = some execWord then
    if word.tail ≠ [] then startProgram word.tail (w.ends o.process.key) calls o
    Logged.stop (w.ends o.process.key)
  else
    let status := w.ends o.process.key
    startProgram word status calls o
    pure (.simple { h with status := status.value } word, closeRedirects h o o.process.tick)

section Compound
variable (w : World)
  (exec : Command → Int → Int → List Call → Process → Execution (Command × Process))

def executeSequence (h : Header) (a b : Command) (input output : Int) (calls : List Call)
    (p : Process) : Execution (Command × Process) := do
  let (a, p) ← exec a input output calls p
  let (b, p) ← exec b input output calls p
  pure (.sequence { h with status := b.status } a b, p)

/-- Each side closes the end that it does not use. -/
def executePipe (h : Header) (a b : Command) (input output : Int) (calls : List Call)
    (p : Process) : Execution (Command × Process) := do
  let readEnd := lowestFree p.fds
  let p₁ := p.allocate (.pipe p.key .read)
  let writeEnd := lowestFree p₁.fds
  let p₂ := (p₁.allocate (.pipe p.key .write)).tick
  let left := exec a input writeEnd (⟨none, some (.pipeEnd p.key)⟩ :: calls) (p₂.fork.close readEnd)
  let right :=
    exec b readEnd output (⟨some (.pipeEnd p.key), none⟩ :: calls) (p₂.tick.fork.close writeEnd)
  let (_, status) ← (child left).both (child right)
  pure (.pipe { h with status := status.value } a (b.setStatus status.value),
    (p₂.tick.tick.close readEnd).close writeEnd)

def executeSubshell (h : Header) (body : Command) (input output : Int) (calls : List Call)
    (p : Process) : Execution (Command × Process) := do
  let o := openRedirects w h input output p
  let status ← child (exec body o.input o.output (o.call :: calls) o.process.fork)
  pure (.subshell { h with status := status.value } body, closeRedirects h o o.process.tick)

/-- The else part is `none` where the third child is null. -/
def executeIf (h : Header) (cond thenPart : Command) (elsePart : Option Command)
    (input output : Int) (calls : List Call) (p : Process) :
    Execution ((Int × Command × Command × Option Command) × Process) := do
  let o := openRedirects w h input output p
  let (cond, p) ← exec cond o.input o.output (o.call :: calls) o.process
  if cond.status = 0 then
    let (thenPart, p) ← exec thenPart o.input o.output (o.call :: calls) p
    pure ((thenPart.status, cond, thenPart, elsePart), closeRedirects h o p)
  else
    match elsePart with
    | some c =>
      let (c, p) ← exec c o.input o.output (o.call :: calls) p
      pure ((c.status, cond, thenPart, some c), closeRedirects h o p)
    | none => pure ((cond.status, cond, thenPart, none), closeRedirects h o p)

/-- Whether the loop goes on after a condition with this status. -/
def LoopType.goesOn : LoopType → Int → Bool
  | .whileCommand, status => status = 0
  | .untilCommand, status => status ≠ 0

/-- The rounds of a loop; the first component says whether the body has run. -/
def loopRounds (type : LoopType) (step : Command → Process → Execution (Command × Process)) :
    Nat → Bool → Command → Command → Process →
      Execution ((Bool × Command × Command) × Process)
  | 0, _, _, _, _ => Logged.running
  | n + 1, bodyRan, cond, body, p => do
    let (cond, p) ← step cond p
    if type.goesOn cond.status then
      let (body, p) ← step body p
      loopRounds type step n true cond body p
    else pure ((bodyRan, cond, body), p)

/-- `execute_while` and `execute_until`. -/
def executeLoop (fuel : Nat) (type : LoopType) (h : Header) (cond body : Command)
    (input output : Int) (calls : List Call) (p : Process) : Execution (Command × Process) := do
  let o := openRedirects w h input output p
  let ((bodyRan, cond, body), p) ←
    loopRounds type (fun c p => exec c o.input o.output (o.call :: calls) p) fuel false cond body
      o.process
  Logged.tell (.loopEnd bodyRan body.status cond.status)
  let status := if body.status ≠ -1 then body.status else cond.status
  pure (.loop type { h with status := status } cond body, closeRedirects h o p)

end Compound

def recursiveExecute (w : World) :
    Nat → Command → Int → Int → List Call → Process → Execution (Command × Process)
  | 0, _, _, _, _, _ => Logged.running
  | n + 1, c, input, output, calls, p =>
    match c with
    | .simple h word => executeSimple w h word input output calls p
    | .sequence h a b => executeSequence (recursiveExecute w n) h a b input output calls p
    | .pipe h a b => executePipe (recursiveExecute w n) h a b input output calls p
    | .subshell h a => executeSubshell w (recursiveExecute w n) h a input output calls p
    | .loop type h a b => executeLoop w (recursiveExecute w n) n type h a b input output calls p
    | .ifThen h a b => do
      let ((status, a, b, _), p) ←
        executeIf w (recursiveExecute w n) h a b none input output calls p
      pure (.ifThen { h with status := status } a b, p)
    | .ifElse h a b c => do
      let ((status, a, b, c'), p) ←
        executeIf w (recursiveExecute w n) h a b (some c) input output calls p
      pure (.ifElse { h with status := status } a b (c'.getD c), p)

/-- `execute_command` in the shell. -/
def executeCommand (w : World) (fuel : Nat) (c : Command) (p : Process) :
    Execution (Command × Process) :=
  recursiveExecute w fuel c (-1) (-1) [] p

/-- A shell with its three standard streams. -/
def freshShell : Process := ⟨[some (.given 0), some (.given 1), some (.given 2)], [], 0⟩

/-- Every file can be opened and every program exits with 0. -/
def kindWorld : World := ⟨fun _ => true, fun _ => .exited 0⟩

end CS111.Shell
