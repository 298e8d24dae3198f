import CS111.Lib.RoundRobin
import CS111.Lib.Words

/-!
# The MiniprocOS kernel

The table of the processes and the system calls that work on it. Of the registers only those stand
here that a call reads or writes; the others are saved, restored and copied with them.
-/

namespace CS111.Mpos

set_option autoImplicit false

/-- An index of `proc_array`, which has `NPROCS` entries. Entry 0 is never used. -/
abbrev Pid := Fin 16

inductive ProcState where
  | empty | runnable | blocked | zombie
  deriving Repr, DecidableEq

structure Registers where
  eax : UInt32
  eip : UInt32
  esp : UInt32
  deriving Repr, DecidableEq

/-- `p_pid` is the index, and `p_wait` is 0 where nobody waits. -/
structure Process where
  registers : Registers
  state : ProcState
  exitStatus : UInt32
  wait : Pid
  deriving Repr, DecidableEq

structure Kernel where
  procArray : Pid → Process
  current : Pid

namespace Kernel
variable (k : Kernel) (p : Pid)

def state : ProcState := (k.procArray p).state

def eax : UInt32 := (k.procArray p).registers.eax

def exitStatus : UInt32 := (k.procArray p).exitStatus

def wait : Pid := (k.procArray p).wait

def modify (f : Process → Process) : Kernel :=
  { k with procArray := fun q => if q = p then f (k.procArray q) else k.procArray q }

def setState (s : ProcState) : Kernel := k.modify p fun proc => { proc with state := s }

/-- The running process is given the registers that its call saved. -/
def saved (reg : Registers) : Kernel := k.modify k.current fun proc => { proc with registers := reg }

def setEax (v : UInt32) : Kernel :=
  k.modify p fun proc => { proc with registers := { proc.registers with eax := v } }

def setExitStatus (v : UInt32) : Kernel := k.modify p fun proc => { proc with exitStatus := v }

def setWait (w : Pid) : Kernel := k.modify p fun proc => { proc with wait := w }

end Kernel

/-- `-1` as the `int` of a register. -/
def minusOne : UInt32 := 0xffffffff

def pidWord (p : Pid) : UInt32 := UInt32.ofNat p

/-- The process of a `pid_t`, which is signed, unless it is out of range. -/
def inRange (v : UInt32) : Option Pid :=
  let p := toInt32 v.toNat
  if h : 0 < p ∧ p < 16 then some ⟨p.toNat, by omega⟩ else none

/-- Where the stack of a process starts to grow down. -/
def stackTop (p : Pid) : UInt32 := 0x280000 + pidWord p * 0x040000

def run (k : Kernel) (p : Pid) : Kernel := { k with current := p }

/-- `none` is the loop that goes round for ever, as one round without a runnable process is like the
next. -/
def schedule (k : Kernel) : Option Kernel :=
  (RoundRobin.seek (fun p => k.state p == .runnable) 16 k.current).map (run k)

def firstEmpty (k : Kernel) : Option Pid :=
  (List.finRange 16).tail.find? fun p => k.state p == .empty

/-- What `do_fork` and `do_thread` give the child: its `p_wait` keeps its value. -/
def spawn (k : Kernel) (child : Pid) (reg : Registers) : Kernel :=
  k.modify child fun proc =>
    { proc with registers := { reg with eax := 0 }, state := .runnable, exitStatus := 0 }

def doFork (k : Kernel) (parent : Pid) : Kernel × UInt32 :=
  match firstEmpty k with
  | none => (k, minusOne)
  | some child =>
    let reg := (k.procArray parent).registers
    let destStackBottom := stackTop child + (reg.esp - stackTop parent)
    (spawn k child { reg with esp := destStackBottom }, pidWord child)

def doThread (k : Kernel) (parent : Pid) : Kernel × UInt32 :=
  match firstEmpty k with
  | none => (k, minusOne)
  | some child =>
    let reg := (k.procArray parent).registers
    (spawn k child { reg with eip := reg.eax, esp := stackTop child }, pidWord child)

/-- The end of a process, by `sys_exit` or by `sys_kill`. -/
def endProcess (k : Kernel) (t : Pid) (status : UInt32) : Option Kernel :=
  let k := (k.setState t .zombie).setExitStatus t status
  let w := k.wait t
  if w ≠ 0 then some (run (((k.setState w .runnable).setEax w (k.exitStatus t)).setState t .empty) w)
  else schedule k

/-- Neither `schedule` nor `run` returns, so `do_kill` does not, and `retval` reaches nobody. -/
def doKill (k : Kernel) (caller : Pid) : Option Kernel :=
  match inRange (k.eax caller) with
  | none => schedule k
  | some p => if k.state p = .empty then schedule k else endProcess k p minusOne

def doWait (k : Kernel) : Option Kernel :=
  match inRange (k.eax k.current) with
  | none => schedule (k.setEax k.current minusOne)
  | some p =>
    if p = k.current ∨ k.state p = .empty then schedule (k.setEax k.current minusOne)
    else if k.state p = .zombie then
      -- the line that is to kill the zombie compares its state with `P_EMPTY`
      schedule (k.setEax k.current (k.exitStatus p))
    else schedule ((k.setState k.current .blocked).setWait p k.current)

inductive Syscall where
  | thread | kill | getpid | fork | yield | exit | wait
  deriving Repr, DecidableEq

def interrupt (k : Kernel) (reg : Registers) (call : Syscall) : Option Kernel :=
  let k := k.saved reg
  match call with
  | .thread =>
    let (k, pid) := doThread k k.current
    some (run (k.setEax k.current pid) k.current)
  | .kill => doKill k k.current
  | .getpid => some (run (k.setEax k.current (pidWord k.current)) k.current)
  | .fork =>
    let (k, pid) := doFork k k.current
    some (run (k.setEax k.current pid) k.current)
  | .yield => schedule k
  | .exit => endProcess k k.current (k.eax k.current)
  | .wait => doWait k

/-- The kernel when the first process runs for the first time. -/
def start (entryPoint : UInt32) : Kernel where
  procArray p :=
    if p = 1 then ⟨⟨0, entryPoint, 0x280000 + 0x040000⟩, .runnable, 0, 0⟩
    else ⟨⟨0, 0, 0⟩, .empty, 0, 0⟩
  current := 1

/-- A system call of the running process, whose registers may have any values. -/
structure Call where
  reg : Registers
  call : Syscall
  deriving Repr, DecidableEq

/-- A call with this `%eax`. -/
def Call.of (call : Syscall) (eax : UInt32) : Call := ⟨⟨eax, 0, 0⟩, call⟩

def Kernel.next (k : Kernel) (e : Call) : Option Kernel := interrupt k e.reg e.call

def Step (k : Kernel) (e : Call) (k' : Kernel) : Prop := k.next e = some k'

end CS111.Mpos
