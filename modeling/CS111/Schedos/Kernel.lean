import CS111.Lib.Passes
import CS111.Lib.RoundRobin
import CS111.Lib.Words

/-!
# The SchedOS kernel

The table of the processes, the five scheduling algorithms and the interrupts. Registers are saved
and restored as they are, and stand here only where a call passes a value in `%eax`.
-/

namespace CS111.Schedos

set_option autoImplicit false

/-- An index of `proc_array`, which has `NPROCS` entries. Entry 0 is never used. -/
abbrev Pid := Fin 5

inductive ProcState where
  | empty | runnable | blocked | zombie
  deriving Repr, DecidableEq

structure Process where
  state : ProcState
  exitStatus : UInt32
  priority : Int
  share : Int
  shareRuns : Int
  queue : Int
  deriving Repr, DecidableEq

structure Kernel where
  procArray : Pid → Process
  current : Pid
  schedulingAlgorithm : Int
  multiLevelQueue : Bool

namespace Kernel
variable (k : Kernel) (p : Pid)

def state : ProcState := (k.procArray p).state

def priority : Int := (k.procArray p).priority

def share : Int := (k.procArray p).share

def shareRuns : Int := (k.procArray p).shareRuns

def queue : Int := (k.procArray p).queue

def modify (f : Process → Process) : Kernel :=
  { k with procArray := fun q => if q = p then f (k.procArray q) else k.procArray q }

def setState (s : ProcState) : Kernel := k.modify p fun proc => { proc with state := s }

def setShareRuns (v : Int) : Kernel := k.modify p fun proc => { proc with shareRuns := v }

def runnable : Bool := k.state p == .runnable

/-- The test that leaves out a process which has exited. -/
def ended : Bool := k.state p == .zombie || k.state p == .empty

end Kernel

/-- The loops `for (i = 1; i < NPROCS; i++)`. -/
def processes : List Pid := [1, 2, 3, 4]

def run (k : Kernel) (p : Pid) : Kernel := { k with current := p }

/-- Back to algorithm 4 after the multi-level queue has chosen a queue. -/
def redirected (k : Kernel) : Kernel :=
  if k.multiLevelQueue then { k with schedulingAlgorithm := 4 } else k

/-- Algorithm 0. -/
def roundRobin (fuel : Nat) (k : Kernel) : Option Kernel :=
  (RoundRobin.seek k.runnable fuel k.current).map (run (redirected k))

/-- Algorithm 1. A pass over the table that finds no process is repeated for ever. -/
def lowestPid (k : Kernel) : Option Kernel :=
  (processes.find? k.runnable).map (run (redirected k))

/-- The loop that is to step over an exited process tests `pid` and steps `i`. -/
def startOfPriorities (k : Kernel) (pid : Pid) : Nat → Pid → Option Pid
  | 0, _ => none
  | fuel + 1, i => if k.ended pid then startOfPriorities k pid fuel (i + 1) else some i

/-- Algorithm 2. -/
def byPriority (fuel : Nat) (k : Kernel) : Option Kernel :=
  match startOfPriorities k k.current fuel k.current with
  | none => none
  | some i =>
    let smallest := lowest k.runnable k.priority (k.priority i) processes
    (RoundRobin.seek (fun p => k.runnable p && decide (k.priority p ≤ smallest)) fuel k.current).map
      (run k)

/-- Algorithm 3, from `pid` on. -/
def byShare : Nat → Kernel → Pid → Option Kernel
  | 0, _, _ => none
  | fuel + 1, k, pid =>
    if k.runnable pid then
      if k.share pid ≤ k.shareRuns pid then byShare fuel (k.setShareRuns pid 0) (pid + 1)
      else some (run (k.setShareRuns pid (k.shareRuns pid + 1)) pid)
    else byShare fuel k (pid + 1)

def skipEnded (k : Kernel) : Nat → Pid → Option Pid
  | 0, _ => none
  | fuel + 1, pid => if k.ended pid then skipEnded k fuel (pid + 1) else some pid

/-- The pass that makes the blocked processes runnable and finds the lowest queue number. -/
def lowestQueue : Kernel × Int → List Pid → Kernel × Int
  | r, [] => r
  | (k, smallest), i :: l =>
    let k := if k.state i = .blocked then k.setState i .runnable else k
    lowestQueue (k, if k.runnable i ∧ k.queue i < smallest then k.queue i else smallest) l

/-- The pass that blocks the processes of the other queues. -/
def blockOthers (smallest : Int) : Kernel → List Pid → Kernel
  | k, [] => k
  | k, i :: l =>
    blockOthers smallest
      (if k.runnable i ∧ k.queue i ≠ smallest then k.setState i .blocked else k) l

/-- The queue that algorithm 4 chooses, and the kernel with the other queues blocked. -/
def chooseQueue (fuel : Nat) (k : Kernel) : Option (Kernel × Int) :=
  match skipEnded k fuel k.current with
  | none => none
  | some pid =>
    let (k, smallest) := lowestQueue (k, k.queue pid) processes
    some (blockOthers smallest k processes, smallest)

/-- `some` is a call of `run`. Where a loop goes on for ever, and after the error messages, there is
none however much fuel there is. -/
def schedule : Nat → Kernel → Option Kernel
  | 0, _ => none
  | fuel + 1, k =>
    if k.schedulingAlgorithm = 0 then roundRobin (fuel + 1) k
    else if k.schedulingAlgorithm = 1 then lowestPid k
    else if k.schedulingAlgorithm = 2 then byPriority (fuel + 1) k
    else if k.schedulingAlgorithm = 3 then byShare (fuel + 1) k k.current
    else if k.schedulingAlgorithm = 4 then
      match chooseQueue (fuel + 1) k with
      | none => none
      | some (k, smallest) =>
        if smallest = 0 ∨ smallest = 1 then
          schedule fuel { k with schedulingAlgorithm := smallest }
        else none
    else none

/-- The interrupts, with the value that a call passes in `%eax`. -/
inductive Event where
  | yield
  | exit (v : UInt32)
  | priority (v : UInt32)
  | share (v : UInt32)
  | queue (v : UInt32)
  | clock
  deriving Repr, DecidableEq

def int32 (v : UInt32) : Int := toInt32 v.toNat

/-- The kernel with which an interrupt enters `schedule`, if it does. -/
def entered (k : Kernel) : Event → Option Kernel
  | .yield | .clock => some k
  | .exit v =>
    some (k.modify k.current fun proc => { proc with state := .zombie, exitStatus := v })
  | _ => none

def interrupt (fuel : Nat) (k : Kernel) : Event → Option Kernel
  | .priority v => some (run (k.modify k.current ({ · with priority := int32 v })) k.current)
  | .share v => some (run (k.modify k.current ({ · with share := int32 v })) k.current)
  | .queue v => some (run (k.modify k.current ({ · with queue := int32 v })) k.current)
  | e => (entered k e).bind (schedule fuel)

def Step (k : Kernel) (e : Event) (k' : Kernel) : Prop := ∃ fuel, interrupt fuel k e = some k'

/-- The kernel when process 1 runs for the first time. -/
def start (schedulingAlgorithm : Int) : Kernel where
  procArray p :=
    { state := if p = 0 then .empty else .runnable
      exitStatus := 0
      priority := 0
      share := 0
      shareRuns := if p = 1 then 1 else 0
      queue := if p = 2 ∨ p = 4 then 1 else 0 }
  current := 1
  schedulingAlgorithm := schedulingAlgorithm
  multiLevelQueue := schedulingAlgorithm = 4

end CS111.Schedos
