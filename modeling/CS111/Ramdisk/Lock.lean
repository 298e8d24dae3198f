import Mathlib.Data.List.Sort
import Mathlib.Logic.Function.Basic
import CS111.Lib.Run
import CS111.Lib.Words

/-!
# The ramdisk lock

`osprd_ioctl` and `osprd_close_last`, cut into their critical sections. One action of the model
is one section between `osp_spin_lock` and `osp_spin_unlock`, one evaluation of a wait
condition, which the code makes without the mutex, or a signal. A file may be used by any
process, as after `fork` or `dup`.
-/

namespace CS111.Ramdisk

set_option autoImplicit false

abbrev Pid := Nat
abbrev FileId := Nat

def EBUSY : Int := 16
def EINVAL : Int := 22
def EDEADLK : Int := 35
def ERESTARTSYS : Int := 512

structure Device where
  ticketHead : Nat
  ticketTail : Nat
  numReaders : Nat
  readers : List Pid
  writer : Int
  terminatedTickets : List Int
  deriving Repr, DecidableEq

/-- `locked` is the flag `F_OSPRD_LOCKED` of `f_flags`. -/
structure File where
  opened : Bool
  readable : Bool
  writable : Bool
  locked : Bool
  deriving Repr, DecidableEq

def osprdSetup : Device := ⟨0, 0, 0, [], -1, []⟩

def canWrite (d : Device) : Bool := d.numReaders == 0 && decide (d.writer < 0)

def canRead (d : Device) : Bool := decide (d.writer < 0)

/-- The new node goes before the first one whose `t_num` is not smaller. -/
def terminateTicket (d : Device) (ticket : Nat) : Device :=
  { d with terminatedTickets := d.terminatedTickets.orderedInsert (· ≤ ·) (toInt32 ticket) }

/-- The loop of `can_run_ticket`: one pass over the list, moving `ticket_tail` on. -/
def skipTerminated (ticket : Int) : List Int → Nat → Nat
  | [], tail => tail
  | curr :: rest, tail =>
    if curr < ticket then
      skipTerminated ticket rest (if ofInt32 curr = tail then u32 (tail + 1) else tail)
    else tail

def canRunTicket (d : Device) (ticket : Nat) : Bool × Device :=
  let tail := skipTerminated (toInt32 ticket) d.terminatedTickets d.ticketTail
  (ticket == tail, { d with ticketTail := tail })

/-- The two lock parts of an ioctl, the first for a file open for writing. -/
inductive Kind where
  | write | read
  deriving Repr, DecidableEq

inductive Request where
  | acquire | tryAcquire
  deriving Repr, DecidableEq

def available : Kind → Device → Bool
  | .write, d => canWrite d
  | .read, d => canRead d

/-- `can_write(d) && can_run_ticket(d, ticket)` or `can_read(d) && …`; the ticket is looked at,
and `ticket_tail` moved, only when the first conjunct holds. -/
def ready (k : Kind) (d : Device) (ticket : Nat) : Bool × Device :=
  if available k d then canRunTicket d ticket else (false, d)

def getLock (k : Kind) (pid : Pid) (d : Device) : Device :=
  match k with
  | .write => { d with writer := pid, ticketTail := u32 (d.ticketTail + 1) }
  | .read => { d with
      readers := pid :: d.readers
      numReaders := d.numReaders + 1
      ticketTail := u32 (d.ticketTail + 1) }

/-- The traversal that removes the readers with the given pid, and how often it decrements
`num_readers`. `prevUnlinked` says that the node before was just taken out of the list: the code
then writes to the freed node, and the current one, freed as well, stays in the list. -/
def removeReaders (pid : Pid) : Bool → List Pid → List Pid × Nat
  | _, [] => ([], 0)
  | prevUnlinked, curr :: rest =>
    let (kept, n) := removeReaders pid (curr == pid && !prevUnlinked) rest
    if curr = pid then (if prevUnlinked then curr :: kept else kept, n + 1)
    else (curr :: kept, n)

def dropLock (file : File) (pid : Pid) (d : Device) : Device :=
  let d := if file.writable then { d with writer := -1 } else d
  if file.readable then
    { d with
      readers := (removeReaders pid false d.readers).1
      numReaders := d.numReaders - (removeReaders pid false d.readers).2 }
  else d

/-- Where a process is. `user r` is outside the driver, after a call that returned `r`; the
other points name the section that comes next. -/
inductive Point where
  | user (ret : Int)
  | check (k : Kind) (f : FileId) (ticket : Nat)
  | loop (k : Kind) (f : FileId) (ticket : Nat)
  | wait (k : Kind) (f : FileId) (ticket : Nat) (asleep : Bool)
  | interrupted (k : Kind) (f : FileId) (ticket : Nat)
  | tryLock (k : Kind) (f : FileId) (ticket : Nat)
  deriving Repr, DecidableEq

def Point.isUser : Point → Bool
  | .user _ => true
  | _ => false

def Point.atSection : Point → Bool
  | .user _ | .wait _ _ _ _ => false
  | _ => true

/-- The ioctl a process is in: the lock part, the file and the ticket. -/
def Point.inside : Point → Option (Kind × FileId × Nat)
  | .user _ => none
  | .check k f t | .loop k f t | .wait k f t _ | .interrupted k f t | .tryLock k f t => some (k, f, t)

def Point.awake : Point → Point
  | .wait k f t _ => .wait k f t false
  | pt => pt

inductive Event where
  | issued (ticket : Nat)
  | granted (ticket : Nat)
  | terminated (ticket : Nat)
  deriving Repr, DecidableEq

/-- One device, its files, the processes, and the history of its tickets, oldest first. -/
structure State where
  dev : Device
  files : FileId → File
  procs : Pid → Point
  log : List Event

def State.init : State :=
  ⟨osprdSetup, fun _ => ⟨false, false, false, false⟩, fun _ => .user 0, []⟩

def State.goto (s : State) (p : Pid) (pt : Point) : State :=
  { s with procs := Function.update s.procs p pt }

def State.setLocked (s : State) (f : FileId) (locked : Bool) : State :=
  { s with files := Function.update s.files f { s.files f with locked := locked } }

/-- `wake_up_all(&d->blockq)`. -/
def State.wakeUpAll (s : State) : State := { s with procs := fun p => (s.procs p).awake }

/-- Terminate the ticket and leave the ioctl with a negative result. -/
def State.abandon (s : State) (p : Pid) (ticket : Nat) (errno : Int) : State :=
  { s.goto p (.user (-errno)) with
    dev := terminateTicket s.dev ticket
    log := s.log ++ [.terminated ticket] }

def lockPart (r : Request) (k : Kind) (f : FileId) (ticket : Nat) : Point :=
  match r with
  | .acquire => .check k f ticket
  | .tryAcquire => .tryLock k f ticket

/-- The second `if` of the ioctl. It is not an `else` of the first one. -/
def readPart (r : Request) (file : File) (f : FileId) (ticket : Nat) : Point :=
  if file.readable then lockPart r .read f ticket else .user 0

def writePart (r : Request) (file : File) (f : FileId) (ticket : Nat) : Point :=
  if file.writable then lockPart r .write f ticket else readPart r file f ticket

def afterGrant (r : Request) (k : Kind) (file : File) (f : FileId) (ticket : Nat) : Point :=
  match k with
  | .write => readPart r file f ticket
  | .read => .user 0

def State.grant (s : State) (r : Request) (k : Kind) (p : Pid) (f : FileId) (ticket : Nat) : State :=
  { (s.setLocked f true).goto p (afterGrant r k (s.files f) f ticket) with
    dev := getLock k p s.dev
    log := s.log ++ [.granted ticket] }

def Request.failure : Request → Int
  | .acquire => EDEADLK
  | .tryAcquire => EBUSY

/-- The first section of both lock requests: take a ticket, refuse a process that already
holds the write lock. -/
def State.beginLock (s : State) (r : Request) (p : Pid) (f : FileId) : State :=
  let ticket := s.dev.ticketHead
  let s := { s with
    dev := { s.dev with ticketHead := u32 (ticket + 1) }
    log := s.log ++ [Event.issued ticket] }
  if (p : Int) = s.dev.writer then s.abandon p ticket r.failure
  else s.goto p (writePart r (s.files f) f ticket)

/-- The locked part of `OSPRDIOCRELEASE` and of `osprd_close_last`. -/
def State.unlock (s : State) (p : Pid) (f : FileId) : State :=
  { (s.setLocked f false).wakeUpAll with dev := dropLock (s.files f) p s.dev }

def State.release (s : State) (p : Pid) (f : FileId) : State :=
  if (s.files f).locked then (s.unlock p f).goto p (.user 0)
  else s.goto p (.user (-EINVAL))

def State.closeLast (s : State) (p : Pid) (f : FileId) : State :=
  let s := if (s.files f).locked then s.unlock p f else s
  { s with files := Function.update s.files f { s.files f with opened := false } }

/-- The section a process is about to enter. -/
def State.runSection (s : State) (p : Pid) : State :=
  match s.procs p with
  | .user _ | .wait _ _ _ _ => s
  | .check k f ticket =>
    if p ∈ s.dev.readers then s.abandon p ticket EDEADLK else s.goto p (.loop k f ticket)
  | .loop k f ticket =>
    let (now, dev) := ready k s.dev ticket
    if now then { s with dev := dev }.grant .acquire k p f ticket
    else { s with dev := dev }.goto p (.wait k f ticket false)
  | .interrupted _ _ ticket => s.abandon p ticket ERESTARTSYS
  | .tryLock k f ticket =>
    if p ∈ s.dev.readers then s.abandon p ticket EBUSY
    else
      let (now, dev) := ready k s.dev ticket
      if now then { s with dev := dev }.grant .tryAcquire k p f ticket
      else { s with dev := dev }.abandon p ticket EBUSY

/-- One evaluation of the condition of `wait_event_interruptible`. -/
def State.evaluate (s : State) (p : Pid) (signalPending : Bool) : State :=
  match s.procs p with
  | .wait k f ticket _ =>
    let (now, dev) := ready k s.dev ticket
    { s with dev := dev }.goto p
      (if now then .loop k f ticket
       else if signalPending then .interrupted k f ticket
       else .wait k f ticket true)
  | _ => s

inductive Action where
  | openFile (f : FileId) (readable writable : Bool)
  | request (r : Request) (p : Pid) (f : FileId)
  | release (p : Pid) (f : FileId)
  | closeLast (p : Pid) (f : FileId)
  | runSection (p : Pid)
  | evaluate (p : Pid) (signalPending : Bool)
  | signal (p : Pid)
  deriving Repr, DecidableEq

def next (s : State) : Action → State
  | .openFile f r w => { s with files := Function.update s.files f ⟨true, r, w, false⟩ }
  | .request r p f => s.beginLock r p f
  | .release p f => s.release p f
  | .closeLast p f => s.closeLast p f
  | .runSection p => s.runSection p
  | .evaluate p signalPending => s.evaluate p signalPending
  | .signal p => s.goto p (s.procs p).awake

/-- No ioctl on the file is in progress: each holds a reference to it. -/
def State.Unused (s : State) (f : FileId) : Prop :=
  ∀ q k g t, (s.procs q).inside = some (k, g, t) → g ≠ f

def Enabled (s : State) : Action → Prop
  | .openFile f _ _ => (s.files f).opened = false ∧ s.Unused f
  | .request _ p f => (s.files f).opened = true ∧ (s.procs p).isUser = true
  | .release p f => (s.files f).opened = true ∧ (s.procs p).isUser = true
  | .closeLast p f => (s.files f).opened = true ∧ (s.procs p).isUser = true ∧ s.Unused f
  | .runSection p => (s.procs p).atSection = true
  | .evaluate p _ => ∃ k f t, s.procs p = .wait k f t false
  | .signal p => ∃ k f t, s.procs p = .wait k f t true

def Step (s : State) (a : Action) (t : State) : Prop := Enabled s a ∧ t = next s a

def Event.isIssue : Event → Bool
  | .issued _ => true
  | _ => false

/-- The tickets issued so far. -/
def State.issued (s : State) : Nat := s.log.countP Event.isIssue

end CS111.Ramdisk
