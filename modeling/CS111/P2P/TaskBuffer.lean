import CS111.Lib.Memory
import CS111.Lib.Words

/-!
# The task buffer of a peer

`read_to_taskbuf` and `write_from_taskbuf`, and the two copy loops built on them. A call of
`read` or `write` is the answer it gives to every length it may be asked for, so one value
stands for one call whatever the state of the buffer is when it is made.
-/

namespace CS111.P2P

set_option autoImplicit false

open Memory

def TASKBUFSIZ : Nat := 32768
def FILENAMESIZ : Nat := 256
def MAX_FILE_SIZE : Nat := TASKBUFSIZ * FILENAMESIZ
def MAX_SAMPLES : Nat := 10
def MIN_RATE : Nat := 32

inductive Errno where
  | EINTR | EAGAIN | EWOULDBLOCK | other
  deriving Repr, DecidableEq

def Errno.again : Errno → Bool
  | .EINTR | .EAGAIN | .EWOULDBLOCK => true
  | .other => false

/-- One call of `read`: the bytes it delivers when asked for `n` of them, or an error. -/
structure ReadCall where
  transfer : Nat → Except Errno (List UInt8)
  le_asked : ∀ {n bytes}, transfer n = .ok bytes → bytes.length ≤ n

/-- One call of `write`: how many of the `n` bytes offered it takes, or an error. -/
structure WriteCall where
  transfer : Nat → Except Errno Nat
  le_asked : ∀ {n amt}, transfer n = .ok amt → amt ≤ n

inductive TaskBufResult where
  | tbufError | tbufEnd | tbufOk | tbufAgain
  deriving Repr, DecidableEq

structure Task where
  buf : Nat → UInt8
  head : Nat
  tail : Nat
  totalWritten : Nat

/-- The cells of `buf` a system call is given: `count` of them from `pos` on. -/
structure Region where
  pos : Nat
  count : Nat
  deriving Repr, DecidableEq

def Region.Inside (r : Region) : Prop := r.pos + r.count ≤ TASKBUFSIZ

def readRegion (t : Task) : Region :=
  let headpos := t.head % TASKBUFSIZ
  let tailpos := t.tail % TASKBUFSIZ
  if t.head = t.tail ∨ headpos < tailpos then ⟨tailpos, TASKBUFSIZ - tailpos⟩
  else ⟨tailpos, headpos - tailpos⟩

def writeRegion (t : Task) : Region :=
  let headpos := t.head % TASKBUFSIZ
  let tailpos := t.tail % TASKBUFSIZ
  if headpos < tailpos then ⟨headpos, tailpos - headpos⟩
  else ⟨headpos, TASKBUFSIZ - headpos⟩

def readToTaskbuf (fd : ReadCall) (t : Task) : TaskBufResult × Task :=
  match fd.transfer (readRegion t).count with
  | .error e => if e.again then (.tbufAgain, t) else (.tbufError, t)
  | .ok bytes =>
    if bytes.length = 0 then (.tbufEnd, t)
    else (.tbufOk, { t with
      buf := store t.buf (readRegion t).pos bytes
      tail := u32 (t.tail + bytes.length) })

/-- `write` is not called at all on an empty buffer. -/
def writeFromTaskbuf (fd : WriteCall) (t : Task) : TaskBufResult × Task :=
  if t.head = t.tail then (.tbufEnd, t)
  else match fd.transfer (writeRegion t).count with
    | .error e => if e.again then (.tbufAgain, t) else (.tbufError, t)
    | .ok amt =>
      if amt = 0 then (.tbufEnd, t)
      else (.tbufOk, { t with
        head := u32 (t.head + amt)
        totalWritten := t.totalWritten + amt })

/-- The bytes the source hands over in one call of `readToTaskbuf`. -/
def readBytes (fd : ReadCall) (t : Task) : List UInt8 :=
  match fd.transfer (readRegion t).count with
  | .error _ => []
  | .ok bytes => bytes

/-- The bytes the destination takes in one call of `writeFromTaskbuf`. -/
def writtenBytes (fd : WriteCall) (t : Task) : List UInt8 :=
  if t.head = t.tail then []
  else match fd.transfer (writeRegion t).count with
    | .error _ => []
    | .ok amt => load t.buf (writeRegion t).pos amt

/-- A task together with what its source has delivered and its destination has received. -/
structure Session where
  task : Task
  delivered : List UInt8
  received : List UInt8

def Session.start (t : Task) : Session := ⟨t, [], []⟩

def Session.read (fd : ReadCall) (s : Session) : TaskBufResult × Session :=
  ((readToTaskbuf fd s.task).1,
    { s with task := (readToTaskbuf fd s.task).2
             delivered := s.delivered ++ readBytes fd s.task })

def Session.write (fd : WriteCall) (s : Session) : TaskBufResult × Session :=
  ((writeFromTaskbuf fd s.task).1,
    { s with task := (writeFromTaskbuf fd s.task).2
             received := s.received ++ writtenBytes fd s.task })

inductive Call where
  | read (fd : ReadCall)
  | write (fd : WriteCall)

def Session.call (s : Session) : Call → Session
  | .read fd => (s.read fd).2
  | .write fd => (s.write fd).2

def Session.run (s : Session) (calls : List Call) : Session := calls.foldl Session.call s

/-- How a copy loop ends: at the end of the file, or through its error label. -/
inductive CopyEnd where
  | finished | aborted
  deriving Repr, DecidableEq

/-- The copy loop of `task_upload`; `none` means that it is still running when the listed
calls have been made. In evil mode 4 the end of the file only rewinds the source. -/
def uploadLoop (evilMode : Int) : List (WriteCall × ReadCall) → Session → Option CopyEnd × Session
  | [], s => (none, s)
  | (wr, rd) :: calls, s =>
    let (ret, s) := s.write wr
    if ret = .tbufError then (some .aborted, s)
    else
      let (ret, s) := s.read rd
      if ret = .tbufError then (some .aborted, s)
      else if ret = .tbufEnd ∧ s.task.head = s.task.tail then
        if evilMode = 4 then uploadLoop evilMode calls s else (some .finished, s)
      else uploadLoop evilMode calls s

/-- The rate samples of `task_download`. -/
structure RateSamples where
  sampleIndex : Nat
  rateSamples : List Nat

def RateSamples.init : RateSamples := ⟨0, List.replicate MAX_SAMPLES (8 * MIN_RATE)⟩

def RateSamples.add (r : RateSamples) (sample : Nat) : RateSamples :=
  ⟨(r.sampleIndex + 1) % MAX_SAMPLES, r.rateSamples.set r.sampleIndex sample⟩

def RateSamples.avg (r : RateSamples) : Nat :=
  r.rateSamples.foldl (fun sum sample => u32 (sum + sample)) 0 / MAX_SAMPLES

/-- The copy loop of `task_download`. A slow peer and a file that is too large both leave it
through the label `try_again`. -/
def downloadLoop : List (ReadCall × WriteCall) → RateSamples → Session → Option CopyEnd × Session
  | [], _, s => (none, s)
  | (rd, wr) :: calls, rate, s =>
    let prevTail := s.task.tail
    let (ret, s) := s.read rd
    if ret = .tbufError then (some .aborted, s)
    else if ret = .tbufEnd ∧ s.task.head = s.task.tail then (some .finished, s)
    else
      let sample := usub32 s.task.tail prevTail
      let rate := rate.add sample
      if rate.avg < MIN_RATE then (some .aborted, s)
      else if MAX_FILE_SIZE < s.task.totalWritten + sample then (some .aborted, s)
      else
        let (ret, s) := s.write wr
        if ret = .tbufError then (some .aborted, s)
        else downloadLoop calls rate s

end CS111.P2P
