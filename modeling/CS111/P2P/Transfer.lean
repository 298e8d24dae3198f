import Mathlib.Data.List.Infix
import Mathlib.Logic.Relation
import CS111.P2P.MessageRoundTrip
import CS111.P2P.TaskBufferFifo
import CS111.P2P.TrackerResponse

/-!
# A file on its way from one peer to another

The copy loops of `task_upload` and `task_download` take their steps in any order, with a connection
between them that holds what was written and not yet read. The uploader closes its end when it leaves its
loop, and only then can the downloader read an end of file.
-/

namespace CS111.P2P

set_option autoImplicit false

open Relation

section Steps

inductive UploadPoint where
  | write | read
  | done (e : CopyEnd)
  deriving Repr, DecidableEq

inductive DownloadPoint where
  | read | write
  | done (e : CopyEnd)
  deriving Repr, DecidableEq

structure Uploader where
  point : UploadPoint
  session : Session

structure Downloader where
  point : DownloadPoint
  rate : RateSamples
  session : Session

def Uploader.write (fd : WriteCall) (u : Uploader) : Uploader :=
  let (ret, s) := u.session.write fd
  ⟨if ret = .tbufError then .done .aborted else .read, s⟩

def Uploader.read (evilMode : Int) (fd : ReadCall) (u : Uploader) : Uploader :=
  let (ret, s) := u.session.read fd
  ⟨if ret = .tbufError then .done .aborted
    else if ret = .tbufEnd ∧ s.task.head = s.task.tail then
      if evilMode = 4 then .write else .done .finished
    else .write, s⟩

def Downloader.read (fd : ReadCall) (d : Downloader) : Downloader :=
  let prevTail := d.session.task.tail
  let (ret, s) := d.session.read fd
  if ret = .tbufError then ⟨.done .aborted, d.rate, s⟩
  else if ret = .tbufEnd ∧ s.task.head = s.task.tail then ⟨.done .finished, d.rate, s⟩
  else
    let sample := usub32 s.task.tail prevTail
    let rate := d.rate.add sample
    if rate.avg < MIN_RATE then ⟨.done .aborted, rate, s⟩
    else if MAX_FILE_SIZE < s.task.totalWritten + sample then ⟨.done .aborted, rate, s⟩
    else ⟨.write, rate, s⟩

def Downloader.write (fd : WriteCall) (d : Downloader) : Downloader :=
  let (ret, s) := d.session.write fd
  ⟨if ret = .tbufError then .done .aborted else .read, d.rate, s⟩

def UploadPoint.ended : UploadPoint → Option CopyEnd
  | .write | .read => none
  | .done e => some e

def DownloadPoint.ended : DownloadPoint → Option CopyEnd
  | .read | .write => none
  | .done e => some e

/-- The two steps of a round. -/
def Uploader.round (evilMode : Int) (wr : WriteCall) (rd : ReadCall) (u : Uploader) : Uploader :=
  if (u.write wr).point = .read then (u.write wr).read evilMode rd else u.write wr

def Downloader.round (rd : ReadCall) (wr : WriteCall) (d : Downloader) : Downloader :=
  if (d.read rd).point = .write then (d.read rd).write wr else d.read rd

variable {evilMode : Int} {s : Session} {rate : RateSamples}

theorem uploadLoop_cons (wr : WriteCall) (rd : ReadCall) (calls : List (WriteCall × ReadCall)) :
    uploadLoop evilMode ((wr, rd) :: calls) s =
      if (Uploader.round evilMode wr rd ⟨.write, s⟩).point.ended = none then
        uploadLoop evilMode calls (Uploader.round evilMode wr rd ⟨.write, s⟩).session
      else ((Uploader.round evilMode wr rd ⟨.write, s⟩).point.ended,
        (Uploader.round evilMode wr rd ⟨.write, s⟩).session) := by
  by_cases hwrite : (s.write wr).1 = .tbufError
  · simp [uploadLoop, Uploader.round, Uploader.write, UploadPoint.ended, hwrite]
  · by_cases hread : ((s.write wr).2.read rd).1 = .tbufError
    · simp [uploadLoop, Uploader.round, Uploader.write, Uploader.read, UploadPoint.ended, hwrite, hread]
    · by_cases hend : ((s.write wr).2.read rd).1 = .tbufEnd ∧
        ((s.write wr).2.read rd).2.task.head = ((s.write wr).2.read rd).2.task.tail
      · by_cases hevil : evilMode = 4 <;>
          simp [uploadLoop, Uploader.round, Uploader.write, Uploader.read, UploadPoint.ended, hwrite, hend,
            hevil]
      · simp [uploadLoop, Uploader.round, Uploader.write, Uploader.read, UploadPoint.ended, hwrite, hread,
          hend]

theorem downloadLoop_cons (rd : ReadCall) (wr : WriteCall) (calls : List (ReadCall × WriteCall)) :
    downloadLoop ((rd, wr) :: calls) rate s =
      if (Downloader.round rd wr ⟨.read, rate, s⟩).point.ended = none then
        downloadLoop calls (Downloader.round rd wr ⟨.read, rate, s⟩).rate
          (Downloader.round rd wr ⟨.read, rate, s⟩).session
      else ((Downloader.round rd wr ⟨.read, rate, s⟩).point.ended,
        (Downloader.round rd wr ⟨.read, rate, s⟩).session) := by
  by_cases hread : (s.read rd).1 = .tbufError
  · simp [downloadLoop, Downloader.round, Downloader.read, DownloadPoint.ended, hread]
  · by_cases hend : (s.read rd).1 = .tbufEnd ∧ (s.read rd).2.task.head = (s.read rd).2.task.tail
    · simp [downloadLoop, Downloader.round, Downloader.read, DownloadPoint.ended, hend]
    · by_cases hslow : (rate.add (usub32 (s.read rd).2.task.tail s.task.tail)).avg < MIN_RATE
      · simp [downloadLoop, Downloader.round, Downloader.read, DownloadPoint.ended, hread, hend, hslow]
      · by_cases hlarge : MAX_FILE_SIZE <
          (s.read rd).2.task.totalWritten + usub32 (s.read rd).2.task.tail s.task.tail
        · simp [downloadLoop, Downloader.round, Downloader.read, DownloadPoint.ended, hread, hend, hslow,
            hlarge]
        · by_cases hwrite : ((s.read rd).2.write wr).1 = .tbufError <;>
            simp [downloadLoop, Downloader.round, Downloader.read, Downloader.write, DownloadPoint.ended,
              hread, hend, hslow, hlarge, hwrite]

end Steps

section Connection

/-- `inFlight` was written to the connection and not yet read, `rest` is what the uploader has not yet read
of its file. -/
structure Connection where
  up : Uploader
  rest : List UInt8
  inFlight : List UInt8
  down : Downloader

/-- Nothing has been read or written. -/
def Connection.start (file : List UInt8) (buf buf' : Nat → UInt8) : Connection where
  up := ⟨.write, .start ⟨buf, 0, 0, 0⟩⟩
  rest := file
  inFlight := []
  down := ⟨.read, .init, .start ⟨buf', 0, 0, 0⟩⟩

/-- A call of `read` for `n` bytes delivers the next ones of `rest`, and none of them only at the end. -/
def ReadsFrom (fd : ReadCall) (n : Nat) (rest : List UInt8) (atEnd : Prop) : Prop :=
  ∀ bytes, fd.transfer n = .ok bytes → bytes <+: rest ∧ (bytes = [] → n = 0 ∨ rest = [] ∧ atEnd)

/-- The file of an uploader in evil mode 4 begins again at its end. -/
def Connection.restAfter (evilMode : Int) (file : List UInt8) (fd : ReadCall) (c : Connection) :
    List UInt8 :=
  let (ret, s) := c.up.session.read fd
  if evilMode = 4 ∧ ret = .tbufEnd ∧ s.task.head = s.task.tail then file
  else c.rest.drop (readBytes fd c.up.session.task).length

/-- The two processes, in any order, with calls that fail or transfer less than they are asked for. -/
inductive ConnStep (evilMode : Int) (file : List UInt8) : Connection → Connection → Prop
  | sends {c : Connection} (fd : WriteCall) (h : c.up.point = .write) :
      ConnStep evilMode file c { c with
        up := c.up.write fd
        inFlight := c.inFlight ++ writtenBytes fd c.up.session.task }
  | loads {c : Connection} (fd : ReadCall) (h : c.up.point = .read)
      (hfd : ReadsFrom fd (readRegion c.up.session.task).count c.rest True) :
      ConnStep evilMode file c { c with
        up := c.up.read evilMode fd
        rest := c.restAfter evilMode file fd }
  | receives {c : Connection} (fd : ReadCall) (h : c.down.point = .read)
      (hfd : ReadsFrom fd (readRegion c.down.session.task).count c.inFlight (c.up.point.ended ≠ none)) :
      ConnStep evilMode file c { c with
        down := c.down.read fd
        inFlight := c.inFlight.drop (readBytes fd c.down.session.task).length }
  | saves {c : Connection} (fd : WriteCall) (h : c.down.point = .write) :
      ConnStep evilMode file c { c with down := c.down.write fd }

end Connection

/-! ## What has arrived -/

variable {evilMode : Int} {file rest : List UInt8} {c c' : Connection} {t : Task} {u : Uploader}
  {d : Downloader}

section Calls

theorem ReadsFrom.prefix {fd : ReadCall} {P : Prop} (h : ReadsFrom fd (readRegion t).count rest P) :
    readBytes fd t <+: rest := by
  unfold readBytes
  cases htransfer : fd.transfer (readRegion t).count with
  | error e => exact List.nil_prefix
  | ok bytes => exact (h bytes htransfer).1

/-- A read that ends with an empty buffer has come to the end of what there is. -/
theorem ReadsFrom.atEnd {fd : ReadCall} {P : Prop} (h : ReadsFrom fd (readRegion t).count rest P)
    (hret : (readToTaskbuf fd t).1 = .tbufEnd)
    (hempty : (readToTaskbuf fd t).2.head = (readToTaskbuf fd t).2.tail) :
    rest = [] ∧ P ∧ readBytes fd t = [] := by
  unfold readToTaskbuf at hret hempty
  unfold readBytes
  cases htransfer : fd.transfer (readRegion t).count with
  | error e => cases he : e.again <;> simp [htransfer, he] at hret
  | ok bytes =>
    by_cases hzero : bytes.length = 0
    · have hnil : bytes = [] := List.eq_nil_of_length_eq_zero hzero
      simp only [htransfer, hnil, List.length_nil, if_true] at hempty
      rcases (h bytes htransfer).2 hnil with hcount | ⟨hrest, hP⟩
      · rw [readRegion_count, if_pos (.inl hempty)] at hcount
        have hlt : t.tail % TASKBUFSIZ < TASKBUFSIZ := Nat.mod_lt _ (by decide)
        omega
      · exact ⟨hrest, hP, hnil⟩
    · simp [htransfer, hzero] at hret

theorem ReadsFrom.append_drop {fd : ReadCall} {P : Prop}
    (h : ReadsFrom fd (readRegion t).count rest P) :
    readBytes fd t ++ rest.drop (readBytes fd t).length = rest := by
  obtain ⟨more, hmore⟩ := h.prefix
  rw [← hmore, List.drop_left]

theorem Uploader.read_finished {fd : ReadCall} (h : (u.read evilMode fd).point = .done .finished) :
    evilMode ≠ 4 ∧ (readToTaskbuf fd u.session.task).1 = .tbufEnd ∧
      (readToTaskbuf fd u.session.task).2.head = (readToTaskbuf fd u.session.task).2.tail := by
  unfold Uploader.read at h
  by_cases herror : (u.session.read fd).1 = .tbufError
  · simp [herror] at h
  · by_cases hend : (u.session.read fd).1 = .tbufEnd ∧
      (u.session.read fd).2.task.head = (u.session.read fd).2.task.tail
    · by_cases hevil : evilMode = 4
      · simp [hend, hevil] at h
      · exact ⟨hevil, hend⟩
    · simp [herror, hend] at h

theorem Downloader.read_session (fd : ReadCall) (d : Downloader) :
    (d.read fd).session = (d.session.read fd).2 := by
  unfold Downloader.read
  simp only
  split
  · rfl
  · split
    · rfl
    · split
      · rfl
      · split <;> rfl

theorem Downloader.read_finished {fd : ReadCall} (h : (d.read fd).point = .done .finished) :
    (readToTaskbuf fd d.session.task).1 = .tbufEnd ∧
      (readToTaskbuf fd d.session.task).2.head = (readToTaskbuf fd d.session.task).2.tail := by
  unfold Downloader.read at h
  by_cases herror : (d.session.read fd).1 = .tbufError
  · simp [herror] at h
  · by_cases hend : (d.session.read fd).1 = .tbufEnd ∧
      (d.session.read fd).2.task.head = (d.session.read fd).2.task.tail
    · exact hend
    · simp only [herror, hend, if_false] at h
      split at h
      · simp at h
      · split at h <;> simp at h

end Calls

section Invariant

/-- What the two buffers and the connection hold together. -/
structure Connection.Sound (evilMode : Int) (file : List UInt8) (c : Connection) : Prop where
  upFifo : c.up.session.Fifo
  downFifo : c.down.session.Fifo
  loaded : ∃ k, c.up.session.delivered ++ c.rest = (List.replicate k file).flatten ∧
    (evilMode ≠ 4 → k = 1)
  channel : c.down.session.delivered ++ c.inFlight = c.up.session.received
  sent : c.up.point = .done .finished → c.up.session.received = file
  saved : c.down.point = .done .finished → c.up.point.ended ≠ none ∧ c.inFlight = [] ∧
    c.down.session.received = c.down.session.delivered

theorem start_sound (buf buf' : Nat → UInt8) : (Connection.start file buf buf').Sound evilMode file where
  upFifo := start_fifo ⟨buf, 0, 0, 0⟩ 0
  downFifo := start_fifo ⟨buf', 0, 0, 0⟩ 0
  loaded := ⟨1, by simp [Connection.start, Session.start], fun _ => rfl⟩
  channel := rfl
  sent h := by cases h
  saved h := by cases h

/-- The uploader does not move any more once the downloader has finished. -/
theorem Connection.Sound.not_finished (h : c.Sound evilMode file) (hup : c.up.point.ended = none) :
    c.down.point ≠ .done .finished := fun hdown => (h.saved hdown).1 hup

theorem sends_sound (h : c.Sound evilMode file) (fd : WriteCall) (hpoint : c.up.point = .write) :
    Connection.Sound evilMode file { c with
      up := c.up.write fd
      inFlight := c.inFlight ++ writtenBytes fd c.up.session.task } where
  upFifo := write_fifo h.upFifo fd
  downFifo := h.downFifo
  loaded := h.loaded
  channel := by
    show _ ++ (_ ++ _) = c.up.session.received ++ writtenBytes fd c.up.session.task
    rw [← List.append_assoc, h.channel]
  sent hfinished := by
    by_cases herror : (c.up.session.write fd).1 = .tbufError <;>
      simp [Uploader.write, herror] at hfinished
  saved hdown := absurd hdown (h.not_finished (by rw [hpoint]; rfl))

theorem loads_sound (h : c.Sound evilMode file) (fd : ReadCall) (hpoint : c.up.point = .read)
    (hfd : ReadsFrom fd (readRegion c.up.session.task).count c.rest True) :
    Connection.Sound evilMode file { c with
      up := c.up.read evilMode fd
      rest := c.restAfter evilMode file fd } where
  upFifo := read_fifo h.upFifo fd
  downFifo := h.downFifo
  loaded := by
    obtain ⟨k, hk, hone⟩ := h.loaded
    show ∃ k, c.up.session.delivered ++ readBytes fd c.up.session.task ++ _ = _ ∧ _
    unfold Connection.restAfter
    simp only
    split
    · next hagain =>
      -- The whole file has been read once more, and it begins again.
      obtain ⟨hrest, -, hnone⟩ := hfd.atEnd hagain.2.1 hagain.2.2
      refine ⟨k + 1, ?_, fun hevil => absurd hagain.1 hevil⟩
      rw [hrest, List.append_nil] at hk
      rw [hnone, List.append_nil, hk, List.replicate_succ', List.flatten_append, List.flatten_singleton]
    · refine ⟨k, ?_, hone⟩
      rw [List.append_assoc, hfd.append_drop]
      exact hk
  channel := h.channel
  sent hfinished := by
    obtain ⟨hevil, hret, hempty⟩ := Uploader.read_finished hfinished
    obtain ⟨hrest, -, hnone⟩ := hfd.atEnd hret hempty
    obtain ⟨k, hk, hone⟩ := h.loaded
    have hreceived := received_eq_of_empty (read_fifo h.upFifo fd) hempty
    have hdelivered : (c.up.session.read fd).2.delivered = c.up.session.delivered ++ [] :=
      congrArg (c.up.session.delivered ++ ·) hnone
    rw [hone hevil, hrest, List.append_nil] at hk
    show (c.up.session.read fd).2.received = file
    rw [hreceived, hdelivered, List.append_nil, hk, List.replicate_one, List.flatten_singleton]
  saved hdown := absurd hdown (h.not_finished (by rw [hpoint]; rfl))

theorem receives_sound (h : c.Sound evilMode file) (fd : ReadCall)
    (hfd : ReadsFrom fd (readRegion c.down.session.task).count c.inFlight (c.up.point.ended ≠ none)) :
    Connection.Sound evilMode file { c with
      down := c.down.read fd
      inFlight := c.inFlight.drop (readBytes fd c.down.session.task).length } where
  upFifo := h.upFifo
  downFifo := by
    show (c.down.read fd).session.Fifo
    rw [Downloader.read_session]
    exact read_fifo h.downFifo fd
  loaded := h.loaded
  channel := by
    show (c.down.read fd).session.delivered ++ _ = _
    rw [Downloader.read_session]
    show c.down.session.delivered ++ readBytes fd c.down.session.task ++ _ = _
    rw [List.append_assoc, hfd.append_drop, h.channel]
  sent := h.sent
  saved hfinished := by
    obtain ⟨hret, hempty⟩ := Downloader.read_finished hfinished
    obtain ⟨hnone, hclosed, -⟩ := hfd.atEnd hret hempty
    refine ⟨hclosed, ?_, ?_⟩
    · rw [hnone, List.drop_nil]
    · show (c.down.read fd).session.received = (c.down.read fd).session.delivered
      rw [Downloader.read_session]
      exact received_eq_of_empty (read_fifo h.downFifo fd) hempty

theorem saves_sound (h : c.Sound evilMode file) (fd : WriteCall) :
    Connection.Sound evilMode file { c with down := c.down.write fd } where
  upFifo := h.upFifo
  downFifo := write_fifo h.downFifo fd
  loaded := h.loaded
  channel := h.channel
  sent := h.sent
  saved hfinished := by
    by_cases herror : (c.down.session.write fd).1 = .tbufError <;>
      simp [Downloader.write, herror] at hfinished

theorem step_sound (h : c.Sound evilMode file) (hstep : ConnStep evilMode file c c') :
    c'.Sound evilMode file := by
  cases hstep with
  | sends fd hpoint => exact sends_sound h fd hpoint
  | loads fd hpoint hfd => exact loads_sound h fd hpoint hfd
  | receives fd hpoint hfd => exact receives_sound h fd hfd
  | saves fd hpoint => exact saves_sound h fd

theorem run_sound {buf buf' : Nat → UInt8}
    (h : ReflTransGen (ConnStep evilMode file) (.start file buf buf') c) : c.Sound evilMode file := by
  induction h with
  | refl => exact start_sound buf buf'
  | tail _ hstep ih => exact step_sound ih hstep

end Invariant

/-- In every state that the two peers come to, what has been saved is a prefix of the file (of its
repetitions, in evil mode 4). A download finishes only when the uploader has left its loop, with all
that was sent to it; this is the whole file if the uploader came to its end, and no error tells it from a
part of the file if the uploader was aborted. -/
theorem transfer_prefix {buf buf' : Nat → UInt8}
    (h : ReflTransGen (ConnStep evilMode file) (.start file buf buf') c) :
    (∃ k, c.down.session.received <+: (List.replicate k file).flatten ∧ (evilMode ≠ 4 → k = 1)) ∧
      (c.down.point = .done .finished → ∃ e, c.up.point = .done e ∧
        c.down.session.received = c.up.session.received ∧
        (e = .finished → c.down.session.received = file)) := by
  have hsound := run_sound h
  constructor
  · obtain ⟨k, hk, hone⟩ := hsound.loaded
    refine ⟨k, ?_, hone⟩
    rw [← hk]
    calc c.down.session.received <+: c.down.session.delivered :=
          ⟨_, hsound.downFifo.delivered_eq.symm⟩
      _ <+: c.up.session.received := ⟨_, hsound.channel⟩
      _ <+: c.up.session.delivered := ⟨_, hsound.upFifo.delivered_eq.symm⟩
      _ <+: c.up.session.delivered ++ c.rest := List.prefix_append _ _
  · intro hfinished
    obtain ⟨hclosed, hnone, hall⟩ := hsound.saved hfinished
    have hsent := hsound.channel
    rw [hnone, List.append_nil, ← hall] at hsent
    cases hpoint : c.up.point with
    | write => exact absurd (congrArg UploadPoint.ended hpoint) hclosed
    | read => exact absurd (congrArg UploadPoint.ended hpoint) hclosed
    | done e =>
      refine ⟨e, rfl, hsent, ?_⟩
      rintro rfl
      rw [hsent, hsound.sent hpoint]

section Run

/-- A step with the bytes that its `read` finds, or the most that its `write` takes. -/
inductive ConnCall where
  | sends (most : Nat)
  | loads (bytes : List UInt8)
  | receives (bytes : List UInt8)
  | saves (most : Nat)

/-- A call of `write` that takes `most` bytes at most. -/
def taking (most : Nat) : WriteCall where
  transfer n := .ok (min most n)
  le_asked := by
    rintro n amt h
    cases h
    exact Nat.min_le_right _ _

/-- `deliver bytes` answers `ReadsFrom`. -/
def FoundIn (bytes : List UInt8) (n : Nat) (rest : List UInt8) (atEnd : Bool) : Prop :=
  bytes.take n <+: rest ∧ (bytes.take n = [] → n = 0 ∨ rest = [] ∧ atEnd = true)

instance (bytes : List UInt8) (n : Nat) (rest : List UInt8) (atEnd : Bool) :
    Decidable (FoundIn bytes n rest atEnd) :=
  inferInstanceAs (Decidable (_ ∧ (_ → _)))

def ConnCall.next (file : List UInt8) (c : Connection) : ConnCall → Option Connection
  | .sends most =>
    if c.up.point = .write then some { c with
      up := c.up.write (taking most)
      inFlight := c.inFlight ++ writtenBytes (taking most) c.up.session.task }
    else none
  | .loads bytes =>
    if c.up.point = .read ∧ FoundIn bytes (readRegion c.up.session.task).count c.rest true then
      some { c with
        up := c.up.read 0 (deliver bytes)
        rest := c.restAfter 0 file (deliver bytes) }
    else none
  | .receives bytes =>
    if c.down.point = .read ∧ FoundIn bytes (readRegion c.down.session.task).count c.inFlight
      c.up.point.ended.isSome then some { c with
        down := c.down.read (deliver bytes)
        inFlight := c.inFlight.drop (readBytes (deliver bytes) c.down.session.task).length }
    else none
  | .saves most =>
    if c.down.point = .write then some { c with down := c.down.write (taking most) } else none

theorem FoundIn.readsFrom {bytes : List UInt8} {n : Nat} {atEnd : Bool} {P : Prop}
    (h : FoundIn bytes n rest atEnd) (hend : atEnd = true → P) : ReadsFrom (deliver bytes) n rest P := by
  intro found hfound
  rw [← Except.ok.inj hfound]
  exact h.imp_right fun hnil hempty => (hnil hempty).imp_right fun h => ⟨h.1, hend h.2⟩

theorem ConnCall.next_step {call : ConnCall} (h : call.next file c = some c') :
    ConnStep 0 file c c' := by
  cases call with
  | sends most =>
    obtain ⟨hpoint, ⟨⟩⟩ := Option.ite_none_right_eq_some.mp h
    exact .sends (taking most) hpoint
  | loads bytes =>
    obtain ⟨⟨hpoint, hfound⟩, ⟨⟩⟩ := Option.ite_none_right_eq_some.mp h
    exact .loads (deliver bytes) hpoint (hfound.readsFrom fun _ => trivial)
  | receives bytes =>
    obtain ⟨⟨hpoint, hfound⟩, ⟨⟩⟩ := Option.ite_none_right_eq_some.mp h
    exact .receives (deliver bytes) hpoint (hfound.readsFrom Option.isSome_iff_ne_none.mp)
  | saves most =>
    obtain ⟨hpoint, ⟨⟩⟩ := Option.ite_none_right_eq_some.mp h
    exact .saves (taking most) hpoint

theorem calls_run {calls : List ConnCall} (h : calls.foldlM (ConnCall.next file) c = some c') :
    ReflTransGen (ConnStep 0 file) c c' := by
  induction calls generalizing c with
  | nil => exact Option.some.inj h ▸ .refl
  | cons call calls ih =>
    rw [List.foldlM_cons] at h
    obtain ⟨d, hd, hrest⟩ := Option.bind_eq_some_iff.mp h
    exact .head (ConnCall.next_step hd) (ih hrest)

/-- Three bytes go in two parts, which the downloader reads and saves in other ones, until both loops have
come to their ends. -/
def threeBytes : List ConnCall :=
  [.sends 5, .loads [1, 2], .sends 5, .receives [1], .loads [3], .saves 5, .sends 5, .receives [2, 3],
    .loads [], .saves 1, .receives [], .saves 5, .receives []]

theorem transfer_prefix_three : ∃ c, ReflTransGen (ConnStep 0 [1, 2, 3])
    (.start [1, 2, 3] (fun _ => 0) fun _ => 0) c ∧ c.down.point = .done .finished ∧
      c.up.point = .done .finished ∧ c.down.session.received = [1, 2, 3] := by
  obtain ⟨c, hcalls, hends⟩ := (Option.any_eq_true _ _).mp
    (show (threeBytes.foldlM (ConnCall.next [1, 2, 3]) (.start [1, 2, 3] (fun _ => 0) fun _ => 0)).any
      (fun c => decide (c.down.point = .done .finished ∧ c.up.point = .done .finished)) = true by
        decide +kernel)
  obtain ⟨hdown, hup⟩ := of_decide_eq_true hends
  have hrun := calls_run hcalls
  obtain ⟨-, hfinished⟩ := transfer_prefix hrun
  obtain ⟨e, he, -, hall⟩ := hfinished hdown
  rw [hup] at he
  cases he
  exact ⟨c, hrun, hdown, hup, hall rfl⟩

end Run

end CS111.P2P
