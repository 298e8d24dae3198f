import CS111.Lib.Ring
import CS111.P2P.TaskBuffer

/-!
# The task buffer is a first-in first-out queue

The abstract state of a task is the list of bytes that have been read and not yet written.
`head` and `tail` wrap at `2 ^ 32`; their difference modulo `2 ^ 32` is the length of this
list, and `2 ^ 32` is a multiple of the buffer size, so the wrap never moves a cell.
-/

namespace CS111.P2P

set_option autoImplicit false

open Memory RingBuffer

def Task.pending (t : Task) : Nat := usub32 t.tail t.head

/-- The queue that the buffer represents, oldest byte first. -/
def Task.contents (t : Task) : List UInt8 := window t.buf TASKBUFSIZ t.head t.pending

structure Task.Valid (t : Task) : Prop where
  head_lt : t.head < 4294967296
  tail_lt : t.tail < 4294967296
  pending_le : t.pending ≤ TASKBUFSIZ

theorem pending_eq_zero_iff {t : Task} (ht : t.Valid) : t.pending = 0 ↔ t.head = t.tail := by
  have := ht.head_lt
  have := ht.tail_lt
  unfold Task.pending usub32
  omega

/-- The two counters select the ends of the queue in the ring. -/
theorem tailpos_eq {t : Task} (ht : t.Valid) :
    t.tail % TASKBUFSIZ = (t.head + t.pending) % TASKBUFSIZ := by
  have := ht.head_lt
  have := ht.tail_lt
  unfold Task.pending usub32 TASKBUFSIZ
  omega

theorem readRegion_pos (t : Task) : (readRegion t).pos = t.tail % TASKBUFSIZ := by
  simp only [readRegion]
  split <;> rfl

theorem readRegion_count (t : Task) : (readRegion t).count =
    if t.head = t.tail ∨ t.head % TASKBUFSIZ < t.tail % TASKBUFSIZ
    then TASKBUFSIZ - t.tail % TASKBUFSIZ
    else t.head % TASKBUFSIZ - t.tail % TASKBUFSIZ := by
  simp only [readRegion]
  split <;> rfl

theorem writeRegion_pos (t : Task) : (writeRegion t).pos = t.head % TASKBUFSIZ := by
  simp only [writeRegion]
  split <;> rfl

theorem writeRegion_count (t : Task) : (writeRegion t).count =
    if t.head % TASKBUFSIZ < t.tail % TASKBUFSIZ
    then t.tail % TASKBUFSIZ - t.head % TASKBUFSIZ
    else TASKBUFSIZ - t.head % TASKBUFSIZ := by
  simp only [writeRegion]
  split <;> rfl

theorem readRegion_inside (t : Task) : (readRegion t).Inside := by
  simp only [Region.Inside, readRegion_pos, readRegion_count]
  split <;> unfold TASKBUFSIZ <;> omega

theorem writeRegion_inside (t : Task) : (writeRegion t).Inside := by
  simp only [Region.Inside, writeRegion_pos, writeRegion_count]
  split <;> unfold TASKBUFSIZ <;> omega

/-- `read` is never offered a cell that still holds an unwritten byte. -/
theorem readRegion_room {t : Task} (ht : t.Valid) :
    t.pending + (readRegion t).count ≤ TASKBUFSIZ := by
  obtain ⟨hhead, htail, hpending⟩ := ht
  simp only [Task.pending, usub32, readRegion_count] at *
  split <;> unfold TASKBUFSIZ at * <;> omega

/-- `write` is never offered a cell behind the last byte that was read. -/
theorem writeRegion_pending {t : Task} (ht : t.Valid) (hne : t.head ≠ t.tail) :
    (writeRegion t).count ≤ t.pending := by
  obtain ⟨hhead, htail, hpending⟩ := ht
  simp only [Task.pending, usub32, writeRegion_count] at *
  split <;> unfold TASKBUFSIZ at * <;> omega

theorem push_pending {t : Task} {n : Nat} (ht : t.Valid) (hroom : t.pending + n ≤ TASKBUFSIZ) :
    usub32 (u32 (t.tail + n)) t.head = t.pending + n := by
  obtain ⟨hhead, htail, _⟩ := ht
  simp only [Task.pending, usub32, u32, TASKBUFSIZ] at *
  omega

theorem pop_pending {t : Task} {n : Nat} (ht : t.Valid) (hn : n ≤ t.pending) :
    usub32 t.tail (u32 (t.head + n)) = t.pending - n := by
  obtain ⟨hhead, htail, hpending⟩ := ht
  simp only [Task.pending, usub32, u32, TASKBUFSIZ] at *
  omega

theorem bufsiz_dvd : TASKBUFSIZ ∣ 4294967296 := by decide

theorem push_contents {t : Task} {bytes : List UInt8} (ht : t.Valid)
    (hlen : bytes.length ≤ (readRegion t).count) :
    window (store t.buf (readRegion t).pos bytes) TASKBUFSIZ t.head (t.pending + bytes.length) =
      t.contents ++ bytes := by
  have hinside := readRegion_inside t
  have hroom := readRegion_room ht
  unfold Region.Inside at hinside
  rw [readRegion_pos] at hinside ⊢
  rw [tailpos_eq ht] at hinside ⊢
  exact window_store _ (by omega) (by omega)

theorem pop_window {t : Task} {n : Nat} (ht : t.Valid) (hne : t.head ≠ t.tail)
    (hn : n ≤ (writeRegion t).count) :
    window t.buf TASKBUFSIZ t.head t.pending = load t.buf (writeRegion t).pos n ++
      window t.buf TASKBUFSIZ (u32 (t.head + n)) (usub32 t.tail (u32 (t.head + n))) := by
  have hinside := writeRegion_inside t
  have hpending := writeRegion_pending ht hne
  unfold Region.Inside at hinside
  rw [writeRegion_pos] at hinside ⊢
  have hsplit : t.pending = n + (t.pending - n) := by omega
  rw [pop_pending ht (by omega), u32, window_mod _ bufsiz_dvd, ← window_eq_load _ (by omega),
    ← window_add, ← hsplit]

theorem push_valid {t : Task} {bytes : List UInt8} (ht : t.Valid)
    (hlen : bytes.length ≤ (readRegion t).count) :
    { t with buf := store t.buf (readRegion t).pos bytes
             tail := u32 (t.tail + bytes.length) : Task }.Valid := by
  have hroom := readRegion_room ht
  have hpush := push_pending ht (n := bytes.length) (by omega)
  refine ⟨ht.head_lt, u32_lt _, ?_⟩
  simp only [Task.pending, hpush]
  unfold Task.pending at hroom
  omega

theorem pop_valid {t : Task} {n : Nat} (ht : t.Valid) (hn : n ≤ t.pending) :
    { t with head := u32 (t.head + n), totalWritten := t.totalWritten + n : Task }.Valid := by
  have hle := ht.pending_le
  refine ⟨u32_lt _, ht.tail_lt, ?_⟩
  simp only [Task.pending, pop_pending ht hn]
  unfold Task.pending at hle
  omega

/-- One call of `readToTaskbuf` appends the bytes the source delivered. -/
theorem readToTaskbuf_spec {t : Task} (ht : t.Valid) (fd : ReadCall) :
    (readToTaskbuf fd t).2.Valid ∧
      (readToTaskbuf fd t).2.contents = t.contents ++ readBytes fd t := by
  unfold readToTaskbuf readBytes
  cases htransfer : fd.transfer (readRegion t).count with
  | error e => cases he : e.again <;> simp [he, ht]
  | ok bytes =>
    have hlen := fd.le_asked htransfer
    by_cases hzero : bytes.length = 0
    · have hnil : bytes = [] := List.eq_nil_of_length_eq_zero hzero
      simp [hnil, ht]
    · have hroom := readRegion_room ht
      have hpush := push_pending ht (n := bytes.length) (by omega)
      simp only [if_neg hzero]
      refine ⟨push_valid ht hlen, ?_⟩
      simp only [Task.contents, Task.pending, hpush]
      exact push_contents ht hlen

/-- One call of `writeFromTaskbuf` takes the bytes the destination received off the front. -/
theorem writeFromTaskbuf_spec {t : Task} (ht : t.Valid) (fd : WriteCall) :
    (writeFromTaskbuf fd t).2.Valid ∧
      t.contents = writtenBytes fd t ++ (writeFromTaskbuf fd t).2.contents := by
  unfold writeFromTaskbuf writtenBytes
  by_cases hempty : t.head = t.tail
  · simp [hempty, ht]
  · cases htransfer : fd.transfer (writeRegion t).count with
    | error e => cases he : e.again <;> simp [hempty, he, ht]
    | ok amt =>
      have hle := fd.le_asked htransfer
      by_cases hzero : amt = 0
      · simp [hempty, hzero, ht, load]
      · simp only [if_neg hempty, if_neg hzero]
        exact ⟨pop_valid ht (Nat.le_trans hle (writeRegion_pending ht hempty)),
          pop_window ht hempty hle⟩

/-- The bytes delivered are the bytes received followed by the queue. -/
structure Session.Fifo (s : Session) : Prop where
  valid : s.task.Valid
  delivered_eq : s.delivered = s.received ++ s.task.contents

theorem start_fifo (t : Task) (n : Nat) :
    (Session.start { t with head := u32 n, tail := u32 n }).Fifo where
  valid := ⟨u32_lt n, u32_lt n, by simp [Session.start, Task.pending]⟩
  delivered_eq := by simp [Session.start, Task.contents, Task.pending]

theorem read_fifo {s : Session} (hs : s.Fifo) (fd : ReadCall) : (s.read fd).2.Fifo := by
  obtain ⟨hvalid, hcontents⟩ := readToTaskbuf_spec hs.valid fd
  refine ⟨hvalid, ?_⟩
  simp only [Session.read, hcontents, hs.delivered_eq, List.append_assoc]

theorem write_fifo {s : Session} (hs : s.Fifo) (fd : WriteCall) : (s.write fd).2.Fifo := by
  obtain ⟨hvalid, hcontents⟩ := writeFromTaskbuf_spec hs.valid fd
  refine ⟨hvalid, ?_⟩
  simp only [Session.write, hs.delivered_eq, List.append_assoc, ← hcontents]

theorem call_fifo {s : Session} (hs : s.Fifo) (c : Call) : (s.call c).Fifo := by
  cases c with
  | read fd => exact read_fifo hs fd
  | write fd => exact write_fifo hs fd

theorem run_fifo {s : Session} (hs : s.Fifo) (calls : List Call) : (s.run calls).Fifo := by
  induction calls generalizing s with
  | nil => exact hs
  | cons c calls ih => exact ih (call_fifo hs c)

theorem received_eq_of_empty {s : Session} (hs : s.Fifo) (hempty : s.task.head = s.task.tail) :
    s.received = s.delivered := by
  have hzero : s.task.pending = 0 := (pending_eq_zero_iff hs.valid).mpr hempty
  simp [hs.delivered_eq, Task.contents, hzero]

theorem uploadLoop_received {evilMode : Int} {calls : List (WriteCall × ReadCall)}
    {s s' : Session} (hs : s.Fifo) (h : uploadLoop evilMode calls s = (some .finished, s')) :
    s'.received = s'.delivered := by
  induction calls generalizing s with
  | nil => simp [uploadLoop] at h
  | cons c calls ih =>
    obtain ⟨wr, rd⟩ := c
    have hwrite := write_fifo hs wr
    have hread := read_fifo hwrite rd
    simp only [uploadLoop] at h
    split at h
    · simp at h
    split at h
    · simp at h
    split at h
    · rename_i hend
      split at h
      · exact ih hread h
      · simp only [Prod.mk.injEq, true_and] at h
        subst h
        exact received_eq_of_empty hread hend.2
    · exact ih hread h

theorem downloadLoop_received {calls : List (ReadCall × WriteCall)} {rate : RateSamples}
    {s s' : Session} (hs : s.Fifo) (h : downloadLoop calls rate s = (some .finished, s')) :
    s'.received = s'.delivered := by
  induction calls generalizing s rate with
  | nil => simp [downloadLoop] at h
  | cons c calls ih =>
    obtain ⟨rd, wr⟩ := c
    have hread := read_fifo hs rd
    have hwrite := write_fifo hread wr
    simp only [downloadLoop] at h
    split at h
    · simp at h
    split at h
    · rename_i hend
      simp only [Prod.mk.injEq, true_and] at h
      subst h
      exact received_eq_of_empty hread hend.2
    split at h
    · simp at h
    split at h
    · simp at h
    split at h
    · simp at h
    · exact ih hwrite h

/-- After any calls on a task whose buffer was empty, at any value of the counters: at most
`TASKBUFSIZ` bytes are pending, the regions the next calls are given lie inside `buf`, and
the bytes written out followed by the bytes pending are the bytes read in. A copy loop that
ends at the end of its file has handed over exactly what its source delivered. -/
theorem task_buffer_fifo (t : Task) (n : Nat) :
    (∀ calls : List Call,
      let s := (Session.start { t with head := u32 n, tail := u32 n }).run calls
      usub32 s.task.tail s.task.head ≤ TASKBUFSIZ ∧
        (readRegion s.task).Inside ∧ (writeRegion s.task).Inside ∧
        s.delivered = s.received ++ s.task.contents) ∧
    (∀ (evilMode : Int) (calls : List (WriteCall × ReadCall)) (s' : Session),
      uploadLoop evilMode calls (Session.start { t with head := u32 n, tail := u32 n }) =
        (some .finished, s') → s'.received = s'.delivered) ∧
    (∀ (calls : List (ReadCall × WriteCall)) (s' : Session),
      downloadLoop calls RateSamples.init
        (Session.start { t with head := u32 n, tail := u32 n }) =
        (some .finished, s') → s'.received = s'.delivered) := by
  have hstart := start_fifo t n
  refine ⟨?_, ?_, ?_⟩
  · intro calls
    have hrun := run_fifo hstart calls
    exact ⟨hrun.valid.pending_le, readRegion_inside _, writeRegion_inside _, hrun.delivered_eq⟩
  · intro evilMode calls s' h
    exact uploadLoop_received hstart h
  · intro calls s' h
    exact downloadLoop_received hstart h

end CS111.P2P
