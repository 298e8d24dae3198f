import Mathlib.Data.List.TakeDrop
import CS111.Lib.Run

/-!
# Reading and writing a ramdisk

The copy loops of `osprdaccess.c`. The destination has room for so many bytes, and answers `ENOSPC`
when they are there. A negative size stands for the whole file.
-/

namespace CS111.Ramdisk.Access

set_option autoImplicit false

def BUFSIZ : Nat := 8192

/-- What a system call answers; `again` is `EAGAIN` or `EINTR`. -/
inductive Answer where
  | again
  | noSpace
  | failed
  | moved (n : Nat)
  deriving Repr, DecidableEq

/-- `reading` is the head of the outer loop of `transfer`, and `writing` that of the inner one. -/
inductive Stage where
  | reading
  | writing
  | returned
  | exited
  deriving Repr, DecidableEq

/-- How much a call is asked to move. -/
def request (size : Int) : Nat := if 0 < size ∧ size < BUFSIZ then size.toNat else BUFSIZ

/-! ## The functions -/

/-- `unread` is what is left of the source, and `buf` has the bytes from `bufptr` on. -/
structure Transfer where
  stage : Stage
  size : Int
  unread : List UInt8
  buf : List UInt8
  dest : List UInt8
  deriving Repr, DecidableEq

namespace Transfer

/-- The test of the outer loop. -/
def loop (s : Transfer) : Transfer :=
  { s with stage := if s.size ≠ 0 then .reading else .returned }

def start (size : Int) (source : List UInt8) : Transfer := loop ⟨.reading, size, source, [], []⟩

/-- `read` answers with no byte at the end of the source only. -/
def read (s : Transfer) : Answer → Option Transfer
  | .again => some s
  | .noSpace | .failed => some { s with stage := .exited }
  | .moved n =>
    if n ≤ request s.size ∧ n ≤ s.unread.length ∧ (n = 0 → s.unread = []) then
      if n = 0 then some { s with stage := .returned }
      else some { s with
        stage := .writing
        size := s.size - n
        unread := s.unread.drop n
        buf := s.unread.take n }
    else none

def write (room : Nat) (s : Transfer) : Answer → Option Transfer
  | .again => some s
  | .noSpace => if s.dest.length = room then some { s with buf := [] }.loop else none
  | .failed => some { s with stage := .exited }
  | .moved n =>
    if n ≤ s.buf.length ∧ s.dest.length + n ≤ room then
      let s := { s with buf := s.buf.drop n, dest := s.dest ++ s.buf.take n }
      some (if s.buf = [] then s.loop else s)
    else none

def next (room : Nat) (s : Transfer) (a : Answer) : Option Transfer :=
  match s.stage with
  | .reading => s.read a
  | .writing => s.write room a
  | .returned | .exited => none

end Transfer

def TransferStep (room : Nat) (s : Transfer) (a : Answer) (t : Transfer) : Prop :=
  s.next room a = some t

/-- `transfer_zero`. -/
structure ZeroTransfer where
  stage : Stage
  size : Int
  dest : List UInt8
  deriving Repr, DecidableEq

namespace ZeroTransfer

def loop (s : ZeroTransfer) : ZeroTransfer :=
  { s with stage := if s.size ≠ 0 then .writing else .returned }

def start (size : Int) : ZeroTransfer := loop ⟨.writing, size, []⟩

def next (room : Nat) (s : ZeroTransfer) (a : Answer) : Option ZeroTransfer :=
  match s.stage, a with
  | .writing, .again => some s
  | .writing, .noSpace => if s.dest.length = room then some { s with stage := .returned } else none
  | .writing, .failed => some { s with stage := .exited }
  | .writing, .moved n =>
    if n ≤ request s.size ∧ s.dest.length + n ≤ room then
      some { s with size := s.size - n, dest := s.dest ++ List.replicate n 0 }.loop
    else none
  | _, _ => none

end ZeroTransfer

def ZeroStep (room : Nat) (s : ZeroTransfer) (a : Answer) (t : ZeroTransfer) : Prop :=
  s.next room a = some t

/-! ## What is moved -/

/-- The bytes of the source that are asked for. -/
def wanted (size : Int) (source : List UInt8) : List UInt8 :=
  if size < 0 then source else source.take size.toNat

variable {size : Int} {source passed bs : List UInt8} {room n : Nat} {s t : Transfer} {a : Answer}
  {as : List Answer}

/-- A request never goes beyond the size. -/
theorem le_of_request (h : n ≤ request size) (hpos : 0 < size) : (n : Int) ≤ size := by
  unfold request at h
  split at h <;> omega

theorem take_append_room (hroom : (passed.take room).length + n ≤ room) :
    (passed ++ bs.take n).take room = passed.take room ++ bs.take n := by
  rw [List.length_take] at hroom
  rw [List.take_append, List.take_take]
  congr 2
  omega

/-- `passed` has gone through the buffer, and the destination has taken of it what it has room for. -/
structure Sound (size : Int) (source : List UInt8) (room : Nat) (passed : List UInt8)
    (s : Transfer) : Prop where
  source_eq : source = passed ++ (s.buf ++ s.unread)
  size_eq : s.size = size - (passed.length + s.buf.length : Nat)
  nonneg : 0 ≤ size → 0 ≤ s.size
  dest : s.dest = passed.take room
  reading : s.stage = .reading → s.buf = [] ∧ s.size ≠ 0
  returned : s.stage = .returned → s.buf = [] ∧ (s.size = 0 ∨ s.unread = [])

namespace Sound

/-- The buffer is empty, and the outer loop goes on. -/
theorem loop (h : Sound size source room passed s) (hbuf : s.buf = []) :
    Sound size source room passed s.loop where
  source_eq := h.source_eq
  size_eq := h.size_eq
  nonneg := h.nonneg
  dest := h.dest
  reading hstage := by
    refine ⟨hbuf, fun hzero => ?_⟩
    have hreturned : s.loop.stage = .returned := by
      simp only [Transfer.loop] at hzero ⊢
      rw [hzero]
      rfl
    cases hstage.symm.trans hreturned
  returned hstage := by
    refine ⟨hbuf, .inl ?_⟩
    by_contra hne
    have hreading : s.loop.stage = .reading := if_pos hne
    cases hstage.symm.trans hreading

theorem start (size : Int) (source : List UInt8) (room : Nat) :
    Sound size source room [] (.start size source) := by
  have hempty : Sound size source room [] ⟨.writing, size, source, [], []⟩ := by
    refine ⟨rfl, ?_, id, (List.take_nil).symm, nofun, nofun⟩
    simp
  exact hempty.loop rfl

/-- A process that exits is not asked any more. -/
theorem exit (h : Sound size source room passed s) :
    Sound size source room passed { s with stage := .exited } :=
  ⟨h.source_eq, h.size_eq, h.nonneg, h.dest, nofun, nofun⟩

theorem read (h : Sound size source room passed s) (hstage : s.stage = .reading)
    (hread : s.read a = some t) : Sound size source room passed t := by
  obtain ⟨hbuf, hsize⟩ := h.reading hstage
  cases a with
  | again =>
    obtain rfl := Option.some.inj hread
    exact h
  | noSpace | failed =>
    obtain rfl := Option.some.inj hread
    exact h.exit
  | moved n =>
    simp only [Transfer.read] at hread
    split at hread
    · next hn =>
      obtain ⟨hrequest, hlength, hend⟩ := hn
      split at hread
      · next hzero =>
        obtain rfl := Option.some.inj hread
        exact ⟨h.source_eq, h.size_eq, h.nonneg, h.dest, nofun, fun _ => ⟨hbuf, .inr (hend hzero)⟩⟩
      · next hne =>
        obtain rfl := Option.some.inj hread
        refine ⟨?_, ?_, fun hpos => ?_, h.dest, nofun, nofun⟩
        · rw [List.take_append_drop, h.source_eq, hbuf]
          rfl
        · dsimp only
          rw [h.size_eq, hbuf, List.length_take, Nat.min_eq_left hlength, List.length_nil]
          omega
        · have hleft := h.nonneg hpos
          have hle := le_of_request hrequest (by omega)
          dsimp only
          omega
    · cases hread

theorem write (h : Sound size source room passed s) (hstage : s.stage = .writing)
    (hwrite : s.write room a = some t) : ∃ passed', Sound size source room passed' t := by
  cases a with
  | again =>
    obtain rfl := Option.some.inj hwrite
    exact ⟨passed, h⟩
  | failed =>
    obtain rfl := Option.some.inj hwrite
    exact ⟨passed, h.exit⟩
  | noSpace =>
    simp only [Transfer.write] at hwrite
    split at hwrite
    · next hfull =>
      obtain rfl := Option.some.inj hwrite
      rw [h.dest, List.length_take] at hfull
      have hdropped : Sound size source room (passed ++ s.buf) { s with buf := [] } := by
        refine ⟨?_, ?_, h.nonneg, ?_, fun hreading => ?_, fun hreturned => ?_⟩
        · rw [h.source_eq, List.append_assoc]
          rfl
        · rw [h.size_eq, List.length_append, List.length_nil]
          rfl
        · rw [h.dest, List.take_append_of_le_length (by omega)]
        · cases hstage.symm.trans hreading
        · cases hstage.symm.trans hreturned
      exact ⟨_, hdropped.loop rfl⟩
    · cases hwrite
  | moved n =>
    simp only [Transfer.write] at hwrite
    split at hwrite
    · next hn =>
      obtain ⟨hlength, hroom⟩ := hn
      rw [h.dest] at hroom
      have hmoved : Sound size source room (passed ++ s.buf.take n)
          { s with buf := s.buf.drop n, dest := s.dest ++ s.buf.take n } := by
        refine ⟨?_, ?_, h.nonneg, ?_, fun hreading => ?_, fun hreturned => ?_⟩
        · rw [List.append_assoc, ← List.append_assoc (s.buf.take n), List.take_append_drop]
          exact h.source_eq
        · rw [h.size_eq, List.length_append, List.length_take, List.length_drop]
          omega
        · rw [h.dest, take_append_room hroom]
        · cases hstage.symm.trans hreading
        · cases hstage.symm.trans hreturned
      split at hwrite
      · next hempty =>
        obtain rfl := Option.some.inj hwrite
        exact ⟨_, hmoved.loop hempty⟩
      · obtain rfl := Option.some.inj hwrite
        exact ⟨_, hmoved⟩
    · cases hwrite

theorem step (h : Sound size source room passed s) (hstep : TransferStep room s a t) :
    ∃ passed', Sound size source room passed' t := by
  unfold TransferStep Transfer.next at hstep
  cases hstage : s.stage with
  | reading =>
    rw [hstage] at hstep
    exact ⟨passed, h.read hstage hstep⟩
  | writing =>
    rw [hstage] at hstep
    exact h.write hstage hstep
  | returned | exited =>
    rw [hstage] at hstep
    cases hstep

/-- What has gone through the buffer at the end. -/
theorem passed_eq (h : Sound size source room passed s) (hend : s.stage = .returned) :
    passed = wanted size source ∧ source = passed ++ s.unread := by
  obtain ⟨hbuf, hdone⟩ := h.returned hend
  have hsource := h.source_eq
  have hsize := h.size_eq
  have hnonneg := h.nonneg
  rw [hbuf, List.nil_append] at hsource
  rw [hbuf, List.length_nil, Nat.add_zero] at hsize
  refine ⟨?_, hsource⟩
  unfold wanted
  rcases hdone with hzero | hunread
  · rw [if_neg (by omega), hsource, List.take_left' (by omega)]
  · rw [hunread, List.append_nil] at hsource
    split
    · exact hsource.symm
    · rw [hsource, List.take_of_length_le (by omega)]

end Sound

/-- Whatever the calls answer on the way: when `transfer` returns, it has taken from the source the bytes
asked for, and the destination has those of them that it has room for. -/
theorem transfer_moves (hrun : Run (TransferStep room) (.start size source) as s)
    (hend : s.stage = .returned) :
    s.dest = (wanted size source).take room ∧ source = wanted size source ++ s.unread := by
  have hsound : ∃ passed, Sound size source room passed s := by
    refine hrun.invariant (P := fun s => ∃ passed, Sound size source room passed s) ?_
      ⟨[], .start size source room⟩
    rintro s a t ⟨passed, h⟩ hstep
    exact h.step hstep
  obtain ⟨passed, h⟩ := hsound
  obtain ⟨rfl, hsource⟩ := h.passed_eq hend
  exact ⟨h.dest, hsource⟩

/-- Five bytes are asked for, the source has four, and the third one is the last with room. -/
theorem transfer_moves_interrupted : ∃ s, Run (TransferStep 3) (.start 5 [1, 2, 3, 4])
    [.again, .moved 3, .again, .moved 2, .moved 1, .moved 1, .noSpace, .moved 0] s ∧
      s.dest = [1, 2, 3] ∧ s.unread = [] := by
  obtain ⟨s, hrun, hs⟩ := Run.of_guarded (Transfer.next 3) (fun _ _ => True)
    (fun s => s.stage = .returned ∧ s.unread = []) (.start 5 [1, 2, 3, 4])
    [.again, .moved 3, .again, .moved 2, .moved 1, .moved 1, .noSpace, .moved 0] (by decide +kernel)
  have hrun := hrun.mono (r := TransferStep 3) And.left
  exact ⟨s, hrun, (transfer_moves hrun hs.1).1, hs.2⟩

/-! ## Zeros -/

structure ZeroSound (size : Int) (room : Nat) (s : ZeroTransfer) : Prop where
  zeros : ∃ k : Nat, s.dest = List.replicate k 0 ∧ s.size = size - k ∧ k ≤ room
  nonneg : 0 ≤ size → 0 ≤ s.size
  writing : s.stage = .writing → s.size ≠ 0
  returned : s.stage = .returned → s.size = 0 ∨ s.dest.length = room

variable {z y : ZeroTransfer}

theorem ZeroSound.loop (hzeros : ∃ k : Nat, z.dest = List.replicate k 0 ∧ z.size = size - k ∧ k ≤ room)
    (hnonneg : 0 ≤ size → 0 ≤ z.size) : ZeroSound size room z.loop where
  zeros := hzeros
  nonneg := hnonneg
  writing hstage hzero := by
    have hreturned : z.loop.stage = .returned := if_neg (not_not_intro hzero)
    cases hstage.symm.trans hreturned
  returned hstage := by
    refine .inl ?_
    by_contra hne
    have hwriting : z.loop.stage = .writing := if_pos hne
    cases hstage.symm.trans hwriting

theorem ZeroSound.step (h : ZeroSound size room z) (hstep : ZeroStep room z a y) :
    ZeroSound size room y := by
  obtain ⟨k, hdest, hsize, hk⟩ := h.zeros
  unfold ZeroStep ZeroTransfer.next at hstep
  split at hstep
  · obtain rfl := Option.some.inj hstep
    exact h
  · split at hstep
    · next hfull =>
      obtain rfl := Option.some.inj hstep
      exact ⟨h.zeros, h.nonneg, nofun, fun _ => .inr hfull⟩
    · cases hstep
  · obtain rfl := Option.some.inj hstep
    exact ⟨h.zeros, h.nonneg, nofun, nofun⟩
  · next n hstage =>
    split at hstep
    · next hn =>
      obtain ⟨hrequest, hroom⟩ := hn
      obtain rfl := Option.some.inj hstep
      rw [hdest, List.length_replicate] at hroom
      refine .loop ⟨k + n, ?_, ?_, hroom⟩ fun hpos => ?_
      · rw [hdest, List.replicate_append_replicate]
      · dsimp only
        omega
      · have hleft := h.nonneg hpos
        have hne := h.writing hstage
        have hle := le_of_request hrequest (by omega)
        dsimp only
        omega
    · cases hstep
  · cases hstep

/-- When `transfer_zero` returns, it has filled what it was asked to fill, as far as there is room. -/
theorem transfer_zero_moves (hrun : Run (ZeroStep room) (.start size) as z)
    (hend : z.stage = .returned) :
    z.dest = List.replicate (if size < 0 then room else min size.toNat room) 0 := by
  have hstart : ZeroSound size room (.start size) :=
    .loop ⟨0, rfl, (Int.sub_zero size).symm, Nat.zero_le _⟩ id
  have h := hrun.invariant (P := ZeroSound size room) (fun h hstep => h.step hstep) hstart
  obtain ⟨k, hdest, hsize, hk⟩ := h.zeros
  have hnonneg := h.nonneg
  have hdone := h.returned hend
  rw [hdest, List.length_replicate] at hdone
  rw [hdest]
  congr 1
  split <;> omega

end CS111.Ramdisk.Access
