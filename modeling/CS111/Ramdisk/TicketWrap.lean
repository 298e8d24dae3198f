import CS111.Ramdisk.TicketOrder

/-!
# Exclusion and the wrapping of the ticket counters

A file open for reading and writing is sent on to the read part with the ticket it has already
used. While the counters have not wrapped it waits there for good. After `2 ^ 32` tickets the
old ticket is served once more, and two such files can both come to be locked.
-/

namespace CS111.Ramdisk

set_option autoImplicit false

/-- Mutual exclusion holds in every run without a read grant to a file open for writing. In
particular it holds as long as fewer than `2 ^ 32` tickets have been issued. -/
theorem exclusive_without_read_grants_to_writers {as : List Action} {s : State} :
    (Run (fun s a t => ¬ GrantsReadToWriter s a ∧ Step s a t) State.init as s → Exclusive s) ∧
    (Run Step State.init as s → s.issued < 4294967296 → Exclusive s) := by
  refine ⟨fun h => (run_safe h).toExclusive, ?_⟩
  intro h hfew
  suffices hmeets : Run (fun s a t => ¬ GrantsReadToWriter s a ∧ Step s a t) State.init as s from
    (run_safe hmeets).toExclusive
  induction h with
  | start => exact .start _
  | @snoc t _ as a hrun hstep ih =>
    obtain ⟨henabled, rfl⟩ := hstep
    have hbefore : t.issued < 4294967296 := Nat.lt_of_le_of_lt (issued_le_next t a) hfew
    have hnot := (run_tickets hrun hbefore).not_grantsReadToWriter hbefore a
    exact .snoc (ih hbefore) ⟨hnot, henabled, rfl⟩

/-- The file that the next section may lock for reading. -/
def Point.readFile : Point → Option FileId
  | .loop .read f _ | .tryLock .read f _ => some f
  | _ => none

theorem not_grantsReadToWriter_of {s : State} {a : Action}
    (h : ∀ p, a = .runSection p → ((s.procs p).readFile.any fun f => (s.files f).writable) = false) :
    ¬ GrantsReadToWriter s a := by
  rintro ⟨p, f, ticket, ha, hp, hwritable, _⟩
  have hany := h p ha
  rcases hp with hp | hp <;> simp [hp, Point.readFile, hwritable] at hany

/-- Two readers share the lock, and a writer waits for them. -/
theorem exclusive_without_read_grants_to_writers_three_processes :
    ∃ as s, Run (fun s a t => ¬ GrantsReadToWriter s a ∧ Step s a t) State.init as s ∧
      s.dev.readers = [2, 1] ∧ s.procs 3 = .wait .write 3 2 false ∧ Exclusive s ∧
      (s.issued < 4294967296 → Exclusive s) := by
  let as : List Action := [.openFile 1 true false, .openFile 2 true false, .openFile 3 false true,
    .request .acquire 1 1, .runSection 1, .runSection 1, .request .acquire 2 2, .runSection 2,
    .runSection 2, .request .acquire 3 3, .runSection 3, .runSection 3]
  have hopens : ∀ {s : State} {f : FileId} {r w : Bool},
      ¬ GrantsReadToWriter s (.openFile f r w) :=
    not_grantsReadToWriter_of fun p h => by cases h
  have hrequests : ∀ {s : State} {p : Pid} {f : FileId},
      ¬ GrantsReadToWriter s (.request .acquire p f) :=
    not_grantsReadToWriter_of fun p h => by cases h
  have hsections : ∀ {s : State} {p : Pid},
      ((s.procs p).readFile.any fun f => (s.files f).writable) = false →
        ¬ GrantsReadToWriter s (.runSection p) :=
    fun hfile => not_grantsReadToWriter_of fun q h => by
      cases h
      exact hfile
  have hall : AllEnabled (fun s a => ¬ GrantsReadToWriter s a ∧ Enabled s a) next State.init as :=
    ⟨⟨hopens, rfl, fun _ _ _ _ h => by cases h⟩, ⟨hopens, rfl, fun _ _ _ _ h => by cases h⟩,
      ⟨hopens, rfl, fun _ _ _ _ h => by cases h⟩, ⟨hrequests, rfl, rfl⟩, ⟨hsections rfl, rfl⟩,
      ⟨hsections rfl, rfl⟩, ⟨hrequests, rfl, rfl⟩, ⟨hsections rfl, rfl⟩, ⟨hsections rfl, rfl⟩,
      ⟨hrequests, rfl, rfl⟩, ⟨hsections rfl, rfl⟩, ⟨hsections rfl, rfl⟩, trivial⟩
  have hrun := (Run.of_allEnabled hall).mono
    (r := fun s a t => ¬ GrantsReadToWriter s a ∧ Step s a t) fun h => ⟨h.1.1, h.1.2, h.2⟩
  have hsteps : Run Step State.init as (as.foldl next State.init) := hrun.mono fun h => h.2
  exact ⟨as, _, hrun, rfl, rfl, exclusive_without_read_grants_to_writers.1 hrun,
    exclusive_without_read_grants_to_writers.2 hsteps⟩

/-- Two read-write files wait in the read part with the tickets 0 and 1, unlocked, while `n`
tickets have been issued and served. -/
structure Parked (n : Nat) (s : State) : Prop where
  dev : s.dev = ⟨u32 n, u32 n, 0, [], -1, []⟩
  first : s.files 1 = ⟨true, true, true, false⟩
  second : s.files 2 = ⟨true, true, true, false⟩
  other : s.files 3 = ⟨true, true, false, false⟩
  first_waits : s.procs 1 = .wait .read 1 0 false
  second_waits : s.procs 2 = .wait .read 2 1 false
  idle : s.procs 3 = .user 0

/-- Process 1 gets the write lock for its file, process 4 releases it, then the same with
process 2. -/
def parking : List Action :=
  [.openFile 1 true true, .openFile 2 true true, .openFile 3 true false,
    .request .acquire 1 1, .runSection 1, .runSection 1, .runSection 1, .runSection 1,
    .release 4 1,
    .request .acquire 2 2, .runSection 2, .runSection 2, .runSection 2, .runSection 2,
    .release 4 2]

theorem parking_parks : ∃ s, Run Step State.init parking s ∧ Parked 2 s := by
  have hsteps : AllEnabled Enabled next State.init parking := by
    exact ⟨⟨rfl, fun _ _ _ _ h => by cases h⟩, ⟨rfl, fun _ _ _ _ h => by cases h⟩,
      ⟨rfl, fun _ _ _ _ h => by cases h⟩, ⟨rfl, rfl⟩, rfl, rfl, rfl, rfl, ⟨rfl, rfl⟩,
      ⟨rfl, rfl⟩, rfl, rfl, rfl, rfl, ⟨rfl, rfl⟩, trivial⟩
  exact ⟨_, Run.of_allEnabled hsteps, ⟨rfl, rfl, rfl, rfl, rfl, rfl, rfl⟩⟩

/-- Process 3 locks and unlocks its read-only file. -/
def turn : List Action := [.request .acquire 3 3, .runSection 3, .runSection 3, .release 3 3]

theorem u32_u32_add_one (n : Nat) : u32 (u32 n + 1) = u32 (n + 1) := Nat.mod_add_mod n _ 1

theorem Parked.turn {n : Nat} {s : State} (hs : Parked n s) :
    ∃ t, Run Step s turn t ∧ Parked (n + 1) t := by
  obtain ⟨dev, files, procs, log⟩ := s
  obtain ⟨hdev, hfirst, hsecond, hother, hwait1, hwait2, hidle⟩ := hs
  change dev = _ at hdev
  change files 1 = _ at hfirst
  change files 2 = _ at hsecond
  change files 3 = _ at hother
  change procs 1 = _ at hwait1
  change procs 2 = _ at hwait2
  change procs 3 = _ at hidle
  subst dev
  refine ⟨_, (Run.of_allEnabled ?_ : Run Step _ Ramdisk.turn (Ramdisk.turn.foldl next _)), ?_⟩
  · simp [AllEnabled, Ramdisk.turn, Enabled, next, State.beginLock, State.runSection, State.goto,
      writePart, readPart, lockPart, Point.isUser, Point.atSection, hother, hidle, ready,
      available, canRead, canRunTicket, skipTerminated, State.grant, State.setLocked, afterGrant]
  · constructor <;> simp [Ramdisk.turn, next, State.beginLock, State.runSection, State.goto,
      writePart, readPart, lockPart, hother, ready, available,
      canRead, canRunTicket, skipTerminated, State.grant, State.setLocked, afterGrant,
      State.release, State.unlock, State.wakeUpAll, dropLock, removeReaders, getLock,
      u32_u32_add_one, hfirst, hsecond, hwait1, hwait2, Point.awake]

theorem parked_reachable (n : Nat) :
    ∃ as s, Run Step State.init as s ∧ Parked (2 + n) s := by
  induction n with
  | zero =>
    obtain ⟨s, hrun, hparked⟩ := parking_parks
    exact ⟨parking, s, hrun, hparked⟩
  | succ n ih =>
    obtain ⟨as, s, hrun, hparked⟩ := ih
    obtain ⟨t, hturn, hnext⟩ := hparked.turn
    exact ⟨as ++ turn, t, hrun.trans hturn, hnext⟩

/-- The two waiting processes find their old tickets at `ticket_tail`. -/
def rerun : List Action := [.evaluate 1 false, .runSection 1, .evaluate 2 false, .runSection 2]

theorem Parked.rerun {n : Nat} {s : State} (hs : Parked n s) (hwrapped : u32 n = 0) :
    ∃ t, Run Step s rerun t ∧ ¬ Exclusive t := by
  obtain ⟨dev, files, procs, log⟩ := s
  obtain ⟨hdev, hfirst, hsecond, hother, hwait1, hwait2, hidle⟩ := hs
  change dev = _ at hdev
  change files 1 = _ at hfirst
  change files 2 = _ at hsecond
  change procs 1 = _ at hwait1
  change procs 2 = _ at hwait2
  subst dev
  have hone : u32 (0 + 1) = 1 := rfl
  refine ⟨_, (Run.of_allEnabled ?_ : Run Step _ Ramdisk.rerun (Ramdisk.rerun.foldl next _)), ?_⟩
  · simp [AllEnabled, Ramdisk.rerun, Enabled, next, State.evaluate, State.runSection, State.goto,
      Point.atSection, hwrapped, hone, hwait1, hwait2, ready, available, canRead,
      canRunTicket, skipTerminated, State.grant, State.setLocked, afterGrant, getLock]
  · intro hexclusive
    have hsame := hexclusive.one_writer 1 2
    simp [Ramdisk.rerun, next, State.evaluate, State.runSection, State.goto, hwrapped, hone,
      hfirst, hsecond, hwait1, hwait2, ready, available, canRead, canRunTicket, skipTerminated,
      State.grant, State.setLocked, afterGrant, getLock] at hsame

/-- Two files open for reading and writing end up locked at the same time. -/
theorem not_always_exclusive : ∃ as s, Run Step State.init as s ∧ ¬ Exclusive s := by
  obtain ⟨as, s, hrun, hparked⟩ := parked_reachable 4294967294
  obtain ⟨t, hrerun, hnot⟩ := hparked.rerun rfl
  exact ⟨as ++ rerun, t, hrun.trans hrerun, hnot⟩

end CS111.Ramdisk
