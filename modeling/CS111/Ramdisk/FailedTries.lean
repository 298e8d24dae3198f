import CS111.Ramdisk.LockCalls
import CS111.Ramdisk.TicketNumbers
import CS111.Ramdisk.TicketWrap

/-!
# A failed try vanishes

`OSPRDIOCTRYACQUIRE` and `OSPRDIOCACQUIRE` are two copies of one logic. A try that fails leaves a
terminated ticket in the queue. The device then behaves as if the call had not been made, with the
later tickets one higher, until the tickets no longer fit into the `int` that the list keeps.
-/

namespace CS111.Ramdisk

set_option autoImplicit false

section Model

/-- `OSPRDIOCACQUIRE`, run by itself until it returns or goes to sleep. -/
def State.acquireAlone (s : State) (p : Pid) (f : FileId) : State :=
  (((s.beginLock .acquire p f).runSection p).runSection p).evaluate p false

/-- `OSPRDIOCTRYACQUIRE`, run by itself. -/
def State.tryAcquireAlone (s : State) (p : Pid) (f : FileId) : State :=
  (s.beginLock .tryAcquire p f).runSection p

/-- The requests under way in `t` are those in `s`, and `can_run_ticket` says the same about them
and about the next one, with the tickets from `h` on moved up by one. -/
structure SameTurns (h : Nat) (s t : State) : Prop where
  requests : ∀ q, t.inside q = (s.inside q).map fun x => (x.1, x.2.1, shift h x.2.2)
  head : t.dev.ticketHead = shift h s.dev.ticketHead
  waiting : ∀ {q k f u}, s.inside q = some (k, f, u) →
    (canRunTicket t.dev (shift h u)).1 = (canRunTicket s.dev u).1
  fresh : (canRunTicket t.dev t.dev.ticketHead).1 = (canRunTicket s.dev s.dev.ticketHead).1

/-- The two calls agree, and a failed try makes no difference later on, as long as the number of
tickets issued with it meets `few`. -/
structure TryAgrees (few : Nat → Prop) (s : State) (p : Pid) (f : FileId) : Prop where
  succeeds : (s.tryAcquireAlone p f).procs p = .user 0 ↔ (s.acquireAlone p f).procs p = .user 0
  takes : (s.tryAcquireAlone p f).procs p = .user 0 →
    (s.tryAcquireAlone p f).holders f = (s.acquireAlone p f).holders f ∧
      (s.tryAcquireAlone p f).dev = (s.acquireAlone p f).dev
  otherwise : (s.acquireAlone p f).procs p ≠ .user 0 →
    (s.acquireAlone p f).procs p = .user (-EDEADLK) ∨
      ∃ k ticket, (s.acquireAlone p f).procs p = .wait k f ticket true
  busy : (s.acquireAlone p f).procs p ≠ .user 0 →
    (s.tryAcquireAlone p f).procs p = .user (-EBUSY) ∧
      (s.tryAcquireAlone p f).holders f = s.holders f
  vanishes : (s.acquireAlone p f).procs p ≠ .user 0 →
    ∀ as t, Run Step (s.tryAcquireAlone p f) as t → few t.issued →
      ∃ t', Run Step s as t' ∧ SameTurns s.dev.ticketHead t' t
  replays : (s.acquireAlone p f).procs p ≠ .user 0 →
    ∀ as t', Run Step s as t' → few (t'.issued + 1) →
      ∃ t, Run Step (s.tryAcquireAlone p f) as t ∧ SameTurns s.dev.ticketHead t' t

end Model

variable {s s' t t' : State} {d d' : Device} {p : Pid} {k : Kind} {f : FileId} {r : Request}
  {h n u : Nat} {a : Action} {as : List Action}

section Devices

/-- `d'` is `d` with the terminated ticket `h` put in. -/
structure DeviceShift (h : Nat) (d d' : Device) : Prop where
  writer : d'.writer = d.writer
  readers : d'.readers = d.readers
  numReaders : d'.numReaders = d.numReaders
  head : d'.ticketHead = d.ticketHead + 1
  head_le : h ≤ d.ticketHead
  struck : PutIn h d.Struck d'.Struck
  turn : ∃ n, Turn d.Struck d.ticketTail n ∧ Turn d'.Struck d'.ticketTail (shift h n)

namespace DeviceShift

theorem shift_head (hd : DeviceShift h d d') : d'.ticketHead = shift h d.ticketHead := by
  rw [shift_of_le hd.head_le, hd.head]

theorem small (hd : DeviceShift h d d') (hd' : d'.Ranged) (hu : u ≤ d.ticketHead) :
    u < 2147483648 ∧ shift h u < 2147483648 := by
  have hlt := hd'.head_lt
  have hle := shift_le_succ h u
  have hhead := hd.head
  omega

theorem not_struck (hd : DeviceShift h d d') (hu : ¬ d.Struck u) : ¬ d'.Struck (shift h u) :=
  fun hs => hu ((hd.struck.same u).mp hs)

theorem canRun (hd : DeviceShift h d d') (hr : d.Ranged) (hr' : d'.Ranged)
    (hu : u ≤ d.ticketHead) (hnot : ¬ d.Struck u) :
    (canRunTicket d' (shift h u)).1 = (canRunTicket d u).1 := by
  obtain ⟨n, hturn, hturn'⟩ := hd.turn
  obtain ⟨hsmall, hsmall'⟩ := hd.small hr' hu
  rw [Bool.eq_iff_iff, canRun_iff_turn hr' hturn' hsmall' (hd.not_struck hnot),
    canRun_iff_turn hr hturn hsmall hnot, shift_inj]

theorem ready_eq (hd : DeviceShift h d d') (hr : d.Ranged) (hr' : d'.Ranged)
    (hu : u ≤ d.ticketHead) (hnot : ¬ d.Struck u) :
    (ready k d' (shift h u)).1 = (ready k d u).1 := by
  have havail : available k d' = available k d := available_congr hd.writer hd.numReaders
  unfold ready
  rw [havail]
  split
  · exact hd.canRun hr hr' hu hnot
  · rfl

theorem looked (hd : DeviceShift h d d') (hr : d.Ranged) (hr' : d'.Ranged)
    (hu : u ≤ d.ticketHead) (hnot : ¬ d.Struck u) :
    DeviceShift h (ready k d u).2 (ready k d' (shift h u)).2 := by
  obtain ⟨n, hturn, hturn'⟩ := hd.turn
  obtain ⟨hsmall, hsmall'⟩ := hd.small hr' hu
  have hlooked := turn_looked (k := k) hr hturn hsmall hnot
  have hlooked' := turn_looked (k := k) hr' hturn' hsmall' (hd.not_struck hnot)
  rw [ready_eq_advance k d, ready_eq_advance k d']
  exact ⟨hd.writer, hd.readers, hd.numReaders, hd.head, hd.head_le, hd.struck, n, hlooked, hlooked'⟩

theorem terminate (hd : DeviceShift h d d') (hr : d.Ranged) (hr' : d'.Ranged)
    (hu : u < d.ticketHead) :
    DeviceShift h (terminateTicket d u) (terminateTicket d' (shift h u)) := by
  obtain ⟨n, hturn, hturn'⟩ := hd.turn
  obtain ⟨hsmall, hsmall'⟩ := hd.small hr' (Nat.le_of_lt hu)
  have hstruck := (hd.struck.strike u).congr (struck_terminate hsmall) (struck_terminate hsmall')
  have hbound : ∀ a, (terminateTicket d u).Struck a → a < d.ticketHead := by
    intro a ha
    rcases (struck_terminate hsmall a).mp ha with rfl | ha
    · exact hu
    · exact hr.struck_lt ha
  obtain ⟨m, hm⟩ := Turn.exists_of_bounded hbound n
  refine ⟨hd.writer, hd.readers, hd.numReaders, hd.head, hd.head_le, hstruck, m, ?_, ?_⟩
  · exact hturn.extend (fun a ha => (struck_terminate hsmall a).mpr (.inr ha)) hm
  · exact hturn'.extend (fun a ha => (struck_terminate hsmall' a).mpr (.inr ha)) (hstruck.turn hm)

theorem serve (hd : DeviceShift h d d') (hr : d.Ranged) (hr' : d'.Ranged)
    (htail : u = d.ticketTail) (htail' : shift h u = d'.ticketTail) :
    DeviceShift h (getLock k p d) (getLock k p d') := by
  have hlt := hr'.head_lt
  have hle := hr.tail_le
  have hle' := hr'.tail_le
  have hhead := hd.head
  obtain ⟨m, hm⟩ := hr.exists_turn (u + 1)
  have hnext : u32 (d.ticketTail + 1) = u + 1 := by rw [htail, u32_of_lt (by omega)]
  have hnext' : u32 (d'.ticketTail + 1) = shift h u + 1 := by rw [htail', u32_of_lt (by omega)]
  have hturns : ∃ n, Turn d.Struck (u32 (d.ticketTail + 1)) n ∧
      Turn d'.Struck (u32 (d'.ticketTail + 1)) (shift h n) := by
    rw [hnext, hnext']
    exact ⟨m, hm, hd.struck.turn_succ hm⟩
  cases k with
  | write => exact ⟨rfl, hd.readers, hd.numReaders, hd.head, hd.head_le, hd.struck, hturns⟩
  | read =>
    refine ⟨hd.writer, ?_, ?_, hd.head, hd.head_le, hd.struck, hturns⟩
    · exact congrArg (p :: ·) hd.readers
    · exact congrArg (· + 1) hd.numReaders

theorem issue (hd : DeviceShift h d d') (hsmall : d'.ticketHead < 2147483648) :
    DeviceShift h { d with ticketHead := u32 (d.ticketHead + 1) }
      { d' with ticketHead := u32 (d'.ticketHead + 1) } := by
  have hhead := hd.head
  have hle := hd.head_le
  rw [u32_of_lt (by omega), u32_of_lt (by omega)]
  exact ⟨hd.writer, hd.readers, hd.numReaders, congrArg (· + 1) hd.head,
    Nat.le_succ_of_le hd.head_le, hd.struck, hd.turn⟩

theorem drop (hd : DeviceShift h d d') (file : File) (p : Pid) :
    DeviceShift h (dropLock file p d) (dropLock file p d') := by
  have hwrite : DeviceShift h (if file.writable then { d with writer := -1 } else d)
      (if file.writable then { d' with writer := -1 } else d') := by
    split
    · exact ⟨rfl, hd.readers, hd.numReaders, hd.head, hd.head_le, hd.struck, hd.turn⟩
    · exact hd
  unfold dropLock
  dsimp only
  generalize (if file.writable then { d with writer := -1 } else d) = e at hwrite ⊢
  generalize (if file.writable then { d' with writer := -1 } else d') = e' at hwrite ⊢
  split
  · refine ⟨hwrite.writer, ?_, ?_, hwrite.head, hwrite.head_le, hwrite.struck, hwrite.turn⟩
    · rw [hwrite.readers]
    · rw [hwrite.readers, hwrite.numReaders]
  · exact hwrite

end DeviceShift

end Devices

section States

/-- The process stands at the same place, with its ticket moved. -/
inductive Moved (h : Nat) : Point → Point → Prop
  | user (ret ret' : Int) : Moved h (.user ret) (.user ret')
  | check (k : Kind) (f : FileId) (u : Nat) : Moved h (.check k f u) (.check k f (shift h u))
  | loop (k : Kind) (f : FileId) (u : Nat) : Moved h (.loop k f u) (.loop k f (shift h u))
  | wait (k : Kind) (f : FileId) (u : Nat) (asleep : Bool) :
      Moved h (.wait k f u asleep) (.wait k f (shift h u) asleep)
  | interrupted (k : Kind) (f : FileId) (u : Nat) :
      Moved h (.interrupted k f u) (.interrupted k f (shift h u))
  | tryLock (k : Kind) (f : FileId) (u : Nat) : Moved h (.tryLock k f u) (.tryLock k f (shift h u))

structure Shifted (h : Nat) (s t : State) : Prop where
  dev : DeviceShift h s.dev t.dev
  files : t.files = s.files
  procs : ∀ q, Moved h (s.procs q) (t.procs q)

namespace Moved

variable {pt pt' : Point}

theorem isUser (hm : Moved h pt pt') : pt'.isUser = pt.isUser := by
  cases hm <;> rfl

theorem atSection (hm : Moved h pt pt') : pt'.atSection = pt.atSection := by
  cases hm <;> rfl

theorem awake (hm : Moved h pt pt') : Moved h pt.awake pt'.awake := by
  cases hm <;> constructor

theorem inside (hm : Moved h pt pt') :
    pt'.inside = pt.inside.map fun x => (x.1, x.2.1, shift h x.2.2) := by
  cases hm <;> rfl

theorem waits (hm : Moved h pt pt') (asleep : Bool) :
    (∃ k f u, pt' = .wait k f u asleep) ↔ ∃ k f u, pt = .wait k f u asleep := by
  cases hm <;> simp

theorem lockPart (r : Request) (k : Kind) (f : FileId) (u : Nat) :
    Moved h (lockPart r k f u) (lockPart r k f (shift h u)) := by
  cases r <;> constructor

theorem readPart (r : Request) (file : File) (f : FileId) (u : Nat) :
    Moved h (readPart r file f u) (readPart r file f (shift h u)) := by
  unfold Ramdisk.readPart
  split
  · exact lockPart r .read f u
  · exact .user 0 0

theorem writePart (r : Request) (file : File) (f : FileId) (u : Nat) :
    Moved h (writePart r file f u) (writePart r file f (shift h u)) := by
  unfold Ramdisk.writePart
  split
  · exact lockPart r .write f u
  · exact readPart r file f u

theorem afterGrant (r : Request) (k : Kind) (file : File) (f : FileId) (u : Nat) :
    Moved h (afterGrant r k file f u) (afterGrant r k file f (shift h u)) := by
  cases k with
  | write => exact readPart r file f u
  | read => exact .user 0 0

end Moved

namespace Shifted

theorem inside (hs : Shifted h s t) (q : Pid) :
    t.inside q = (s.inside q).map fun x => (x.1, x.2.1, shift h x.2.2) := (hs.procs q).inside

theorem goto {pt pt' : Point} (hs : Shifted h s t) (hpt : Moved h pt pt') :
    Shifted h (s.goto p pt) (t.goto p pt') where
  dev := hs.dev
  files := hs.files
  procs := by
    intro q
    by_cases hq : q = p
    · rw [hq, goto_self, goto_self]
      exact hpt
    · rw [goto_other hq, goto_other hq]
      exact hs.procs q

theorem setDev (hs : Shifted h s t) (hd : DeviceShift h d d') :
    Shifted h { s with dev := d } { t with dev := d' } := ⟨hd, hs.files, hs.procs⟩

theorem setLog (hs : Shifted h s t) (log log' : List Event) :
    Shifted h { s with log := log } { t with log := log' } := ⟨hs.dev, hs.files, hs.procs⟩

theorem setFile (hs : Shifted h s t) (f : FileId) (file : File) :
    Shifted h { s with files := Function.update s.files f file }
      { t with files := Function.update t.files f file } :=
  ⟨hs.dev, congrArg (Function.update · f file) hs.files, hs.procs⟩

theorem setLocked (hs : Shifted h s t) (f : FileId) (locked : Bool) :
    Shifted h (s.setLocked f locked) (t.setLocked f locked) := by
  unfold State.setLocked
  rw [hs.files]
  exact ⟨hs.dev, rfl, hs.procs⟩

theorem abandon {errno : Int} (hs : Shifted h s t) (hr : s.dev.Ranged) (hr' : t.dev.Ranged)
    (hu : u < s.dev.ticketHead) :
    Shifted h (s.abandon p u errno) (t.abandon p (shift h u) errno) :=
  ((hs.goto (.user _ _)).setDev (hs.dev.terminate hr hr' hu)).setLog _ _

theorem unlock (hs : Shifted h s t) (p : Pid) (f : FileId) :
    Shifted h (s.unlock p f) (t.unlock p f) := by
  have hd := hs.dev.drop (s.files f) p
  unfold State.unlock
  rw [hs.files]
  exact ⟨hd, (hs.setLocked f false).files, fun q => (hs.procs q).awake⟩

theorem grant (hs : Shifted h s t) (hr : s.dev.Ranged) (hr' : t.dev.Ranged)
    (htail : u = s.dev.ticketTail) (htail' : shift h u = t.dev.ticketTail) :
    Shifted h (s.grant r k p f u) (t.grant r k p f (shift h u)) := by
  have hd := hs.dev.serve (k := k) (p := p) hr hr' htail htail'
  have hpt : Moved h (afterGrant r k (s.files f) f u)
      (afterGrant r k (t.files f) f (shift h u)) := by
    rw [hs.files]
    exact .afterGrant r k _ f u
  exact (((hs.setLocked f true).goto hpt).setDev hd).setLog _ _

theorem release (hs : Shifted h s t) (p : Pid) (f : FileId) :
    Shifted h (s.release p f) (t.release p f) := by
  unfold State.release
  rw [hs.files]
  split
  · exact (hs.unlock p f).goto (.user 0 0)
  · exact hs.goto (.user _ _)

theorem closeLast (hs : Shifted h s t) (p : Pid) (f : FileId) :
    Shifted h (s.closeLast p f) (t.closeLast p f) := by
  have hopen : Shifted h (if (s.files f).locked then s.unlock p f else s)
      (if (t.files f).locked then t.unlock p f else t) := by
    rw [hs.files]
    split
    · exact hs.unlock p f
    · exact hs
  unfold State.closeLast
  dsimp only
  rw [hopen.files]
  exact ⟨hopen.dev, rfl, hopen.procs⟩

end Shifted

end States

section Steps

theorem Device.Ranged.issue (hr : d.Ranged) (hfew : d.ticketHead + 1 < 2147483648) :
    Device.Ranged { d with ticketHead := u32 (d.ticketHead + 1) } := by
  rw [u32_of_lt (by omega)]
  refine ⟨hr.sorted, fun x hx => ?_, Nat.le_succ_of_le hr.tail_le, hfew⟩
  have hrange := hr.listed x hx
  dsimp only
  omega

theorem Queued.looked (hq : Queued s) (k : Kind) (u : Nat) : (ready k s.dev u).2.Ranged := by
  have htickets : Tickets { s with dev := (ready k s.dev u).2 } :=
    hq.tickets.ready (Nat.lt_trans hq.few (by decide))
  have hr := hq.ranged
  have htail := htickets.tail_le
  rw [ready_eq_advance] at htail ⊢
  exact ⟨hr.sorted, hr.listed, htail, hr.head_lt⟩

theorem beginLock_eq (s : State) (r : Request) (p : Pid) (f : FileId) : s.beginLock r p f =
    if (p : Int) = s.dev.writer then s.issue.abandon p s.dev.ticketHead r.failure
    else s.issue.goto p (writePart r (s.files f) f s.dev.ticketHead) := rfl

theorem beginLock_head (s : State) (r : Request) (p : Pid) (f : FileId) :
    (s.beginLock r p f).dev.ticketHead = u32 (s.dev.ticketHead + 1) := by
  rw [beginLock_eq]
  split <;> rfl

namespace Shifted

theorem beginLock (hs : Shifted h s t) (hq : Queued s) (hq' : Queued t)
    (hfew : t.dev.ticketHead + 1 < 2147483648) (r : Request) (p : Pid) (f : FileId) :
    Shifted h (s.beginLock r p f) (t.beginLock r p f) := by
  have hhead := hs.dev.head
  have hissue : Shifted h s.issue t.issue :=
    (hs.setDev (hs.dev.issue hq'.head_lt)).setLog _ _
  have hr := hq.ranged.issue (by omega)
  have hr' := hq'.ranged.issue hfew
  have hlt : s.dev.ticketHead < u32 (s.dev.ticketHead + 1) := by
    rw [u32_of_lt (by omega)]
    exact Nat.lt_succ_self _
  rw [beginLock_eq, beginLock_eq, hs.dev.writer, hs.files]
  split
  · have habandon : Shifted h (s.issue.abandon p s.dev.ticketHead r.failure) _ :=
      hissue.abandon hr hr' hlt
    rw [← hs.dev.shift_head] at habandon
    exact habandon
  · have hgoto := hissue.goto (p := p) (.writePart r (s.files f) f s.dev.ticketHead)
    rw [← hs.dev.shift_head] at hgoto
    exact hgoto

theorem look (hs : Shifted h s t) (hq : Queued s) (hq' : Queued t)
    (hin : s.inside p = some (k, f, u)) :
    (ready k t.dev (shift h u)).1 = (ready k s.dev u).1 ∧
      Shifted h (s.looked k u) (t.looked k (shift h u)) := by
  obtain ⟨hlt, hnot⟩ := hq.numbered.live hin
  have hle := Nat.le_of_lt hlt
  exact ⟨hs.dev.ready_eq hq.ranged hq'.ranged hle hnot,
    hs.setDev (hs.dev.looked hq.ranged hq'.ranged hle hnot)⟩

theorem runSection (hs : Shifted h s t) (hq : Queued s) (hq' : Queued t) (p : Pid) :
    Shifted h (s.runSection p) (t.runSection p) := by
  have hm := hs.procs p
  have hin : s.inside p = (s.procs p).inside := rfl
  unfold State.runSection
  generalize s.procs p = pt at hm hin
  generalize t.procs p = pt' at hm
  cases hm with
  | user | wait => exact hs
  | check k f u =>
    have hlt := (hq.numbered.live hin).1
    dsimp only
    rw [hs.dev.readers]
    split
    · exact hs.abandon hq.ranged hq'.ranged hlt
    · exact hs.goto (.loop k f u)
  | loop k f u =>
    obtain ⟨hready, hlooked⟩ := hs.look hq hq' hin
    dsimp only
    rw [hready]
    split
    · next hnow =>
      exact hlooked.grant (hq.looked k u) (hq'.looked k _) (tail_eq_of_ready hnow)
        (tail_eq_of_ready (hready.trans hnow))
    · exact hlooked.goto (.wait k f u false)
  | interrupted k f u => exact hs.abandon hq.ranged hq'.ranged (hq.numbered.live hin).1
  | tryLock k f u =>
    obtain ⟨hready, hlooked⟩ := hs.look hq hq' hin
    have hlt := (hq.numbered.live hin).1
    have hhead : (s.looked k u).dev.ticketHead = s.dev.ticketHead := by
      unfold State.looked
      rw [ready_eq_advance]
    dsimp only
    rw [hs.dev.readers, hready]
    split
    · exact hs.abandon hq.ranged hq'.ranged hlt
    · split
      · next hnow =>
        exact hlooked.grant (hq.looked k u) (hq'.looked k _) (tail_eq_of_ready hnow)
          (tail_eq_of_ready (hready.trans hnow))
      · exact hlooked.abandon (hq.looked k u) (hq'.looked k _) (hhead ▸ hlt)

theorem evaluate (hs : Shifted h s t) (hq : Queued s) (hq' : Queued t) (p : Pid)
    (signalPending : Bool) :
    Shifted h (s.evaluate p signalPending) (t.evaluate p signalPending) := by
  have hm := hs.procs p
  have hin : s.inside p = (s.procs p).inside := rfl
  unfold State.evaluate
  generalize s.procs p = pt at hm hin
  generalize t.procs p = pt' at hm
  cases hm with
  | user | check | loop | interrupted | tryLock => exact hs
  | wait k f u asleep =>
    obtain ⟨hready, hlooked⟩ := hs.look hq hq' hin
    dsimp only
    rw [hready]
    refine hlooked.goto ?_
    split
    · exact .loop k f u
    · split
      · exact .interrupted k f u
      · exact .wait k f u true

theorem unused (hs : Shifted h s t) (f : FileId) : t.Unused f ↔ s.Unused f := by
  have hin : ∀ q, (t.procs q).inside = _ := fun q => (hs.procs q).inside
  unfold State.Unused
  constructor
  · intro hunused q k g u hq
    exact hunused q k g (shift h u) (by rw [hin q, hq]; rfl)
  · intro hunused q k g u hq
    rw [hin q] at hq
    obtain ⟨x, hx, heq⟩ := Option.map_eq_some_iff.mp hq
    cases heq
    exact hunused q _ _ _ hx

theorem enabled_iff (hs : Shifted h s t) (a : Action) : Enabled t a ↔ Enabled s a := by
  cases a with
  | openFile f r w => simp only [Enabled, hs.files, hs.unused]
  | request r p f => simp only [Enabled, hs.files, (hs.procs p).isUser]
  | release p f => simp only [Enabled, hs.files, (hs.procs p).isUser]
  | closeLast p f => simp only [Enabled, hs.files, (hs.procs p).isUser, hs.unused]
  | runSection p => simp only [Enabled, (hs.procs p).atSection]
  | evaluate p signalPending => exact (hs.procs p).waits false
  | signal p => exact (hs.procs p).waits true

/-- The step lemma. -/
theorem next (hs : Shifted h s t) (hq : Queued s) (hq' : Queued t)
    (hfew : (Ramdisk.next t a).dev.ticketHead < 2147483648) :
    Shifted h (Ramdisk.next s a) (Ramdisk.next t a) := by
  cases a with
  | openFile f r w => exact hs.setFile f _
  | request r p f =>
    refine hs.beginLock hq hq' ?_ r p f
    have hlt := hq'.head_lt
    rwa [Ramdisk.next, beginLock_head, u32_of_lt (by omega)] at hfew
  | release p f => exact hs.release p f
  | closeLast p f => exact hs.closeLast p f
  | runSection p => exact hs.runSection hq hq' p
  | evaluate p signalPending => exact hs.evaluate hq hq' p signalPending
  | signal p => exact hs.goto (hs.procs p).awake

end Shifted

/-- The tickets that a step issues. -/
def Action.issues : Action → Nat
  | .request _ _ _ => 1
  | _ => 0

theorem issued_step (h : Step s a t) : t.issued = s.issued + a.issues := by
  cases h.effect with
  | refused | issued | gaveUp | busy | granted =>
    simp [State.issued, State.issue, State.abandon, State.goto, State.grant, State.looked,
      Action.issues, List.countP_append, List.countP_cons]
  | _ => rfl

/-- The requests and turns correspond as well. -/
theorem Shifted.sameTurns (hs : Shifted h s t) (hq : Queued s) (hq' : Queued t) :
    SameTurns h s t where
  requests := hs.inside
  head := hs.dev.shift_head
  waiting := by
    intro q k f u hin
    obtain ⟨hlt, hnot⟩ := hq.numbered.live hin
    exact hs.dev.canRun hq.ranged hq'.ranged (Nat.le_of_lt hlt) hnot
  fresh := by
    rw [hs.dev.shift_head]
    refine hs.dev.canRun hq.ranged hq'.ranged (Nat.le_refl _) fun hstruck => ?_
    exact Nat.lt_irrefl _ (hq.ranged.struck_lt hstruck)

/-- Two states that only differ in the ticket of the failed try. -/
structure Apart (h : Nat) (s t : State) : Prop where
  shifted : Shifted h s t
  without : Queued s
  withTry : Queued t

theorem Apart.issued (ha : Apart h s t) : t.issued = s.issued + 1 := by
  rw [← ha.without.tickets.head_eq, ← ha.withTry.tickets.head_eq, ha.shifted.dev.head]

theorem Apart.step (ha : Apart h s t) (henabled : Enabled s a)
    (hfew : (next s a).issued + 1 < 2147483648) : Apart h (next s a) (next t a) := by
  have hstep : Step s a (Ramdisk.next s a) := ⟨henabled, rfl⟩
  have hstep' : Step t a (Ramdisk.next t a) := ⟨(ha.shifted.enabled_iff a).mpr henabled, rfl⟩
  have hcount := issued_step hstep
  have hcount' := issued_step hstep'
  have hissued := ha.issued
  have hwithout : Queued (Ramdisk.next s a) := ha.without.step hstep (by omega)
  have hwith : Queued (Ramdisk.next t a) := ha.withTry.step hstep' (by omega)
  exact ⟨ha.shifted.next ha.without ha.withTry hwith.head_lt, hwithout, hwith⟩

theorem Apart.run (ha : Apart h s t) (hrun : Run Step s as s')
    (hfew : s'.issued + 1 < 2147483648) : ∃ t', Run Step t as t' ∧ Apart h s' t' := by
  refine (run_below hrun (n := 2147483647) (by omega)).simulate ?_ ha
  rintro s a r t ha ⟨⟨henabled, rfl⟩, hfew⟩
  exact ⟨_, ⟨(ha.shifted.enabled_iff a).mpr henabled, rfl⟩, ha.step henabled (by omega)⟩

theorem Apart.run_back (ha : Apart h s t) (hrun : Run Step t as t')
    (hfew : t'.issued < 2147483648) : ∃ s', Run Step s as s' ∧ Apart h s' t' := by
  refine (run_below hrun hfew).simulate (R := fun t s => Apart h s t) ?_ ha
  rintro t a r s ha ⟨⟨henabled, rfl⟩, hfew⟩
  have henabled' := (ha.shifted.enabled_iff a).mp henabled
  have hcount := issued_step (⟨henabled, rfl⟩ : Step t a (next t a))
  have hcount' := issued_step (⟨henabled', rfl⟩ : Step s a (next s a))
  have hissued := ha.issued
  exact ⟨_, ⟨henabled', rfl⟩, ha.step henabled' (by omega)⟩

end Steps

section Calls

/-- How the two calls end, for a file with the lock part `k`. -/
inductive Outcome (s : State) (p : Pid) (f : FileId) (k : Kind) (h : Nat) : State → State → Prop
  | held : (p : Int) = s.dev.writer ∨ p ∈ s.dev.readers →
      Outcome s p f k h (s.issue.abandon p h EBUSY) (s.issue.abandon p h EDEADLK)
  | granted : (ready k s.issue.dev h).1 = true →
      Outcome s p f k h ((s.issue.looked k h).grant .tryAcquire k p f h)
        ((s.issue.looked k h).grant .acquire k p f h)
  | blocked : (ready k s.issue.dev h).1 = false →
      Outcome s p f k h ((s.issue.looked k h).abandon p h EBUSY)
        (((s.issue.looked k h).looked k h).goto p (.wait k f h true))

theorem goto_goto (s : State) (p : Pid) (pt pt' : Point) :
    (s.goto p pt).goto p pt' = s.goto p pt' := by
  simp [State.goto]

theorem writePart_lockPart {file : File} (hmode : file.readable ≠ file.writable) :
    writePart r file f u = lockPart r file.kind f u := by
  unfold writePart readPart File.kind
  cases hw : file.writable with
  | true => rfl
  | false =>
    rw [hw, Bool.ne_false_iff] at hmode
    rw [hmode]
    rfl

theorem afterGrant_kind {file : File} (hmode : file.readable ≠ file.writable) :
    afterGrant r file.kind file f u = .user 0 := by
  unfold File.kind
  cases hw : file.writable with
  | true =>
    rw [hw, ← Bool.eq_false_iff] at hmode
    simp [afterGrant, readPart, hmode]
  | false => rfl

theorem abandon_goto {errno : Int} (s : State) (p : Pid) (pt : Point) (u : Nat) :
    (s.goto p pt).abandon p u errno = s.abandon p u errno := by
  unfold State.abandon
  rw [goto_goto]
  rfl

theorem grant_goto (s : State) (p : Pid) (pt : Point) (u : Nat) :
    ((s.goto p pt).looked k u).grant r k p f u = (s.looked k u).grant r k p f u := by
  simp [State.grant, State.looked, State.goto, State.setLocked]

theorem runSection_user {ret : Int} (hp : s.procs p = .user ret) : s.runSection p = s := by
  unfold State.runSection
  rw [hp]

theorem evaluate_user {ret : Int} {b : Bool} (hp : s.procs p = .user ret) : s.evaluate p b = s := by
  unfold State.evaluate
  rw [hp]

theorem abandon_procs {errno : Int} : (s.abandon p u errno).procs p = .user (-errno) := by
  simp [State.abandon]

theorem runSection_tryLock (s : State) (p : Pid) (k : Kind) (f : FileId) (u : Nat) :
    (s.goto p (.tryLock k f u)).runSection p = if p ∈ s.dev.readers then s.abandon p u EBUSY
      else if (ready k s.dev u).1 then (s.looked k u).grant .tryAcquire k p f u
      else (s.looked k u).abandon p u EBUSY := by
  unfold State.runSection
  rw [goto_self, ← abandon_goto s p (.tryLock k f u), ← grant_goto s p (.tryLock k f u),
    ← abandon_goto (s.looked k u) p (.tryLock k f u)]
  rfl

theorem runSection_check (s : State) (p : Pid) (k : Kind) (f : FileId) (u : Nat) :
    (s.goto p (.check k f u)).runSection p = if p ∈ s.dev.readers then s.abandon p u EDEADLK
      else s.goto p (.loop k f u) := by
  unfold State.runSection
  rw [goto_self, ← abandon_goto s p (.check k f u), ← goto_goto s p (.check k f u) (.loop k f u)]
  rfl

theorem runSection_loop (s : State) (p : Pid) (k : Kind) (f : FileId) (u : Nat) :
    (s.goto p (.loop k f u)).runSection p =
      if (ready k s.dev u).1 then (s.looked k u).grant .acquire k p f u
      else (s.looked k u).goto p (.wait k f u false) := by
  unfold State.runSection
  rw [goto_self, ← grant_goto s p (.loop k f u), ← goto_goto (s.looked k u) p (.loop k f u)]
  rfl

theorem evaluate_wait (s : State) (p : Pid) (k : Kind) (f : FileId) (u : Nat)
    (hready : (ready k s.dev u).1 = false) : (s.goto p (.wait k f u false)).evaluate p false =
      (s.looked k u).goto p (.wait k f u true) := by
  unfold State.evaluate
  rw [goto_self, ← goto_goto (s.looked k u) p (.wait k f u false)]
  change State.goto _ p (if (ready k s.dev u).1 then _ else _) = _
  rw [hready]
  rfl

theorem grant_user (hmode : (s.files f).readable ≠ (s.files f).writable) :
    (s.grant r (s.files f).kind p f u).procs p = .user 0 := by
  change ((s.setLocked f true).goto p _).procs p = _
  rw [goto_self]
  exact afterGrant_kind hmode

theorem outcome (hmode : (s.files f).readable ≠ (s.files f).writable) (hwords : Words s.dev) :
    Outcome s p f (s.files f).kind s.dev.ticketHead (s.tryAcquireAlone p f)
      (s.acquireAlone p f) := by
  unfold State.tryAcquireAlone State.acquireAlone
  rw [beginLock_eq, beginLock_eq, writePart_lockPart hmode, writePart_lockPart hmode]
  by_cases hw : (p : Int) = s.dev.writer
  · rw [if_pos hw, if_pos hw, runSection_user abandon_procs, runSection_user abandon_procs,
      runSection_user abandon_procs, evaluate_user abandon_procs]
    exact .held (.inl hw)
  rw [if_neg hw, if_neg hw, lockPart, lockPart, runSection_tryLock, runSection_check]
  by_cases hr : p ∈ s.issue.dev.readers
  · rw [if_pos hr, if_pos hr, runSection_user abandon_procs, evaluate_user abandon_procs]
    exact .held (.inr hr)
  rw [if_neg hr, if_neg hr, runSection_loop]
  cases hready : (ready (s.files f).kind s.issue.dev s.dev.ticketHead).1 with
  | true =>
    have huser : ((s.issue.looked (s.files f).kind s.dev.ticketHead).grant .acquire
        (s.files f).kind p f s.dev.ticketHead).procs p = .user 0 := grant_user hmode
    rw [if_pos rfl, if_pos rfl, evaluate_user huser]
    exact .granted hready
  | false =>
    have hagain : (ready (s.files f).kind (s.issue.looked (s.files f).kind s.dev.ticketHead).dev
        s.dev.ticketHead).1 = false :=
      ready_look hwords.issue hwords.head_lt hwords.head_lt hready
    rw [if_neg Bool.false_ne_true, if_neg Bool.false_ne_true, evaluate_wait _ _ _ _ _ hagain]
    exact .blocked hready

theorem Moved.of_inside {pt : Point} (h : Nat)
    (hpt : ∀ k f u, pt.inside = some (k, f, u) → u < h) : Moved h pt pt := by
  cases pt with
  | user ret => exact .user ret ret
  | check k f u =>
    have hm := Moved.check (h := h) k f u
    rwa [shift_of_lt (hpt k f u rfl)] at hm
  | loop k f u =>
    have hm := Moved.loop (h := h) k f u
    rwa [shift_of_lt (hpt k f u rfl)] at hm
  | wait k f u asleep =>
    have hm := Moved.wait (h := h) k f u asleep
    rwa [shift_of_lt (hpt k f u rfl)] at hm
  | interrupted k f u =>
    have hm := Moved.interrupted (h := h) k f u
    rwa [shift_of_lt (hpt k f u rfl)] at hm
  | tryLock k f u =>
    have hm := Moved.tryLock (h := h) k f u
    rwa [shift_of_lt (hpt k f u rfl)] at hm

/-- The ticket of the try in the list, with the tail moved on or not. -/
theorem DeviceShift.of_terminate {tail : Nat} (hr : d.Ranged)
    (hfew : d.ticketHead + 1 < 2147483648) (htail : tail ≤ d.ticketHead)
    (hturn : ∃ n, Turn d.Struck d.ticketTail n ∧ Turn d.Struck tail n) :
    DeviceShift d.ticketHead d (terminateTicket
      { d with ticketHead := u32 (d.ticketHead + 1), ticketTail := tail } d.ticketHead) := by
  have hsmall : d.ticketHead < 2147483648 := by omega
  obtain ⟨n, hn, hn'⟩ := hturn
  have hput : PutIn d.ticketHead d.Struck (terminateTicket
      { d with ticketHead := u32 (d.ticketHead + 1), ticketTail := tail } d.ticketHead).Struck :=
    (PutIn.of_bounded fun _ h => hr.struck_lt h).congr (fun _ => Iff.rfl) (struck_terminate hsmall)
  exact ⟨rfl, rfl, rfl, u32_of_lt (by omega), Nat.le_refl _, hput, n, hn, hput.turn_of_le htail hn'⟩

/-- The state after a failed try, next to the one before. -/
theorem shifted_abandon (hq : Queued s) (huser : (s.procs p).isUser = true)
    (hd : DeviceShift s.dev.ticketHead s.dev (terminateTicket t.dev s.dev.ticketHead))
    (hfiles : t.files = s.files) (hprocs : t.procs = s.procs) {errno : Int} :
    Shifted s.dev.ticketHead s (t.abandon p s.dev.ticketHead errno) := by
  refine ⟨hd, hfiles, fun q => ?_⟩
  change Moved _ _ ((t.goto p _).procs q)
  by_cases hqp : q = p
  · subst q
    rw [goto_self]
    cases hp : s.procs p with
    | user ret => exact .user _ _
    | _ => simp [hp, Point.isUser] at huser
  · rw [goto_other hqp, hprocs]
    exact .of_inside _ fun k f u hin => (hq.numbered.live hin).1

/-- A failed try only puts its ticket in. -/
theorem Outcome.shifted (ho : Outcome s p f (s.files f).kind s.dev.ticketHead t s')
    (hq : Queued s) (hfew : s.dev.ticketHead + 1 < 2147483648) (huser : (s.procs p).isUser = true)
    (hmode : (s.files f).readable ≠ (s.files f).writable) (hfail : t.procs p ≠ .user 0) :
    Shifted s.dev.ticketHead s t := by
  have hr := hq.ranged
  obtain ⟨n, hn⟩ := hr.exists_turn s.dev.ticketTail
  cases ho with
  | held _ =>
    exact shifted_abandon (t := s.issue) hq huser
      (.of_terminate hr hfew hr.tail_le ⟨n, hn, hn⟩) rfl rfl
  | granted _ => exact absurd (grant_user hmode) hfail
  | blocked _ =>
    have hnot : ¬ s.dev.Struck s.dev.ticketHead := fun hs => Nat.lt_irrefl _ (hr.struck_lt hs)
    have hlooked := turn_looked (k := (s.files f).kind) (hr.issue hfew) hn hr.head_lt hnot
    have hle := hlooked.le.trans (hr.turn_le hn)
    refine shifted_abandon (t := s.issue.looked _ _) hq huser ?_ rfl rfl
    have hd := DeviceShift.of_terminate hr hfew hle ⟨n, hn, hlooked⟩
    change DeviceShift _ _ (terminateTicket (ready _ s.issue.dev _).2 _)
    rw [ready_eq_advance]
    exact hd

theorem run_tryAcquireAlone (hopen : (s.files f).opened = true)
    (huser : (s.procs p).isUser = true) : ∃ as, Run Step s as (s.tryAcquireAlone p f) ∧
      (s.tryAcquireAlone p f).issued = s.issued + 1 := by
  have hrequest : Step s (.request .tryAcquire p f) (s.beginLock .tryAcquire p f) :=
    ⟨⟨hopen, huser⟩, rfl⟩
  have hcount := issued_step hrequest
  unfold State.tryAcquireAlone
  generalize s.beginLock .tryAcquire p f = t at hrequest hcount ⊢
  cases hsection : (t.procs p).atSection with
  | true =>
    have hrun : Step t (.runSection p) (t.runSection p) := ⟨hsection, rfl⟩
    refine ⟨_, .snoc (.single hrequest) hrun, ?_⟩
    rw [issued_step hrun, hcount]
    rfl
  | false =>
    have hsame : t.runSection p = t := by
      unfold State.runSection
      cases hp : t.procs p with
      | user | wait => rfl
      | _ => simp [hp, Point.atSection] at hsection
    rw [hsame]
    exact ⟨_, .single hrequest, hcount⟩

end Calls

section Result

theorem apart_of_failed (hrun : Run Step State.init as s) (hopen : (s.files f).opened = true)
    (hmode : (s.files f).readable ≠ (s.files f).writable) (huser : (s.procs p).isUser = true)
    (hfail : (s.tryAcquireAlone p f).procs p ≠ .user 0) (hfew : s.issued + 1 < 2147483648) :
    Apart s.dev.ticketHead s (s.tryAcquireAlone p f) := by
  have hq := run_queued hrun (by omega)
  obtain ⟨bs, htry, hcount⟩ := run_tryAcquireAlone hopen huser
  have hhead := hq.tickets.head_eq
  have ho := outcome (p := p) hmode (run_words hrun)
  exact ⟨ho.shifted hq (by omega) huser hmode hfail, hq, run_queued (hrun.trans htry) (by omega)⟩

theorem issued_le_run (hrun : Run Step s as t) : s.issued ≤ t.issued := by
  induction hrun with
  | start => exact Nat.le_refl _
  | snoc _ hstep ih =>
    rw [issued_step hstep]
    omega

theorem holders_abandon {errno : Int} : (s.abandon p u errno).holders f = s.holders f := by
  simp [State.abandon, State.holders, State.goto, terminateTicket]

theorem Outcome.ends (ho : Outcome s p f (s.files f).kind h t t')
    (hmode : (s.files f).readable ≠ (s.files f).writable) :
    (t.procs p = .user 0 ∧ t'.procs p = .user 0 ∧ t.holders f = t'.holders f ∧ t.dev = t'.dev) ∨
      (t.procs p = .user (-EBUSY) ∧ t.holders f = s.holders f ∧
        (t'.procs p = .user (-EDEADLK) ∨ ∃ k u, t'.procs p = .wait k f u true)) := by
  cases ho with
  | held => exact .inr ⟨abandon_procs, holders_abandon, .inl abandon_procs⟩
  | granted =>
    refine .inl ⟨grant_user hmode, grant_user hmode, ?_, rfl⟩
    rw [holders_grant, holders_grant]
  | blocked =>
    refine .inr ⟨abandon_procs, ?_, .inr ⟨_, _, goto_self _ _⟩⟩
    rw [holders_abandon, holders_looked]
    rfl

theorem busy_ne_zero : Point.user (-EBUSY) ≠ .user 0 := by
  decide

/-- For files open in one mode, from every reachable state. -/
theorem try_agrees (hrun : Run Step State.init as s) (hopen : (s.files f).opened = true)
    (hmode : (s.files f).readable ≠ (s.files f).writable) (huser : (s.procs p).isUser = true) :
    TryAgrees (fun n => n < 2147483648) s p f := by
  have hends := (outcome (p := p) hmode (run_words hrun)).ends hmode
  have hsame : (s.tryAcquireAlone p f).procs p = .user 0 ↔
      (s.acquireAlone p f).procs p = .user 0 := by
    rcases hends with ⟨htry, hacquire, _⟩ | ⟨htry, _, hacquire⟩
    · exact iff_of_true htry hacquire
    · refine iff_of_false (htry ▸ busy_ne_zero) ?_
      rcases hacquire with hacquire | ⟨k, u, hacquire⟩
      · rw [hacquire]
        decide
      · rw [hacquire]
        exact Point.noConfusion
  constructor
  · exact hsame
  · intro hzero
    rcases hends with ⟨_, _, hholders, hdev⟩ | ⟨htry, _⟩
    · exact ⟨hholders, hdev⟩
    · exact absurd (htry.symm.trans hzero) busy_ne_zero
  · intro hfail
    rcases hends with ⟨_, hacquire, _⟩ | ⟨_, _, hacquire⟩
    · exact absurd hacquire hfail
    · exact hacquire
  · intro hfail
    rcases hends with ⟨_, hacquire, _⟩ | ⟨htry, hholders, _⟩
    · exact absurd hacquire hfail
    · exact ⟨htry, hholders⟩
  · intro hfail bs t ht hfew
    obtain ⟨_, htry, hcount⟩ := run_tryAcquireAlone hopen huser
    have hle := issued_le_run ht
    have hapart := apart_of_failed hrun hopen hmode huser (fun h => hfail (hsame.mp h)) (by omega)
    obtain ⟨t', ht', hafter⟩ := hapart.run_back ht hfew
    exact ⟨t', ht', hafter.shifted.sameTurns hafter.without hafter.withTry⟩
  · intro hfail bs t' ht' hfew
    have hle := issued_le_run ht'
    have hapart := apart_of_failed hrun hopen hmode huser (fun h => hfail (hsame.mp h)) (by omega)
    obtain ⟨t, ht, hafter⟩ := hapart.run ht' hfew
    exact ⟨t, ht, hafter.shifted.sameTurns hafter.without hafter.withTry⟩

/-- Process 1 holds the write lock, and process 2 tries. -/
theorem try_agrees_two_writers :
    let s := [Action.openFile 1 false true, .openFile 2 false true, .request .acquire 1 1,
      .runSection 1, .runSection 1].foldl next State.init
    s.dev.writer = 1 ∧ (s.acquireAlone 2 2).procs 2 = .wait .write 2 1 true ∧
      TryAgrees (fun n => n < 2147483648) s 2 2 := by
  have hall : AllEnabled Enabled next State.init [Action.openFile 1 false true,
      .openFile 2 false true, .request .acquire 1 1, .runSection 1, .runSection 1] :=
    ⟨⟨rfl, fun _ _ _ _ h => by cases h⟩, ⟨rfl, fun _ _ _ _ h => by cases h⟩, ⟨rfl, rfl⟩, rfl, rfl,
      trivial⟩
  exact ⟨rfl, rfl, try_agrees (Run.of_allEnabled hall) rfl (by decide) rfl⟩

end Result

section Wrapped

/-- Two write-only files, and `n` tickets issued and served. -/
structure Idle (n : Nat) (s : State) : Prop where
  dev : s.dev = ⟨u32 n, u32 n, 0, [], -1, []⟩
  first : s.files 1 = ⟨true, false, true, false⟩
  second : s.files 2 = ⟨true, false, true, false⟩
  first_idle : s.procs 1 = .user 0
  second_idle : s.procs 2 = .user 0

/-- Process 1 takes the lock. -/
def locking : List Action := [.request .acquire 1 1, .runSection 1, .runSection 1]

/-- Process 1 holds the write lock with the last of `n` tickets. -/
structure Held (n : Nat) (s : State) : Prop where
  dev : s.dev = ⟨u32 n, u32 n, 0, [], 1, []⟩
  first : s.files 1 = ⟨true, false, true, true⟩
  second : s.files 2 = ⟨true, false, true, false⟩
  first_idle : s.procs 1 = .user 0
  second_idle : s.procs 2 = .user 0

theorem Idle.locks (hs : Idle n s) : ∃ t, Run Step s locking t ∧ Held (n + 1) t := by
  obtain ⟨dev, files, procs, log⟩ := s
  obtain ⟨hdev, hfirst, hsecond, hidle, hidle'⟩ := hs
  change dev = _ at hdev
  change files 1 = _ at hfirst
  change files 2 = _ at hsecond
  change procs 1 = _ at hidle
  change procs 2 = _ at hidle'
  subst dev
  refine ⟨_, (Run.of_allEnabled ?_ : Run Step _ locking (locking.foldl next _)), ?_⟩
  · simp [AllEnabled, locking, Enabled, next, State.beginLock, State.runSection, State.goto,
      writePart, lockPart, Point.isUser, Point.atSection, hfirst, hidle]
  · constructor <;> simp [locking, next, State.beginLock, State.runSection, State.goto, writePart,
      readPart, lockPart, hfirst, hsecond, hidle', ready, available, canWrite, canRunTicket,
      skipTerminated, State.grant, State.setLocked, afterGrant, getLock, u32_u32_add_one]

theorem Held.release_dev (hs : Held n s) :
    (next s (.release 1 1)).dev = ⟨u32 n, u32 n, 0, [], -1, []⟩ := by
  obtain ⟨hdev, hfirst, _, _, _⟩ := hs
  simp [next, State.release, State.unlock, State.wakeUpAll, State.goto, State.setLocked, dropLock,
    hfirst, hdev]

theorem Held.released (hs : Held n s) : Step s (.release 1 1) (next s (.release 1 1)) ∧
    Idle n (next s (.release 1 1)) := by
  have hdev := hs.release_dev
  obtain ⟨_, hfirst, hsecond, hidle, hidle'⟩ := hs
  refine ⟨⟨⟨by rw [hfirst], by rw [hidle]; rfl⟩, rfl⟩, hdev, ?_, ?_, ?_, ?_⟩ <;>
    simp [next, State.release, State.unlock, State.wakeUpAll, State.goto, State.setLocked,
      Point.awake, hfirst, hsecond, hidle']

theorem held_reachable (n : Nat) : ∃ as s, Run Step State.init as s ∧ Held (n + 1) s := by
  induction n with
  | zero =>
    have hall : AllEnabled Enabled next State.init
        [Action.openFile 1 false true, .openFile 2 false true] :=
      ⟨⟨rfl, fun _ _ _ _ h => by cases h⟩, ⟨rfl, fun _ _ _ _ h => by cases h⟩, trivial⟩
    have hidle : Idle 0 ([Action.openFile 1 false true, .openFile 2 false true].foldl next
        State.init) := ⟨rfl, rfl, rfl, rfl, rfl⟩
    obtain ⟨t, hlock, hheld⟩ := hidle.locks
    exact ⟨_, t, (Run.of_allEnabled hall).trans hlock, hheld⟩
  | succ n ih =>
    obtain ⟨as, s, hrun, hheld⟩ := ih
    obtain ⟨hstep, hidle⟩ := hheld.released
    obtain ⟨t, hlock, hnext⟩ := hidle.locks
    exact ⟨_, t, (Run.snoc hrun hstep).trans hlock, hnext⟩

/-- The signed number of the ticket is the largest one. -/
theorem Held.tries (hs : Held 2147483647 s) :
    (s.tryAcquireAlone 2 2).dev = ⟨2147483648, 2147483647, 0, [], 1, [2147483647]⟩ ∧
      (s.tryAcquireAlone 2 2).files 1 = ⟨true, false, true, true⟩ ∧
      (s.tryAcquireAlone 2 2).procs 1 = .user 0 ∧
      (s.tryAcquireAlone 2 2).procs 2 = .user (-EBUSY) := by
  obtain ⟨hdev, hfirst, hsecond, hidle, _⟩ := hs
  simp [State.tryAcquireAlone, State.beginLock, State.runSection, State.goto, State.abandon,
    writePart, lockPart, hdev, hfirst, hsecond, hidle, ready, available, canWrite, terminateTicket,
    u32, toInt32]

/-- The try of process 2 fails with the ticket `2 ^ 31 - 1`. Once process 1 has released the lock,
the next request has the ticket `2 ^ 31`, and `can_run_ticket` does not skip the failed one. -/
theorem next_request_stuck : ∃ as s, Run Step State.init as s ∧ (s.files 2).opened = true ∧
    (s.files 2).readable ≠ (s.files 2).writable ∧ (s.procs 2).isUser = true ∧
    ¬ TryAgrees (fun _ => True) s 2 2 := by
  obtain ⟨as, s, hrun, hheld⟩ := held_reachable 2147483646
  refine ⟨as, s, hrun, by rw [hheld.second], by rw [hheld.second]; decide,
    by rw [hheld.second_idle]; rfl, fun h => ?_⟩
  obtain ⟨hdev, hfirst, hidle, hbusy⟩ := hheld.tries
  have hfail : (s.acquireAlone 2 2).procs 2 ≠ .user 0 := by
    intro hzero
    exact busy_ne_zero (hbusy.symm.trans (h.succeeds.mpr hzero))
  have hstep : Step (s.tryAcquireAlone 2 2) (.release 1 1)
      (next (s.tryAcquireAlone 2 2) (.release 1 1)) :=
    ⟨⟨by rw [hfirst], by rw [hidle]; rfl⟩, rfl⟩
  obtain ⟨t, hrun', hsame⟩ := h.vanishes hfail _ _ (.single hstep) trivial
  have ht : t.dev = ⟨u32 2147483647, u32 2147483647, 0, [], -1, []⟩ := by
    rw [hrun'.eq_foldl]
    exact hheld.release_dev
  have hreleased : (next (s.tryAcquireAlone 2 2) (.release 1 1)).dev =
      ⟨2147483648, 2147483647, 0, [], -1, [2147483647]⟩ := by
    simp [next, State.release, State.unlock, State.wakeUpAll, State.goto, State.setLocked, dropLock,
      hfirst, hdev]
  have hfresh := hsame.fresh
  rw [ht, hreleased] at hfresh
  exact absurd hfresh (by decide)

end Wrapped

end CS111.Ramdisk
