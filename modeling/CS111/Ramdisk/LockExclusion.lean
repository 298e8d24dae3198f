import CS111.Ramdisk.Lock

/-!
# Mutual exclusion of the ramdisk lock

Each section is a short sequence of primitive state changes, and the invariant is proved once
for each primitive. The read part of the ioctl also runs for a file that is open for writing;
a read grant to such a file is the one step that the invariant does not survive.
-/

namespace CS111.Ramdisk

set_option autoImplicit false

/-- The four things promised of one device. -/
structure Exclusive (s : State) : Prop where
  writer_excludes : 0 ≤ s.dev.writer → s.dev.readers = []
  one_writer : ∀ f g, (s.files f).writable = true → (s.files f).locked = true →
    (s.files g).writable = true → (s.files g).locked = true → f = g
  count : s.dev.numReaders = s.dev.readers.length
  distinct : s.dev.readers.Nodup

/-- Past the check for its own read lock, and not yet granted one. -/
def Point.pastReadCheck : Point → Bool
  | .loop .read _ _ | .wait .read _ _ _ => true
  | _ => false

structure Safe (s : State) : Prop extends Exclusive s where
  locked_writer : ∀ f, (s.files f).writable = true → (s.files f).locked = true → 0 ≤ s.dev.writer
  not_reader : ∀ p, (s.procs p).pastReadCheck = true → p ∉ s.dev.readers

variable {s s' : State} {p : Pid} {f : FileId} {k : Kind} {r : Request} {ticket : Nat}

theorem safe_init : Safe State.init where
  writer_excludes := by simp [State.init, osprdSetup]
  one_writer := by simp [State.init]
  count := rfl
  distinct := List.nodup_nil
  locked_writer := by simp [State.init]
  not_reader := by simp [State.init, Point.pastReadCheck]

@[simp] theorem ready_writer (d : Device) : (ready k d ticket).2.writer = d.writer := by
  unfold ready canRunTicket
  split <;> rfl

@[simp] theorem ready_readers (d : Device) : (ready k d ticket).2.readers = d.readers := by
  unfold ready canRunTicket
  split <;> rfl

@[simp] theorem ready_numReaders (d : Device) :
    (ready k d ticket).2.numReaders = d.numReaders := by
  unfold ready canRunTicket
  split <;> rfl

theorem available_of_ready {d : Device} (h : (ready k d ticket).1 = true) :
    available k d = true := by
  unfold ready at h
  split at h
  · assumption
  · simp at h

@[simp] theorem pastReadCheck_awake (pt : Point) :
    pt.awake.pastReadCheck = pt.pastReadCheck := by
  cases pt with
  | wait k f t b => cases k <;> rfl
  | _ => rfl

@[simp] theorem goto_self (s : State) (pt : Point) : (s.goto p pt).procs p = pt := by
  simp [State.goto]

@[simp] theorem goto_other {q : Pid} (h : q ≠ p) (pt : Point) :
    (s.goto p pt).procs q = s.procs q := by
  simp [State.goto, h]

/-- A change that touches neither the holders nor the files. -/
theorem Safe.quiet (hs : Safe s) (hwriter : s'.dev.writer = s.dev.writer)
    (hreaders : s'.dev.readers = s.dev.readers) (hnum : s'.dev.numReaders = s.dev.numReaders)
    (hfiles : s'.files = s.files)
    (hprocs : ∀ q, (s'.procs q).pastReadCheck = true → q ∉ s.dev.readers) : Safe s' where
  writer_excludes := by rw [hwriter, hreaders]; exact hs.writer_excludes
  one_writer := by rw [hfiles]; exact hs.one_writer
  count := by rw [hnum, hreaders]; exact hs.count
  distinct := by rw [hreaders]; exact hs.distinct
  locked_writer := by rw [hfiles, hwriter]; exact hs.locked_writer
  not_reader := by rw [hreaders]; exact hprocs

theorem Safe.ready (hs : Safe s) : Safe { s with dev := (ready k s.dev ticket).2 } :=
  hs.quiet (ready_writer _) (ready_readers _) (ready_numReaders _) rfl hs.not_reader

theorem Safe.goto {pt : Point} (hs : Safe s)
    (hpt : pt.pastReadCheck = true → p ∉ s.dev.readers) : Safe (s.goto p pt) := by
  refine hs.quiet rfl rfl rfl rfl ?_
  intro q hq
  by_cases hqp : q = p
  · subst q
    exact hpt (by simpa using hq)
  · exact hs.not_reader q (by simpa [hqp] using hq)

theorem Safe.abandon {errno : Int} (hs : Safe s) : Safe (s.abandon p ticket errno) := by
  have hgoto : Safe (s.goto p (.user (-errno))) := hs.goto (by simp [Point.pastReadCheck])
  exact hgoto.quiet rfl rfl rfl rfl hgoto.not_reader

theorem not_pastReadCheck_lockPart : (lockPart r k f ticket).pastReadCheck = false := by
  cases r <;> rfl

theorem not_pastReadCheck_readPart (file : File) :
    (readPart r file f ticket).pastReadCheck = false := by
  unfold readPart
  split
  · exact not_pastReadCheck_lockPart
  · rfl

theorem not_pastReadCheck_writePart (file : File) :
    (writePart r file f ticket).pastReadCheck = false := by
  unfold writePart
  split
  · exact not_pastReadCheck_lockPart
  · exact not_pastReadCheck_readPart file

theorem not_pastReadCheck_afterGrant (file : File) :
    (afterGrant r k file f ticket).pastReadCheck = false := by
  cases k with
  | write => exact not_pastReadCheck_readPart file
  | read => rfl

theorem Safe.beginLock (hs : Safe s) : Safe (s.beginLock r p f) := by
  have hissued : Safe { s with
      dev := { s.dev with ticketHead := u32 (s.dev.ticketHead + 1) }
      log := s.log ++ [Event.issued s.dev.ticketHead] } :=
    hs.quiet rfl rfl rfl rfl hs.not_reader
  unfold State.beginLock
  simp only []
  split
  · exact hissued.abandon
  · exact hissued.goto (by simp [not_pastReadCheck_writePart])

theorem locked_setLocked (s : State) (f g : FileId) (b : Bool) :
    ((s.setLocked f b).files g).locked = if g = f then b else (s.files g).locked := by
  by_cases h : g = f
  · subst g; simp [State.setLocked]
  · simp [State.setLocked, h]

theorem writable_setLocked (s : State) (f g : FileId) (b : Bool) :
    ((s.setLocked f b).files g).writable = (s.files g).writable := by
  by_cases h : g = f
  · subst g; simp [State.setLocked]
  · simp [State.setLocked, h]

/-- A write grant finds no locked file that is open for writing, and no reader. -/
theorem Safe.grant_write (hs : Safe s) (havail : available .write s.dev = true) :
    Safe (s.grant r .write p f ticket) := by
  simp only [available, canWrite, Bool.and_eq_true, beq_iff_eq, decide_eq_true_eq] at havail
  obtain ⟨hnum, hwriter⟩ := havail
  have hempty : s.dev.readers = [] := by
    apply List.eq_nil_of_length_eq_zero
    rw [← hs.count, hnum]
  have hunlocked : ∀ g, (s.files g).writable = true → (s.files g).locked = false := by
    intro g hg
    by_contra hlocked
    have := hs.locked_writer g hg (by simpa using hlocked)
    omega
  have honly : ∀ g, ((s.setLocked f true).files g).writable = true →
      ((s.setLocked f true).files g).locked = true → g = f := by
    intro g hwritable hlocked
    rw [writable_setLocked] at hwritable
    rw [locked_setLocked] at hlocked
    by_contra hne
    simp [hne, hunlocked g hwritable] at hlocked
  refine ⟨⟨fun _ => hempty, ?_, hs.count, hs.distinct⟩, ?_, ?_⟩
  · intro g h hg hgl hh hhl
    exact (honly g hg hgl).trans (honly h hh hhl).symm
  · intro g _ _
    exact Int.natCast_nonneg p
  · intro q _ hmem
    change q ∈ s.dev.readers at hmem
    simp [hempty] at hmem

/-- A read grant to a file that is not open for writing. -/
theorem Safe.grant_read (hs : Safe s) (havail : available .read s.dev = true)
    (hfile : (s.files f).writable = false) (hp : p ∉ s.dev.readers) :
    Safe (s.grant r .read p f ticket) := by
  simp only [available, canRead, decide_eq_true_eq] at havail
  have hold : ∀ g, ((s.setLocked f true).files g).writable = true →
      ((s.setLocked f true).files g).locked = true →
      (s.files g).writable = true ∧ (s.files g).locked = true := by
    intro g hwritable hlocked
    rw [writable_setLocked] at hwritable
    rw [locked_setLocked] at hlocked
    have hne : g ≠ f := by
      intro heq
      simp [heq, hfile] at hwritable
    exact ⟨hwritable, by simpa [hne] using hlocked⟩
  refine ⟨⟨?_, ?_, ?_, List.nodup_cons.mpr ⟨hp, hs.distinct⟩⟩, ?_, ?_⟩
  · intro h
    change 0 ≤ s.dev.writer at h
    omega
  · intro g h hg hgl hh hhl
    obtain ⟨hg, hgl⟩ := hold g hg hgl
    obtain ⟨hh, hhl⟩ := hold h hh hhl
    exact hs.one_writer g h hg hgl hh hhl
  · change s.dev.numReaders + 1 = (p :: s.dev.readers).length
    rw [hs.count, List.length_cons]
  · intro g hg hgl
    obtain ⟨hg, hgl⟩ := hold g hg hgl
    exact hs.locked_writer g hg hgl
  · intro q hq hmem
    change (((s.setLocked f true).goto p (.user 0)).procs q).pastReadCheck = true at hq
    change q ∈ p :: s.dev.readers at hmem
    by_cases hqp : q = p
    · subst q
      simp [Point.pastReadCheck] at hq
    · rcases List.mem_cons.mp hmem with heq | hmem
      · exact hqp heq
      · rw [goto_other hqp] at hq
        exact hs.not_reader q hq hmem

theorem removeReaders_of_notMem {pid : Pid} {b : Bool} {l : List Pid} (h : pid ∉ l) :
    removeReaders pid b l = (l, 0) := by
  induction l generalizing b with
  | nil => rfl
  | cons curr rest ih =>
    have hne : curr ≠ pid := fun heq => h (heq ▸ List.mem_cons_self)
    have hrest := ih (b := curr == pid && !b) (fun hm => h (List.mem_cons_of_mem curr hm))
    simp only [removeReaders, hrest, if_neg hne]

/-- On a list without repetitions the traversal removes the one node with this pid. -/
theorem removeReaders_of_nodup {pid : Pid} {l : List Pid} (h : l.Nodup) :
    removeReaders pid false l = (l.erase pid, if pid ∈ l then 1 else 0) := by
  induction l with
  | nil => rfl
  | cons curr rest ih =>
    obtain ⟨hcurr, hrest⟩ := List.nodup_cons.mp h
    by_cases heq : curr = pid
    · subst curr
      simp [removeReaders, removeReaders_of_notMem hcurr]
    · have hbeq : (curr == pid) = false := by simpa using heq
      have hne : pid ≠ curr := fun h => heq h.symm
      simp [removeReaders, hbeq, ih hrest, heq, hne]

theorem dropLock_readers {d : Device} {file : File} (h : d.readers.Nodup) :
    (dropLock file p d).readers = if file.readable then d.readers.erase p else d.readers := by
  unfold dropLock
  cases file.writable <;> cases file.readable <;> simp [removeReaders_of_nodup h]

theorem dropLock_numReaders {d : Device} {file : File} (h : d.readers.Nodup)
    (hcount : d.numReaders = d.readers.length) :
    (dropLock file p d).numReaders = (dropLock file p d).readers.length := by
  rw [dropLock_readers h]
  unfold dropLock
  cases file.writable <;> cases file.readable <;>
    simp [removeReaders_of_nodup h, hcount, List.length_erase] <;> split <;> simp_all

theorem dropLock_writer (d : Device) (file : File) :
    (dropLock file p d).writer = if file.writable then -1 else d.writer := by
  unfold dropLock
  cases file.writable <;> cases file.readable <;> rfl

theorem Safe.unlock (hs : Safe s) (hlocked : (s.files f).locked = true) :
    Safe (s.unlock p f) := by
  have hsub : ∀ q, q ∈ (dropLock (s.files f) p s.dev).readers → q ∈ s.dev.readers := by
    intro q hq
    rw [dropLock_readers hs.distinct] at hq
    split at hq
    · exact List.mem_of_mem_erase hq
    · exact hq
  have hold : ∀ g, ((s.setLocked f false).files g).writable = true →
      ((s.setLocked f false).files g).locked = true →
      g ≠ f ∧ (s.files g).writable = true ∧ (s.files g).locked = true := by
    intro g hwritable hgl
    rw [writable_setLocked] at hwritable
    rw [locked_setLocked] at hgl
    have hne : g ≠ f := by
      intro heq
      simp [heq] at hgl
    exact ⟨hne, hwritable, by simpa [hne] using hgl⟩
  refine ⟨⟨?_, ?_, dropLock_numReaders hs.distinct hs.count, ?_⟩, ?_, ?_⟩
  · intro h
    change 0 ≤ (dropLock (s.files f) p s.dev).writer at h
    change (dropLock (s.files f) p s.dev).readers = []
    rw [dropLock_writer] at h
    apply List.eq_nil_iff_forall_not_mem.mpr
    intro q hq
    split at h
    · omega
    · have hmem := hsub q hq
      simp [hs.writer_excludes h] at hmem
  · intro g h hg hgl hh hhl
    obtain ⟨_, hg, hgl⟩ := hold g hg hgl
    obtain ⟨_, hh, hhl⟩ := hold h hh hhl
    exact hs.one_writer g h hg hgl hh hhl
  · change (dropLock (s.files f) p s.dev).readers.Nodup
    rw [dropLock_readers hs.distinct]
    split
    · exact hs.distinct.erase p
    · exact hs.distinct
  · intro g hg hgl
    obtain ⟨hne, hg, hgl⟩ := hold g hg hgl
    change 0 ≤ (dropLock (s.files f) p s.dev).writer
    rw [dropLock_writer]
    split
    · rename_i hwritable
      exact absurd (hs.one_writer g f hg hgl hwritable hlocked) hne
    · exact hs.locked_writer g hg hgl
  · intro q hq hmem
    change (s.procs q).awake.pastReadCheck = true at hq
    rw [pastReadCheck_awake] at hq
    exact hs.not_reader q hq (hsub q hmem)

theorem Safe.release (hs : Safe s) : Safe (s.release p f) := by
  unfold State.release
  split
  · rename_i hlocked
    exact (hs.unlock hlocked).goto (by simp [Point.pastReadCheck])
  · exact hs.goto (by simp [Point.pastReadCheck])

/-- Opening or closing a file replaces it by one whose lock flag is no stronger. -/
theorem Safe.setFile {file : File} (hs : Safe s)
    (hfile : file.writable = true → file.locked = true →
      (s.files f).writable = true ∧ (s.files f).locked = true) :
    Safe { s with files := Function.update s.files f file } := by
  have hold : ∀ g, (Function.update s.files f file g).writable = true →
      (Function.update s.files f file g).locked = true →
      (s.files g).writable = true ∧ (s.files g).locked = true := by
    intro g hg hgl
    by_cases heq : g = f
    · subst g
      rw [Function.update_self] at hg hgl
      exact hfile hg hgl
    · rw [Function.update_of_ne heq] at hg hgl
      exact ⟨hg, hgl⟩
  refine ⟨⟨hs.writer_excludes, ?_, hs.count, hs.distinct⟩, ?_, hs.not_reader⟩
  · intro g h hg hgl hh hhl
    obtain ⟨hg, hgl⟩ := hold g hg hgl
    obtain ⟨hh, hhl⟩ := hold h hh hhl
    exact hs.one_writer g h hg hgl hh hhl
  · intro g hg hgl
    obtain ⟨hg, hgl⟩ := hold g hg hgl
    exact hs.locked_writer g hg hgl

theorem Safe.closeLast (hs : Safe s) : Safe (s.closeLast p f) := by
  unfold State.closeLast
  simp only []
  split
  · rename_i hlocked
    exact (hs.unlock hlocked).setFile fun hw hl => ⟨hw, hl⟩
  · exact hs.setFile fun hw hl => ⟨hw, hl⟩

/-- The next step of the process is a read grant to a file that is open for writing. -/
def GrantsReadToWriter (s : State) (a : Action) : Prop :=
  ∃ p f ticket, a = .runSection p ∧
    (s.procs p = .loop .read f ticket ∨ s.procs p = .tryLock .read f ticket) ∧
    (s.files f).writable = true ∧ (ready .read s.dev ticket).1 = true

theorem Safe.grant (hs : Safe s) (havail : available k s.dev = true)
    (hread : k = .read → (s.files f).writable = false ∧ p ∉ s.dev.readers) :
    Safe (s.grant r k p f ticket) := by
  cases k with
  | write => exact hs.grant_write havail
  | read => exact hs.grant_read havail (hread rfl).1 (hread rfl).2

theorem Safe.runSection (hs : Safe s) (hok : ¬ GrantsReadToWriter s (.runSection p)) :
    Safe (s.runSection p) := by
  unfold State.runSection
  split
  · exact hs
  · exact hs
  · split
    · exact hs.abandon
    · rename_i hp
      exact hs.goto fun _ => hp
  · rename_i k f ticket hpoint
    simp only []
    split
    · rename_i hnow
      refine hs.ready.grant ?_ ?_
      · have := available_of_ready hnow
        cases k <;> simpa [available, canWrite, canRead] using this
      · rintro rfl
        refine ⟨?_, ?_⟩
        · by_contra hw
          exact hok ⟨p, f, ticket, rfl, .inl hpoint, by simpa using hw, hnow⟩
        · simpa using hs.not_reader p (by simp [hpoint, Point.pastReadCheck])
    · refine hs.ready.goto ?_
      intro hpast
      rw [ready_readers]
      apply hs.not_reader p
      cases k with
      | write => simp [Point.pastReadCheck] at hpast
      | read => simp [hpoint, Point.pastReadCheck]
  · exact hs.abandon
  · rename_i k f ticket hpoint
    split
    · exact hs.abandon
    · rename_i hp
      simp only []
      split
      · rename_i hnow
        refine hs.ready.grant ?_ ?_
        · have := available_of_ready hnow
          cases k <;> simpa [available, canWrite, canRead] using this
        · rintro rfl
          refine ⟨?_, by simpa using hp⟩
          by_contra hw
          exact hok ⟨p, f, ticket, rfl, .inr hpoint, by simpa using hw, hnow⟩
      · exact hs.ready.abandon

theorem Safe.evaluate {signalPending : Bool} (hs : Safe s) :
    Safe (s.evaluate p signalPending) := by
  unfold State.evaluate
  split
  · rename_i k f ticket asleep hpoint
    refine hs.ready.goto ?_
    intro hpast
    rw [ready_readers]
    apply hs.not_reader p
    cases k with
    | write => split at hpast <;> try split at hpast
               all_goals simp [Point.pastReadCheck] at hpast
    | read => simp [hpoint, Point.pastReadCheck]
  · exact hs

theorem Safe.next (hs : Safe s) {a : Action} (hok : ¬ GrantsReadToWriter s a) :
    Safe (next s a) := by
  cases a with
  | openFile f r w => exact hs.setFile fun _ h => by simp at h
  | request r p f => exact hs.beginLock
  | release p f => exact hs.release
  | closeLast p f => exact hs.closeLast
  | runSection p => exact hs.runSection hok
  | evaluate p signalPending => exact hs.evaluate
  | signal p =>
    refine hs.goto ?_
    rw [pastReadCheck_awake]
    exact hs.not_reader p

/-- The run lemma: steps that make no read grant to a file open for writing keep the lock safe. -/
theorem run_safe {as : List Action}
    (h : Run (fun s a t => ¬ GrantsReadToWriter s a ∧ Step s a t) State.init as s) : Safe s := by
  refine Run.invariant ?_ safe_init h
  rintro t a r ht ⟨hok, _, rfl⟩
  exact ht.next hok

end CS111.Ramdisk
