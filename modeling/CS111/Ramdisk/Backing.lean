import CS111.Ramdisk.Effects

/-!
# Held locks and locked files

A lock is recorded as a flag of the file and as the pid of the process that acquired it. A
release trusts the flag and removes the pid of the caller, so a reader stays behind when
somebody else releases the file.
-/

namespace CS111.Ramdisk

set_option autoImplicit false

/-- The state together with the file through which each process was last granted a read lock. -/
structure Tracked where
  st : State
  through : Pid → FileId

/-- The file of the read lock that the action grants, if it grants one. -/
def readGrant (s : State) : Action → Option (Pid × FileId)
  | .runSection p =>
    match s.procs p with
    | .loop .read f ticket => if (ready .read s.dev ticket).1 then some (p, f) else none
    | .tryLock .read f ticket =>
      if p ∉ s.dev.readers ∧ (ready .read s.dev ticket).1 then some (p, f) else none
    | _ => none
  | _ => none

def recordGrant (through : Pid → FileId) : Option (Pid × FileId) → Pid → FileId
  | none => through
  | some (p, f) => Function.update through p f

def TrackedStep (x : Tracked) (a : Action) (y : Tracked) : Prop :=
  Step x.st a y.st ∧ y.through = recordGrant x.through (readGrant x.st a)

def Tracked.init : Tracked := ⟨State.init, fun _ => 0⟩

/-- Every lock is backed by an open file that carries the flag. -/
structure Backed (x : Tracked) : Prop where
  writer : 0 ≤ x.st.dev.writer → ∃ f, (x.st.files f).opened = true ∧
    (x.st.files f).writable = true ∧ (x.st.files f).locked = true
  readers : ∀ p ∈ x.st.dev.readers, (x.st.files (x.through p)).opened = true ∧
    (x.st.files (x.through p)).locked = true
  all_closed : (∀ f, (x.st.files f).opened = false) →
    x.st.dev.writer = -1 ∧ x.st.dev.readers = []

/-- A locked file is given up by the only process that holds a read lock through it. -/
def OwnRelease (x : Tracked) : Action → Prop
  | .release p f | .closeLast p f => (x.st.files f).locked = true →
      ∀ q ∈ x.st.dev.readers, x.through q = f → q = p
  | _ => True

/-- What the steps keep, with the facts about the list of readers they need. -/
structure Holding (s : State) (through : Pid → FileId) : Prop where
  inUse : InUse s
  distinct : s.dev.readers.Nodup
  not_reader : ∀ p, (s.procs p).pastReadCheck = true → p ∉ s.dev.readers
  no_writer : s.dev.writer = -1 ∨ 0 ≤ s.dev.writer
  locked_open : ∀ f, (s.files f).locked = true → (s.files f).opened = true
  writer : 0 ≤ s.dev.writer → ∃ f, (s.files f).writable = true ∧ (s.files f).locked = true
  readers : ∀ p ∈ s.dev.readers, (s.files (through p)).readable = true ∧
    (s.files (through p)).locked = true

namespace Holding
variable {s t : State} {through : Pid → FileId} {p : Pid} {f : FileId} {k : Kind} {ticket : Nat}

theorem backed (hs : Holding s through) : Backed ⟨s, through⟩ where
  writer := by
    intro h
    obtain ⟨f, hw, hl⟩ := hs.writer h
    exact ⟨f, hs.locked_open f hl, hw, hl⟩
  readers := by
    intro q hq
    obtain ⟨_, hl⟩ := hs.readers q hq
    exact ⟨hs.locked_open _ hl, hl⟩
  all_closed := by
    intro hclosed
    have hunlocked : ∀ f, (s.files f).locked ≠ true := fun f hl => by
      have ho := hs.locked_open f hl
      rw [show (s.files f).opened = false from hclosed f] at ho
      exact absurd ho (by simp)
    constructor
    · apply hs.no_writer.resolve_right
      intro h
      obtain ⟨f, _, hl⟩ := hs.writer h
      exact hunlocked f hl
    · apply List.eq_nil_iff_forall_not_mem.mpr
      intro q hq
      exact hunlocked _ (hs.readers q hq).2

/-- A step that changes neither holders nor files. -/
theorem quiet (hs : Holding s through) (hin : InUse t) (hwriter : t.dev.writer = s.dev.writer)
    (hreaders : t.dev.readers = s.dev.readers) (hfiles : t.files = s.files)
    (hprocs : ∀ q, (t.procs q).pastReadCheck = true → q ∉ s.dev.readers) :
    Holding t through where
  inUse := hin
  distinct := hreaders ▸ hs.distinct
  not_reader := by rw [hreaders]; exact hprocs
  no_writer := by rw [hwriter]; exact hs.no_writer
  locked_open := by rw [hfiles]; exact hs.locked_open
  writer := by rw [hwriter, hfiles]; exact hs.writer
  readers := by rw [hreaders, hfiles]; exact hs.readers

theorem goto {pt : Point} (hs : Holding s through)
    (hpt : pt.pastReadCheck = true → p ∉ s.dev.readers) (q : Pid)
    (hq : ((s.goto p pt).procs q).pastReadCheck = true) : q ∉ s.dev.readers := by
  by_cases hqp : q = p
  · subst q
    exact hpt (by simpa using hq)
  · exact hs.not_reader q (by simpa [hqp] using hq)

/-- Only the file that is not locked may be replaced, and only by one that is not locked. -/
theorem setFile {file : File} (hs : Holding s through) (hold : (s.files f).locked = false)
    (hnew : file.locked = false) (hunused : s.Unused f) :
    Holding { s with files := Function.update s.files f file } through := by
  have hother : ∀ g, (s.files g).locked = true → Function.update s.files f file g = s.files g := by
    intro g hg
    apply Function.update_of_ne
    rintro rfl
    rw [hold] at hg
    exact absurd hg (by simp)
  refine ⟨hs.inUse.setFile hunused, hs.distinct, hs.not_reader, hs.no_writer, ?_, ?_, ?_⟩
  · intro g hg
    change (Function.update s.files f file g).locked = true at hg
    change (Function.update s.files f file g).opened = true
    by_cases hgf : g = f
    · rw [hgf, Function.update_self, hnew] at hg
      exact absurd hg (by simp)
    · rw [Function.update_of_ne hgf] at hg ⊢
      exact hs.locked_open g hg
  · intro h
    obtain ⟨g, hw, hl⟩ := hs.writer h
    refine ⟨g, ?_⟩
    change (Function.update s.files f file g).writable = true ∧
      (Function.update s.files f file g).locked = true
    rw [hother g hl]
    exact ⟨hw, hl⟩
  · intro q hq
    obtain ⟨hr, hl⟩ := hs.readers q hq
    change (Function.update s.files f file (through q)).readable = true ∧
      (Function.update s.files f file (through q)).locked = true
    rw [hother _ hl]
    exact ⟨hr, hl⟩

theorem setLocked_of_ne {g : FileId} (b : Bool) (h : g ≠ f) :
    (s.setLocked f b).files g = s.files g := Function.update_of_ne h _ _

theorem setLocked_self (b : Bool) :
    (s.setLocked f b).files f = { s.files f with locked := b } := Function.update_self _ _ _

theorem unlock (hs : Holding s through) (hown : ∀ q ∈ s.dev.readers, through q = f → q = p) :
    Holding (s.unlock p f) through := by
  have hreaders : (dropLock (s.files f) p s.dev).readers =
      if (s.files f).readable then s.dev.readers.erase p else s.dev.readers :=
    dropLock_readers hs.distinct
  have hwriter := dropLock_writer (p := p) s.dev (s.files f)
  have hsub : ∀ q ∈ (dropLock (s.files f) p s.dev).readers, q ∈ s.dev.readers := by
    intro q hq
    rw [hreaders] at hq
    split at hq
    · exact List.mem_of_mem_erase hq
    · exact hq
  constructor
  · apply hs.inUse.same (inside_unlock s p f)
    exact fun g k => serves_setLocked s f g false k
  · change (dropLock (s.files f) p s.dev).readers.Nodup
    rw [hreaders]
    split
    · exact hs.distinct.erase p
    · exact hs.distinct
  · intro q hq hmem
    change (s.procs q).awake.pastReadCheck = true at hq
    rw [pastReadCheck_awake] at hq
    exact hs.not_reader q hq (hsub q hmem)
  · change (dropLock (s.files f) p s.dev).writer = -1 ∨ 0 ≤ (dropLock (s.files f) p s.dev).writer
    rw [hwriter]
    split
    · exact .inl rfl
    · exact hs.no_writer
  · intro g hg
    by_cases hgf : g = f
    · subst g
      rw [show ((s.unlock p f).files f).locked = false from congrArg File.locked
        (setLocked_self false)] at hg
      exact absurd hg (by simp)
    · have hsame : (s.unlock p f).files g = s.files g := setLocked_of_ne false hgf
      rw [hsame] at hg ⊢
      exact hs.locked_open g hg
  · intro h
    change 0 ≤ (dropLock (s.files f) p s.dev).writer at h
    rw [hwriter] at h
    split at h
    · exact absurd h (by decide)
    · next hw =>
      obtain ⟨g, hgw, hgl⟩ := hs.writer h
      have hgf : g ≠ f := by
        rintro rfl
        exact hw hgw
      have hsame : (s.unlock p f).files g = s.files g := setLocked_of_ne false hgf
      exact ⟨g, by rw [hsame]; exact ⟨hgw, hgl⟩⟩
  · intro q hq
    obtain ⟨hr, hl⟩ := hs.readers q (hsub q hq)
    have hgf : through q ≠ f := by
      intro heq
      have hqp := hown q (hsub q hq) heq
      subst hqp
      change q ∈ (dropLock (s.files f) q s.dev).readers at hq
      rw [hreaders, if_pos (heq ▸ hr)] at hq
      exact hs.distinct.not_mem_erase hq
    have hsame : (s.unlock p f).files (through q) = s.files (through q) :=
      setLocked_of_ne false hgf
    rw [hsame]
    exact ⟨hr, hl⟩

/-- A grant marks the file; the new holder is backed by it. -/
theorem grant {r : Request} (hs : Holding s through) (hin : InUse (s.grant r k p f ticket))
    (hserves : (s.files f).serves k = true) (hp : k = .read → p ∉ s.dev.readers) :
    Holding (s.grant r k p f ticket)
      (recordGrant through (if k = .read then some (p, f) else none)) := by
  have hopened : (s.files f).opened = true := by
    cases k <;> exact (Bool.and_eq_true_iff.mp hserves).1
  have hkept : ∀ g, (s.files g).locked = true → ((s.setLocked f true).files g).locked = true ∧
      ((s.setLocked f true).files g).writable = (s.files g).writable ∧
      ((s.setLocked f true).files g).readable = (s.files g).readable := by
    intro g hg
    by_cases hgf : g = f
    · subst g
      rw [setLocked_self]
      exact ⟨rfl, rfl, rfl⟩
    · rw [setLocked_of_ne true hgf]
      exact ⟨hg, rfl, rfl⟩
  have hprocs : ∀ q, ((s.grant r k p f ticket).procs q).pastReadCheck = true →
      q ≠ p ∧ q ∉ s.dev.readers := by
    intro q hq
    change (((s.setLocked f true).goto p _).procs q).pastReadCheck = true at hq
    by_cases hqp : q = p
    · subst q
      rw [goto_self, not_pastReadCheck_afterGrant] at hq
      exact absurd hq (by simp)
    · rw [goto_other hqp] at hq
      exact ⟨hqp, hs.not_reader q hq⟩
  have hlocked_open : ∀ g, ((s.setLocked f true).files g).locked = true →
      ((s.setLocked f true).files g).opened = true := by
    intro g hg
    by_cases hgf : g = f
    · subst g
      rw [setLocked_self]
      exact hopened
    · rw [setLocked_of_ne true hgf] at hg ⊢
      exact hs.locked_open g hg
  cases k with
  | write =>
    rw [if_neg (by decide)]
    refine ⟨hin, hs.distinct, fun q hq => (hprocs q hq).2, .inr (Int.natCast_nonneg p),
      hlocked_open, fun _ => ⟨f, ?_⟩, ?_⟩
    · change ((s.setLocked f true).files f).writable = true ∧
        ((s.setLocked f true).files f).locked = true
      rw [setLocked_self]
      exact ⟨(Bool.and_eq_true_iff.mp hserves).2, rfl⟩
    · intro q hq
      obtain ⟨hr, hl⟩ := hs.readers q hq
      obtain ⟨h1, _, h3⟩ := hkept _ hl
      exact ⟨h3.trans hr, h1⟩
  | read =>
    rw [if_pos rfl]
    refine ⟨hin, List.nodup_cons.mpr ⟨hp rfl, hs.distinct⟩, ?_, hs.no_writer, hlocked_open, ?_, ?_⟩
    · intro q hq hmem
      rcases List.mem_cons.mp hmem with heq | hmem
      · exact (hprocs q hq).1 heq
      · exact (hprocs q hq).2 hmem
    · intro h
      obtain ⟨g, hw, hl⟩ := hs.writer h
      obtain ⟨h1, h2, _⟩ := hkept g hl
      exact ⟨g, h2.trans hw, h1⟩
    · intro q hq
      change ((s.setLocked f true).files (Function.update through p f q)).readable = true ∧
        ((s.setLocked f true).files (Function.update through p f q)).locked = true
      by_cases hqp : q = p
      · subst q
        rw [Function.update_self, setLocked_self]
        exact ⟨(Bool.and_eq_true_iff.mp hserves).2, rfl⟩
      · rw [Function.update_of_ne hqp]
        have hmem : q ∈ s.dev.readers := (List.mem_cons.mp hq).resolve_left hqp
        obtain ⟨hr, hl⟩ := hs.readers q hmem
        obtain ⟨h1, _, h3⟩ := hkept _ hl
        exact ⟨h3.trans hr, h1⟩

end Holding

section Runs
variable {s t : State} {x y : Tracked} {a : Action} {as : List Action} {p : Pid} {f : FileId}
variable {k : Kind} {ticket : Nat} {r : Request}

theorem readGrant_granted
    (hp : s.procs p = .loop k f ticket ∧ r = .acquire ∨
      s.procs p = .tryLock k f ticket ∧ r = .tryAcquire ∧ p ∉ s.dev.readers)
    (hnow : (ready k s.dev ticket).1 = true) :
    readGrant s (.runSection p) = if k = .read then some (p, f) else none := by
  rcases hp with ⟨hp, _⟩ | ⟨hp, _, hr⟩
  · cases k with
    | write => simp [readGrant, hp]
    | read => simp [readGrant, hp, hnow]
  · cases k with
    | write => simp [readGrant, hp]
    | read => simp [readGrant, hp, hnow, hr]

theorem readGrant_blocked
    (hp : s.procs p = .loop k f ticket ∨ s.procs p = .tryLock k f ticket)
    (hnow : (ready k s.dev ticket).1 = false) : readGrant s (.runSection p) = none := by
  rcases hp with hp | hp
  · cases k <;> simp [readGrant, hp, hnow]
  · cases k <;> simp [readGrant, hp, hnow]

theorem readGrant_gaveUp
    (hp : s.procs p = .interrupted k f ticket ∨
      (s.procs p = .check k f ticket ∨ s.procs p = .tryLock k f ticket) ∧ p ∈ s.dev.readers) :
    readGrant s (.runSection p) = none := by
  rcases hp with hp | ⟨hp | hp, hr⟩
  · simp [readGrant, hp]
  · simp [readGrant, hp]
  · cases k <;> simp [readGrant, hp, hr]

theorem not_pastReadCheck_user {ret : Int} (q : Pid) :
    (Point.user ret).pastReadCheck = true → q ∉ s.dev.readers := fun h => absurd h (by
      simp [Point.pastReadCheck])

theorem Holding.looked {through : Pid → FileId} (hs : Holding s through) :
    Holding (s.looked k ticket) through :=
  hs.quiet (hs.inUse.same rfl fun _ _ => rfl) (looked_writer s k ticket)
    (looked_readers s k ticket) rfl hs.not_reader

/-- The step lemma: what is held stays backed when files are given up by their own readers. -/
theorem Holding.step {through : Pid → FileId} (hs : Holding s through) (h : Step s a t)
    (hown : OwnRelease ⟨s, through⟩ a) : Holding t (recordGrant through (readGrant s a)) := by
  have hin := hs.inUse.step h
  cases h.effect with
  | opened hclosed hunused =>
    apply hs.setFile _ rfl hunused
    by_contra hl
    have ho := hs.locked_open _ (Bool.eq_true_of_not_eq_false hl)
    rw [hclosed] at ho
    exact absurd ho (by simp)
  | refused =>
    apply hs.quiet hin rfl rfl rfl
    exact hs.goto (not_pastReadCheck_user _)
  | issued =>
    apply hs.quiet hin rfl rfl rfl
    apply hs.goto
    rw [not_pastReadCheck_writePart]
    exact fun h => absurd h (by simp)
  | notLocked =>
    apply hs.quiet hin rfl rfl rfl
    exact hs.goto (not_pastReadCheck_user _)
  | released _ hl =>
    have hu := hs.unlock (hown hl)
    exact hu.quiet hin rfl rfl rfl (hu.goto (not_pastReadCheck_user _))
  | closed hunused hl => exact hs.setFile hl hl hunused
  | closedLocked hunused _ hl =>
    apply (hs.unlock (hown hl)).setFile _ _ (unused_unlock hunused)
    · exact congrArg File.locked (setLocked_self false)
    · exact congrArg File.locked (setLocked_self false)
  | @checked p k f ticket hp hr =>
    have hnone : readGrant s (.runSection p) = none := by simp only [readGrant, hp]
    rw [hnone]
    apply hs.quiet hin rfl rfl rfl
    exact hs.goto fun _ => hr
  | gaveUp hp =>
    rw [readGrant_gaveUp hp]
    apply hs.quiet hin rfl rfl rfl
    exact hs.goto (not_pastReadCheck_user _)
  | busy hp hnow =>
    rw [readGrant_blocked (.inr hp) hnow]
    apply hs.looked.quiet hin rfl rfl rfl
    exact hs.looked.goto (not_pastReadCheck_user _)
  | @granted r p k f ticket hp hnow =>
    rw [readGrant_granted hp hnow]
    have hinside : s.inside p = some (k, f, ticket) := by
      rcases hp with ⟨hp, _⟩ | ⟨hp, _⟩ <;> simp [State.inside, hp, Point.inside]
    apply hs.looked.grant hin (hs.inUse p k f ticket hinside)
    rintro rfl
    rw [looked_readers]
    rcases hp with ⟨hp, _⟩ | ⟨_, _, hr⟩
    · exact hs.not_reader p (by rw [hp]; rfl)
    · exact hr
  | @blocked p k f ticket hp hnow =>
    rw [readGrant_blocked (.inl hp) hnow]
    apply hs.looked.quiet hin rfl rfl rfl
    apply hs.looked.goto
    intro hpast
    apply hs.looked.not_reader p
    change (s.procs p).pastReadCheck = true
    rw [hp]
    cases k <;> exact hpast
  | @evaluated p k f ticket pending hp =>
    apply hs.looked.quiet hin rfl rfl rfl
    apply hs.looked.goto
    intro hpast
    apply hs.looked.not_reader p
    change (s.procs p).pastReadCheck = true
    rw [hp]
    cases k with
    | read => rfl
    | write =>
      split at hpast
      · exact hpast
      · split at hpast
        · exact absurd hpast (by simp [Point.pastReadCheck])
        · exact hpast
  | @signalled p k f ticket hp =>
    apply hs.quiet hin rfl rfl rfl
    apply hs.goto
    intro hpast
    apply hs.not_reader p
    rw [hp]
    cases k <;> exact hpast

theorem holding_init : Holding State.init fun _ => 0 where
  inUse := inUse_init
  distinct := List.nodup_nil
  not_reader := fun _ _ h => by simp [State.init, osprdSetup] at h
  no_writer := .inl rfl
  locked_open := fun f h => by simp [State.init] at h
  writer := fun h => by simp [State.init, osprdSetup] at h
  readers := fun p h => by simp [State.init, osprdSetup] at h

/-- In a run in which no file is given up by another process than the reader that holds a lock
through it, every lock that is held is backed. -/
theorem held_locks_backed
    (h : Run (fun x a y => TrackedStep x a y ∧ OwnRelease x a) Tracked.init as x) : Backed x := by
  apply Holding.backed
  apply h.invariant (P := fun x => Holding x.st x.through)
  · rintro x a y hx ⟨⟨hstep, hthrough⟩, hown⟩
    rw [hthrough]
    exact hx.step hstep hown
  · exact holding_init

/-- The step of a tracked state as a function. -/
def trackedNext (x : Tracked) (a : Action) : Tracked :=
  ⟨next x.st a, recordGrant x.through (readGrant x.st a)⟩

/-- Process 1 releases its read lock, and process 2 gets one through the file that they share. -/
theorem held_locks_backed_shared_file :
    ∃ as x, Run (fun x a y => TrackedStep x a y ∧ OwnRelease x a) Tracked.init as x ∧
      x.st.dev.readers = [2] ∧ x.through 2 = 1 ∧ Backed x := by
  let locking : List Action := [.openFile 1 true false, .request .acquire 1 1, .runSection 1,
    .runSection 1]
  let as := locking ++ [.release 1 1, .request .acquire 2 1, .runSection 2, .runSection 2]
  have hrelease : OwnRelease (locking.foldl trackedNext Tracked.init) (.release 1 1) := by
    intro _ q hq _
    change q ∈ [1] at hq
    exact List.mem_singleton.mp hq
  have hall : AllEnabled (fun x a => Enabled x.st a ∧ OwnRelease x a) trackedNext Tracked.init as :=
    ⟨⟨⟨rfl, fun _ _ _ _ h => by cases h⟩, trivial⟩, ⟨⟨rfl, rfl⟩, trivial⟩, ⟨rfl, trivial⟩,
      ⟨rfl, trivial⟩, ⟨⟨rfl, rfl⟩, hrelease⟩, ⟨⟨rfl, rfl⟩, trivial⟩, ⟨rfl, trivial⟩,
      ⟨rfl, trivial⟩, trivial⟩
  have hrun := (Run.of_allEnabled hall).mono (r := fun x a y => TrackedStep x a y ∧ OwnRelease x a)
    fun h => ⟨⟨⟨h.1.1, congrArg Tracked.st h.2⟩, congrArg Tracked.through h.2⟩, h.1.2⟩
  exact ⟨as, _, hrun, rfl, rfl, held_locks_backed hrun⟩

/-- Process 1 acquires a read lock and shares its file with process 2, which releases it. -/
theorem reader_left_behind :
    ¬ ∀ (as : List Action) (x : Tracked), Run TrackedStep Tracked.init as x → Backed x := by
  intro hbacked
  let as : List Action := [.openFile 1 true false, .request .acquire 1 1, .runSection 1,
    .runSection 1, .release 2 1]
  have hall : AllEnabled (fun x a => Enabled x.st a) trackedNext Tracked.init as :=
    ⟨⟨rfl, fun _ _ _ _ h => by cases h⟩, ⟨rfl, rfl⟩, rfl, rfl, ⟨rfl, rfl⟩, trivial⟩
  have hrun := (Run.of_allEnabled hall).mono (r := TrackedStep)
    fun h => ⟨⟨h.1, congrArg Tracked.st h.2⟩, congrArg Tracked.through h.2⟩
  have hback := (hbacked as _ hrun).readers 1 (by decide)
  exact absurd hback.2 (by decide)

end Runs

end CS111.Ramdisk
