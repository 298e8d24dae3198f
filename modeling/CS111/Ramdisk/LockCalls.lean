import CS111.Ramdisk.Deadlock

/-!
# What one lock call takes

A lock call of a process is its own steps from the first section of the ioctl to the return, with
the steps of other processes between them. A file open for reading and writing goes through both lock
parts with one ticket, and nothing gives the write lock back when the read part fails.
-/

namespace CS111.Ramdisk

set_option autoImplicit false

section Model

/-- Who holds the device, and whether the file is marked as locked. -/
structure Holders where
  writer : Int
  readers : List Pid
  numReaders : Nat
  locked : Bool
  deriving Repr, DecidableEq

def State.holders (s : State) (f : FileId) : Holders :=
  ⟨s.dev.writer, s.dev.readers, s.dev.numReaders, (s.files f).locked⟩

def Holders.withLock (h : Holders) (p : Pid) : Kind → Holders
  | .write => { h with writer := p, locked := true }
  | .read => { h with readers := p :: h.readers, numReaders := h.numReaders + 1, locked := true }

/-- The process whose code is run. -/
def Action.runs : Action → Option Pid
  | .request _ p _ | .release p _ | .closeLast p _ | .runSection p | .evaluate p _ => some p
  | .openFile _ _ _ | .signal _ => none

/-- A call that began in `s₀`, with the states before and after each of its own steps. -/
inductive Call (r : Request) (p : Pid) (f : FileId) (s₀ : State) :
    List (State × State) → State → Prop
  | start {t : State} : Step s₀ (.request r p f) t → Call r p f s₀ [(s₀, t)] t
  | own {steps : List (State × State)} {s t : State} {a : Action} :
      Call r p f s₀ steps s → (s.procs p).isUser = false → a.runs = some p → Step s a t →
      Call r p f s₀ (steps ++ [(s, t)]) t
  | other {steps : List (State × State)} {s t : State} {a : Action} :
      Call r p f s₀ steps s → a.runs ≠ some p → Step s a t → Call r p f s₀ steps t

/-- What the own steps changed, oldest first. -/
def changes (f : FileId) (steps : List (State × State)) : List (Holders × Holders) :=
  (steps.map fun x => (x.1.holders f, x.2.holders f)).filter fun x => x.1 ≠ x.2

/-- A call that returned 0 took the lock it is for, a failed one took nothing. -/
def TakesOneOrNone (p : Pid) (f : FileId) (file : File) (steps : List (State × State)) (ret : Int) :
    Prop :=
  (ret = 0 → ∃ h, changes f steps = [(h, h.withLock p file.kind)]) ∧
    (ret < 0 → changes f steps = [])

/-- The next section of the process grants it the lock. -/
def GrantsLock (s : State) (p : Pid) (k : Kind) (f : FileId) : Prop :=
  ∃ ticket, (s.procs p = .loop k f ticket ∨ s.procs p = .tryLock k f ticket ∧ p ∉ s.dev.readers) ∧
    (ready k s.dev ticket).1 = true

def GrantsWriteToReader (s : State) (p : Pid) (f : FileId) : Prop :=
  (s.files f).readable = true ∧ GrantsLock s p .write f

end Model

variable {s t s₀ : State} {a : Action} {p : Pid} {f : FileId} {k : Kind} {ticket : Nat}
  {r : Request} {steps : List (State × State)}

section Steps

theorem holders_grant : (s.grant r k p f ticket).holders f = (s.holders f).withLock p k := by
  cases k <;> simp [State.grant, State.holders, State.goto, State.setLocked, getLock,
    Holders.withLock]

theorem holders_looked : (s.looked k ticket).holders f = s.holders f := by
  simp [State.holders, State.looked]

theorem withLock_ne (havail : available k s.dev = true) :
    s.holders f ≠ (s.holders f).withLock p k := by
  intro heq
  cases k with
  | write =>
    have hw : s.dev.writer = p := congrArg Holders.writer heq
    simp only [available, canWrite, Bool.and_eq_true, decide_eq_true_eq] at havail
    omega
  | read =>
    have hn : s.dev.numReaders = s.dev.numReaders + 1 := congrArg Holders.numReaders heq
    omega

theorem GrantsLock.inside (h : GrantsLock s p k f) : ∃ u, s.inside p = some (k, f, u) := by
  obtain ⟨u, hp | ⟨hp, -⟩, -⟩ := h <;> exact ⟨u, by rw [State.inside, hp]; rfl⟩

/-- How a section or an evaluation of a process in a lock part ends. -/
inductive OwnStep (s : State) (p : Pid) (k : Kind) (f : FileId) (ticket : Nat) (t : State) : Prop
  | stays : ¬ GrantsLock s p k f → t.holders f = s.holders f →
      t.inside p = some (k, f, ticket) → OwnStep s p k f ticket t
  | fails {errno : Int} : ¬ GrantsLock s p k f → t.holders f = s.holders f → 0 < errno →
      t.procs p = .user (-errno) → OwnStep s p k f ticket t
  | grants {r : Request} : GrantsLock s p k f → available k s.dev = true →
      t.holders f = (s.holders f).withLock p k →
      t.procs p = afterGrant r k (s.files f) f ticket → OwnStep s p k f ticket t

theorem not_grantsLock {pt : Point} (hp : s.procs p = pt)
    (hloop : ∀ u, pt = .loop k f u → (ready k s.dev u).1 = false)
    (htry : ∀ u, pt = .tryLock k f u → p ∈ s.dev.readers ∨ (ready k s.dev u).1 = false) :
    ¬ GrantsLock s p k f := by
  rintro ⟨u, hu | ⟨hu, hmem⟩, hready⟩
  · rw [hloop u (hp.symm.trans hu)] at hready
    exact Bool.false_ne_true hready
  · rcases htry u (hp.symm.trans hu) with h | h
    · exact hmem h
    · rw [h] at hready
      exact Bool.false_ne_true hready

theorem ownStep_abandon {errno : Int} (hno : ¬ GrantsLock s p k f) (he : 0 < errno)
    (hs : t.holders f = s.holders f) : OwnStep s p k f ticket (t.abandon p ticket errno) :=
  .fails hno hs he (Function.update_self _ _ _)

theorem ownStep_goto {pt : Point} (hno : ¬ GrantsLock s p k f) (hs : t.holders f = s.holders f)
    (hpt : pt.inside = some (k, f, ticket)) : OwnStep s p k f ticket (t.goto p pt) := by
  refine .stays hno hs ?_
  rw [inside_goto, Function.update_self, hpt]

theorem ownStep_grant (hgrants : GrantsLock s p k f) (hready : (ready k s.dev ticket).1 = true) :
    OwnStep s p k f ticket ((s.looked k ticket).grant r k p f ticket) := by
  refine .grants hgrants (available_of_ready hready) ?_ (Function.update_self _ _ _)
  rw [holders_grant, holders_looked]

theorem runSection_own (hin : s.inside p = some (k, f, ticket))
    (hsection : (s.procs p).atSection = true) : OwnStep s p k f ticket (s.runSection p) := by
  unfold State.inside at hin
  unfold State.runSection
  cases hp : s.procs p with
  | user ret => simp [hp, Point.inside] at hin
  | wait k' f' u asleep => simp [hp, Point.atSection] at hsection
  | check k' f' u =>
    rw [hp] at hin
    cases hin
    have hno : ¬ GrantsLock s p k f := not_grantsLock hp (by simp) (by simp)
    dsimp only
    split
    · exact ownStep_abandon hno (by decide) rfl
    · exact ownStep_goto hno rfl rfl
  | loop k' f' u =>
    rw [hp] at hin
    cases hin
    cases hnow : (ready k s.dev ticket).1 with
    | true =>
      simp only [hnow, if_true]
      exact ownStep_grant ⟨ticket, .inl hp, hnow⟩ hnow
    | false =>
      have hno : ¬ GrantsLock s p k f :=
        not_grantsLock hp (by rintro u ⟨⟩; exact hnow) (by simp)
      simp only [hnow, Bool.false_eq_true, if_false]
      exact ownStep_goto hno holders_looked rfl
  | interrupted k' f' u =>
    rw [hp] at hin
    cases hin
    exact ownStep_abandon (not_grantsLock hp (by simp) (by simp)) (by decide) rfl
  | tryLock k' f' u =>
    rw [hp] at hin
    cases hin
    dsimp only
    split
    · next hmem =>
      exact ownStep_abandon (not_grantsLock hp (by simp) fun _ _ => .inl hmem) (by decide) rfl
    · next hmem =>
      cases hnow : (ready k s.dev ticket).1 with
      | true => exact ownStep_grant ⟨ticket, .inr ⟨hp, hmem⟩, hnow⟩ hnow
      | false =>
        have hno : ¬ GrantsLock s p k f :=
          not_grantsLock hp (by simp) (by rintro u ⟨⟩; exact .inr hnow)
        exact ownStep_abandon hno (by decide) holders_looked

theorem evaluate_own {signalPending asleep : Bool} (hp : s.procs p = .wait k f ticket asleep) :
    OwnStep s p k f ticket (s.evaluate p signalPending) := by
  have hno : ¬ GrantsLock s p k f := not_grantsLock hp (by simp) (by simp)
  unfold State.evaluate
  rw [hp]
  refine ownStep_goto hno holders_looked ?_
  split
  · rfl
  · split <;> rfl

/-- Each own step of a process inside a lock part. -/
theorem Step.own (h : Step s a t) (hruns : a.runs = some p) (hin : s.inside p = some (k, f, ticket)) :
    OwnStep s p k f ticket t := by
  have hbusy : (s.procs p).isUser ≠ true := by
    intro hu
    rw [inside_of_isUser hu] at hin
    cases hin
  obtain ⟨henabled, rfl⟩ := h
  cases a with
  | request r q g => cases hruns; exact absurd henabled.2 hbusy
  | release q g => cases hruns; exact absurd henabled.2 hbusy
  | closeLast q g => cases hruns; exact absurd henabled.2.1 hbusy
  | runSection q => cases hruns; exact runSection_own hin henabled
  | evaluate q signalPending =>
    cases hruns
    obtain ⟨k', f', u, hp⟩ := henabled
    have hin' := hin
    rw [State.inside, hp] at hin'
    cases hin'
    exact evaluate_own hp
  | openFile _ _ _ => cases hruns
  | signal _ => cases hruns

theorem procs_goto_ne {q : Pid} {pt : Point} (h : q ≠ p) : (s.goto q pt).procs p = s.procs p :=
  Function.update_of_ne h.symm _ _

/-- A step of another process, or a signal, at most wakes the process up. -/
theorem Step.other (h : Step s a t) (hruns : a.runs ≠ some p) :
    t.procs p = s.procs p ∨ t.procs p = (s.procs p).awake := by
  cases h.effect with
  | opened | closed => exact .inl rfl
  | refused | issued | notLocked | checked | gaveUp | busy | granted | blocked | evaluated =>
    exact .inl (procs_goto_ne fun heq => hruns (congrArg some heq))
  | released => exact .inr (procs_goto_ne fun heq => hruns (congrArg some heq))
  | closedLocked => exact .inr rfl
  | @signalled q k f u hq =>
    by_cases hqp : q = p
    · subst q
      refine .inr ((Function.update_self _ _ _).trans ?_)
      rw [hq]
      rfl
    · exact .inl (procs_goto_ne hqp)

def SameModes (file file' : File) : Prop :=
  file'.readable = file.readable ∧ file'.writable = file.writable

theorem sameModes_setLocked (s : State) (g : FileId) (b : Bool) :
    SameModes (s.files f) ((s.setLocked g b).files f) := by
  by_cases h : f = g
  · subst g
    simp [State.setLocked, SameModes]
  · simp [State.setLocked, h, SameModes]

theorem sameModes_setFile {files : FileId → File} {g : FileId} (file : File) (h : f ≠ g)
    (hsame : SameModes (s.files f) (files f)) :
    SameModes (s.files f) (Function.update files g file f) := by
  rw [Function.update_of_ne h]
  exact hsame

/-- A file keeps its modes while a lock call for it is in progress. -/
theorem Step.sameModes (h : Step s a t) (hin : s.inside p = some (k, f, ticket)) :
    SameModes (s.files f) (t.files f) := by
  have hused : ∀ g, s.Unused g → f ≠ g := fun g hg => hg p k f ticket hin
  cases h.effect with
  | opened _ hunused => exact sameModes_setFile _ (hused _ hunused) ⟨rfl, rfl⟩
  | closed hunused _ => exact sameModes_setFile _ (hused _ hunused) ⟨rfl, rfl⟩
  | closedLocked hunused _ _ =>
    exact sameModes_setFile _ (hused _ hunused) (sameModes_setLocked s _ false)
  | released => exact sameModes_setLocked s _ false
  | granted => exact sameModes_setLocked _ _ true
  | refused | issued | notLocked | checked | gaveUp | busy | blocked | evaluated | signalled =>
    exact ⟨rfl, rfl⟩

end Steps

section Calls
variable {file : File}

theorem changes_snoc_same (h : t.holders f = s.holders f) :
    changes f (steps ++ [(s, t)]) = changes f steps := by
  simp [changes, h]

theorem changes_snoc_ne (h : s.holders f ≠ t.holders f) :
    changes f (steps ++ [(s, t)]) = changes f steps ++ [(s.holders f, t.holders f)] := by
  simp [changes, h]

/-- No own step was a write grant to a file that is open for reading as well. -/
def NoWriteToReader (p : Pid) (f : FileId) (steps : List (State × State)) : Prop :=
  ∀ x, x ∈ steps → ¬ GrantsWriteToReader x.1 p f

theorem noWriteToReader_snoc (h : NoWriteToReader p f steps) (hs : ¬ GrantsWriteToReader s p f) :
    NoWriteToReader p f (steps ++ [(s, t)]) := by
  intro x hx
  rcases List.mem_append.mp hx with hx | hx
  · exact h x hx
  · rw [List.mem_singleton.mp hx]
    exact hs

theorem not_noWriteToReader_snoc {x : State × State} (h : ¬ NoWriteToReader p f steps) :
    ¬ NoWriteToReader p f (steps ++ [x]) :=
  fun hno => h fun y hy => hno y (List.mem_append_left _ hy)

theorem not_grantsWriteToReader_of_isUser (h : (s.procs p).isUser = true) :
    ¬ GrantsWriteToReader s p f := by
  intro hg
  obtain ⟨u, hu⟩ := hg.2.inside
  rw [inside_of_isUser h] at hu
  cases hu

def File.Both (file : File) : Prop := file.writable = true ∧ file.readable = true

/-- How far a call is. After a write grant to a file open for reading it goes on with the read
part. -/
inductive Phase (p : Pid) (f : FileId) (file : File) (steps : List (State × State)) (s : State) : Prop
  | waits {ticket : Nat} : s.inside p = some (file.kind, f, ticket) → SameModes file (s.files f) →
      changes f steps = [] → NoWriteToReader p f steps → Phase p f file steps s
  | failed {ret : Int} : s.procs p = .user ret → ret < 0 →
      changes f steps = [] → NoWriteToReader p f steps → Phase p f file steps s
  | took {h : Holders} : s.procs p = .user 0 →
      changes f steps = [(h, h.withLock p file.kind)] → NoWriteToReader p f steps →
      Phase p f file steps s
  | wentOn {ticket : Nat} {x : Holders × Holders} : s.inside p = some (.read, f, ticket) →
      file.Both → changes f steps = [x] → ¬ NoWriteToReader p f steps → Phase p f file steps s
  | kept {ret : Int} {x : Holders × Holders} : s.procs p = .user ret → ret < 0 →
      file.Both → changes f steps = [x] → ¬ NoWriteToReader p f steps → Phase p f file steps s
  | twice {x y : Holders × Holders} : s.procs p = .user 0 →
      file.Both → changes f steps = [x, y] → ¬ NoWriteToReader p f steps → Phase p f file steps s

theorem writePart_kind (hmode : file.readable = true ∨ file.writable = true) :
    (writePart r file f ticket).inside = some (file.kind, f, ticket) := by
  unfold writePart File.kind readPart
  split
  · exact inside_lockPart
  · next hw =>
    rw [if_pos (hmode.resolve_right hw)]
    exact inside_lockPart

theorem Phase.start (hmode : (s.files f).readable = true ∨ (s.files f).writable = true)
    (h : Step s (.request r p f) t) : Phase p f (s.files f) [(s, t)] t := by
  have huser : (s.procs p).isUser = true := h.1.2
  have hno : NoWriteToReader p f [(s, t)] := by
    intro x hx
    rw [List.mem_singleton.mp hx]
    exact not_grantsWriteToReader_of_isUser huser
  have hnone : t.holders f = s.holders f → changes f ([] ++ [(s, t)]) = changes f [] :=
    changes_snoc_same
  cases h.effect with
  | refused =>
    refine .failed (Function.update_self _ _ _) ?_ (hnone rfl) hno
    cases r <;> decide
  | issued =>
    have hin : (s.issue.goto p (writePart r (s.files f) f s.dev.ticketHead)).inside p =
        some ((s.files f).kind, f, s.dev.ticketHead) := by
      rw [inside_goto, Function.update_self]
      exact writePart_kind hmode
    exact .waits hin ⟨rfl, rfl⟩ (hnone rfl) hno

theorem GrantsLock.kind_eq {k' : Kind} (h : GrantsLock s p k' f)
    (hin : s.inside p = some (k, f, ticket)) : k' = k := by
  obtain ⟨u, hu⟩ := h.inside
  rw [hin] at hu
  cases hu
  rfl

theorem not_grantsWriteToReader (hin : s.inside p = some (k, f, ticket))
    (h : ¬ GrantsLock s p k f) : ¬ GrantsWriteToReader s p f := by
  rintro ⟨-, hg⟩
  have hkind := hg.kind_eq hin
  subst hkind
  exact h hg

/-- The own step of a call that waits for its first lock part. -/
theorem phase_first (hin : s.inside p = some (file.kind, f, ticket))
    (hstep : OwnStep s p file.kind f ticket t) (hmodes : SameModes file (s.files f))
    (hmodes' : SameModes file (t.files f)) (hnone : changes f steps = [])
    (hno : NoWriteToReader p f steps) : Phase p f file (steps ++ [(s, t)]) t := by
  cases hstep with
  | stays hgrant hsame hin' =>
    exact .waits hin' hmodes' ((changes_snoc_same hsame).trans hnone)
      (noWriteToReader_snoc hno (not_grantsWriteToReader hin hgrant))
  | fails hgrant hsame he hp =>
    exact .failed hp (by omega) ((changes_snoc_same hsame).trans hnone)
      (noWriteToReader_snoc hno (not_grantsWriteToReader hin hgrant))
  | @grants r hgrant havail htook hp =>
    have hchange : changes f (steps ++ [(s, t)]) =
        [(s.holders f, (s.holders f).withLock p file.kind)] := by
      rw [changes_snoc_ne (by rw [htook]; exact withLock_ne havail), hnone, htook]
      rfl
    by_cases hboth : file.Both
    · -- the write lock is held and the read part comes next
      have hkind : file.kind = .write := if_pos hboth.1
      have hbad : GrantsWriteToReader s p f := ⟨hmodes.1.trans hboth.2, hkind ▸ hgrant⟩
      have hin' : t.inside p = some (.read, f, ticket) := by
        rw [State.inside, hp, hkind, afterGrant, readPart, if_pos (hmodes.1.trans hboth.2)]
        exact inside_lockPart
      refine .wentOn hin' hboth hchange fun hall => ?_
      exact hall (s, t) (List.mem_append_right _ (List.mem_singleton_self _)) hbad
    · have hp' : t.procs p = .user 0 := by
        rw [hp]
        cases hkind : file.kind with
        | read => rfl
        | write =>
          have hw : file.writable = true := by
            by_contra hw
            rw [File.kind, if_neg hw] at hkind
            cases hkind
          have hr : (s.files f).readable ≠ true := fun hr => hboth ⟨hw, hmodes.1.symm.trans hr⟩
          exact if_neg hr
      refine .took hp' hchange (noWriteToReader_snoc hno fun hg => hboth ⟨?_, ?_⟩)
      · by_contra hw
        have hkind := hg.2.kind_eq hin
        rw [File.kind, if_neg hw] at hkind
        cases hkind
      · exact hmodes.1.symm.trans hg.1

/-- The own step of a call in the read part behind a write grant. -/
theorem phase_second {x : Holders × Holders} (hstep : OwnStep s p .read f ticket t)
    (hboth : file.Both) (hone : changes f steps = [x]) (hbad : ¬ NoWriteToReader p f steps) :
    Phase p f file (steps ++ [(s, t)]) t := by
  cases hstep with
  | stays _ hsame hin' =>
    exact .wentOn hin' hboth ((changes_snoc_same hsame).trans hone) (not_noWriteToReader_snoc hbad)
  | fails _ hsame he hp =>
    exact .kept hp (by omega) hboth ((changes_snoc_same hsame).trans hone)
      (not_noWriteToReader_snoc hbad)
  | grants _ havail htook hp =>
    have hchange : changes f (steps ++ [(s, t)]) = [x, (s.holders f, t.holders f)] := by
      rw [changes_snoc_ne (by rw [htook]; exact withLock_ne havail), hone]
      rfl
    exact .twice hp hboth hchange (not_noWriteToReader_snoc hbad)

theorem Phase.own (hphase : Phase p f file steps s) (hbusy : (s.procs p).isUser = false)
    (hruns : a.runs = some p) (h : Step s a t) : Phase p f file (steps ++ [(s, t)]) t := by
  cases hphase with
  | waits hin hmodes hnone hno =>
    have hmodes' := h.sameModes hin
    exact phase_first hin (h.own hruns hin) hmodes
      ⟨hmodes'.1.trans hmodes.1, hmodes'.2.trans hmodes.2⟩ hnone hno
  | wentOn hin hboth hone hbad => exact phase_second (h.own hruns hin) hboth hone hbad
  | failed hp | took hp | kept hp | twice hp =>
    rw [hp] at hbusy
    cases hbusy

theorem Phase.other (hphase : Phase p f file steps s) (hruns : a.runs ≠ some p) (h : Step s a t) :
    Phase p f file steps t := by
  have hinside : t.inside p = s.inside p := by
    rcases h.other hruns with hp | hp
    · rw [State.inside, hp]
      rfl
    · rw [State.inside, hp, inside_awake]
      rfl
  have huser : ∀ {ret}, s.procs p = .user ret → t.procs p = .user ret := by
    intro ret hp
    rcases h.other hruns with hp' | hp'
    · rw [hp', hp]
    · rw [hp', hp]
      rfl
  cases hphase with
  | waits hin hmodes hnone hno =>
    have hmodes' := h.sameModes hin
    exact .waits (hinside.trans hin) ⟨hmodes'.1.trans hmodes.1, hmodes'.2.trans hmodes.2⟩ hnone hno
  | failed hp hret hnone hno => exact .failed (huser hp) hret hnone hno
  | took hp htook hno => exact .took (huser hp) htook hno
  | wentOn hin hboth hone hbad => exact .wentOn (hinside.trans hin) hboth hone hbad
  | kept hp hret hboth hone hbad => exact .kept (huser hp) hret hboth hone hbad
  | twice hp hboth htwo hbad => exact .twice (huser hp) hboth htwo hbad

theorem Call.phase (h : Call r p f s₀ steps s)
    (hmode : (s₀.files f).readable = true ∨ (s₀.files f).writable = true) :
    Phase p f (s₀.files f) steps s := by
  induction h with
  | start hstep => exact .start hmode hstep
  | own _ hbusy hruns hstep ih => exact ih.own hbusy hruns hstep
  | other _ hruns hstep ih => exact ih.other hruns hstep

/-- A file open in one mode is never in that case. -/
theorem Call.noWriteToReader (h : Call r p f s₀ steps s)
    (hmode : (s₀.files f).readable = true ∨ (s₀.files f).writable = true)
    (hone : ¬ (s₀.files f).Both) : NoWriteToReader p f steps := by
  cases h.phase hmode with
  | waits _ _ _ hno | failed _ _ _ hno | took _ _ hno => exact hno
  | wentOn _ hboth | kept _ _ hboth | twice _ hboth => exact absurd hboth hone

theorem Call.takes_iff {ret : Int} (h : Call r p f s₀ steps s)
    (hmode : (s₀.files f).readable = true ∨ (s₀.files f).writable = true)
    (hret : s.procs p = .user ret) :
    TakesOneOrNone p f (s₀.files f) steps ret ↔
      ∀ x, x ∈ steps → ¬ GrantsWriteToReader x.1 p f := by
  cases h.phase hmode with
  | waits hin | wentOn hin =>
    rw [State.inside, hret] at hin
    cases hin
  | failed hp hneg hnone hno =>
    cases hret.symm.trans hp
    exact iff_of_true ⟨fun h0 => by omega, fun _ => hnone⟩ hno
  | took hp htook hno =>
    cases hret.symm.trans hp
    exact iff_of_true ⟨fun _ => ⟨_, htook⟩, fun h0 => absurd h0 (by decide)⟩ hno
  | kept hp hneg _ hone hbad =>
    cases hret.symm.trans hp
    refine iff_of_false (fun htakes => ?_) hbad
    rw [htakes.2 hneg] at hone
    cases hone
  | twice hp _ htwo hbad =>
    cases hret.symm.trans hp
    refine iff_of_false (fun htakes => ?_) hbad
    obtain ⟨h, htook⟩ := htakes.1 rfl
    rw [htook] at htwo
    cases htwo

/-- A call on a file takes one lock or none, whatever other processes do, except when the write part
is granted to a file that is open for reading as well. -/
theorem takesOneOrNone_iff {ret : Int} (h : Call r p f s₀ steps s)
    (hmode : (s₀.files f).readable = true ∨ (s₀.files f).writable = true)
    (hret : s.procs p = .user ret) :
    (TakesOneOrNone p f (s₀.files f) steps ret ↔
      ∀ x, x ∈ steps → ¬ GrantsWriteToReader x.1 p f) ∧
    (¬ (s₀.files f).Both → TakesOneOrNone p f (s₀.files f) steps ret) :=
  ⟨h.takes_iff hmode hret,
    fun hone => (h.takes_iff hmode hret).mpr (h.noWriteToReader hmode hone)⟩

end Calls

section Concrete

/-- The device with one file, opened in these modes. -/
def oneFile (readable writable : Bool) : State := next State.init (.openFile 0 readable writable)

def afterTry (readable writable : Bool) : State :=
  next (oneFile readable writable) (.request .tryAcquire 5 0)

theorem oneFile_run (readable writable : Bool) :
    Run Step State.init [.openFile 0 readable writable] (oneFile readable writable) :=
  Run.single ⟨⟨rfl, fun _ _ _ _ h => by cases h⟩, rfl⟩

/-- A write-only file: the call takes the write lock. -/
theorem takesOneOrNone_write_only :
    TakesOneOrNone 5 0 ⟨true, false, true, false⟩
      [(oneFile false true, afterTry false true),
        (afterTry false true, next (afterTry false true) (.runSection 5))] 0 := by
  have hstart : Call .tryAcquire 5 0 (oneFile false true) [(oneFile false true, afterTry false true)]
      (afterTry false true) := .start ⟨⟨rfl, rfl⟩, rfl⟩
  have hcall := hstart.own (a := .runSection 5) rfl rfl ⟨rfl, rfl⟩
  refine (takesOneOrNone_iff hcall (.inr rfl) rfl).2 fun hboth => ?_
  exact absurd hboth.2 Bool.false_ne_true

/-- A file open for reading and writing on a free device: the call returns `-EBUSY` and the process
holds the write lock. -/
theorem busy_with_write_lock :
    ∃ as s₀ steps s, Run Step State.init as s₀ ∧ Call .tryAcquire 5 0 s₀ steps s ∧
      s₀.files 0 = ⟨true, true, true, false⟩ ∧ s.procs 5 = .user (- EBUSY) ∧
      s₀.holders 0 = ⟨-1, [], 0, false⟩ ∧ s.holders 0 = ⟨5, [], 0, true⟩ ∧
      ¬ TakesOneOrNone 5 0 (s₀.files 0) steps (- EBUSY) := by
  have hstart : Call .tryAcquire 5 0 (oneFile true true) [(oneFile true true, afterTry true true)]
      (afterTry true true) := .start ⟨⟨rfl, rfl⟩, rfl⟩
  have hwrite := hstart.own (a := .runSection 5) rfl rfl ⟨rfl, rfl⟩
  have hread := hwrite.own (a := .runSection 5) rfl rfl ⟨rfl, rfl⟩
  refine ⟨_, _, _, _, oneFile_run true true, hread, rfl, rfl, rfl, rfl, fun htakes => ?_⟩
  exact absurd (htakes.2 (by decide)) (by decide)

end Concrete

end CS111.Ramdisk
