import CS111.Ramdisk.TicketOrder

/-!
# What one step of the ramdisk lock does

One constructor for each way a critical section can end. Invariants are proved from these
effects, without unfolding the ioctl again.
-/

namespace CS111.Ramdisk

set_option autoImplicit false

/-- A ticket taken in the first section of a lock request. -/
def State.issue (s : State) : State :=
  { s with
    dev := { s.dev with ticketHead := u32 (s.dev.ticketHead + 1) }
    log := s.log ++ [Event.issued s.dev.ticketHead] }

/-- The device after the condition has been looked at. -/
def State.looked (s : State) (k : Kind) (ticket : Nat) : State :=
  { s with dev := (ready k s.dev ticket).2 }

inductive Effect (s : State) : Action → State → Prop
  | opened {f : FileId} {r w : Bool} :
      (s.files f).opened = false → s.Unused f →
      Effect s (.openFile f r w) { s with files := Function.update s.files f ⟨true, r, w, false⟩ }
  | refused {r : Request} {p : Pid} {f : FileId} :
      (s.procs p).isUser = true → (p : Int) = s.dev.writer →
      Effect s (.request r p f) (s.issue.abandon p s.dev.ticketHead r.failure)
  | issued {r : Request} {p : Pid} {f : FileId} :
      (s.files f).opened = true → (s.procs p).isUser = true → (p : Int) ≠ s.dev.writer →
      Effect s (.request r p f)
        (s.issue.goto p (writePart r (s.files f) f s.dev.ticketHead))
  | notLocked {p : Pid} {f : FileId} :
      (s.procs p).isUser = true → (s.files f).locked = false →
      Effect s (.release p f) (s.goto p (.user (-EINVAL)))
  | released {p : Pid} {f : FileId} :
      (s.procs p).isUser = true → (s.files f).locked = true →
      Effect s (.release p f) ((s.unlock p f).goto p (.user 0))
  | closed {p : Pid} {f : FileId} :
      s.Unused f → (s.files f).locked = false →
      Effect s (.closeLast p f)
        { s with files := Function.update s.files f { s.files f with opened := false } }
  | closedLocked {p : Pid} {f : FileId} :
      s.Unused f → (s.procs p).isUser = true → (s.files f).locked = true →
      Effect s (.closeLast p f)
        { s.unlock p f with
          files := Function.update (s.unlock p f).files f
            { (s.unlock p f).files f with opened := false } }
  | checked {p : Pid} {k : Kind} {f : FileId} {ticket : Nat} :
      s.procs p = .check k f ticket → p ∉ s.dev.readers →
      Effect s (.runSection p) (s.goto p (.loop k f ticket))
  | gaveUp {p : Pid} {k : Kind} {f : FileId} {ticket : Nat} {errno : Int} :
      s.procs p = .interrupted k f ticket ∨
        (s.procs p = .check k f ticket ∨ s.procs p = .tryLock k f ticket) ∧ p ∈ s.dev.readers →
      Effect s (.runSection p) (s.abandon p ticket errno)
  | busy {p : Pid} {k : Kind} {f : FileId} {ticket : Nat} :
      s.procs p = .tryLock k f ticket → (ready k s.dev ticket).1 = false →
      Effect s (.runSection p) ((s.looked k ticket).abandon p ticket EBUSY)
  | granted {r : Request} {p : Pid} {k : Kind} {f : FileId} {ticket : Nat} :
      s.procs p = .loop k f ticket ∧ r = .acquire ∨
        s.procs p = .tryLock k f ticket ∧ r = .tryAcquire ∧ p ∉ s.dev.readers →
      (ready k s.dev ticket).1 = true →
      Effect s (.runSection p) ((s.looked k ticket).grant r k p f ticket)
  | blocked {p : Pid} {k : Kind} {f : FileId} {ticket : Nat} :
      s.procs p = .loop k f ticket → (ready k s.dev ticket).1 = false →
      Effect s (.runSection p) ((s.looked k ticket).goto p (.wait k f ticket false))
  | evaluated {p : Pid} {k : Kind} {f : FileId} {ticket : Nat} {signalPending : Bool} :
      s.procs p = .wait k f ticket false →
      Effect s (.evaluate p signalPending) ((s.looked k ticket).goto p
        (if (ready k s.dev ticket).1 then .loop k f ticket
          else if signalPending then .interrupted k f ticket
          else .wait k f ticket true))
  | signalled {p : Pid} {k : Kind} {f : FileId} {ticket : Nat} :
      s.procs p = .wait k f ticket true →
      Effect s (.signal p) (s.goto p (.wait k f ticket false))

variable {s t : State} {a : Action} {p : Pid} {f : FileId}

theorem request_effect {r : Request} (h : Enabled s (.request r p f)) :
    Effect s (.request r p f) (s.beginLock r p f) := by
  unfold State.beginLock
  by_cases hw : (p : Int) = s.dev.writer
  · simp only [if_pos hw]
    exact .refused h.2 hw
  · simp only [if_neg hw]
    exact .issued h.1 h.2 hw

theorem release_effect (h : Enabled s (.release p f)) :
    Effect s (.release p f) (s.release p f) := by
  unfold State.release
  cases hl : (s.files f).locked with
  | true =>
    rw [if_pos rfl]
    exact .released h.2 hl
  | false =>
    rw [if_neg (by simp)]
    exact .notLocked h.2 hl

theorem closeLast_effect (h : Enabled s (.closeLast p f)) :
    Effect s (.closeLast p f) (s.closeLast p f) := by
  unfold State.closeLast
  cases hl : (s.files f).locked with
  | true =>
    simp only [if_true]
    exact .closedLocked h.2.2 h.2.1 hl
  | false =>
    simp only [Bool.false_eq_true, if_false]
    exact .closed h.2.2 hl

theorem runSection_effect (h : Enabled s (.runSection p)) :
    Effect s (.runSection p) (s.runSection p) := by
  have hsection : (s.procs p).atSection = true := h
  unfold State.runSection
  cases hp : s.procs p with
  | user ret => rw [hp] at hsection; exact absurd hsection (by simp [Point.atSection])
  | wait k f ticket asleep => rw [hp] at hsection; exact absurd hsection (by simp [Point.atSection])
  | check k f ticket =>
    by_cases hr : p ∈ s.dev.readers
    · simp only [if_pos hr]
      exact .gaveUp (.inr ⟨.inl hp, hr⟩)
    · simp only [if_neg hr]
      exact .checked hp hr
  | loop k f ticket =>
    cases hnow : (ready k s.dev ticket).1 with
    | true =>
      simp only [hnow, if_true]
      exact .granted (.inl ⟨hp, rfl⟩) hnow
    | false =>
      simp only [hnow, Bool.false_eq_true, if_false]
      exact .blocked hp hnow
  | interrupted k f ticket => exact .gaveUp (.inl hp)
  | tryLock k f ticket =>
    by_cases hr : p ∈ s.dev.readers
    · simp only [if_pos hr]
      exact .gaveUp (.inr ⟨.inr hp, hr⟩)
    · simp only [if_neg hr]
      cases hnow : (ready k s.dev ticket).1 with
      | true =>
        simp only [if_true]
        exact .granted (.inr ⟨hp, rfl, hr⟩) hnow
      | false =>
        simp only [Bool.false_eq_true, if_false]
        exact .busy hp hnow

/-- Every step has one of the effects. -/
theorem Step.effect (h : Step s a t) : Effect s a t := by
  obtain ⟨henabled, rfl⟩ := h
  cases a with
  | openFile f r w => exact .opened henabled.1 henabled.2
  | request r p f => exact request_effect henabled
  | release p f => exact release_effect henabled
  | closeLast p f => exact closeLast_effect henabled
  | runSection p => exact runSection_effect henabled
  | evaluate p signalPending =>
    obtain ⟨k, f, ticket, hp⟩ := henabled
    simp only [next, State.evaluate, hp]
    exact .evaluated hp
  | signal p =>
    obtain ⟨k, f, ticket, hp⟩ := henabled
    simp only [next, hp]
    exact .signalled hp

section Inside
variable {k : Kind} {ticket : Nat} {r : Request} {errno : Int}

/-- The lock request each process is in. -/
def State.inside (s : State) (p : Pid) : Option (Kind × FileId × Nat) := (s.procs p).inside

@[simp] theorem inside_goto (s : State) (p : Pid) (pt : Point) :
    (s.goto p pt).inside = Function.update s.inside p pt.inside := by
  funext q
  by_cases h : q = p
  · subst q
    simp [State.inside]
  · simp [State.inside, h]

@[simp] theorem inside_issue (s : State) : s.issue.inside = s.inside := rfl

@[simp] theorem inside_looked (s : State) (k : Kind) (ticket : Nat) :
    (s.looked k ticket).inside = s.inside := rfl

@[simp] theorem looked_readers (s : State) (k : Kind) (ticket : Nat) :
    (s.looked k ticket).dev.readers = s.dev.readers := ready_readers s.dev

@[simp] theorem looked_writer (s : State) (k : Kind) (ticket : Nat) :
    (s.looked k ticket).dev.writer = s.dev.writer := ready_writer s.dev

@[simp] theorem inside_abandon (s : State) (p : Pid) (ticket : Nat) (errno : Int) :
    (s.abandon p ticket errno).inside = Function.update s.inside p none :=
  inside_goto s p (.user (-errno))

@[simp] theorem inside_grant (s : State) (r : Request) (k : Kind) (p : Pid) (f : FileId)
    (ticket : Nat) : (s.grant r k p f ticket).inside =
      Function.update s.inside p (afterGrant r k (s.files f) f ticket).inside :=
  inside_goto (s.setLocked f true) p _

@[simp] theorem inside_unlock (s : State) (p : Pid) (f : FileId) :
    (s.unlock p f).inside = s.inside := by
  funext q
  exact inside_awake _

theorem inside_of_isUser (h : (s.procs p).isUser = true) : s.inside p = none := by
  unfold State.inside
  cases hp : s.procs p with
  | user ret => rfl
  | _ => simp [hp, Point.isUser] at h

/-- A move between the points of one lock part. -/
theorem inside_stay {pt : Point} (h : s.procs p = .check k f ticket ∨ s.procs p = .loop k f ticket ∨
    ∃ asleep, s.procs p = .wait k f ticket asleep) (hpt : pt.inside = some (k, f, ticket)) :
    Function.update s.inside p pt.inside = s.inside := by
  rw [hpt]
  apply Function.update_eq_self_iff.mpr
  rcases h with h | h | ⟨asleep, h⟩ <;> simp [State.inside, h, Point.inside]

end Inside

section InUse
variable {k : Kind} {ticket : Nat} {r : Request} {as : List Action}

/-- The file is open in a mode that has the lock part. -/
def File.serves (file : File) : Kind → Bool
  | .write => file.opened && file.writable
  | .read => file.opened && file.readable

def InUse (s : State) : Prop :=
  ∀ p k f ticket, s.inside p = some (k, f, ticket) → (s.files f).serves k = true

@[simp] theorem serves_setLocked (s : State) (f g : FileId) (b : Bool) (k : Kind) :
    ((s.setLocked f b).files g).serves k = (s.files g).serves k := by
  by_cases h : g = f
  · subst g
    cases k <;> simp [State.setLocked, File.serves]
  · simp [State.setLocked, h]

/-- The lock part that a request goes to is one that the file has. -/
theorem inside_writePart_serves {file : File} {x : Kind × FileId × Nat} (ho : file.opened = true)
    (h : (writePart r file f ticket).inside = some x) :
    x.2 = (f, ticket) ∧ file.serves x.1 = true := by
  unfold writePart at h
  split at h
  · next hw =>
    rw [inside_lockPart, Option.some.injEq] at h
    subst h
    exact ⟨rfl, by simp [File.serves, ho, hw]⟩
  · unfold readPart at h
    split at h
    · next hr =>
      rw [inside_lockPart, Option.some.injEq] at h
      subst h
      exact ⟨rfl, by simp [File.serves, ho, hr]⟩
    · exact absurd h (by simp [Point.inside])

theorem inside_afterGrant_serves {file : File} {x : Kind × FileId × Nat}
    (ho : file.serves k = true) (h : (afterGrant r k file f ticket).inside = some x) :
    x.2 = (f, ticket) ∧ file.serves x.1 = true := by
  cases k with
  | read => exact absurd h (by simp [afterGrant, Point.inside])
  | write =>
    simp only [afterGrant, readPart] at h
    split at h
    · next hr =>
      rw [inside_lockPart, Option.some.injEq] at h
      subst h
      simp only [File.serves, Bool.and_eq_true] at ho ⊢
      exact ⟨trivial, ho.1, hr⟩
    · exact absurd h (by simp [Point.inside])

/-- A change of one process that leaves the modes of the files alone. -/
theorem InUse.update {x : Option (Kind × FileId × Nat)} (hs : InUse s)
    (hinside : t.inside = Function.update s.inside p x)
    (hfiles : ∀ g k, (t.files g).serves k = (s.files g).serves k)
    (hx : ∀ y, x = some y → (s.files y.2.1).serves y.1 = true) : InUse t := by
  intro q k g ticket hq
  rw [hfiles]
  rw [hinside] at hq
  by_cases hqp : q = p
  · subst q
    rw [Function.update_self] at hq
    exact hx _ hq
  · rw [Function.update_of_ne hqp] at hq
    exact hs q k g ticket hq

theorem InUse.same (hs : InUse s) (hinside : t.inside = s.inside)
    (hfiles : ∀ g k, (t.files g).serves k = (s.files g).serves k) : InUse t := by
  intro q k g ticket hq
  rw [hfiles]
  rw [hinside] at hq
  exact hs q k g ticket hq

theorem InUse.setFile {file : File} (hs : InUse s) (hunused : s.Unused f) :
    InUse { s with files := Function.update s.files f file } := by
  intro q k g ticket hq
  have hne : g ≠ f := hunused q k g ticket hq
  change (Function.update s.files f file g).serves k = true
  rw [Function.update_of_ne hne]
  exact hs q k g ticket hq

theorem unused_unlock (h : s.Unused f) : (s.unlock p f).Unused f := by
  intro q k g ticket hq
  have hq' : (s.unlock p f).inside q = some (k, g, ticket) := hq
  rw [inside_unlock] at hq'
  exact h q k g ticket hq'

theorem InUse.step (hs : InUse s) (h : Step s a t) : InUse t := by
  cases h.effect with
  | opened _ hunused => exact hs.setFile hunused
  | refused _ _ =>
    refine hs.update (inside_abandon _ _ _ _) (fun _ _ => rfl) ?_
    exact fun _ h => by simp at h
  | issued ho _ _ =>
    apply hs.update (inside_goto _ _ _) (fun _ _ => rfl)
    intro y hy
    obtain ⟨h1, h2⟩ := inside_writePart_serves ho hy
    rw [h1]
    exact h2
  | notLocked _ _ =>
    apply hs.update (inside_goto _ _ _) (fun _ _ => rfl)
    exact fun _ h => by simp [Point.inside] at h
  | released _ _ =>
    refine (hs.same (t := s.unlock _ _) (inside_unlock _ _ _) ?_).update (inside_goto _ _ _)
      (fun _ _ => rfl) fun _ h => by simp [Point.inside] at h
    exact fun g k => serves_setLocked s _ g false k
  | closed hunused _ => exact hs.setFile hunused
  | closedLocked hunused _ _ =>
    refine (hs.same (t := s.unlock _ _) (inside_unlock _ _ _) ?_).setFile (unused_unlock hunused)
    exact fun g k => serves_setLocked s _ g false k
  | checked hp _ => exact hs.same ((inside_goto _ _ _).trans (inside_stay (.inl hp) rfl)) fun _ _ => rfl
  | gaveUp _ =>
    refine hs.update (inside_abandon _ _ _ _) (fun _ _ => rfl) ?_
    exact fun _ h => by simp at h
  | busy _ _ =>
    refine hs.update (inside_abandon _ _ _ _) (fun _ _ => rfl) ?_
    exact fun _ h => by simp at h
  | @granted r p k f ticket hp _ =>
    apply hs.update (inside_grant _ _ _ _ _ _) (fun g k => serves_setLocked _ _ g true k)
    intro y hy
    have hin : s.inside p = some (k, f, ticket) := by
      rcases hp with ⟨hp, _⟩ | ⟨hp, _⟩ <;> simp [State.inside, hp, Point.inside]
    obtain ⟨h1, h2⟩ := inside_afterGrant_serves (hs p k f ticket hin) hy
    rw [h1]
    exact h2
  | blocked hp _ =>
    exact hs.same ((inside_goto _ _ _).trans (inside_stay (.inr (.inl hp)) rfl)) fun _ _ => rfl
  | evaluated hp =>
    refine hs.same ((inside_goto _ _ _).trans (inside_stay (.inr (.inr ⟨_, hp⟩)) ?_)) fun _ _ => rfl
    split
    · rfl
    · split <;> rfl
  | signalled hp =>
    exact hs.same ((inside_goto _ _ _).trans (inside_stay (.inr (.inr ⟨_, hp⟩)) rfl)) fun _ _ => rfl

theorem inUse_init : InUse State.init := by
  intro q k g ticket hq
  simp [State.inside, State.init, Point.inside] at hq

end InUse

end CS111.Ramdisk
