import CS111.Lib.Acyclic
import CS111.Ramdisk.Effects

/-!
# Waiting for one another on several ramdisks

`osprd_ioctl` looks for a deadlock only in the holders of the device that is requested: a process
may not ask twice for the same lock. A cycle of processes over two devices goes unnoticed.
-/

namespace CS111.Ramdisk

set_option autoImplicit false

open Relation

section Model

abbrev NOSPRD : Nat := 4

/-- The devices `osprds`. A process is in one system call at a time. -/
abbrev System := Fin NOSPRD → State

def System.init : System := fun _ => State.init

def System.Outside (σ : System) (p : Pid) : Prop := ∀ i, ((σ i).procs p).isUser = true

/-- A process begins a system call only when it is in none, on any device. -/
def BeginsOutside (σ : System) (a : Fin NOSPRD × Action) : Prop :=
  match a.2 with
  | .request _ p _ | .release p _ | .closeLast p _ => σ.Outside p
  | _ => True

def SystemStep (σ : System) (a : Fin NOSPRD × Action) (τ : System) : Prop :=
  BeginsOutside σ a ∧ ∃ t, Step (σ a.1) a.2 t ∧ τ = Function.update σ a.1 t

/-- Every process uses files of its own. -/
def SeparateFiles (owner : Fin NOSPRD → FileId → Pid) (a : Fin NOSPRD × Action) : Prop :=
  match a.2 with
  | .request _ p f | .release p f | .closeLast p f => owner a.1 f = p
  | _ => True

end Model

section Waiting

/-- `q` holds a lock on the device that a request of this kind has to wait for. -/
def HeldBy (d : Device) (k : Kind) (q : Pid) : Prop :=
  d.writer = q ∨ k = .write ∧ q ∈ d.readers

/-- In `wait_event_interruptible` of `OSPRDIOCACQUIRE`. -/
def Waits (s : State) (p : Pid) (k : Kind) : Prop := ∃ f u asleep, s.procs p = .wait k f u asleep

def WaitsOn (σ : System) (p q : Pid) : Prop := ∃ i k, Waits (σ i) p k ∧ HeldBy (σ i).dev k q

/-- In `OSPRDIOCACQUIRE` and past its check, or about to pass it: the process waits, or it will
if the lock is not free by then. -/
def Acquires (s : State) (p : Pid) (k : Kind) : Prop :=
  ∃ f u, s.procs p = .check k f u ∧ p ∉ s.dev.readers ∨ s.procs p = .loop k f u ∨
    ∃ asleep, s.procs p = .wait k f u asleep

def AcquiresFrom (σ : System) (p q : Pid) : Prop :=
  ∃ i k, Acquires (σ i) p k ∧ HeldBy (σ i).dev k q

/-- The first lock part of the ioctl for the file. -/
def File.kind (file : File) : Kind := if file.writable then .write else .read

/-- A process without a lock on the device acquires one through a file with one mode, and the
processes that hold the device do not wait, directly or through others, for that process. -/
def ClosesNoCycle (σ : System) (a : Fin NOSPRD × Action) : Prop :=
  match a.2 with
  | .request .acquire p f =>
    (((σ a.1).files f).writable = true → ((σ a.1).files f).readable = false) ∧
    ((σ a.1).dev.writer ≠ p → p ∉ (σ a.1).dev.readers →
      ∀ q, HeldBy (σ a.1).dev ((σ a.1).files f).kind q → ¬ ReflTransGen (AcquiresFrom σ) q p)
  | _ => True

end Waiting

section Edges
variable {s t : State} {a : Action} {p q : Pid} {k : Kind} {f : FileId} {u : Nat}

theorem removeReaders_cons (b : Bool) (curr : Pid) (rest : List Pid) :
    (removeReaders p b (curr :: rest)).1 =
      if curr = p ∧ b = false then (removeReaders p (curr == p && !b) rest).1
      else curr :: (removeReaders p (curr == p && !b) rest).1 := by
  simp only [removeReaders]
  by_cases hc : curr = p
  · cases b <;> simp [hc]
  · simp [hc]

theorem mem_removeReaders {b : Bool} {l : List Pid} (hq : q ∈ (removeReaders p b l).1) :
    q ∈ l := by
  induction l generalizing b with
  | nil => exact hq
  | cons curr rest ih =>
    rw [removeReaders_cons] at hq
    split at hq
    · exact List.mem_cons_of_mem _ (ih hq)
    · rcases List.mem_cons.mp hq with rfl | hq
      · exact List.mem_cons_self
      · exact List.mem_cons_of_mem _ (ih hq)

theorem mem_removeReaders_of_ne {b : Bool} {l : List Pid} (hne : q ≠ p) (hq : q ∈ l) :
    q ∈ (removeReaders p b l).1 := by
  induction l generalizing b with
  | nil => exact hq
  | cons curr rest ih =>
    rw [removeReaders_cons]
    split
    · next hcurr =>
      rcases List.mem_cons.mp hq with rfl | hq
      · exact absurd hcurr.1 hne
      · exact ih hq
    · rcases List.mem_cons.mp hq with rfl | hq
      · exact List.mem_cons_self
      · exact List.mem_cons_of_mem _ (ih hq)

theorem dropLock_readers_of_ne {d : Device} {file : File} (hne : q ≠ p) :
    q ∈ (dropLock file p d).readers ↔ q ∈ d.readers := by
  unfold dropLock
  cases file.writable <;> cases file.readable
  · exact Iff.rfl
  · exact ⟨mem_removeReaders, mem_removeReaders_of_ne hne⟩
  · exact Iff.rfl
  · exact ⟨mem_removeReaders, mem_removeReaders_of_ne hne⟩

/-- Giving up a lock makes nobody a holder. -/
theorem heldBy_dropLock {d : Device} {file : File} (h : HeldBy (dropLock file p d) k q) :
    HeldBy d k q := by
  have hsub : q ∈ (dropLock file p d).readers → q ∈ d.readers := by
    unfold dropLock
    cases file.writable <;> cases file.readable
    · exact fun h => h
    · exact mem_removeReaders
    · exact fun h => h
    · exact mem_removeReaders
  rcases h with h | ⟨hk, h⟩
  · rw [dropLock_writer] at h
    split at h
    · omega
    · exact .inl h
  · exact .inr ⟨hk, hsub h⟩

/-- The file of a process that is on its way to a write lock. -/
def Point.toWrite : Point → Option FileId
  | .check .write f _ | .loop .write f _ | .wait .write f _ _ => some f
  | _ => none

/-- A process on its way to a write lock has no read part behind it. -/
def OnePart (s : State) : Prop :=
  ∀ p f, (s.procs p).toWrite = some f → (s.files f).readable = false

theorem acquires_inside (h : Acquires s p k) : s.inside p ≠ none := by
  obtain ⟨f, u, ⟨h, _⟩ | h | ⟨_, h⟩⟩ := h <;> simp [State.inside, h, Point.inside]

theorem acquires_goto {pt : Point} (h : Acquires (s.goto p pt) q k) :
    Acquires s q k ∨ q = p ∧ ∃ f u, pt = .check k f u ∧ p ∉ s.dev.readers ∨ pt = .loop k f u ∨
      ∃ asleep, pt = .wait k f u asleep := by
  by_cases hqp : q = p
  · subst q
    unfold Acquires at h
    rw [goto_self] at h
    exact .inr ⟨rfl, h⟩
  · unfold Acquires at h ⊢
    rw [goto_other hqp] at h
    exact .inl h

theorem acquires_goto_user {ret : Int} (h : Acquires (s.goto p (.user ret)) q k) :
    q ≠ p ∧ Acquires s q k := by
  by_cases hqp : q = p
  · subst q
    obtain ⟨f, u, ⟨h, _⟩ | h | ⟨_, h⟩⟩ := h <;> simp at h
  · unfold Acquires at h ⊢
    rw [goto_other hqp] at h
    exact ⟨hqp, h⟩

/-- Only the readers of the device matter. -/
theorem acquires_congr (hprocs : t.procs q = s.procs q)
    (hreaders : q ∈ t.dev.readers ↔ q ∈ s.dev.readers) (h : Acquires t q k) : Acquires s q k := by
  unfold Acquires at h ⊢
  rw [hprocs, hreaders] at h
  exact h

theorem acquires_looked {v : Nat} {k' : Kind} (h : Acquires (s.looked k' v) q k) :
    Acquires s q k :=
  acquires_congr (t := s.looked k' v) rfl (by rw [State.looked, ready_readers]) h

theorem acquires_unlock (hqp : q ≠ p) (h : Acquires (s.unlock p f) q k) : Acquires s q k := by
  have hreaders : q ∈ (s.unlock p f).dev.readers ↔ q ∈ s.dev.readers := dropLock_readers_of_ne hqp
  obtain ⟨g, u, h⟩ := h
  rw [hreaders] at h
  change (s.procs q).awake = _ ∧ _ ∨ (s.procs q).awake = _ ∨ (∃ _, (s.procs q).awake = _) at h
  refine ⟨g, u, ?_⟩
  cases hq : s.procs q with
  | wait k' g' u' asleep =>
    rw [hq] at h
    simp only [Point.awake, reduceCtorEq, false_and, Point.wait.injEq, false_or] at h ⊢
    obtain ⟨b, rfl, rfl, rfl, rfl⟩ := h
    exact ⟨asleep, rfl, rfl, rfl, rfl⟩
  | _ =>
    rw [hq] at h
    exact h

theorem not_acquires_of_isUser (h : (s.procs p).isUser = true) : ¬ Acquires s p k := fun ha =>
  acquires_inside ha (inside_of_isUser h)

end Edges

section EdgeChange

/-- A process on its way to a lock, and a process that holds it. -/
def Edge (s : State) (p : Pid) (k : Kind) (q : Pid) : Prop := Acquires s p k ∧ HeldBy s.dev k q

/-- A step takes edges away, gives the process of a request edges to the holders, or makes a
process that does not wait a holder. -/
inductive EdgeChange (s : State) (a : Action) (t : State) : Prop
  | fewer : (∀ x k y, Edge t x k y → Edge s x k y) → EdgeChange s a t
  | request {p : Pid} {f : FileId} : a = .request .acquire p f →
      (∀ x k y, Edge t x k y → Edge s x k y ∨ x = p ∧ k = (s.files f).kind ∧ HeldBy s.dev k y ∧
        s.dev.writer ≠ p ∧ p ∉ s.dev.readers) → EdgeChange s a t
  | grant {p : Pid} : s.inside p ≠ none → (∀ x k y, Edge t x k y → Edge s x k y ∨ y = p) →
      (∀ k, ¬ Acquires t p k) → EdgeChange s a t

variable {s t : State} {a : Action} {p q : Pid} {k : Kind} {f : FileId} {u : Nat}

theorem EdgeChange.of_user {r : State} {ret : Int}
    (hprocs : t.procs = (r.goto p (.user ret)).procs) (hreaders : t.dev.readers = r.dev.readers)
    (hwriter : t.dev.writer = r.dev.writer)
    (ha : ∀ q k, q ≠ p → Acquires r q k → Acquires s q k)
    (hw : ∀ k q, HeldBy r.dev k q → HeldBy s.dev k q) : EdgeChange s a t := by
  apply EdgeChange.fewer
  rintro x k y ⟨hx, hy⟩
  have hx' : Acquires (r.goto p (.user ret)) x k :=
    acquires_congr (congrFun hprocs x) (by rw [hreaders]; rfl) hx
  obtain ⟨hxp, hx'⟩ := acquires_goto_user hx'
  unfold HeldBy at hy
  rw [hreaders, hwriter] at hy
  exact ⟨ha x k hxp hx', hw k y hy⟩

theorem writePart_acquires {r : Request} {file : File} {reader : Prop}
    (h : ∃ g v, writePart r file f u = .check k g v ∧ ¬ reader ∨ writePart r file f u = .loop k g v ∨
      ∃ asleep, writePart r file f u = .wait k g v asleep) :
    r = .acquire ∧ k = file.kind ∧ ¬ reader := by
  unfold File.kind
  unfold writePart readPart at h
  obtain ⟨g, v, h⟩ := h
  cases r with
  | acquire =>
    simp only [lockPart] at h
    split at h
    · next hw =>
      simp only [Point.check.injEq, reduceCtorEq, exists_const, or_false] at h
      rw [if_pos hw]
      exact ⟨rfl, h.1.1.symm, h.2⟩
    · next hw =>
      split at h
      · simp only [Point.check.injEq, reduceCtorEq, exists_const, or_false] at h
        rw [if_neg hw]
        exact ⟨rfl, h.1.1.symm, h.2⟩
      · simp at h
  | tryAcquire =>
    simp only [lockPart] at h
    split at h
    · simp at h
    · split at h <;> simp at h

theorem heldBy_looked {v : Nat} {k' : Kind} (h : HeldBy (s.looked k' v).dev k q) :
    HeldBy s.dev k q := by
  unfold HeldBy at h ⊢
  rw [State.looked, ready_writer, ready_readers] at h
  exact h

theorem heldBy_getLock {d : Device} {k' : Kind} (h : HeldBy (getLock k p d) k' q) :
    HeldBy d k' q ∨ q = p := by
  cases k with
  | write =>
    rcases h with h | h
    · have hpq : (p : Int) = (q : Int) := h
      exact .inr (Int.ofNat.inj hpq).symm
    · exact .inl (.inr h)
  | read =>
    rcases h with h | ⟨hk, h⟩
    · exact .inl (.inl h)
    · rcases List.mem_cons.mp h with rfl | h
      · exact .inr rfl
      · exact .inl (.inr ⟨hk, h⟩)

theorem grant_edge {r : Request} (hone : OnePart s)
    (hp : s.procs p = .loop k f u ∧ r = .acquire ∨
      s.procs p = .tryLock k f u ∧ r = .tryAcquire ∧ p ∉ s.dev.readers) :
    EdgeChange s (.runSection p) ((s.looked k u).grant r k p f u) := by
  have hin : s.inside p ≠ none := by
    rcases hp with ⟨hp, _⟩ | ⟨hp, _⟩ <;> simp [State.inside, hp, Point.inside]
  have hpoint : ((s.looked k u).grant r k p f u).procs p = afterGrant r k (s.files f) f u :=
    goto_self _ _
  have hreadPart : ∀ {k'}, r = .acquire ∧ (s.files f).readable = false ∨ r = .tryAcquire →
      (∃ g v, readPart r (s.files f) f u = .check k' g v ∧
          p ∉ ((s.looked k u).grant r k p f u).dev.readers ∨
        readPart r (s.files f) f u = .loop k' g v ∨
        ∃ asleep, readPart r (s.files f) f u = .wait k' g v asleep) → False := by
    rintro k' (⟨rfl, hr⟩ | rfl) ⟨g, v, h⟩
    · simp [readPart, hr] at h
    · unfold readPart lockPart at h
      split at h <;> simp at h
  have hout : ∀ k', ¬ Acquires ((s.looked k u).grant r k p f u) p k' := by
    intro k' hacq
    unfold Acquires at hacq
    rw [hpoint] at hacq
    cases k with
    | read => simp [afterGrant] at hacq
    | write =>
      rcases hp with ⟨hp, hr⟩ | ⟨_, hr, _⟩
      · exact hreadPart (.inl ⟨hr, hone p f (by rw [hp]; rfl)⟩) hacq
      · exact hreadPart (.inr hr) hacq
  apply EdgeChange.grant hin _ hout
  rintro x k' y ⟨hx, hy⟩
  by_cases hxp : x = p
  · subst x
    exact absurd hx (hout k')
  · have hsame : ((s.looked k u).grant r k p f u).procs x = s.procs x := goto_other hxp _
    have hreaders : x ∈ ((s.looked k u).grant r k p f u).dev.readers ↔ x ∈ s.dev.readers := by
      have hlooked := looked_readers s k u
      cases k with
      | write => exact hlooked ▸ Iff.rfl
      | read =>
        refine (List.mem_cons.trans (or_iff_right hxp)).trans ?_
        exact hlooked ▸ Iff.rfl
    rcases heldBy_getLock hy with hy | rfl
    · exact .inl ⟨acquires_congr hsame hreaders hx, heldBy_looked hy⟩
    · exact .inr rfl

/-- The step lemma for the graph of one device. -/
theorem edge_step (hone : OnePart s) (h : Step s a t) : EdgeChange s a t := by
  cases h.effect with
  | opened => exact .fewer fun _ _ _ h => h
  | refused => exact .of_user (r := s.issue) rfl rfl rfl (fun _ _ _ h => h) fun _ _ h => h
  | @issued r p f ho huser hw =>
    by_cases hr : r = .acquire
    · subst hr
      apply EdgeChange.request rfl
      rintro x k y ⟨hx, hy⟩
      rcases acquires_goto hx with hx | ⟨rfl, hx⟩
      · exact .inl ⟨hx, hy⟩
      · obtain ⟨_, hk, hreader⟩ := writePart_acquires hx
        exact .inr ⟨rfl, hk, hy, fun h => hw h.symm, hreader⟩
    · apply EdgeChange.fewer
      rintro x k y ⟨hx, hy⟩
      rcases acquires_goto hx with hx | ⟨rfl, hx⟩
      · exact ⟨hx, hy⟩
      · exact absurd (writePart_acquires hx).1 hr
  | notLocked => exact .of_user rfl rfl rfl (fun _ _ _ h => h) fun _ _ h => h
  | released =>
    exact .of_user rfl rfl rfl (fun _ _ hne h => acquires_unlock hne h) fun _ _ h =>
      heldBy_dropLock h
  | closed => exact .fewer fun _ _ _ h => h
  | @closedLocked p f _ huser _ =>
    apply EdgeChange.fewer
    rintro x k y ⟨hx, hy⟩
    have hxp : x ≠ p := by
      rintro rfl
      have huser' : ((s.unlock x f).procs x).isUser = true := by
        change ((s.procs x).awake).isUser = true
        cases hp : s.procs x <;> simp_all [Point.isUser, Point.awake]
      exact not_acquires_of_isUser huser' hx
    exact ⟨acquires_unlock hxp hx, heldBy_dropLock hy⟩
  | @checked p k f u hp hr =>
    apply EdgeChange.fewer
    rintro x k' y ⟨hx, hy⟩
    refine ⟨?_, hy⟩
    rcases acquires_goto hx with hx | ⟨rfl, g, v, ⟨h, _⟩ | h | ⟨_, h⟩⟩
    · exact hx
    · simp at h
    · simp only [Point.loop.injEq] at h
      obtain ⟨rfl, rfl, rfl⟩ := h
      exact ⟨f, u, .inl ⟨hp, hr⟩⟩
    · simp at h
  | gaveUp => exact .of_user (r := s) rfl rfl rfl (fun _ _ _ h => h) fun _ _ h => h
  | @busy p k f u =>
    exact .of_user (r := s.looked k u) rfl rfl rfl (fun _ _ _ h => acquires_looked h) fun _ _ h =>
      heldBy_looked h
  | @granted r p k f u hp hnow => exact grant_edge hone hp
  | @blocked p k f u hp hnow =>
    apply EdgeChange.fewer
    rintro x k' y ⟨hx, hy⟩
    refine ⟨?_, heldBy_looked hy⟩
    rcases acquires_goto hx with hx | ⟨rfl, g, v, h⟩
    · exact acquires_looked hx
    · obtain ⟨rfl, rfl, rfl⟩ : k = k' ∧ f = g ∧ u = v := by simpa using h
      exact ⟨f, u, .inr (.inl hp)⟩
  | @evaluated p k f u b hp =>
    apply EdgeChange.fewer
    rintro x k' y ⟨hx, hy⟩
    refine ⟨?_, heldBy_looked hy⟩
    rcases acquires_goto hx with hx | ⟨rfl, g, v, h⟩
    · exact acquires_looked hx
    · have hsame : k = k' := by
        split at h
        · simp only [reduceCtorEq, Point.loop.injEq, exists_const, false_and, false_or,
            or_false] at h
          exact h.1
        · split at h
          · simp at h
          · simp only [reduceCtorEq, Point.wait.injEq, false_and, false_or] at h
            obtain ⟨_, h, _⟩ := h
            exact h
      exact ⟨f, u, .inr (.inr ⟨_, hsame ▸ hp⟩)⟩
  | @signalled p k f u hp =>
    apply EdgeChange.fewer
    rintro x k' y ⟨hx, hy⟩
    refine ⟨?_, hy⟩
    rcases acquires_goto hx with hx | ⟨rfl, g, v, h⟩
    · exact hx
    · have hsame : k = k' := by
        simp only [reduceCtorEq, Point.wait.injEq, false_and, false_or] at h
        obtain ⟨_, h, _⟩ := h
        exact h
      exact ⟨f, u, .inr (.inr ⟨_, hsame ▸ hp⟩)⟩

end EdgeChange

section OnePart
variable {s t : State} {a : Action} {p : Pid} {f : FileId}

theorem OnePart.goto {pt : Point} (hs : OnePart s)
    (hpt : ∀ f, pt.toWrite = some f → (s.files f).readable = false) : OnePart (s.goto p pt) := by
  intro q f hq
  by_cases hqp : q = p
  · subst q
    rw [goto_self] at hq
    exact hpt f hq
  · rw [goto_other hqp] at hq
    exact hs q f hq

theorem OnePart.user {ret : Int} (hs : OnePart s) : OnePart (s.goto p (.user ret)) :=
  hs.goto fun _ h => by simp [Point.toWrite] at h

theorem toWrite_inside {pt : Point} (h : pt.toWrite = some f) :
    ∃ u, pt.inside = some (.write, f, u) := by
  cases pt with
  | check k g u | loop k g u =>
    cases k <;> simp [Point.toWrite] at h
    exact ⟨u, by rw [h]; rfl⟩
  | wait k g u b =>
    cases k <;> simp [Point.toWrite] at h
    exact ⟨u, by rw [h]; rfl⟩
  | _ => simp [Point.toWrite] at h

theorem OnePart.setFile {file : File} (hs : OnePart s) (hunused : s.Unused f) :
    OnePart { s with files := Function.update s.files f file } := by
  intro q g hq
  obtain ⟨u, hu⟩ := toWrite_inside hq
  have hne : g ≠ f := hunused q .write g u hu
  change (Function.update s.files f file g).readable = false
  rw [Function.update_of_ne hne]
  exact hs q g hq

theorem readable_setLocked (s : State) (f g : FileId) (b : Bool) :
    ((s.setLocked f b).files g).readable = (s.files g).readable := by
  by_cases h : g = f
  · subst g
    simp [State.setLocked]
  · simp [State.setLocked, h]

theorem OnePart.unlock (hs : OnePart s) : OnePart (s.unlock p f) := by
  intro q g hq
  have hawake : ∀ pt : Point, pt.awake.toWrite = pt.toWrite := by
    intro pt
    cases pt with
    | wait k f u b => cases k <;> rfl
    | _ => rfl
  change (s.procs q).awake.toWrite = some g at hq
  rw [hawake] at hq
  exact (readable_setLocked s f g false).trans (hs q g hq)

theorem toWrite_readPart {r : Request} {file : File} {g : FileId} {u : Nat} :
    (readPart r file f u).toWrite ≠ some g := by
  unfold readPart lockPart
  cases r <;> split <;> simp [Point.toWrite]

theorem toWrite_writePart {r : Request} {file : File} {g : FileId} {u : Nat}
    (h : (writePart r file f u).toWrite = some g) :
    g = f ∧ r = .acquire ∧ file.writable = true := by
  unfold writePart at h
  split at h
  · next hw =>
    cases r with
    | acquire =>
      simp only [lockPart, Point.toWrite, Option.some.injEq] at h
      exact ⟨h.symm, rfl, hw⟩
    | tryAcquire => simp [lockPart, Point.toWrite] at h
  · exact absurd h toWrite_readPart

theorem OnePart.step (hs : OnePart s) (h : Step s a t)
    (hmode : ∀ p f, a = .request .acquire p f → (s.files f).writable = true →
      (s.files f).readable = false) : OnePart t := by
  have hstay : ∀ {r : State} {p : Pid} {pt : Point}, r.procs = s.procs → r.files = s.files →
      pt.toWrite = (s.procs p).toWrite → OnePart (r.goto p pt) := by
    intro r p pt hprocs hfiles hpt
    have hr : OnePart r := by
      unfold OnePart
      rw [hprocs, hfiles]
      exact hs
    apply hr.goto
    intro f hf
    rw [hfiles]
    exact hs p f (hpt ▸ hf)
  cases h.effect with
  | opened _ hunused => exact hs.setFile hunused
  | refused => exact OnePart.user (s := s.issue) hs
  | @issued r p f =>
    apply OnePart.goto (s := s.issue) hs
    intro g hg
    obtain ⟨rfl, rfl, hw⟩ := toWrite_writePart hg
    exact hmode p g rfl hw
  | notLocked => exact hs.user
  | released => exact hs.unlock.user
  | closed hunused => exact hs.setFile hunused
  | closedLocked hunused => exact hs.unlock.setFile (unused_unlock hunused)
  | @checked p k f u hp _ =>
    apply hstay rfl rfl
    rw [hp]
    cases k <;> rfl
  | gaveUp => exact OnePart.user (s := s) hs
  | @busy p k f u => exact OnePart.user (s := s.looked k u) hs
  | @granted r p k f u =>
    have hlocked : OnePart ((s.looked k u).setLocked f true) := fun q g hq =>
      (readable_setLocked (s.looked k u) f g true).trans (hs q g hq)
    apply OnePart.goto (s := (s.looked k u).setLocked f true) hlocked
    intro g hg
    cases k with
    | read => simp [afterGrant, Point.toWrite] at hg
    | write => exact absurd hg toWrite_readPart
  | @blocked p k f u hp _ =>
    apply hstay (r := s.looked k u) rfl rfl
    rw [hp]
    cases k <;> rfl
  | @evaluated p k f u b hp =>
    apply OnePart.goto (s := s.looked k u) hs
    intro g hg
    apply hs p g
    rw [hp]
    split at hg
    · cases k <;> exact hg
    · split at hg
      · simp [Point.toWrite] at hg
      · cases k <;> exact hg
  | @signalled p k f u hp =>
    apply hstay rfl rfl
    rw [hp]
    cases k <;> rfl

end OnePart

section Runs
variable {s t : State} {a : Action} {p : Pid} {σ τ : System} {b : Fin NOSPRD × Action}
variable {as : List (Fin NOSPRD × Action)}

theorem update_none {q : Pid} {x : Option (Kind × FileId × Nat)}
    (h : Function.update s.inside q x p ≠ none) (hx : x ≠ none → s.inside q ≠ none) :
    s.inside p ≠ none := by
  by_cases hpq : p = q
  · subst p
    rw [Function.update_self] at h
    exact hx h
  · rw [Function.update_of_ne hpq] at h
    exact h

/-- Only a request takes a process into a lock part. -/
theorem inside_step (h : Step s a t) (hp : t.inside p ≠ none) :
    s.inside p ≠ none ∨ ∃ r f, a = .request r p f := by
  cases h.effect with
  | opened | closed => exact .inl hp
  | refused =>
    rw [inside_abandon] at hp
    exact .inl (update_none hp fun h => absurd rfl h)
  | @issued r q f =>
    rw [inside_goto] at hp
    by_cases hpq : p = q
    · subst p
      exact .inr ⟨r, f, rfl⟩
    · rw [Function.update_of_ne hpq] at hp
      exact .inl hp
  | notLocked =>
    rw [inside_goto] at hp
    exact .inl (update_none hp fun h => absurd rfl h)
  | released =>
    rw [inside_goto, inside_unlock] at hp
    exact .inl (update_none hp fun h => absurd rfl h)
  | @closedLocked q f =>
    have hp' : (s.unlock q f).inside p ≠ none := hp
    rw [inside_unlock] at hp'
    exact .inl hp'
  | checked hq _ =>
    rw [inside_goto, inside_stay (.inl hq) rfl] at hp
    exact .inl hp
  | gaveUp =>
    rw [inside_abandon] at hp
    exact .inl (update_none hp fun h => absurd rfl h)
  | busy =>
    rw [inside_abandon] at hp
    exact .inl (update_none hp fun h => absurd rfl h)
  | granted hq =>
    rw [inside_grant] at hp
    refine .inl (update_none hp fun _ => ?_)
    rcases hq with ⟨hq, _⟩ | ⟨hq, _⟩ <;> simp [State.inside, hq, Point.inside]
  | blocked hq _ =>
    rw [inside_goto, inside_looked, inside_stay (.inr (.inl hq)) rfl] at hp
    exact .inl hp
  | evaluated hq =>
    rw [inside_goto] at hp
    exact .inl (update_none hp fun _ => by simp [State.inside, hq, Point.inside])
  | signalled hq =>
    rw [inside_goto] at hp
    exact .inl (update_none hp fun _ => by simp [State.inside, hq, Point.inside])

structure Acyclically (σ : System) : Prop where
  oneDevice : ∀ p i j, (σ i).inside p ≠ none → (σ j).inside p ≠ none → i = j
  onePart : ∀ i, OnePart (σ i)
  acyclic : Acyclic (AcquiresFrom σ)

theorem acyclically_init : Acyclically System.init where
  oneDevice := fun p i j h => absurd rfl h
  onePart := fun i p f h => by simp [System.init, State.init, Point.toWrite] at h
  acyclic := by
    apply Acyclic.of_empty
    rintro x y ⟨i, k, hx, _⟩
    exact acquires_inside hx rfl

/-- On the device of the step the edges are those of its new state, elsewhere the old ones. -/
theorem acquiresFrom_update {i : Fin NOSPRD} {x y : Pid}
    (h : AcquiresFrom (Function.update σ i t) x y) :
    AcquiresFrom σ x y ∨ ∃ k, Edge t x k y := by
  obtain ⟨j, k, hx, hy⟩ := h
  by_cases hji : j = i
  · subst j
    rw [Function.update_self] at hx hy
    exact .inr ⟨k, hx, hy⟩
  · rw [Function.update_of_ne hji] at hx hy
    exact .inl ⟨j, k, hx, hy⟩

theorem Acyclically.acyclic_step (hσ : Acyclically σ) (h : SystemStep σ b τ)
    (hclose : ClosesNoCycle σ b) : Acyclic (AcquiresFrom τ) := by
  obtain ⟨i, a⟩ := b
  obtain ⟨_, t, hstep, rfl⟩ := h
  have hedge : ∀ {x k y}, Edge (σ i) x k y → AcquiresFrom σ x y := fun h => ⟨i, _, h.1, h.2⟩
  cases edge_step (hσ.onePart i) hstep with
  | fewer hsub =>
    apply hσ.acyclic.mono
    intro x y hxy
    rcases acquiresFrom_update hxy with hold | ⟨k, hnew⟩
    · exact hold
    · exact hedge (hsub x k y hnew)
  | @request p f ha hsub =>
    dsimp only at ha
    subst ha
    apply hσ.acyclic.add_out (p := p)
    intro x y hxy
    rcases acquiresFrom_update hxy with hold | ⟨k, hnew⟩
    · exact .inl hold
    · rcases hsub x k y hnew with hold | ⟨rfl, rfl, hheld, hw, hr⟩
      · exact .inl (hedge hold)
      · exact .inr ⟨rfl, hclose.2 hw hr y hheld⟩
  | @grant p hin hsub hout =>
    apply hσ.acyclic.add_in (p := p)
    · intro x y hxy
      rcases acquiresFrom_update hxy with hold | ⟨k, hnew⟩
      · exact .inl hold
      · exact (hsub x k y hnew).imp_left hedge
    · rintro y ⟨j, k, hx, _⟩
      by_cases hji : j = i
      · subst j
        rw [Function.update_self] at hx
        exact hout k hx
      · rw [Function.update_of_ne hji] at hx
        exact hji (hσ.oneDevice p j i (acquires_inside hx) hin)

theorem Acyclically.step (hσ : Acyclically σ) (h : SystemStep σ b τ) (hclose : ClosesNoCycle σ b) :
    Acyclically τ where
  acyclic := hσ.acyclic_step h hclose
  onePart := by
    obtain ⟨i, a⟩ := b
    obtain ⟨_, t, hstep, rfl⟩ := h
    intro j
    by_cases hji : j = i
    · subst j
      rw [Function.update_self]
      apply (hσ.onePart i).step hstep
      rintro p f rfl
      exact hclose.1
    · rw [Function.update_of_ne hji]
      exact hσ.onePart j
  oneDevice := by
    obtain ⟨i, a⟩ := b
    obtain ⟨hout, t, hstep, rfl⟩ := h
    intro p
    have hback : ∀ j, (Function.update σ i t j).inside p ≠ none →
        (σ j).inside p ≠ none ∨ j = i ∧ σ.Outside p := by
      intro j hj
      by_cases hji : j = i
      · subst j
        rw [Function.update_self] at hj
        rcases inside_step hstep hj with h | ⟨r, f, ha⟩
        · exact .inl h
        · dsimp only at ha
          subst ha
          exact .inr ⟨rfl, hout⟩
      · rw [Function.update_of_ne hji] at hj
        exact .inl hj
    have hnone : σ.Outside p → ∀ j, (σ j).inside p = none := fun h j => inside_of_isUser (h j)
    intro j j' hj hj'
    rcases hback j hj with h1 | ⟨h1, ho⟩ <;> rcases hback j' hj' with h2 | ⟨h2, ho'⟩
    · exact hσ.oneDevice p j j' h1 h2
    · exact absurd (hnone ho' j) h1
    · exact absurd (hnone ho j') h2
    · exact h1.trans h2.symm

/-- A request that conflicts with a lock of its own process is refused. -/
theorem own_conflict_refused (s : State) (p : Pid) :
    (∀ f, s.dev.writer = p → (s.beginLock .acquire p f).procs p = .user (-EDEADLK)) ∧
    ∀ k f u, s.procs p = .check k f u → p ∈ s.dev.readers →
      (s.runSection p).procs p = .user (-EDEADLK) := by
  constructor
  · intro f hw
    unfold State.beginLock
    simp only [hw, if_true]
    exact goto_self _ _
  · intro k f u hp hr
    unfold State.runSection
    simp only [hp, if_pos hr]
    exact goto_self _ _

/-- No cycle of waiting processes, and `-EDEADLK` for a process that asks for what it holds. -/
structure NoDeadlock (σ : System) : Prop where
  acyclic : Acyclic (WaitsOn σ)
  writer_refused : ∀ i (p : Pid) f, (σ i).dev.writer = p →
    (next (σ i) (.request .acquire p f)).procs p = .user (-EDEADLK)
  reader_refused : ∀ i (p : Pid) k f u, (σ i).procs p = .check k f u → p ∈ (σ i).dev.readers →
    (next (σ i) (.runSection p)).procs p = .user (-EDEADLK)

/-- In a run in which no request closes a cycle over other processes, there is no deadlock. -/
theorem no_deadlock
    (h : Run (fun σ b τ => SystemStep σ b τ ∧ ClosesNoCycle σ b) System.init as σ) :
    NoDeadlock σ := by
  have hσ : Acyclically σ :=
    h.invariant (P := Acyclically) (fun hσ hstep => hσ.step hstep.1 hstep.2) acyclically_init
  constructor
  · apply hσ.acyclic.mono
    rintro x y ⟨i, k, ⟨f, u, asleep, hx⟩, hy⟩
    exact ⟨i, k, ⟨f, u, .inr (.inr ⟨asleep, hx⟩)⟩, hy⟩
  · exact fun i p f hw => (own_conflict_refused (σ i) p).1 f hw
  · exact fun i p k f u hp hr => (own_conflict_refused (σ i) p).2 k f u hp hr

/-- The step as a function. -/
def systemNext (σ : System) (a : Fin NOSPRD × Action) : System :=
  Function.update σ a.1 (next (σ a.1) a.2)

/-- Steps that are enabled one after the other, each under a condition on the state before it. -/
theorem systemRun_of_allEnabled {P : System → Fin NOSPRD × Action → Prop} {as : List (Fin NOSPRD × Action)}
    (h : AllEnabled (fun σ b => (BeginsOutside σ b ∧ Enabled (σ b.1) b.2) ∧ P σ b) systemNext System.init as) :
    Run (fun σ b τ => SystemStep σ b τ ∧ P σ b) System.init as (as.foldl systemNext System.init) :=
  (Run.of_allEnabled h).mono fun hstep =>
    ⟨⟨hstep.1.1.1, _, ⟨hstep.1.1.2, rfl⟩, hstep.2⟩, hstep.1.2⟩

/-- A request closes no cycle where the holders are other processes, in no system call. -/
theorem closesNoCycle_of_outside {i : Fin NOSPRD} {f : FileId}
    (hmode : ((σ i).files f).writable = true → ((σ i).files f).readable = false)
    (hheld : ∀ q, HeldBy (σ i).dev ((σ i).files f).kind q → q ≠ p ∧ σ.Outside q) :
    ClosesNoCycle σ (i, .request .acquire p f) := by
  refine ⟨hmode, fun _ _ q hq hpath => ?_⟩
  obtain ⟨hne, hout⟩ := hheld q hq
  rcases hpath.cases_head with heq | ⟨y, ⟨j, k, hacq, _⟩, _⟩
  · exact hne heq
  · exact not_acquires_of_isUser (hout j) hacq

/-- Process 1 holds the first device and waits for process 2, which holds the second one. -/
theorem no_deadlock_two_processes :
    ∃ as σ, Run (fun σ b τ => SystemStep σ b τ ∧ ClosesNoCycle σ b) System.init as σ ∧
      WaitsOn σ 1 2 ∧ NoDeadlock σ := by
  let acquire (i : Fin NOSPRD) (p : Pid) : List (Fin NOSPRD × Action) :=
    [(i, .request .acquire p p), (i, .runSection p), (i, .runSection p)]
  let as : List (Fin NOSPRD × Action) := [(0, .openFile 1 false true), (1, .openFile 1 false true),
    (1, .openFile 2 false true)] ++ (acquire 0 1 ++ acquire 1 2 ++ acquire 1 1)
  let before (n : Nat) : System := (as.take n).foldl systemNext System.init
  have hout : ∀ n p, (n, p) ∈ [(3, 1), (6, 2), (9, 1), (9, 2)] → (before n).Outside p := by
    intro n p hnp i
    simp only [List.mem_cons, Prod.mk.injEq, List.not_mem_nil, or_false] at hnp
    rcases hnp with ⟨rfl, rfl⟩ | ⟨rfl, rfl⟩ | ⟨rfl, rfl⟩ | ⟨rfl, rfl⟩ <;> revert i <;> decide
  have hfree : ∀ n i, (n, i) ∈ [(3, (0 : Fin NOSPRD)), (6, 1)] → ∀ q,
      ¬ HeldBy (before n i).dev .write q := by
    intro n i hni q hq
    have hdev : (before n i).dev.writer = -1 ∧ (before n i).dev.readers = [] := by
      simp only [List.mem_cons, Prod.mk.injEq, List.not_mem_nil, or_false] at hni
      rcases hni with ⟨rfl, rfl⟩ | ⟨rfl, rfl⟩
      · exact ⟨rfl, rfl⟩
      · exact ⟨rfl, rfl⟩
    unfold HeldBy at hq
    rw [hdev.1, hdev.2] at hq
    rcases hq with hq | ⟨_, hq⟩
    · omega
    · cases hq
  have hsecond : ∀ q, HeldBy (before 9 1).dev .write q → q = 2 := by
    rintro q (hq | ⟨_, hq⟩)
    · have hwriter : ((2 : Pid) : Int) = (q : Int) := hq
      exact (Int.ofNat.inj hwriter).symm
    · cases hq
  have hclose3 : ClosesNoCycle (before 3) (0, .request .acquire 1 1) :=
    closesNoCycle_of_outside (fun _ => rfl) fun q hq => absurd hq (hfree 3 0 (by simp) q)
  have hclose6 : ClosesNoCycle (before 6) (1, .request .acquire 2 2) :=
    closesNoCycle_of_outside (fun _ => rfl) fun q hq => absurd hq (hfree 6 1 (by simp) q)
  have hclose9 : ClosesNoCycle (before 9) (1, .request .acquire 1 1) := by
    apply closesNoCycle_of_outside fun _ => rfl
    intro q hq
    rw [hsecond q hq]
    exact ⟨by decide, hout 9 2 (by simp)⟩
  have hall : AllEnabled (fun σ b => (BeginsOutside σ b ∧ Enabled (σ b.1) b.2) ∧
      ClosesNoCycle σ b) systemNext System.init as :=
    ⟨⟨⟨trivial, rfl, fun _ _ _ _ h => by cases h⟩, trivial⟩,
      ⟨⟨trivial, rfl, fun _ _ _ _ h => by cases h⟩, trivial⟩,
      ⟨⟨trivial, rfl, fun _ _ _ _ h => by cases h⟩, trivial⟩,
      ⟨⟨hout 3 1 (by simp), rfl, rfl⟩, hclose3⟩, ⟨⟨trivial, rfl⟩, trivial⟩,
      ⟨⟨trivial, rfl⟩, trivial⟩, ⟨⟨hout 6 2 (by simp), rfl, rfl⟩, hclose6⟩,
      ⟨⟨trivial, rfl⟩, trivial⟩, ⟨⟨trivial, rfl⟩, trivial⟩,
      ⟨⟨hout 9 1 (by simp), rfl, rfl⟩, hclose9⟩, ⟨⟨trivial, rfl⟩, trivial⟩,
      ⟨⟨trivial, rfl⟩, trivial⟩, trivial⟩
  have hrun := systemRun_of_allEnabled hall
  exact ⟨as, _, hrun, ⟨1, .write, ⟨1, 1, false, rfl⟩, .inl rfl⟩, no_deadlock hrun⟩

/-- Two processes hold one device each and ask for the other one. -/
theorem two_processes_wait :
    ¬ ∀ (owner : Fin NOSPRD → FileId → Pid) (as : List (Fin NOSPRD × Action)) (σ : System),
      Run (fun σ b τ => SystemStep σ b τ ∧ SeparateFiles owner b) System.init as σ →
        Acyclic (WaitsOn σ) := by
  intro hnever
  let acquire (i : Fin NOSPRD) (p : Pid) : List (Fin NOSPRD × Action) :=
    [(i, .request .acquire p p), (i, .runSection p), (i, .runSection p)]
  let as : List (Fin NOSPRD × Action) := [(0, .openFile 1 false true), (0, .openFile 2 false true),
    (1, .openFile 1 false true), (1, .openFile 2 false true)] ++
    (acquire 0 1 ++ acquire 1 2 ++ acquire 1 1 ++ acquire 0 2)
  have hout : ∀ n p, (n, p) ∈ [(4, 1), (7, 2), (10, 1), (13, 2)] →
      ((as.take n).foldl systemNext System.init).Outside p := by
    intro n p hnp i
    simp only [List.mem_cons, Prod.mk.injEq, List.not_mem_nil, or_false] at hnp
    rcases hnp with ⟨rfl, rfl⟩ | ⟨rfl, rfl⟩ | ⟨rfl, rfl⟩ | ⟨rfl, rfl⟩ <;> revert i <;> decide
  have hall : AllEnabled (fun σ b => (BeginsOutside σ b ∧ Enabled (σ b.1) b.2) ∧
      SeparateFiles (fun _ f => f) b) systemNext System.init as :=
    ⟨⟨⟨trivial, rfl, fun _ _ _ _ h => by cases h⟩, trivial⟩,
      ⟨⟨trivial, rfl, fun _ _ _ _ h => by cases h⟩, trivial⟩,
      ⟨⟨trivial, rfl, fun _ _ _ _ h => by cases h⟩, trivial⟩,
      ⟨⟨trivial, rfl, fun _ _ _ _ h => by cases h⟩, trivial⟩,
      ⟨⟨hout 4 1 (by simp), rfl, rfl⟩, rfl⟩, ⟨⟨trivial, rfl⟩, trivial⟩, ⟨⟨trivial, rfl⟩, trivial⟩,
      ⟨⟨hout 7 2 (by simp), rfl, rfl⟩, rfl⟩, ⟨⟨trivial, rfl⟩, trivial⟩, ⟨⟨trivial, rfl⟩, trivial⟩,
      ⟨⟨hout 10 1 (by simp), rfl, rfl⟩, rfl⟩, ⟨⟨trivial, rfl⟩, trivial⟩, ⟨⟨trivial, rfl⟩, trivial⟩,
      ⟨⟨hout 13 2 (by simp), rfl, rfl⟩, rfl⟩, ⟨⟨trivial, rfl⟩, trivial⟩, ⟨⟨trivial, rfl⟩, trivial⟩,
      trivial⟩
  have hacyclic := hnever _ as _ (systemRun_of_allEnabled hall)
  have h12 : WaitsOn (as.foldl systemNext System.init) 1 2 :=
    ⟨1, .write, ⟨1, 1, false, rfl⟩, .inl rfl⟩
  have h21 : WaitsOn (as.foldl systemNext System.init) 2 1 :=
    ⟨0, .write, ⟨2, 1, false, rfl⟩, .inl rfl⟩
  exact hacyclic 1 (.tail (.single h12) h21)

end Runs

end CS111.Ramdisk
