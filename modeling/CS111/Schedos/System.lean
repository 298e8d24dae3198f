import Mathlib.Data.List.Count
import CS111.Schedos.Dispatch
import CS111.Schedos.Printing

/-!
# SchedOS with its applications

The kernel runs one application at a time. The clock may interrupt it before any instruction, and the
application gives the processor up with `sys_yield` and `sys_exit`. There is no interrupt while the
kernel is at work.
-/

namespace CS111.Schedos

set_option autoImplicit false

/-- `PRINTCHAR`. The entry of process 0 is not used. -/
def printChar : Pid → UInt16
  | 0 => 0
  | 1 => 0x31 ||| 0x0C00
  | 2 => 0x32 ||| 0x0A00
  | 3 => 0x33 ||| 0x0900
  | 4 => 0x34 ||| 0x0E00

/-- There is no kernel state when `schedule` goes on for ever. -/
structure System where
  kernel : Option Kernel
  machine : Machine Pid

inductive Action where
  | exec (instr : Instr)
  | trap
  | clock
  deriving Repr, DecidableEq

def Trap.event : Trap → Event
  | .yield => .yield
  | .exit => .exit 0

/-- How the kernel leaves an interrupt, if it does. -/
inductive Leaves (k : Kernel) (e : Event) : Option Kernel → Prop
  | runs {k' : Kernel} (h : Step k e k') : Leaves k e (some k')
  | spins (h : ∀ fuel, interrupt fuel k e = none) : Leaves k e none

inductive SystemStep (lockedWrite : Bool) : System → Action → System → Prop
  | exec {k : Kernel} {m m' : Machine Pid} {instr : Instr}
      (h : exec lockedWrite printChar k.current m instr = some m') :
      SystemStep lockedWrite ⟨some k, m⟩ (.exec instr) ⟨some k, m'⟩
  | trap {k : Kernel} {m m' : Machine Pid} {t : Trap} {left : Option Kernel}
      (h : trap k.current m = some (t, m')) (hleft : Leaves k t.event left) :
      SystemStep lockedWrite ⟨some k, m⟩ .trap ⟨left, m'⟩
  | clock {k : Kernel} {m : Machine Pid} {left : Option Kernel} (hleft : Leaves k .clock left) :
      SystemStep lockedWrite ⟨some k, m⟩ .clock ⟨left, m⟩

/-- The system when process 1 runs for the first time. -/
def boot (alg : Int) (blank : Nat → UInt16) : System := ⟨some (start alg), begin blank⟩

/-- The steps by evaluation, as far as the kernel comes back. -/
def System.next (lockedWrite : Bool) (fuel : Nat) (s : System) (a : Action) : Option System :=
  match s.kernel, a with
  | none, _ => none
  | some k, .exec instr =>
    (exec lockedWrite printChar k.current s.machine instr).map fun m => ⟨some k, m⟩
  | some k, .trap =>
    (trap k.current s.machine).bind fun call =>
      (interrupt fuel k call.1.event).map fun k' => ⟨some k', call.2⟩
  | some k, .clock => (interrupt fuel k .clock).map fun k' => ⟨some k', s.machine⟩

theorem SystemStep.of_next {lockedWrite : Bool} {fuel : Nat} {s s' : System} {a : Action}
    (h : s.next lockedWrite fuel a = some s') : SystemStep lockedWrite s a s' := by
  obtain ⟨kernel, m⟩ := s
  cases kernel with
  | none => cases h
  | some k =>
    cases a with
    | exec instr =>
      obtain ⟨m', hexec, rfl⟩ := Option.map_eq_some_iff.mp h
      exact .exec hexec
    | trap =>
      obtain ⟨⟨t, m'⟩, hcall, h⟩ := Option.bind_eq_some_iff.mp h
      obtain ⟨k', hk', rfl⟩ := Option.map_eq_some_iff.mp h
      exact .trap hcall (.runs ⟨fuel, hk'⟩)
    | clock =>
      obtain ⟨k', hk', rfl⟩ := Option.map_eq_some_iff.mp h
      exact .clock (.runs ⟨fuel, hk'⟩)

section Safety
variable {lockedWrite : Bool} {blank : Nat → UInt16} {alg : Int} {s s' : System} {a : Action}
  {actions later : List Action} {owners : List Pid} {p q : Pid}

/-- A step of the system is a step of at most one application. -/
theorem SystemStep.machine (h : SystemStep lockedWrite s a s') :
    s'.machine = s.machine ∨ ∃ p t, AppStep lockedWrite printChar s.machine p t s'.machine := by
  cases h with
  | exec h => exact .inr ⟨_, _, .of_exec h⟩
  | trap h _ => exact .inr ⟨_, _, .of_trap h⟩
  | clock _ => exact .inl rfl

theorem Printing.systemStep (h : Printing lockedWrite printChar blank s.machine owners)
    (hstep : SystemStep lockedWrite s a s') :
    ∃ owners', owners <+: owners' ∧ Printing lockedWrite printChar blank s'.machine owners' := by
  rcases hstep.machine with hsame | ⟨p, t, happ⟩
  · exact ⟨owners, List.prefix_rfl, hsame ▸ h⟩
  · obtain ⟨more, -, h'⟩ := h.step happ
    exact ⟨owners ++ more, List.prefix_append owners more, h'⟩

theorem Printing.systemRun (h : Printing lockedWrite printChar blank s.machine owners)
    (hrun : Run (SystemStep lockedWrite) s actions s') :
    ∃ owners', owners <+: owners' ∧ Printing lockedWrite printChar blank s'.machine owners' := by
  induction hrun with
  | start => exact ⟨owners, List.prefix_rfl, h⟩
  | snoc _ hstep ih =>
    obtain ⟨owners₁, hprefix, h₁⟩ := ih
    obtain ⟨owners₂, hprefix', h₂⟩ := h₁.systemStep hstep
    exact ⟨owners₂, hprefix.trans hprefix', h₂⟩

/-- Under every scheduling algorithm at most one application is between its two exchanges, and the
lock is taken exactly then. -/
theorem one_inside (alg : Int) (lockedWrite : Bool) (blank : Nat → UInt16) (actions : List Action)
    (s : System) (h : Run (SystemStep lockedWrite) (boot alg blank) actions s) :
    (s.machine.lock ≠ 0 ↔ ∃ p, (s.machine.app p).point.inside) ∧
      ∀ p q, (s.machine.app p).point.inside → (s.machine.app q).point.inside → p = q := by
  obtain ⟨owners, -, hprinting⟩ := begin_printing.systemRun h
  exact ⟨hprinting.exclusive.held_iff, fun p q => hprinting.exclusive.unique⟩

/-- Process 1 has taken the lock when the clock interrupts it, and process 2 finds it taken. -/
theorem one_inside_contended : ∃ s : System,
    (∃ actions, Run (SystemStep true) (boot 0 fun _ => 0) actions s) ∧
      (s.machine.app 2).point = .acquire ∧ ∀ q, (s.machine.app q).point.inside → 1 = q := by
  obtain ⟨s, hrun, hs⟩ := Run.of_guarded (System.next true 5) (fun _ _ => True)
    (fun s => (s.machine.app 1).point = .load ∧ (s.machine.app 2).point = .acquire)
    (boot 0 fun _ => 0) [.exec .next, .exec .next, .clock, .exec .next, .exec .next]
    (by decide +kernel)
  have hrun : Run (SystemStep true) (boot 0 fun _ => 0) _ s :=
    hrun.mono fun hstep => .of_next hstep.1
  refine ⟨s, ⟨_, hrun⟩, hs.2, fun q => (one_inside 0 true _ _ s hrun).2 1 q ?_⟩
  rw [hs.1]
  trivial

/-- What the console shows of the cells that are reserved. -/
theorem Printing.shown {m : Machine Pid} (h : Printing lockedWrite printChar blank m owners)
    (hstored : ∀ p, (m.app p).pending = none) :
    (List.range m.cursorpos).map m.screen = owners.map printChar := by
  refine List.ext_getElem (by simp [h.cursor]) fun k hk hk' => ?_
  have hk : k < owners.length := by simpa using hk'
  rw [List.getElem_map, List.getElem_map, List.getElem_range]
  refine h.cells k _ (List.getElem?_eq_getElem hk) ?_
  rw [hstored]
  exact nofun

theorem printChar_injective : Function.Injective printChar := by
  intro p q h
  revert p q
  decide

/-- A cell below the cursor whose character has been stored does not change any more. -/
theorem cell_stays (h : Printing lockedWrite printChar blank s.machine owners) {k : Nat}
    (hk : k < s.machine.cursorpos) (hstored : ∀ p, (s.machine.app p).pending ≠ some k)
    (hrun : Run (SystemStep lockedWrite) s later s') :
    s'.machine.screen k = s.machine.screen k := by
  have hkeeps : ∃ owners', owners <+: owners' ∧
      Printing lockedWrite printChar blank s'.machine owners' ∧
      ∀ p, (s'.machine.app p).pending ≠ some k := by
    refine hrun.invariant (P := fun t => ∃ owners', owners <+: owners' ∧
      Printing lockedWrite printChar blank t.machine owners' ∧
      ∀ p, (t.machine.app p).pending ≠ some k) ?_ ⟨owners, List.prefix_rfl, h, hstored⟩
    rintro t a r ⟨owners₁, hprefix, h₁, hnone⟩ hstep
    obtain ⟨owners₂, hprefix', h₂⟩ := h₁.systemStep hstep
    refine ⟨owners₂, hprefix.trans hprefix', h₂, fun p hp => ?_⟩
    rcases hstep.machine with hsame | ⟨q, _, happ⟩
    · exact hnone p (hsame ▸ hp)
    · rcases happ.pending hp with hp | rfl
      · exact hnone p hp
      · have := hprefix.length_le
        rw [h₁.cursor, h.cursor] at hk
        omega
  obtain ⟨owners', ⟨tail, rfl⟩, h', hstored'⟩ := hkeeps
  rw [h.cursor] at hk
  have howner := List.getElem?_eq_getElem hk
  rw [h.cells k _ howner (hstored _)]
  refine h'.cells k _ ?_ (hstored' _)
  rw [List.getElem?_append_left hk, howner]

/-- When the lock is free and no store is outstanding, the console shows as many characters of each
application as it has printed, and nothing else; and they stay. -/
theorem console_shows (alg : Int) (lockedWrite : Bool) (blank : Nat → UInt16)
    (actions later : List Action) (s s' : System)
    (h : Run (SystemStep lockedWrite) (boot alg blank) actions s) (hfree : s.machine.lock = 0)
    (hstored : ∀ p, (s.machine.app p).pending = none)
    (hlater : Run (SystemStep lockedWrite) s later s') :
    (∀ p, ((List.range s.machine.cursorpos).map s.machine.screen).count (printChar p) =
      (s.machine.app p).printed) ∧
    (∀ k, s.machine.cursorpos ≤ k → s.machine.screen k = blank k) ∧
    ∀ k, k < s.machine.cursorpos → s'.machine.screen k = s.machine.screen k := by
  obtain ⟨owners, -, hprinting⟩ := begin_printing.systemRun h
  refine ⟨fun p => ?_, fun k hk => hprinting.rest k hk fun p hp => ?_, fun k hk => ?_⟩
  · rw [hprinting.shown hstored, List.count_map_of_injective _ _ printChar_injective,
      hprinting.counts p]
  · refine hprinting.exclusive.not_inside (fun hheld => hheld hfree) p ?_
    rw [hp]
    trivial
  · refine cell_stays hprinting hk (fun p => ?_) hlater
    rw [hstored]
    exact nofun

/-- Process 1 has printed its first character, and process 2 goes on. -/
theorem console_shows_first : ∃ s s' : System,
    (∃ actions, Run (SystemStep true) (boot 0 fun _ => 0) actions s) ∧ SystemStep true s .trap s' ∧
      s.machine.cursorpos = 1 ∧
      ((List.range s.machine.cursorpos).map s.machine.screen).count (printChar 1) = 1 ∧
      s'.machine.screen 0 = s.machine.screen 0 := by
  obtain ⟨s, hrun, hs⟩ := Run.of_guarded (System.next true 5) (fun _ _ => True)
    (fun s => (∀ p, (s.machine.app p).pending = none) ∧ s.machine.lock = 0 ∧
      s.machine.cursorpos = 1 ∧ (s.machine.app 1).printed = 1 ∧ (s.next true 5 .trap).isSome = true)
    (boot 0 fun _ => 0) [.exec .next, .exec .next, .exec .next, .exec .store, .exec .next, .exec .next]
    (by decide +kernel)
  have hrun : Run (SystemStep true) (boot 0 fun _ => 0) _ s :=
    hrun.mono fun hstep => .of_next hstep.1
  obtain ⟨hstored, hfree, hcursor, hprinted, hnext⟩ := hs
  obtain ⟨s', hs'⟩ := Option.isSome_iff_exists.mp hnext
  have hstep : SystemStep true s .trap s' := .of_next hs'
  have hshows := console_shows 0 true _ _ _ s s' hrun hfree hstored (.single hstep)
  refine ⟨s, s', ⟨_, hrun⟩, hstep, hcursor, ?_, hshows.2.2 0 (by omega)⟩
  rw [hshows.1 1, hprinted]

end Safety

end CS111.Schedos
