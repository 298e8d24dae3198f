import CS111.Lib.Exclusion

/-!
# The SchedOS applications

`start` of `schedos-1.c`, which all the applications share, in the steps that the others can see.
`cursorpos` is an offset from the upper left corner of the console.

`cursorpos` is volatile, and the exchanges and interrupts are `asm volatile`, so these stand in the
order of the text. The character itself is stored through an ordinary pointer, and only the interrupt
of `sys_yield` clobbers memory: the store may come anywhere in between.
-/

namespace CS111.Schedos

set_option autoImplicit false

universe u

/-- `RUNCOUNT`. -/
def runCount : Nat := 320

/-- Where an application is in `start`. -/
inductive Point where
  | test
  | acquire
  | load
  | advance (pos : Nat)
  | release
  | write
  | yield
  | leave
  | exited
  deriving Repr, DecidableEq

/-- `pending` is the position to which the character has still to be stored. -/
structure App where
  i : Nat
  point : Point
  pending : Option Nat
  deriving Repr, DecidableEq

structure Machine (ι : Type u) where
  lock : UInt32
  cursorpos : Nat
  screen : Nat → UInt16
  app : ι → App

/-- The instruction at the point where the application is, or the store of its character. -/
inductive Instr where
  | next
  | store
  deriving Repr, DecidableEq

/-- The two system calls that hand the processor over. -/
inductive Trap where
  | yield
  | exit
  deriving Repr, DecidableEq

namespace Machine
variable {ι : Type u} [DecidableEq ι]

def setApp (m : Machine ι) (p : ι) (a : App) : Machine ι :=
  { m with app := fun q => if q = p then a else m.app q }

def goto (m : Machine ι) (p : ι) (point : Point) : Machine ι :=
  m.setApp p { m.app p with point := point }

end Machine

section Steps
variable {ι : Type u} [DecidableEq ι] (lockedWrite : Bool) (printChar : ι → UInt16)

/-- Without `LOCKED_WRITE` the kernel writes the character, and goes on with the same process. -/
def execNext (p : ι) (m : Machine ι) : Option (Machine ι) :=
  match (m.app p).point with
  | .test =>
    if (m.app p).i < runCount then some (m.goto p (if lockedWrite then .acquire else .write))
    else some (m.goto p .leave)
  | .acquire =>
    -- `atomic_swap(&lock, 1)`
    some ({ m with lock := 1 }.goto p (if m.lock = 0 then .load else .acquire))
  | .load =>
    some (m.setApp p
      { m.app p with point := .advance m.cursorpos, pending := some m.cursorpos })
  | .advance pos => some ({ m with cursorpos := pos + 1 }.goto p .release)
  | .release => some ({ m with lock := 0 }.goto p .yield)
  | .write =>
    some ({ m with screen := Function.update m.screen m.cursorpos (printChar p),
                   cursorpos := m.cursorpos + 1 }.goto p .yield)
  | .yield | .leave | .exited => none

def execStore (p : ι) (m : Machine ι) : Option (Machine ι) :=
  match (m.app p).pending with
  | none => none
  | some pos =>
    some ({ m with screen := Function.update m.screen pos (printChar p) }.setApp p
      { m.app p with pending := none })

def exec (p : ι) (m : Machine ι) : Instr → Option (Machine ι)
  | .next => execNext lockedWrite printChar p m
  | .store => execStore printChar p m

/-- The call that the application makes, and the machine as it is to go on. -/
def trap (p : ι) (m : Machine ι) : Option (Trap × Machine ι) :=
  match (m.app p).point, (m.app p).pending with
  | .yield, none =>
    some (.yield, m.setApp p { m.app p with i := (m.app p).i + 1, point := .test })
  | .leave, none => some (.exit, m.goto p .exited)
  | _, _ => none

/-- What `p` does, case by case, and the call it makes if it makes one. -/
inductive AppStep (m : Machine ι) (p : ι) : Option Trap → Machine ι → Prop
  | test (hp : (m.app p).point = .test) (hi : (m.app p).i < runCount) :
      AppStep m p none (m.goto p (if lockedWrite then .acquire else .write))
  | done (hp : (m.app p).point = .test) (hi : ¬ (m.app p).i < runCount) :
      AppStep m p none (m.goto p .leave)
  | acquire (hp : (m.app p).point = .acquire) :
      AppStep m p none ({ m with lock := 1 }.goto p (if m.lock = 0 then .load else .acquire))
  | load (hp : (m.app p).point = .load) :
      AppStep m p none (m.setApp p ⟨(m.app p).i, .advance m.cursorpos, some m.cursorpos⟩)
  | advance {pos : Nat} (hp : (m.app p).point = .advance pos) :
      AppStep m p none ({ m with cursorpos := pos + 1 }.goto p .release)
  | release (hp : (m.app p).point = .release) :
      AppStep m p none ({ m with lock := 0 }.goto p .yield)
  | write (hp : (m.app p).point = .write) :
      AppStep m p none ({ m with screen := Function.update m.screen m.cursorpos (printChar p),
                                 cursorpos := m.cursorpos + 1 }.goto p .yield)
  | store {pos : Nat} (hp : (m.app p).pending = some pos) :
      AppStep m p none ({ m with screen := Function.update m.screen pos (printChar p) }.setApp p
        ⟨(m.app p).i, (m.app p).point, none⟩)
  | yield (hp : (m.app p).point = .yield) (hpending : (m.app p).pending = none) :
      AppStep m p (some .yield) (m.setApp p ⟨(m.app p).i + 1, .test, (m.app p).pending⟩)
  | leave (hp : (m.app p).point = .leave) (hpending : (m.app p).pending = none) :
      AppStep m p (some .exit) (m.goto p .exited)

variable {lockedWrite printChar} {m m' : Machine ι} {p : ι}

theorem AppStep.of_exec {instr : Instr} (h : exec lockedWrite printChar p m instr = some m') :
    AppStep lockedWrite printChar m p none m' := by
  cases instr with
  | store =>
    have h : execStore printChar p m = some m' := h
    unfold execStore at h
    split at h
    · cases h
    · next pos hp =>
      cases h
      exact .store hp
  | next =>
    have h : execNext lockedWrite printChar p m = some m' := h
    unfold execNext at h
    cases hp : (m.app p).point with
    | test =>
      simp only [hp] at h
      split at h
      · next hi =>
        cases h
        exact .test hp hi
      · next hi =>
        cases h
        exact .done hp hi
    | acquire =>
      simp only [hp] at h
      cases h
      exact .acquire hp
    | load =>
      simp only [hp] at h
      cases h
      exact .load hp
    | advance pos =>
      simp only [hp] at h
      cases h
      exact .advance hp
    | release =>
      simp only [hp] at h
      cases h
      exact .release hp
    | write =>
      simp only [hp] at h
      cases h
      exact .write hp
    | yield | leave | exited =>
      simp only [hp] at h
      cases h

theorem AppStep.of_trap {t : Trap} (h : trap p m = some (t, m')) :
    AppStep lockedWrite printChar m p (some t) m' := by
  unfold trap at h
  split at h
  · next hp hpending =>
    cases h
    exact .yield hp hpending
  · next hp hpending =>
    cases h
    exact .leave hp hpending
  · cases h

end Steps

/-- Nobody stores into `lock` before the applications run, and memory is zero. -/
def begin {ι : Type u} (blank : Nat → UInt16) : Machine ι where
  lock := 0
  cursorpos := 0
  screen := blank
  app _ := { i := 0, point := .test, pending := none }

end CS111.Schedos
