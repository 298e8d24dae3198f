import CS111.Lib.ForwardCopy
import CS111.Mpos.Kernel

/-!
# The stack of a forked process

`do_fork` with all registers and with the memory. `copy_stack` is to copy the part of the stack between
its bottom and its top, but gives `memcpy` the two tops: it copies what lies above them.
-/

namespace CS111.Mpos

set_option autoImplicit false

/-- `registers_t` without its padding. -/
structure SavedRegisters extends Registers where
  edi : UInt32
  esi : UInt32
  ebp : UInt32
  originalEsp : UInt32
  ebx : UInt32
  edx : UInt32
  ecx : UInt32
  es : UInt16
  ds : UInt16
  intno : UInt32
  err : UInt32
  cs : UInt16
  eflags : UInt32
  ss : UInt16
  deriving Repr, DecidableEq

structure Descriptor where
  registers : SavedRegisters
  state : ProcState
  exitStatus : UInt32
  wait : Pid
  deriving Repr, DecidableEq

/-- The table of the processes lies in the memory of the kernel, apart from the stacks. -/
structure Machine where
  procArray : Pid → Descriptor
  current : Pid
  memory : UInt32 → UInt8

namespace Machine
variable (s : Machine) (p : Pid)

def esp : UInt32 := (s.procArray p).registers.esp

def modify (f : Descriptor → Descriptor) : Machine :=
  { s with procArray := fun q => if q = p then f (s.procArray q) else s.procArray q }

/-- The machine without its memory and the registers that no system call looks at. -/
def kernel : Kernel where
  procArray q :=
    let proc := s.procArray q
    ⟨proc.registers.toRegisters, proc.state, proc.exitStatus, proc.wait⟩
  current := s.current

end Machine

def memcpy (m : UInt32 → UInt8) (dst src n : UInt32) : UInt32 → UInt8 :=
  copyForward (· + 1) n.toNat m dst src

def copyStack (s : Machine) (dest src : Pid) : Machine :=
  let srcStackTop := stackTop src
  let srcStackBottom := s.esp src
  let destStackTop := stackTop dest
  let destStackBottom := destStackTop + (srcStackBottom - srcStackTop)
  let s :=
    { s with memory := memcpy s.memory destStackTop srcStackTop (srcStackTop - srcStackBottom) }
  s.modify dest fun proc => { proc with registers := { proc.registers with esp := destStackBottom } }

def Machine.doFork (s : Machine) (parent : Pid) : Machine × UInt32 :=
  match firstEmpty s.kernel with
  | none => (s, minusOne)
  | some child =>
    let s := s.modify child fun proc =>
      { proc with
        state := .runnable
        registers := (s.procArray parent).registers
        exitStatus := 0 }
    let s := copyStack s child parent
    (s.modify child fun proc => { proc with registers := { proc.registers with eax := 0 } },
      pidWord child)

variable {s s' : Machine} {p c : Pid} {a : UInt32} {i : Nat}

/-! ## What is asked of a fork -/

/-- The addresses of the stack of a process. -/
def InStack (p : Pid) (a : UInt32) : Prop := stackTop p - 0x040000 ≤ a ∧ a < stackTop p

/-- The stack pointer of a process points into its stack; in an empty stack it is the top. -/
def Machine.EspInStack (s : Machine) (p : Pid) : Prop :=
  stackTop p - 0x040000 ≤ s.esp p ∧ s.esp p ≤ stackTop p

/-- How many bytes a process has on its stack. -/
def Machine.depth (s : Machine) (p : Pid) : UInt32 := stackTop p - s.esp p

structure CopiesStack (s s' : Machine) (p c : Pid) : Prop where
  depth : s'.depth c = s.depth p
  bytes : ∀ i, i < s.depth p → s'.memory (s'.esp c + i) = s.memory (s.esp p + i)
  registers : (s'.procArray c).registers =
    { (s.procArray p).registers with eax := 0, esp := s'.esp c }
  frame : ∀ a, ¬ InStack c a → s'.memory a = s.memory a

/-- The two stacks agree already, and so do the bytes above them, as many as the parent has on its
stack. -/
def StacksAgree (s : Machine) (p c : Pid) : Prop :=
  ∀ i, i < s.depth p →
    s.memory (stackTop c + i) = s.memory (stackTop p + i) ∧
      s.memory (stackTop c - s.depth p + i) = s.memory (stackTop p - s.depth p + i)

/-! ## The addresses -/

theorem stackTop_toNat (p : Pid) : (stackTop p).toNat = 0x280000 + p.val * 0x040000 := by
  have hp := p.isLt
  unfold stackTop pidWord
  simp only [UInt32.toNat_add, UInt32.toNat_mul, UInt32.toNat_ofNat, UInt32.toNat_ofNat']
  omega

theorem next_iterate (a : UInt32) (i : Nat) : (· + 1)^[i] a = a + UInt32.ofNat i := by
  induction i with
  | zero => exact (UInt32.add_zero a).symm
  | succ i ih =>
    rw [Function.iterate_succ_apply', ih, UInt32.ofNat_add, UInt32.add_assoc]
    rfl

theorem above_toNat (p : Pid) (hi : i < 0x040000) :
    (stackTop p + UInt32.ofNat i).toNat = 0x280000 + p.val * 0x040000 + i := by
  have hp := p.isLt
  simp only [UInt32.toNat_add, stackTop_toNat, UInt32.toNat_ofNat']
  omega

theorem Machine.EspInStack.toNat (h : s.EspInStack p) :
    0x240000 + p.val * 0x040000 ≤ (s.esp p).toNat ∧
      (s.esp p).toNat ≤ 0x280000 + p.val * 0x040000 := by
  have hlow := UInt32.le_iff_toNat_le.mp h.1
  have hhigh := UInt32.le_iff_toNat_le.mp h.2
  have hp := p.isLt
  simp only [UInt32.toNat_sub, UInt32.toNat_ofNat, stackTop_toNat] at hlow hhigh
  omega

theorem Machine.EspInStack.depth_toNat (h : s.EspInStack p) :
    (s.depth p).toNat + (s.esp p).toNat = 0x280000 + p.val * 0x040000 ∧
      (s.depth p).toNat ≤ 0x040000 := by
  have hesp := h.toNat
  have hp := p.isLt
  unfold Machine.depth
  simp only [UInt32.toNat_sub, stackTop_toNat]
  omega

/-! ## The copy -/

theorem memcpy_outside {m : UInt32 → UInt8} {dst src n : UInt32}
    (h : ∀ i, i < n.toNat → a ≠ dst + UInt32.ofNat i) : memcpy m dst src n a = m a :=
  copyForward_outside fun i hi => by
    rw [next_iterate]
    exact h i hi

/-- Between two stack tops not more than a whole stack is copied, so nothing is read that was stored
before. -/
theorem tops_readFirst (p c : Pid) {n : Nat} (hn : n ≤ 0x040000) :
    ReadsFirst (· + 1) n (stackTop c) (stackTop p) := by
  intro i j hij hj heq
  have hnat := congrArg UInt32.toNat heq
  rw [next_iterate, next_iterate, above_toNat c (by omega), above_toNat p (by omega)] at hnat
  omega

theorem memcpy_tops {m : UInt32 → UInt8} {n : UInt32} (hn : n.toNat ≤ 0x040000) (hi : i < n.toNat) :
    memcpy m (stackTop c) (stackTop p) n (stackTop c + UInt32.ofNat i) =
      m (stackTop p + UInt32.ofNat i) := by
  rw [← next_iterate, ← next_iterate]
  exact copyForward_inside (tops_readFirst p c hn) (tops_readFirst c c hn) hi

/-! ## The fork -/

section Fork
variable (hfree : firstEmpty s.kernel = some c)
include hfree

theorem doFork_memory :
    (s.doFork p).1.memory = memcpy s.memory (stackTop c) (stackTop p) (s.depth p) := by
  unfold Machine.doFork
  rw [hfree]
  by_cases hpc : p = c
  all_goals simp [copyStack, Machine.modify, Machine.esp, Machine.depth, hpc]

theorem doFork_registers :
    ((s.doFork p).1.procArray c).registers =
      { (s.procArray p).registers with eax := 0, esp := stackTop c + (s.esp p - stackTop p) } := by
  unfold Machine.doFork
  rw [hfree]
  by_cases hpc : p = c
  all_goals simp [copyStack, Machine.modify, Machine.esp, hpc]

theorem doFork_esp : (s.doFork p).1.esp c = stackTop c - s.depth p := by
  have hesp := congrArg (fun reg => reg.esp) (doFork_registers (p := p) hfree)
  refine hesp.trans ?_
  unfold Machine.depth
  grind

theorem doFork_depth : (s.doFork p).1.depth c = s.depth p := by
  rw [Machine.depth, doFork_esp hfree]
  grind

theorem doFork_elsewhere (h : ∀ i, i < (s.depth p).toNat → a ≠ stackTop c + UInt32.ofNat i) :
    (s.doFork p).1.memory a = s.memory a := by
  rw [doFork_memory hfree]
  exact memcpy_outside h

end Fork

/-- On the table of the processes the fork does what `doFork` says. -/
theorem doFork_kernel (s : Machine) (p : Pid) :
    ((s.doFork p).1.kernel, (s.doFork p).2) = doFork s.kernel p := by
  unfold Machine.doFork doFork
  cases hfree : firstEmpty s.kernel with
  | none => rfl
  | some c =>
    refine Prod.ext (congrArg (Kernel.mk · s.current) (funext fun q => ?_)) rfl
    by_cases hqc : q = c
    · by_cases hpc : p = c
      all_goals simp [copyStack, Machine.modify, Machine.esp, Machine.kernel, hqc, hpc]
    · simp [copyStack, Machine.modify, Machine.kernel, hqc]

theorem above_not_inStack (c : Pid) (hesp : s.EspInStack p) (hi : i < (s.depth p).toNat) :
    ¬ InStack c (stackTop c + UInt32.ofNat i) := by
  have hdepth := hesp.depth_toNat.2
  intro h
  have hlt := UInt32.lt_iff_toNat_lt.mp h.2
  rw [above_toNat c (by omega), stackTop_toNat] at hlt
  omega

section Agreement
variable (hfree : firstEmpty s.kernel = some c) (hesp : s.EspInStack p)
include hfree hesp

/-- A byte above the child's stack gets the one above the parent's. -/
theorem doFork_above (hi : i < (s.depth p).toNat) :
    (s.doFork p).1.memory (stackTop c + UInt32.ofNat i) = s.memory (stackTop p + UInt32.ofNat i) := by
  rw [doFork_memory hfree]
  exact memcpy_tops hesp.depth_toNat.2 hi

/-- The stack of the child itself keeps its bytes. -/
theorem doFork_below {i : UInt32} (hi : i < s.depth p) :
    (s.doFork p).1.memory (stackTop c - s.depth p + i) = s.memory (stackTop c - s.depth p + i) := by
  refine doFork_elsewhere hfree fun j hj heq => ?_
  have hnat := congrArg UInt32.toNat heq
  have hdepth := hesp.depth_toNat.2
  have hlt := UInt32.lt_iff_toNat_lt.mp hi
  have hc := c.isLt
  rw [above_toNat c (by omega)] at hnat
  simp only [UInt32.toNat_add, UInt32.toNat_sub, stackTop_toNat] at hnat
  omega

theorem StacksAgree.memory (h : StacksAgree s p c) : (s.doFork p).1.memory = s.memory := by
  funext a
  by_cases habove : ∃ i, i < (s.depth p).toNat ∧ a = stackTop c + UInt32.ofNat i
  · obtain ⟨i, hi, rfl⟩ := habove
    have hword : UInt32.ofNat i < s.depth p := by
      have hsize := (s.depth p).toNat_lt
      rw [UInt32.lt_iff_toNat_lt, UInt32.toNat_ofNat']
      omega
    rw [doFork_above hfree hesp hi]
    exact (h _ hword).1.symm
  · exact doFork_elsewhere hfree fun i hi heq => habove ⟨i, hi, heq⟩

end Agreement

/-- A fork copies the stack exactly when nothing is left to copy. -/
theorem fork_copies_stack_iff (s : Machine) (p c : Pid) (hfree : firstEmpty s.kernel = some c)
    (hesp : s.EspInStack p) : CopiesStack s (s.doFork p).1 p c ↔ StacksAgree s p c := by
  have hparent : stackTop p - s.depth p = s.esp p := by
    unfold Machine.depth
    grind
  constructor
  · intro h i hi
    constructor
    · have hword : UInt32.ofNat i.toNat = i := UInt32.ofNat_toNat
      have hlt := UInt32.lt_iff_toNat_lt.mp hi
      have hcopied := doFork_above hfree hesp hlt
      have hkept := h.frame _ (above_not_inStack c hesp hlt)
      rw [hword] at hcopied hkept
      exact hkept.symm.trans hcopied
    · have hbytes := h.bytes i hi
      rw [doFork_esp hfree, doFork_below hfree hesp hi, ← hparent] at hbytes
      exact hbytes
  · intro h
    have hmemory := h.memory hfree hesp
    refine ⟨doFork_depth hfree, fun i hi => ?_, ?_, fun a _ => congrFun hmemory a⟩
    · rw [hmemory, doFork_esp hfree, ← hparent]
      exact (h i hi).2
    · have hregisters := doFork_registers (p := p) hfree
      have hchild : (s.doFork p).1.esp c = stackTop c + (s.esp p - stackTop p) :=
        congrArg (fun reg => reg.esp) hregisters
      rw [hchild]
      exact hregisters

/-- The first process has four bytes on its stack and the other slots are free. -/
def firstFork (memory : UInt32 → UInt8) : Machine where
  procArray q :=
    { registers := ⟨⟨0, 0x200000, 0x2BFFFC⟩, 0, 0, 0, 0, 0, 0, 0, 0, 0, 0, 0, 0, 0, 0⟩
      state := if q = 1 then .runnable else .empty
      exitStatus := 0
      wait := 0 }
  current := 1
  memory := memory

theorem firstFork_free (memory : UInt32 → UInt8) :
    firstEmpty (firstFork memory).kernel = some 2 := by
  rfl

theorem firstFork_esp (memory : UInt32 → UInt8) : (firstFork memory).EspInStack 1 := by
  have hesp : (firstFork memory).esp 1 = 0x2BFFFC := rfl
  unfold Machine.EspInStack
  rw [hesp]
  decide

/-- The four bytes of the stack differ, and the memory around the other stack has the same ones: every byte
is the last one of its address. -/
theorem fork_copies_numbered :
    CopiesStack (firstFork UInt32.toUInt8) ((firstFork UInt32.toUInt8).doFork 1).1 1 2 := by
  have hlast : ∀ a : UInt32, (stackTop 2 + a).toUInt8 = (stackTop 1 + a).toUInt8 := by
    intro a
    rw [UInt32.toUInt8_add, UInt32.toUInt8_add]
    rfl
  refine (fork_copies_stack_iff _ 1 2 (firstFork_free _) (firstFork_esp _)).mpr fun i _ => ⟨hlast i, ?_⟩
  rw [UInt32.sub_eq_add_neg, UInt32.sub_eq_add_neg, UInt32.add_assoc, UInt32.add_assoc]
  exact hlast _

/-- A stack with a single byte that is not zero. -/
def oneByte (a : UInt32) : UInt8 := if a = 0x2BFFFC then 1 else 0

/-- The byte is missing on the stack of the child. -/
theorem fork_loses_byte :
    ¬ CopiesStack (firstFork oneByte) ((firstFork oneByte).doFork 1).1 1 2 := by
  intro h
  have hdepth : (firstFork oneByte).depth 1 = 4 := by rfl
  have hinside : (0 : UInt32) < (firstFork oneByte).depth 1 := by
    rw [hdepth]
    decide
  have hbytes := h.bytes 0 hinside
  rw [doFork_esp (firstFork_free _), doFork_below (firstFork_free _) (firstFork_esp _) hinside,
    hdepth] at hbytes
  exact absurd hbytes (by decide)

end CS111.Mpos
