import CS111.Lib.Memory
import Mathlib.Logic.Function.Basic

/-!
# Arrays that double

An array lies at the beginning of a block, and a full block is exchanged for one of twice its size: its
cells come along, and what the others hold is not known.
-/

namespace CS111

set_option autoImplicit false

universe u
variable {α : Type u}

structure Doubling (α : Type u) where
  cells : Nat → α
  count : Nat
  capacity : Nat

namespace Doubling

/-- A store into the cell behind the array; `none` when the block ends there. -/
def put (a : Doubling α) (c : α) : Option (Doubling α) :=
  if a.count < a.capacity then some { a with cells := Function.update a.cells a.count c } else none

/-- The cell behind the array becomes its last one. -/
def push (a : Doubling α) : Doubling α := { a with count := a.count + 1 }

/-- `fresh n` is what a new block of `n` cells holds. -/
def grow (fresh : Nat → Nat → α) (a : Doubling α) : Doubling α :=
  if a.count = a.capacity then
    { a with
      cells := fun i => if i < a.capacity then a.cells i else fresh (a.capacity * 2) i
      capacity := a.capacity * 2 }
  else a

/-- What the array holds. -/
def toList (a : Doubling α) : List α := Memory.load a.cells 0 a.count

/-- The array has its cells still, and perhaps more behind them. -/
structure Extends (a a' : Doubling α) : Prop where
  count : a.count ≤ a'.count
  cells : ∀ i, i < a.count → a'.cells i = a.cells i

variable {a a' a₁ : Doubling α} {c : α} {fresh : Nat → Nat → α}

theorem Extends.refl (a : Doubling α) : a.Extends a := ⟨Nat.le_refl _, fun _ _ => rfl⟩

theorem Extends.trans (h : a.Extends a₁) (h' : a₁.Extends a') : a.Extends a' where
  count := Nat.le_trans h.count h'.count
  cells := fun i hi => (h'.cells i (Nat.lt_of_lt_of_le hi h.count)).trans (h.cells i hi)

theorem put_eq (h : a.count < a.capacity) (c : α) :
    a.put c = some { a with cells := Function.update a.cells a.count c } := if_pos h

theorem put_extends (a : Doubling α) (c : α) :
    a.Extends { a with cells := Function.update a.cells a.count c } where
  count := Nat.le_refl _
  cells := fun _ hi => Function.update_of_ne (Nat.ne_of_lt hi) _ _

theorem push_extends (a : Doubling α) : a.Extends a.push := ⟨Nat.le_succ _, fun _ _ => rfl⟩

@[simp] theorem grow_count : (a.grow fresh).count = a.count := by
  unfold grow
  split <;> rfl

theorem grow_extends (h : a.count ≤ a.capacity) : a.Extends (a.grow fresh) := by
  refine ⟨Nat.le_of_eq grow_count.symm, fun i hi => ?_⟩
  unfold grow
  split
  · exact if_pos (Nat.lt_of_lt_of_le hi h)
  · rfl

/-- There is room in a block that is not empty. -/
theorem grow_room (h : a.count ≤ a.capacity) (hpos : 0 < a.capacity) :
    (a.grow fresh).count < (a.grow fresh).capacity := by
  rw [grow_count]
  unfold grow
  split
  · simp only
    omega
  · omega

theorem grow_capacity : (a.grow fresh).capacity =
    if a.count = a.capacity then a.capacity * 2 else a.capacity := by
  unfold grow
  split <;> rfl

@[simp] theorem toList_length (a : Doubling α) : a.toList.length = a.count := Memory.load_length ..

theorem grow_toList (h : a.count ≤ a.capacity) : (a.grow fresh).toList = a.toList := by
  unfold toList
  rw [grow_count]
  apply Memory.load_congr
  intro k hk
  rw [Nat.zero_add]
  exact (grow_extends h).cells k hk

theorem put_push_toList (a : Doubling α) (c : α) :
    ({ a with cells := Function.update a.cells a.count c } : Doubling α).push.toList =
      a.toList ++ [c] := by
  unfold toList push
  simp only [Memory.load_succ, Nat.zero_add, Function.update_self]
  congr 1
  apply Memory.load_congr
  intro k hk
  rw [Nat.zero_add]
  exact Function.update_of_ne (Nat.ne_of_lt hk) _ _

/-- A store behind the array, and the exchange of the block. -/
theorem put_push_grow (fresh : Nat → Nat → α) (h : a.count < a.capacity) (c : α) :
    let a' := ({ a with cells := Function.update a.cells a.count c } : Doubling α).push.grow fresh
    a'.toList = a.toList ++ [c] ∧
      a'.capacity = if a.count + 1 = a.capacity then a.capacity * 2 else a.capacity :=
  ⟨(grow_toList (Nat.succ_le_of_lt h)).trans (put_push_toList a c), grow_capacity⟩

theorem toList_succ (h : 0 < a.count) :
    a.toList = Memory.load a.cells 0 (a.count - 1) ++ [a.cells (a.count - 1)] := by
  obtain ⟨n, hn⟩ := Nat.exists_eq_add_of_lt h
  unfold toList
  rw [hn, Nat.zero_add, Memory.load_succ, Nat.zero_add]
  rfl

end Doubling

end CS111
