import CS111.Lib.Memory

/-!
# A buffer that grows

The first `len` cells are in use. `ensure` makes the buffer larger than a needed length; the cells of
the old buffer keep their contents and the others hold anything. `append` does not look at the capacity:
whether it stays inside is the caller's concern.
-/

namespace CS111

set_option autoImplicit false

open Memory

universe u
variable {α : Type u}

structure GrowBuffer (α : Type u) where
  mem : Nat → α
  capacity : Nat
  len : Nat

namespace GrowBuffer

def contents (b : GrowBuffer α) : List α := load b.mem 0 b.len

/-- `fresh n` is what a new block of `n` cells holds. -/
def ensure (slack : Nat) (fresh : Nat → Nat → α) (b : GrowBuffer α) (need : Nat) : GrowBuffer α :=
  if need ≥ b.capacity then
    { b with
      mem := fun i => if i < b.capacity then b.mem i else fresh (need + slack) i
      capacity := need + slack }
  else b

/-- Store the items behind the contents and something more behind them. -/
def append (b : GrowBuffer α) (items behind : List α) : GrowBuffer α :=
  { b with mem := store b.mem b.len (items ++ behind), len := b.len + items.length }

/-- What `append` stores stays inside the block. -/
def Fits (b : GrowBuffer α) (items behind : List α) : Prop :=
  b.len + (items ++ behind).length ≤ b.capacity

variable {b : GrowBuffer α} {slack need : Nat} {fresh : Nat → Nat → α} {items behind : List α}

theorem ensure_len : (b.ensure slack fresh need).len = b.len := by
  unfold ensure
  split <;> rfl

theorem ensure_capacity : (b.ensure slack fresh need).capacity =
    if need ≥ b.capacity then need + slack else b.capacity := by
  unfold ensure
  split <;> rfl

theorem ensure_contents (h : b.len ≤ b.capacity) :
    (b.ensure slack fresh need).contents = b.contents := by
  unfold contents
  rw [ensure_len]
  apply load_congr
  intro k hk
  unfold ensure
  split
  · exact if_pos (by omega)
  · rfl

theorem append_contents : (b.append items behind).contents = b.contents ++ items := by
  have hnew : load (store b.mem b.len (items ++ behind)) b.len items.length = items := by
    rw [← store_store, load_store_same]
  calc (b.append items behind).contents
      = load (store b.mem b.len (items ++ behind)) 0 (b.len + items.length) := rfl
    _ = load b.mem 0 b.len ++ items := by rw [load_store_behind, hnew]

end GrowBuffer

end CS111
