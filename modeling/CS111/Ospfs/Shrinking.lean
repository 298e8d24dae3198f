import Mathlib.Logic.Function.Iterate
import CS111.Ospfs.Dropping

/-!
# The shrinking loop

Each successful `remove_block` lowers the block count by one, also when the size wraps around, and so
the loop ends after as many calls as there are blocks to remove.
-/

namespace CS111.Ospfs

open Memory

set_option autoImplicit false

variable {m m' : Bytes} {oi n v last target newSize : Nat} {slots : List Slot}

section SetSize

theorem superblock_setSize (hp : Parts m oi) (v : Nat) : osNblocks (setSize m oi v) = osNblocks m ∧
    osNinodes (setSize m oi v) = osNinodes m ∧ osFirstinob (setSize m oi v) = osFirstinob m := by
  obtain ⟨hplace, _, _⟩ := hp.inode_place
  have hmap := hp.free_map
  refine ⟨?_, ?_, ?_⟩ <;> exact rd32_wr32_ne (.inr (by omega))

theorem dataStart_setSize (hp : Parts m oi) (v : Nat) : dataStart (setSize m oi v) = dataStart m ∧
    osNblocks (setSize m oi v) = osNblocks m :=
  ⟨dataStart_of_superblock (superblock_setSize hp v), (superblock_setSize hp v).1⟩

theorem Parts.setSize (hp : Parts m oi) (v : Nat) : Parts (setSize m oi v) oi :=
  hp.of_superblock (superblock_setSize hp v)

theorem Pointed.ptr_setSize (hp : Parts m oi) (hpt : Pointed m oi) (v : Nat) (s : Slot) :
    ptr (setSize m oi v) oi s = ptr m oi s := by
  obtain ⟨_, hplace, _⟩ := hp.inode_place
  have hsmall := hp.small
  revert s
  apply ptr_congr
  · intro s
    have hlt := Pointed.lt_nblocks hp hpt s
    omega
  · intro a h1 _
    exact wr32_outside (by omega)
  · intro s a _ h0 ha
    obtain ⟨hlo, _⟩ := hpt s h0
    exact wr32_outside (by omega)

theorem Pointed.setSize (hp : Parts m oi) (hpt : Pointed m oi) (v : Nat) :
    Pointed (setSize m oi v) oi := by
  intro s hs
  obtain ⟨h1, h2⟩ := dataStart_setSize hp v
  rw [Pointed.ptr_setSize hp hpt] at hs ⊢
  rw [h1, h2]
  exact hpt s hs

end SetSize

section Step

theorem dropSlots_cons (s : Slot) : dropSlots oi (s :: slots) m = dropSlots oi slots (dropSlot oi m s) :=
  rfl

theorem root_slot {s : Slot} (h : s.parent = none) : ∀ p, s.parent = some p → ptr m oi p ≠ 0 :=
  fun p hp => absurd (h.symm.trans hp) (by simp)

theorem dropSlots_cleared_roots (hp : Parts m oi) (hpt : Pointed m oi)
    (hroots : ∀ s, s ∈ slots → s.parent = none) : Cleared oi m (dropSlots oi slots m) := by
  induction slots generalizing m with
  | nil => exact Cleared.refl
  | cons s slots ih =>
    have h := Pointed.dropSlot_cleared hp hpt (root_slot (hroots s List.mem_cons_self))
    exact h.trans (ih (h.parts hp) (h.pointed hp hpt) fun t ht => hroots t (List.mem_cons_of_mem s ht))

theorem mem_droppedSlots {s : Slot} : s ∈ droppedSlots last ↔ s = dataSlot last ∨
    (10 ≤ last ∧ (last - 10) % 256 = 0 ∧ (s = .indirect ∨ last = 266 ∧ s = .indirect2)) := by
  unfold droppedSlots
  rw [List.mem_cons]
  apply or_congr_right
  by_cases h10 : last < 10
  · rw [if_pos (.inl h10)]
    exact iff_of_false List.not_mem_nil (by omega)
  have hidx : directIndex last = (last - 10) % 256 := if_neg h10
  rw [hidx]
  by_cases hne : (last - 10) % 256 ≠ 0
  · rw [if_pos (.inr hne)]
    exact iff_of_false List.not_mem_nil fun h => hne h.2.1
  rw [if_neg (by omega), List.mem_cons]
  have htail : s ∈ (if last = 266 then [Slot.indirect2] else []) ↔ last = 266 ∧ s = .indirect2 := by
    by_cases h266 : last = 266
    · rw [if_pos h266, List.mem_singleton]
      exact ⟨fun h => ⟨h266, h⟩, fun h => h.2⟩
    · rw [if_neg h266]
      exact iff_of_false List.not_mem_nil fun h => h266 h.1
  rw [htail]
  exact ⟨fun h => ⟨by omega, by omega, h⟩, fun h => h.2.2⟩

theorem droppedSlots_tail (last : Nat) :
    (∀ s, s ∈ (droppedSlots last).tail → s.parent = none ∧ s.isIndex = true) ∧
      (droppedSlots last).tail.Nodup := by
  unfold droppedSlots
  rw [List.tail_cons]
  split
  · exact ⟨fun s hs => absurd hs List.not_mem_nil, List.nodup_nil⟩
  · split
    · refine ⟨fun s hs => ?_, by decide⟩
      rcases List.mem_cons.mp hs with rfl | hs
      · exact ⟨rfl, rfl⟩
      · rw [List.mem_singleton.mp hs]
        exact ⟨rfl, rfl⟩
    · refine ⟨fun s hs => ?_, List.nodup_singleton _⟩
      rw [List.mem_singleton.mp hs]
      exact ⟨rfl, rfl⟩

variable (hp : Parts m oi) (hpt : Pointed m oi)
include hp hpt

theorem droppedSlots_cleared (h0 : ptr m oi (dataSlot last) ≠ 0) :
    Cleared oi m (dropSlots oi (droppedSlots last) m) := by
  have h := Pointed.dropSlot_cleared hp hpt fun p hparent => ptr_parent_ne hparent h0
  exact h.trans (dropSlots_cleared_roots (h.parts hp) (h.pointed hp hpt)
    fun t ht => ((droppedSlots_tail last).1 t ht).1)

/-- One call on a file that has blocks. -/
theorem removeBlock_cases (hn : size2nblocks (oiSize m oi) = n + 1) :
    (removeBlock m oi = (m, - EIO) ∧ (n < 65802 → ptr m oi (dataSlot n) = 0)) ∨
      (n < 65802 ∧ ptr m oi (dataSlot n) ≠ 0 ∧ removeBlock m oi =
        (setSize (dropSlots oi (droppedSlots n) m) oi (usub32 (oiSize m oi) 1024), 0)) := by
  have hlast : usub32 (n + 1) 1 = n := by
    have hlt : n + 1 < 4294967296 := by
      rw [← hn]
      unfold size2nblocks u32
      omega
    exact usub32_of_le (by omega) hlt
  unfold removeBlock
  simp only [hn, hlast, if_neg (Nat.succ_ne_zero n)]
  by_cases hmax : n < 65802
  · rcases removeBlockAt_drops hp hpt hmax with ⟨heq, h0⟩ | ⟨h0, heq⟩
    · rw [heq]
      exact .inl ⟨rfl, fun _ => h0⟩
    · rw [heq]
      refine .inr ⟨hmax, h0, ?_⟩
      rw [(droppedSlots_cleared hp hpt h0).size]
      rfl
  · rw [removeBlockAt_beyond (by omega)]
    exact .inl ⟨rfl, fun h => absurd h hmax⟩

/-- What a call preserves, and the block count after it. -/
theorem removeBlock_step (hn : size2nblocks (oiSize m oi) = n + 1)
    (hr : (removeBlock m oi).2 = 0) : Parts (removeBlock m oi).1 oi ∧
      Pointed (removeBlock m oi).1 oi ∧ size2nblocks (oiSize (removeBlock m oi).1 oi) = n := by
  rcases removeBlock_cases hp hpt hn with ⟨heq, _⟩ | ⟨_, h0, heq⟩
  · rw [heq] at hr
    have herr : (- EIO : Int) = 0 := hr
    exact absurd herr (by decide)
  · have h := droppedSlots_cleared hp hpt h0
    rw [heq]
    refine ⟨(h.parts hp).setSize _, Pointed.setSize (h.parts hp) (h.pointed hp hpt) _, ?_⟩
    have hcount : size2nblocks (usub32 (oiSize m oi) 1024) = size2nblocks (oiSize m oi) - 1 :=
      size2nblocks_sub (rd32_lt _ _) (by omega)
    rw [oiSize_setSize (usub32_lt _ _), hcount, hn]
    rfl

end Step

/-- The disk after `k` calls of `remove_block`. -/
def removals (oi : Nat) (m : Bytes) (k : Nat) : Bytes := (fun m => (removeBlock m oi).1)^[k] m

/-- The loop makes `k` calls, from the count of the file down to `target` or to an error. -/
structure Shrinks (oi target : Nat) (m : Bytes) (k : Nat) (r : Bytes × Int) : Prop where
  within : k ≤ size2nblocks (oiSize m oi) - target
  goes_on : ∀ j, j < k → target < size2nblocks (oiSize (removals oi m j) oi)
  lowers : ∀ j, j < k → (removeBlock (removals oi m j) oi).2 = 0 →
    size2nblocks (oiSize (removals oi m (j + 1)) oi) + 1 = size2nblocks (oiSize (removals oi m j) oi)
  no_error : ∀ j, j + 1 < k → (removeBlock (removals oi m j) oi).2 = 0
  disk : r.1 = removals oi m k
  ends : (r.2 = 0 ∧ size2nblocks (oiSize r.1 oi) = target) ∨ r.2 < 0

section Loop

@[simp] theorem removals_zero : removals oi m 0 = m := rfl

theorem removals_succ (k : Nat) :
    removals oi m (k + 1) = removals oi (removeBlock m oi).1 k := Function.iterate_succ_apply _ k m

theorem Shrinks.cons {k : Nat} {r : Bytes × Int} (hn : size2nblocks (oiSize m oi) = n + 1)
    (htarget : target ≤ n) (hr : (removeBlock m oi).2 = 0)
    (hcount : size2nblocks (oiSize (removeBlock m oi).1 oi) = n)
    (h : Shrinks oi target (removeBlock m oi).1 k r) : Shrinks oi target m (k + 1) r := by
  have hwithin := h.within
  constructor
  · omega
  · intro j hj
    cases j with
    | zero =>
      rw [removals_zero]
      omega
    | succ j =>
      rw [removals_succ]
      exact h.goes_on j (by omega)
  · intro j hj hret
    cases j with
    | zero =>
      have hfirst : removals oi m (0 + 1) = (removeBlock m oi).1 := rfl
      rw [hfirst, removals_zero, hcount, hn]
    | succ j =>
      rw [removals_succ (m := m) j] at hret
      rw [removals_succ (m := m) (j + 1), removals_succ (m := m) j]
      exact h.lowers j (by omega) hret
  · intro j hj
    cases j with
    | zero => exact hr
    | succ j =>
      rw [removals_succ]
      exact h.no_error j (by omega)
  · rw [removals_succ]
    exact h.disk
  · exact h.ends

/-- The number of blocks to remove is enough fuel. -/
theorem removeBlocks_ends (hp : Parts m oi) (hpt : Pointed m oi)
    (hle : target ≤ size2nblocks (oiSize m oi)) :
    ∃ k r, Shrinks oi target m k r ∧ ∀ fuel, k < fuel → removeBlocks oi target fuel m = some r := by
  generalize hd : size2nblocks (oiSize m oi) - target = d
  induction d generalizing m with
  | zero =>
    refine ⟨0, (m, 0), ?_, ?_⟩
    · constructor
      · exact Nat.zero_le _
      · intro j hj
        omega
      · intro j hj
        omega
      · intro j hj
        omega
      · rfl
      · exact .inl ⟨rfl, show size2nblocks (oiSize m oi) = target by omega⟩
    · intro fuel hfuel
      obtain ⟨fuel, rfl⟩ : ∃ l, fuel = l + 1 := ⟨fuel - 1, by omega⟩
      rw [removeBlocks, if_neg (by omega)]
  | succ d ih =>
    obtain ⟨n, hn⟩ : ∃ n, size2nblocks (oiSize m oi) = n + 1 :=
      ⟨size2nblocks (oiSize m oi) - 1, by omega⟩
    have hloop : ∀ fuel, removeBlocks oi target (fuel + 1) m = if (removeBlock m oi).2 < 0 then
        some (removeBlock m oi) else removeBlocks oi target fuel (removeBlock m oi).1 := by
      intro fuel
      rw [removeBlocks, if_pos (by omega)]
    rcases removeBlock_cases hp hpt hn with ⟨heq, _⟩ | ⟨_, _, heq⟩
    · have herr : (removeBlock m oi).2 < 0 := by
        rw [heq]
        exact neg_EIO
      refine ⟨1, removeBlock m oi, ?_, ?_⟩
      · constructor
        · omega
        · intro j hj
          rw [show j = 0 by omega, removals_zero]
          omega
        · intro j hj hret
          rw [show j = 0 by omega, removals_zero] at hret
          omega
        · intro j hj
          omega
        · rfl
        · exact .inr herr
      · intro fuel hfuel
        obtain ⟨fuel, rfl⟩ : ∃ l, fuel = l + 1 := ⟨fuel - 1, by omega⟩
        rw [hloop, if_pos herr]
    · have hr : (removeBlock m oi).2 = 0 := by rw [heq]
      obtain ⟨hp', hpt', hcount⟩ := removeBlock_step hp hpt hn hr
      obtain ⟨k, r, hshrinks, hrun⟩ := ih hp' hpt' (by omega) (by omega)
      refine ⟨k + 1, r, hshrinks.cons hn (by omega) hr hcount, fun fuel hfuel => ?_⟩
      obtain ⟨fuel, rfl⟩ : ∃ l, fuel = l + 1 := ⟨fuel - 1, by omega⟩
      rw [hloop, if_neg (by omega)]
      exact hrun fuel (by omega)

theorem changeSize_shrinks {fuel : Nat} (hle : size2nblocks newSize ≤ size2nblocks (oiSize m oi)) :
    changeSize fuel m oi newSize = (removeBlocks oi (size2nblocks newSize) fuel m).map fun r =>
      if r.2 < 0 then r else (setSize r.1 oi newSize, 0) := by
  cases fuel with
  | zero => rfl
  | succ fuel =>
    unfold changeSize
    rw [addBlocks, if_neg (by omega)]
    dsimp only
    rw [if_neg (Int.lt_irrefl 0)]
    cases removeBlocks oi (size2nblocks newSize) (fuel + 1) m with
    | none => rfl
    | some r =>
      rw [Option.map_some]
      dsimp only
      split <;> rfl

end Loop

/-- Every call that is to shrink a file, or to keep its block count, returns. -/
theorem shrinking_ends (hp : Parts m oi) (hpt : Pointed m oi) (hnew : newSize < 4294967296)
    (hle : size2nblocks newSize ≤ size2nblocks (oiSize m oi)) :
    ∃ k r, Shrinks oi (size2nblocks newSize) m k r ∧ ∃ m' ret,
      (∀ fuel, k < fuel → changeSize fuel m oi newSize = some (m', ret)) ∧
        ((ret < 0 ∧ r = (m', ret)) ∨
          (ret = 0 ∧ r.2 = 0 ∧ m' = setSize r.1 oi newSize ∧ oiSize m' oi = newSize)) := by
  obtain ⟨k, r, hshrinks, hrun⟩ := removeBlocks_ends hp hpt hle
  refine ⟨k, r, hshrinks, ?_⟩
  rcases hshrinks.ends with ⟨hr, _⟩ | hr
  · refine ⟨setSize r.1 oi newSize, 0, ?_, .inr ⟨rfl, hr, rfl, oiSize_setSize hnew⟩⟩
    intro fuel hfuel
    rw [changeSize_shrinks hle, hrun fuel hfuel, Option.map_some, if_neg (by omega)]
  · refine ⟨r.1, r.2, ?_, .inl ⟨hr, rfl⟩⟩
    intro fuel hfuel
    rw [changeSize_shrinks hle, hrun fuel hfuel, Option.map_some, if_pos hr]

/-- The file of 266 blocks is cut to 5 bytes. -/
theorem shrinking_ends_bigFile : ∃ k r, Shrinks 3200 1 bigFile k r ∧ ∃ m' ret,
    (∀ fuel, k < fuel → changeSize fuel bigFile 3200 5 = some (m', ret)) ∧
      ((ret < 0 ∧ r = (m', ret)) ∨
        (ret = 0 ∧ r.2 = 0 ∧ m' = setSize r.1 3200 5 ∧ oiSize m' 3200 = 5)) := by
  have hle : size2nblocks 5 ≤ size2nblocks (oiSize bigFile 3200) := by
    rw [bigFile_tree.count]
    decide
  exact shrinking_ends bigFile_tree.layout.parts bigFile_tree.pointed (by decide) hle

end CS111.Ospfs
