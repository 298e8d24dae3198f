import CS111.Ospfs.FileTrees

/-!
# Clearing slots

`remove_block` clears up to three slots of an inode. Nothing is assumed here about which blocks are
free, or about different slots having different blocks.
-/

namespace CS111.Ospfs

open Memory

set_option autoImplicit false

variable {m m' m'' : Bytes} {oi a b last n : Nat} {s t : Slot}

/-- Only the free map changes, and words from the block pointers on, which become 0. -/
structure Cleared (oi : Nat) (m m' : Bytes) : Prop where
  fields : ∀ a, a < freemap ∨ (oi ≤ a ∧ a < oi + 16) → m' a = m a
  words : ∀ a, a % 4 = 0 → oi + 16 ≤ a → rd32 m' a = rd32 m a ∨ rd32 m' a = 0

/-- Every block pointer of the inode is null or names a block of the data region. -/
def Pointed (m : Bytes) (oi : Nat) : Prop :=
  ∀ s, ptr m oi s ≠ 0 → dataStart m ≤ ptr m oi s ∧ ptr m oi s < osNblocks m

/-- The largest block number that `free_block` ignores. -/
def freeBound (m : Bytes) : Nat := osFirstinob m + osNinodes m / 16

theorem FileTree.pointed (h : FileTree m oi n) : Pointed m oi := by
  intro s h0
  obtain ⟨h1, h2, _⟩ := h.allocated s h0
  exact ⟨h1, h2⟩

section Cleared

theorem Cleared.refl : Cleared oi m m := ⟨fun _ _ => rfl, fun _ _ _ => .inl rfl⟩

theorem Cleared.trans (h : Cleared oi m m') (h' : Cleared oi m' m'') : Cleared oi m m'' := by
  constructor
  · intro a ha
    rw [h'.fields a ha, h.fields a ha]
  · intro a h4 ha
    rcases h'.words a h4 ha with heq | h0
    · rw [heq]
      exact h.words a h4 ha
    · exact .inr h0

theorem Cleared.of_word (h4 : a % 4 = 0) (ha : oi + 16 ≤ a) (hmap : freemap ≤ oi) :
    Cleared oi m (wr32 m a 0) := by
  constructor
  · intro c hc
    exact wr32_outside (by omega)
  · intro c hc hle
    by_cases heq : c = a
    · subst heq
      exact .inr (rd32_wr32_of_lt m c (by decide))
    · exact .inl (rd32_wr32_ne (by omega))

variable (h : Cleared oi m m')
include h

theorem Cleared.size : oiSize m' oi = oiSize m oi :=
  rd32_congr fun k hk => h.fields _ (by omega)

theorem Cleared.ftype : oiFtype m' oi = oiFtype m oi :=
  rd32_congr fun k hk => h.fields _ (by omega)

theorem Cleared.superblock : osNblocks m' = osNblocks m ∧ osNinodes m' = osNinodes m ∧
    osFirstinob m' = osFirstinob m := by
  refine ⟨?_, ?_, ?_⟩ <;> exact rd32_congr fun k hk => h.fields _ (by unfold freemap; omega)

theorem Cleared.dataStart : dataStart m' = dataStart m := dataStart_of_superblock h.superblock

theorem Cleared.parts (hp : Parts m oi) : Parts m' oi := hp.of_superblock h.superblock

theorem Cleared.ptr (hp : Parts m oi) (hpt : Pointed m oi) (t : Slot) :
    ptr m' oi t = ptr m oi t ∨ ptr m' oi t = 0 := by
  obtain ⟨_, hplace, halign⟩ := hp.inode_place
  have hsmall := hp.small
  revert t
  apply Slot.parent_induction
  intro t ih
  cases hparent : t.parent with
  | none =>
    have hidx := Slot.index_root hparent
    rw [ptr_root hparent, ptr_root hparent]
    exact h.words _ (by omega) (by omega)
  | some p =>
    have hidx := Slot.index_child hparent
    rw [ptr_child hparent, ptr_child hparent]
    rcases ih p hparent with heq | h0
    · rw [heq]
      by_cases hp0 : CS111.Ospfs.ptr m oi p = 0
      · rw [hp0, below_zero, below_zero]
        exact .inl rfl
      · obtain ⟨hlo, hhi⟩ := hpt p hp0
        rw [below_eq hp0 (by omega), below_eq hp0 (by omega)]
        exact h.words _ (by omega) (by omega)
    · rw [h0, below_zero]
      exact .inr rfl

theorem Cleared.pointed (hp : Parts m oi) (hpt : Pointed m oi) : Pointed m' oi := by
  intro t ht
  have heq := (h.ptr hp hpt t).resolve_right ht
  rw [h.dataStart, h.superblock.1, heq]
  exact hpt t (heq ▸ ht)

end Cleared

/-- The block of a slot is given back, and the slot is cleared. -/
def dropSlot (oi : Nat) (m : Bytes) (s : Slot) : Bytes := setCell (freeBlock m (ptr m oi s)) oi s 0

section Drop
variable (hp : Parts m oi) (hpt : Pointed m oi)

include hp

theorem Parts.freeBlock_eq (b : Nat) :
    freeBlock m b = if b ≤ freeBound m then m else bitvectorSet m freemap b := by
  have hroom := hp.room
  have hsmall := hp.small
  have hbound : u32 (osFirstinob m + osNinodes m / 16) = freeBound m := by
    unfold dataStart at hroom
    exact u32_of_lt (by omega)
  unfold freeBlock
  rw [hbound]

theorem Parts.freeBlock_outside (hb : b < osNblocks m)
    (ha : a < freemap ∨ 1024 * osFirstinob m ≤ a) : freeBlock m b a = m a := by
  have hword := hp.map_word hb
  rw [hp.freeBlock_eq]
  split
  · rfl
  · exact bitvectorSet_outside (by omega)

theorem Parts.freeBlock_cleared (hb : b < osNblocks m) : Cleared oi m (freeBlock m b) := by
  obtain ⟨hplace, _, _⟩ := hp.inode_place
  constructor
  · intro a ha
    exact hp.freeBlock_outside hb (by omega)
  · intro a _ ha
    exact .inl (rd32_congr fun k hk => hp.freeBlock_outside hb (.inr (by omega)))

include hpt

theorem Pointed.lt_nblocks (s : Slot) : ptr m oi s < osNblocks m := by
  have hpos := hp.dataStart_pos
  have hroom := hp.room
  by_cases h0 : ptr m oi s = 0
  · omega
  · exact (hpt s h0).2

/-- The free map is apart from the pointers. -/
theorem Pointed.ptr_freeBlock (hb : b < osNblocks m) (t : Slot) :
    ptr (freeBlock m b) oi t = ptr m oi t := by
  obtain ⟨hplace, hregion, _⟩ := hp.inode_place
  have hsmall := hp.small
  revert t
  apply ptr_congr
  · intro s
    have hlt := Pointed.lt_nblocks hp hpt s
    omega
  · intro a h1 _
    exact hp.freeBlock_outside hb (.inr (by omega))
  · intro s a _ h0 ha
    obtain ⟨hlo, _⟩ := hpt s h0
    exact hp.freeBlock_outside hb (.inr (by omega))

theorem Pointed.dropSlot_cleared (hs : ∀ p, s.parent = some p → ptr m oi p ≠ 0) :
    Cleared oi m (dropSlot oi m s) := by
  obtain ⟨hplace, hregion, halign⟩ := hp.inode_place
  have hlt := Pointed.lt_nblocks hp hpt s
  have hmap := hp.map_word hlt
  have hkept := Pointed.ptr_freeBlock hp hpt hlt
  apply (hp.freeBlock_cleared hlt).trans
  have hcell : cell (freeBlock m (ptr m oi s)) oi s % 4 = 0 ∧
      oi + 16 ≤ cell (freeBlock m (ptr m oi s)) oi s := by
    cases hparent : s.parent with
    | none =>
      have hidx := Slot.index_root hparent
      rw [cell_root hparent]
      omega
    | some p =>
      obtain ⟨hlo, _⟩ := hpt p (hs p hparent)
      rw [cell_child hparent, hkept]
      omega
  exact Cleared.of_word hcell.1 hcell.2 (by omega)

end Drop

section RemoveBlock

theorem below_of_ne {j : Nat} (h : b ≠ 0) : below m b j = blockWord m b j := if_neg h

/-- The slots that are cleared for file block `last`. -/
def droppedSlots (last : Nat) : List Slot :=
  dataSlot last :: if last < 10 ∨ directIndex last ≠ 0 then []
    else .indirect :: if last = 266 then [.indirect2] else []

def dropSlots (oi : Nat) (slots : List Slot) (m : Bytes) : Bytes := slots.foldl (dropSlot oi) m

variable (hp : Parts m oi) (hpt : Pointed m oi)
include hp hpt

/-- A branch of `remove_block` clears these slots, or does nothing because the block is missing. -/
def Drops (oi last : Nat) (m : Bytes) (r : Bytes × Int) : Prop :=
  (r = (m, - EIO) ∧ ptr m oi (dataSlot last) = 0) ∨
    (ptr m oi (dataSlot last) ≠ 0 ∧ r = (dropSlots oi (droppedSlots last) m, 0))

omit hp hpt in
theorem removeDirect_drops (h : last < 10) : Drops oi last m (removeDirect m oi last) := by
  have hptr : ptr m oi (dataSlot last) = oiDirect m oi last := by
    rw [dataSlot_direct h]
    rfl
  have hslots : droppedSlots last = [dataSlot last] := by
    unfold droppedSlots
    rw [if_pos (.inl h)]
  unfold removeDirect
  by_cases h0 : oiDirect m oi last = 0
  · rw [if_pos h0]
    exact .inl ⟨rfl, hptr.trans h0⟩
  · rw [if_neg h0]
    refine .inr ⟨by rw [hptr]; exact h0, ?_⟩
    rw [hslots, setDirect_eq h, dropSlots, List.foldl_cons, List.foldl_nil, dropSlot, hptr,
      dataSlot_direct h]

theorem removeEntry_drops (h1 : 10 ≤ last) (h2 : last < 266) :
    Drops oi last m (removeEntry m oi last) := by
  have hsmall := hp.small
  have hslot := dataSlot_entry h1 h2
  have hptr : ptr m oi (dataSlot last) = below m (oiIndirect m oi) (directIndex last) := by
    rw [hslot]
    rfl
  unfold removeEntry
  by_cases h0 : oiIndirect m oi = 0
  · rw [if_pos h0]
    refine .inl ⟨rfl, ?_⟩
    rw [hptr, h0, below_zero]
  rw [below_of_ne h0] at hptr
  by_cases hb0 : blockWord m (oiIndirect m oi) (directIndex last) = 0
  · rw [if_neg h0, if_pos hb0]
    exact .inl ⟨rfl, hptr.trans hb0⟩
  rw [if_neg h0, if_neg hb0]
  refine .inr ⟨by rw [hptr]; exact hb0, ?_⟩
  have hlt := Pointed.lt_nblocks hp hpt (dataSlot last)
  have hind : ptr (freeBlock m (ptr m oi (dataSlot last))) oi .indirect = oiIndirect m oi :=
    Pointed.ptr_freeBlock hp hpt hlt .indirect
  have hbound : oiIndirect m oi < osNblocks m := Pointed.lt_nblocks hp hpt .indirect
  have hset : setBlockWord (freeBlock m (blockWord m (oiIndirect m oi) (directIndex last)))
      (oiIndirect m oi) (directIndex last) 0 = dropSlot oi m (dataSlot last) := by
    rw [hptr] at hind
    rw [dropSlot, hptr, hslot]
    exact setBlockWord_eq (s := .entry ⟨directIndex last, directIndex_lt last⟩) rfl hind (by omega)
  rw [hset]
  dsimp only
  unfold droppedSlots
  by_cases hidx : directIndex last = 0
  · rw [if_pos hidx, if_neg (by omega), if_neg (by omega)]
    rfl
  · rw [if_neg hidx, if_pos (.inr hidx)]
    rfl

theorem removeLeaf_drops (h1 : 266 ≤ last) (h2 : last < 65802) :
    Drops oi last m (removeLeaf m oi last) := by
  have hsmall := hp.small
  have hslot := dataSlot_leaf h1 h2
  have hk := indirIndex_lt h1 h2
  have hptr : ptr m oi (dataSlot last) =
      below m (below m (oiIndirect2 m oi) (indirIndex last).toNat) (directIndex last) := by
    rw [hslot]
    rfl
  have hent : ptr m oi (.entry2 ⟨(indirIndex last).toNat, hk⟩) =
      below m (oiIndirect2 m oi) (indirIndex last).toNat := rfl
  unfold removeLeaf
  by_cases h0 : oiIndirect2 m oi = 0
  · rw [if_pos h0]
    refine .inl ⟨rfl, ?_⟩
    rw [hptr, h0, below_zero, below_zero]
  rw [if_neg h0]
  rw [below_of_ne h0] at hent hptr
  generalize blockWord m (oiIndirect2 m oi) (indirIndex last).toNat = leaf at hent hptr ⊢
  dsimp only
  by_cases hl0 : leaf = 0
  · rw [if_pos hl0]
    refine .inl ⟨rfl, ?_⟩
    rw [hptr, hl0, below_zero]
  rw [if_neg hl0]
  rw [below_of_ne hl0] at hptr
  by_cases hb0 : blockWord m leaf (directIndex last) = 0
  · rw [if_pos hb0]
    exact .inl ⟨rfl, hptr.trans hb0⟩
  rw [if_neg hb0]
  refine .inr ⟨by rw [hptr]; exact hb0, ?_⟩
  have hlt := Pointed.lt_nblocks hp hpt (dataSlot last)
  have hind := Pointed.ptr_freeBlock hp hpt hlt (.entry2 ⟨(indirIndex last).toNat, hk⟩)
  have hbound := Pointed.lt_nblocks hp hpt (.entry2 ⟨(indirIndex last).toNat, hk⟩)
  rw [hent] at hind hbound
  have hset : setBlockWord (freeBlock m (blockWord m leaf (directIndex last))) leaf
      (directIndex last) 0 = dropSlot oi m (dataSlot last) := by
    rw [hptr] at hind
    rw [dropSlot, hptr, hslot]
    exact setBlockWord_eq
      (s := .leaf ⟨(indirIndex last).toNat, hk⟩ ⟨directIndex last, directIndex_lt last⟩) rfl hind
      (by omega)
  rw [hset]
  unfold droppedSlots
  by_cases hidx : directIndex last = 0
  · have hfirst : (indirIndex last).toNat = 0 ↔ last = 266 := by
      rw [indirIndex_leaf h1]
      unfold directIndex at hidx
      rw [if_neg (by omega)] at hidx
      omega
    rw [if_pos hidx, if_neg (show ¬ (last < 10 ∨ directIndex last ≠ 0) by omega)]
    by_cases h266 : last = 266
    · rw [if_pos (hfirst.mpr h266), if_pos h266]
      rfl
    · rw [if_neg fun h => h266 (hfirst.mp h), if_neg h266]
      rfl
  · rw [if_neg hidx, if_pos (.inr hidx)]
    rfl

theorem removeBlockAt_drops (h : last < 65802) : Drops oi last m (removeBlockAt m oi last) := by
  unfold removeBlockAt
  by_cases h10 : last < 10
  · rw [if_pos h10]
    exact removeDirect_drops h10
  · rw [if_neg h10]
    by_cases h266 : last < 266
    · rw [if_pos h266]
      exact removeEntry_drops hp hpt (by omega) h266
    · rw [if_neg h266, if_pos h]
      exact removeLeaf_drops hp hpt (by omega) h

omit hp hpt in
theorem removeBlockAt_beyond (h : 65802 ≤ last) : removeBlockAt m oi last = (m, - EIO) := by
  unfold removeBlockAt
  rw [if_neg (by omega), if_neg (by omega), if_neg (by omega)]

end RemoveBlock

end CS111.Ospfs
