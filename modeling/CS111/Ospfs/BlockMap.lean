import CS111.Ospfs.Placing

/-!
# The block map after `add_block`

`add_block` takes up to three free blocks and stores each in a slot: the missing index blocks first,
then the data block. The slot is the one that the read path looks at, but for the first 256 blocks
below the doubly indirect block.
-/

namespace CS111.Ospfs

open Memory

set_option autoImplicit false

variable {m m' : Bytes} {oi lo n j b c : Nat} {p s : Slot}

section Branches

/-- The result of a branch of `add_block`: some block is now the block of slot `s`. -/
def Stores (oi lo : Nat) (s : Slot) (m : Bytes) (r : Bytes × Int) : Prop :=
  ∃ b, r.2 = 0 ∧ Stored oi s b m r.1 ∧ Working r.1 oi lo

theorem Stored.stores (h : Stored oi p c m m') (h0 : ptr m oi p = 0) {r : Bytes × Int}
    (h' : Stores oi lo s m' r) : Stores oi lo s m r := by
  obtain ⟨b, hr, hstored, hworking⟩ := h'
  exact ⟨b, hr, h.after hstored h0, hworking⟩

theorem addDirect_stores (h : Working m oi lo) (hcount : 1 ≤ freeCount m) (hn : n < 10) :
    Stores oi lo (.direct ⟨n, hn⟩) m (addDirect m oi n) := by
  obtain ⟨b, hb, halloc, -, hplace⟩ := h.allocate (k := 0) hcount
  obtain ⟨hstored, hworking, -⟩ := hplace (.direct ⟨n, hn⟩) (fun p hp => by cases hp)
    (fun t ht => absurd ht (Slot.not_below_of_data rfl))
  have heq : addDirect m oi n = (placeBlock m oi (.direct ⟨n, hn⟩) b, 0) := by
    unfold addDirect
    simp only [halloc, if_neg hb, setDirect_eq hn]
    rfl
  rw [heq]
  exact ⟨b, rfl, hstored, hworking⟩

theorem addEntry_stores (h : Working m oi lo) (hcount : 1 ≤ freeCount m)
    (hind : oiIndirect m oi ≠ 0) (allocated : Nat) :
    Stores oi lo (.entry ⟨directIndex n, directIndex_lt n⟩) m (addEntry m oi n allocated) := by
  have hsmall := (h.tree.bound .indirect rfl hind).2
  obtain ⟨b, hb, halloc, htake, hplace⟩ := h.allocate (k := 0) hcount
  obtain ⟨hstored, hworking, -⟩ := hplace (.entry ⟨directIndex n, directIndex_lt n⟩)
    (fun p hp => by cases hp; exact hind) (fun t ht => absurd ht (Slot.not_below_of_data rfl))
  have hind' : oiIndirect (takeBlock m b) oi = oiIndirect m oi := congrFun htake .indirect
  have hset : setBlockWord (takeBlock m b) (oiIndirect m oi) (directIndex n) b =
      placeBlock m oi (.entry ⟨directIndex n, directIndex_lt n⟩) b :=
    setBlockWord_eq (s := .entry ⟨directIndex n, directIndex_lt n⟩) rfl hind' hsmall
  have heq : addEntry m oi n allocated =
      (placeBlock m oi (.entry ⟨directIndex n, directIndex_lt n⟩) b, 0) := by
    unfold addEntry
    simp only [halloc, if_neg hb]
    change (setBlockWord (takeBlock m b) (oiIndirect (takeBlock m b) oi) _ b, (0 : Int)) = _
    rw [hind', hset]
  rw [heq]
  exact ⟨b, rfl, hstored, hworking⟩

theorem addIndirect_stores (h : Working m oi lo)
    (hcount : (if oiIndirect m oi = 0 then 2 else 1) ≤ freeCount m) :
    Stores oi lo (.entry ⟨directIndex n, directIndex_lt n⟩) m (addIndirect m oi n) := by
  unfold addIndirect
  by_cases h0 : oiIndirect m oi = 0
  · rw [if_pos h0] at hcount ⊢
    obtain ⟨b, hb, halloc, -, hplace⟩ := h.allocate (k := 1) hcount
    obtain ⟨hstored, hworking, hcount'⟩ := hplace .indirect (fun p hp => by cases hp)
      (fun t ht => ptr_below_zero ht h0)
    simp only [halloc, if_neg hb]
    apply hstored.stores h0
    apply addEntry_stores hworking hcount'
    have hslot : oiIndirect (placeBlock m oi .indirect b) oi = b := hstored.slot
    exact fun heq => hb (hslot.symm.trans heq)
  · rw [if_neg h0] at hcount ⊢
    exact addEntry_stores h hcount h0 0

section Leaf
variable (hlt : (indirIndex n).toNat < 256)

theorem ptr_entry2 (h0 : oiIndirect2 m oi ≠ 0) :
    ptr m oi (.entry2 ⟨(indirIndex n).toNat, hlt⟩) =
      blockWord m (oiIndirect2 m oi) (indirIndex n).toNat := if_neg h0

theorem addLeaf_stores (h : Working m oi lo) (hcount : 1 ≤ freeCount m)
    (hentry : ptr m oi (.entry2 ⟨(indirIndex n).toNat, hlt⟩) ≠ 0)
    (allocated0 allocated1 : Nat) :
    Stores oi lo (.leaf ⟨(indirIndex n).toNat, hlt⟩ ⟨directIndex n, directIndex_lt n⟩) m
      (addLeaf m oi n (oiIndirect2 m oi) allocated0 allocated1) := by
  have hind : oiIndirect2 m oi ≠ 0 := ptr_parent_ne (p := .indirect2) rfl hentry
  have hsmall := (h.tree.bound _ rfl hentry).2
  obtain ⟨b, hb, halloc, htake, hplace⟩ := h.allocate (k := 0) hcount
  obtain ⟨hstored, hworking, -⟩ :=
    hplace (.leaf ⟨(indirIndex n).toNat, hlt⟩ ⟨directIndex n, directIndex_lt n⟩)
      (fun p hp => by cases hp; exact hentry)
      (fun t ht => absurd ht (Slot.not_below_of_data rfl))
  have hind' : oiIndirect2 (takeBlock m b) oi = oiIndirect2 m oi := congrFun htake .indirect2
  have hentry' := congrFun htake (.entry2 ⟨(indirIndex n).toNat, hlt⟩)
  have hset : setBlockWord (takeBlock m b) (ptr m oi (.entry2 ⟨(indirIndex n).toNat, hlt⟩))
      (directIndex n) b =
        placeBlock m oi (.leaf ⟨(indirIndex n).toNat, hlt⟩ ⟨directIndex n, directIndex_lt n⟩) b :=
    setBlockWord_eq (s := .leaf ⟨(indirIndex n).toNat, hlt⟩ ⟨directIndex n, directIndex_lt n⟩)
      rfl hentry' hsmall
  rw [← hentry', ptr_entry2 hlt (hind' ▸ hind), hind'] at hset
  have heq : addLeaf m oi n (oiIndirect2 m oi) allocated0 allocated1 =
      (placeBlock m oi (.leaf ⟨(indirIndex n).toNat, hlt⟩ ⟨directIndex n, directIndex_lt n⟩) b,
        0) := by
    unfold addLeaf
    simp only [halloc, if_neg hb]
    change (setBlockWord (takeBlock m b) (blockWord (takeBlock m b) (oiIndirect2 m oi)
      (indirIndex n).toNat) (directIndex n) b, (0 : Int)) = _
    rw [hset]
  rw [heq]
  exact ⟨b, rfl, hstored, hworking⟩

theorem addEntry2_stores (h : Working m oi lo) (hind : oiIndirect2 m oi ≠ 0)
    (hcount : (if blockWord m (oiIndirect2 m oi) (indirIndex n).toNat = 0 then 2 else 1) ≤
      freeCount m) (allocated1 : Nat) :
    Stores oi lo (.leaf ⟨(indirIndex n).toNat, hlt⟩ ⟨directIndex n, directIndex_lt n⟩) m
      (addEntry2 m oi n allocated1) := by
  have hentry := ptr_entry2 hlt hind
  unfold addEntry2
  by_cases h0 : blockWord m (oiIndirect2 m oi) (indirIndex n).toNat = 0
  · rw [if_pos h0] at hcount
    obtain ⟨b, hb, halloc, htake, hplace⟩ := h.allocate (k := 1) hcount
    obtain ⟨hstored, hworking, hcount'⟩ := hplace (.entry2 ⟨(indirIndex n).toNat, hlt⟩)
      (fun p hp => by cases hp; exact hind) (fun t ht => ptr_below_zero ht (hentry.trans h0))
    have hind' : oiIndirect2 (takeBlock m b) oi = oiIndirect2 m oi := congrFun htake .indirect2
    have hsmall := (h.tree.bound .indirect2 rfl hind).2
    have hset : setBlockWord (takeBlock m b) (oiIndirect2 m oi) (indirIndex n).toNat b =
        placeBlock m oi (.entry2 ⟨(indirIndex n).toNat, hlt⟩) b :=
      setBlockWord_eq (s := .entry2 ⟨(indirIndex n).toNat, hlt⟩) rfl hind' hsmall
    have hkept : oiIndirect2 (placeBlock m oi (.entry2 ⟨(indirIndex n).toNat, hlt⟩) b) oi =
        oiIndirect2 m oi := hstored.others .indirect2 (by simp) hind
    simp only [if_pos h0, halloc, if_neg hb]
    change Stores oi lo _ m (addLeaf (setBlockWord (takeBlock m b) _ _ b) oi n _ b allocated1)
    rw [hset, ← hkept]
    apply hstored.stores (hentry.trans h0)
    apply addLeaf_stores hlt hworking hcount'
    rw [hstored.slot]
    exact hb
  · rw [if_neg h0] at hcount
    simp only [if_neg h0]
    exact addLeaf_stores hlt h hcount (by rw [hentry]; exact h0) 0 allocated1

theorem addIndirect2_stores (h : Working m oi lo)
    (hcount : (if oiIndirect2 m oi = 0 then 3
      else if blockWord m (oiIndirect2 m oi) (indirIndex n).toNat = 0 then 2 else 1) ≤
        freeCount m) :
    Stores oi lo (.leaf ⟨(indirIndex n).toNat, hlt⟩ ⟨directIndex n, directIndex_lt n⟩) m
      (addIndirect2 m oi n) := by
  unfold addIndirect2
  by_cases h0 : oiIndirect2 m oi = 0
  · rw [if_pos h0] at hcount ⊢
    obtain ⟨b, hb, halloc, -, hplace⟩ := h.allocate (k := 2) hcount
    obtain ⟨hstored, hworking, hcount'⟩ := hplace .indirect2 (fun p hp => by cases hp)
      (fun t ht => ptr_below_zero ht h0)
    have hslot : oiIndirect2 (placeBlock m oi .indirect2 b) oi = b := hstored.slot
    simp only [halloc, if_neg hb]
    apply hstored.stores h0
    apply addEntry2_stores hlt hworking (fun heq => hb (hslot.symm.trans heq))
    refine le_trans ?_ hcount'
    split <;> omega
  · rw [if_neg h0] at hcount ⊢
    exact addEntry2_stores hlt h h0 hcount 0

end Leaf

end Branches

section Sizes

theorem Working.ptr_setSize (h : Working m oi lo) (v : Nat) (s : Slot) :
    ptr (setSize m oi v) oi s = ptr m oi s := by
  have hregion := h.tree.region
  revert s
  apply ptr_congr_index
  · intro s hs
    by_cases h0 : ptr m oi s = 0
    · omega
    · exact (h.tree.bound s hs h0).2
  · intro a h1 h2
    exact wr32_outside (by omega)
  · intro s a hs h0 ha
    have hbound := h.tree.bound s hs h0
    exact wr32_outside (by omega)

/-- The last step of `add_block` changes nothing but the size. -/
theorem addBlock_newBlock (h : Working m oi lo) (hsize : oiSize m oi + 1024 < 4294967296)
    (hn : size2nblocks (oiSize m oi) = n) (hstores : Stores oi lo s m (addBlockAt m oi n)) :
    ∃ b, (addBlock m oi).2 = 0 ∧ NewBlock oi s b m (addBlock m oi).1 ∧
      oiSize (addBlock m oi).1 oi = oiSize m oi + 1024 := by
  obtain ⟨b, hr, hstored, hworking⟩ := hstores
  have heq : addBlock m oi = (setSize (addBlockAt m oi n).1 oi (oiSize m oi + 1024), 0) := by
    unfold addBlock
    simp only [hn]
    rw [if_neg (by omega), hstored.size, u32_of_lt hsize]
  generalize (addBlockAt m oi n).1 = m' at hstored hworking heq
  have hregion := h.tree.region
  have hlo := h.lo_le hstored.fresh
  have hmap := h.map b hstored.bound
  rw [heq]
  refine ⟨b, rfl, ?_, oiSize_setSize hsize⟩
  constructor
  · exact hstored.fresh
  · exact hstored.bound
  · rw [← hstored.marked]
    apply bitvectorTest_congr
    intro k hk
    exact wr32_outside (by omega)
  · intro a ha
    rw [← hstored.zero a ha]
    exact wr32_outside (by omega)
  · rw [hworking.ptr_setSize, hstored.slot]
  · intro t hne ht
    rw [hworking.ptr_setSize, hstored.others t hne ht]
  · rw [← hstored.ftype]
    apply rd32_congr
    intro k hk
    exact wr32_outside (by omega)

end Sizes

/-! ## The block map of the read path -/

/-- The block of a file in the read path. -/
def blockOf (m : Bytes) (oi j : Nat) : Nat := ospfsInodeBlockno m oi (1024 * j)

/-- The first block after the inode blocks. -/
def dataStart (m : Bytes) : Nat := osFirstinob m + (osNinodes m + 15) / 16

/-- The superblock, the free map, the inodes and the data follow each other, and `oi` is an inode. -/
structure Parts (m : Bytes) (oi : Nat) : Prop where
  free_map : 2 + (osNblocks m + 8191) / 8192 ≤ osFirstinob m
  room : dataStart m ≤ osNblocks m
  small : osNblocks m < 4194304
  inode : ∃ ino, ospfsInode m ino = some oi

/-- The parts of the disk follow each other, and `oi` is one of its inodes. -/
structure Layout (m : Bytes) (oi : Nat) : Prop where
  free_map : 2 + (osNblocks m + 8191) / 8192 ≤ osFirstinob m
  room : dataStart m ≤ osNblocks m
  small : osNblocks m < 4194304
  inode : ∃ ino, ospfsInode m ino = some oi
  reserved : ∀ b, b < dataStart m → isFree m b = false

def Allocated (m : Bytes) (b : Nat) : Prop :=
  dataStart m ≤ b ∧ b < osNblocks m ∧ isFree m b = false

/-- The size of a file covers `n` blocks, and the read path finds different blocks for them, which are
in use, as the index blocks are. -/
structure Mapped (m : Bytes) (oi n : Nat) : Prop where
  size : oiSize m oi ≤ 1024 * n ∧ 1024 * n < oiSize m oi + 1024
  data : ∀ j, j < n → Allocated m (blockOf m oi j)
  data_distinct : ∀ j k, j < n → k < n → blockOf m oi j = blockOf m oi k → j = k
  above : ∀ j p, j < n → (dataSlot j).Below p → ptr m oi p ≠ 0
  index : ∀ p, p.isIndex = true → ptr m oi p ≠ 0 → Allocated m (ptr m oi p)
  index_distinct : ∀ p q, p.isIndex = true → q.isIndex = true → ptr m oi p ≠ 0 →
    ptr m oi p = ptr m oi q → p = q

/-- Block `n` of a file, and the index blocks above it that are missing. -/
def blocksNeeded (m : Bytes) (oi n : Nat) : Nat :=
  if n < 10 then 1
  else if n < 266 then if oiIndirect m oi = 0 then 2 else 1
  else if oiIndirect2 m oi = 0 then 3
  else if blockWord m (oiIndirect2 m oi) ((n - 266) / 256) = 0 then 2 else 1

/-- What `add_block` is to do to a file of `n` blocks. -/
structure AddsBlock (m : Bytes) (oi n : Nat) : Prop where
  result : (addBlock m oi).2 = 0
  count : size2nblocks (oiSize (addBlock m oi).1 oi) = n + 1
  kept : ∀ j, j < n → blockOf (addBlock m oi).1 oi j = blockOf m oi j
  free : blockOf (addBlock m oi).1 oi n < osNblocks m ∧
    isFree m (blockOf (addBlock m oi).1 oi n) = true
  marked : isFree (addBlock m oi).1 (blockOf (addBlock m oi).1 oi n) = false
  zero : ZeroBlock (addBlock m oi).1 (blockOf (addBlock m oi).1 oi n)

theorem dataStart_of_superblock {m' : Bytes} (h : osNblocks m' = osNblocks m ∧
    osNinodes m' = osNinodes m ∧ osFirstinob m' = osFirstinob m) : dataStart m' = dataStart m := by
  obtain ⟨_, h2, h3⟩ := h
  unfold dataStart
  rw [h2, h3]

theorem blockOf_symlink (h : oiFtype m oi = FTYPE_SYMLINK) : blockOf m oi j = 0 := by
  unfold blockOf ospfsInodeBlockno
  simp only [h, or_true, if_true]

theorem blockOf_eq_ptr (hf : oiFtype m oi ≠ FTYPE_SYMLINK) (hlt : 1024 * j < oiSize m oi)
    (hj : j < 65802) (habove : ∀ p, (dataSlot j).Below p → ptr m oi p ≠ 0) :
    blockOf m oi j = ptr m oi (dataSlot j) := by
  have hdiv : 1024 * j / 1024 = j := Nat.mul_div_cancel_left j (by omega)
  have heq := blockno_eq_ptr (a := 1024 * j) hf hlt (by rw [hdiv]; exact hj)
  rw [hdiv] at heq
  exact heq fun p k hp _ => (if_neg (habove p hp)).symm

section BlockMap
variable (hl : Layout m oi) (hm : Mapped m oi n) (hn : n < 65802)

section Layout

section Parts
variable (hp : Parts m oi)
include hp

/-- The parts lie where the superblock says. -/
theorem Parts.of_superblock {m' : Bytes} (h : osNblocks m' = osNblocks m ∧
    osNinodes m' = osNinodes m ∧ osFirstinob m' = osFirstinob m) : Parts m' oi := by
  obtain ⟨h1, h2, h3⟩ := h
  obtain ⟨ino, hino⟩ := hp.inode
  constructor
  · rw [h1, h3]
    exact hp.free_map
  · unfold dataStart
    rw [h1, h2, h3]
    exact hp.room
  · rw [h1]
    exact hp.small
  · refine ⟨ino, ?_⟩
    unfold ospfsInode at hino ⊢
    rw [h2, h3]
    exact hino

theorem Parts.dataStart_pos : 3 ≤ dataStart m := by
  have h1 := hp.free_map
  have h2 := hp.room
  obtain ⟨ino, hino⟩ := hp.inode
  unfold ospfsInode at hino
  split at hino
  · cases hino
  · unfold dataStart at *
    omega

theorem Parts.inode_place :
    1024 * osFirstinob m ≤ oi ∧ oi + 64 ≤ 1024 * dataStart m ∧ oi % 64 = 0 := by
  have h2 := hp.room
  have h3 := hp.small
  obtain ⟨ino, hino⟩ := hp.inode
  unfold ospfsInode at hino
  split at hino
  · cases hino
  · unfold dataStart at *
    rw [ospfsBlock_of_lt (by omega), Option.some.injEq] at hino
    omega

/-- The word of the free map with the bit of a block. -/
theorem Parts.map_word (hb : b < osNblocks m) :
    freemap + 4 * (b / 32) + 4 ≤ 1024 * osFirstinob m := by
  have h1 := hp.free_map
  unfold freemap
  omega

end Parts

include hl

theorem Layout.parts : Parts m oi := ⟨hl.free_map, hl.room, hl.small, hl.inode⟩

theorem Layout.dataStart_pos : 3 ≤ dataStart m := hl.parts.dataStart_pos

theorem Layout.inode_place : 1024 * osFirstinob m ≤ oi ∧ oi + 64 ≤ 1024 * dataStart m := by
  obtain ⟨h1, h2, _⟩ := hl.parts.inode_place
  exact ⟨h1, h2⟩

include hm

theorem Mapped.working : Working m oi (dataStart m) where
  tree :=
    { bound := fun p hp h0 => by
        have hsmall := hl.small
        obtain ⟨h1, h2, _⟩ := hm.index p hp h0
        omega
      inj := hm.index_distinct
      region := hl.inode_place.2 }
  small := hl.small
  super := by
    have h1 := hl.free_map
    have h2 := hl.inode_place
    unfold freemap
    omega
  map c hc := by
    have h1 := hl.free_map
    have h2 := hl.inode_place
    unfold freemap
    omega
  used p hp h0 := (hm.index p hp h0).2
  reserved := hl.reserved

theorem Mapped.data_ne_zero (hj : j < n) : blockOf m oi j ≠ 0 := by
  have hpos := hl.dataStart_pos
  have hge := (hm.data j hj).1
  omega

include hn

theorem Mapped.blockOf_eq (hj : j < n) :
    blockOf m oi j = ptr m oi (dataSlot j) := by
  have hsize := hm.size
  apply blockOf_eq_ptr
  · intro hf
    exact hm.data_ne_zero hl hj (blockOf_symlink hf)
  · omega
  · omega
  · intro p hp
    exact hm.above j p hj hp

end Layout

include hm hn in
theorem Mapped.count : size2nblocks (oiSize m oi) = n := by
  have hsize := hm.size
  rw [size2nblocks_of_lt (by omega)]
  omega

theorem blocksNeeded_pos : 1 ≤ blocksNeeded m oi n := by
  unfold blocksNeeded
  split
  · omega
  · split
    · split <;> omega
    · split
      · omega
      · split <;> omega

include hn in
theorem addBlockAt_stores (h : Working m oi lo) (hfree : blocksNeeded m oi n ≤ freeCount m)
    (hslot : n < 266 ∨ 522 ≤ n) : Stores oi lo (dataSlot n) m (addBlockAt m oi n) := by
  unfold blocksNeeded at hfree
  unfold addBlockAt
  by_cases h10 : n < 10
  · have hidx : indirIndex n = -1 := if_pos h10
    rw [if_pos h10] at hfree
    rw [if_pos hidx, dataSlot_direct h10]
    exact addDirect_stores h hfree h10
  rw [if_neg h10] at hfree
  by_cases h266 : n < 266
  · have hidx : indirIndex n = 0 := by
      unfold indirIndex
      rw [if_neg h10, if_pos h266]
    rw [if_pos h266] at hfree
    rw [if_neg (by omega), if_pos hidx, dataSlot_entry (by omega) h266]
    exact addIndirect_stores h hfree
  · have hidx := indirIndex_leaf (k := n) (by omega)
    have hidx2 : indir2Index n = 0 := if_pos (by omega)
    rw [if_neg h266, ← hidx] at hfree
    rw [if_neg (by omega), if_neg (by omega), if_pos hidx2, dataSlot_leaf (by omega) hn]
    exact addIndirect2_stores (indirIndex_lt (by omega) hn) h hfree

/-- The first blocks below the doubly indirect block go to the indirect block once more. -/
theorem addBlockAt_reuses (h : Working m oi lo) (hfree : 1 ≤ freeCount m)
    (hind : oiIndirect m oi ≠ 0) (h1 : 266 ≤ n) (h2 : n < 522) :
    Stores oi lo (dataSlot (n - 256)) m (addBlockAt m oi n) := by
  have hidx : indirIndex n = 0 := by
    unfold indirIndex
    rw [if_neg (by omega), if_neg (by omega)]
    omega
  have hdirect : directIndex (n - 256) = directIndex n := by
    unfold directIndex
    rw [if_neg (by omega), if_neg (by omega)]
    omega
  have hslot : dataSlot (n - 256) = .entry ⟨directIndex n, directIndex_lt n⟩ := by
    rw [dataSlot_entry (by omega) (by omega)]
    simp only [hdirect]
  unfold addBlockAt
  rw [if_neg (by omega), if_pos hidx, hslot]
  exact addIndirect_stores h (by rw [if_neg hind]; exact hfree)

include hm hn in
theorem NewBlock.blockOf_eq {m' : Bytes} (hnew : NewBlock oi s b m m')
    (hsize : oiSize m' oi = oiSize m oi + 1024) (hf : oiFtype m oi ≠ FTYPE_SYMLINK) (hj : j ≤ n)
    (h0 : ptr m' oi (dataSlot j) ≠ 0) : blockOf m' oi j = ptr m' oi (dataSlot j) := by
  have hcovers := hm.size
  apply blockOf_eq_ptr
  · rw [hnew.ftype]
    exact hf
  · omega
  · omega
  · intro p hp hp0
    exact h0 (ptr_below_zero hp hp0)

/-- A new block in the slot of block `n` is what was asked for. -/
theorem NewBlock.addsBlock (hl : Layout m oi) (hm : Mapped m oi n) (hn : n < 65802)
    (hf : oiFtype m oi ≠ FTYPE_SYMLINK) (hresult : (addBlock m oi).2 = 0)
    (hnew : NewBlock oi (dataSlot n) b m (addBlock m oi).1)
    (hsize : oiSize (addBlock m oi).1 oi = oiSize m oi + 1024) : AddsBlock m oi n := by
  have hb0 : b ≠ 0 := (hm.working hl).free_ne_zero hnew.fresh
  have hcovers := hm.size
  have hlast : blockOf (addBlock m oi).1 oi n = b := by
    rw [hnew.blockOf_eq hm hn hsize hf (Nat.le_refl n) (by rw [hnew.slot]; exact hb0), hnew.slot]
  constructor
  · exact hresult
  · rw [hsize, size2nblocks_of_lt (by omega)]
    omega
  · intro j hj
    have hold := hm.blockOf_eq hl hn hj
    have hold0 : ptr m oi (dataSlot j) ≠ 0 := hold ▸ hm.data_ne_zero hl hj
    have hne : dataSlot j ≠ dataSlot n := fun heq => by
      have := dataSlot_inj (by omega) hn heq
      omega
    have hkept := hnew.others _ hne hold0
    rw [hnew.blockOf_eq hm hn hsize hf (by omega) (by rw [hkept]; exact hold0), hkept, hold]
  · rw [hlast]
    exact ⟨hnew.bound, hnew.fresh⟩
  · rw [hlast]
    exact hnew.marked
  · rw [hlast]
    exact hnew.zero

/-- A new block in the slot of an earlier block takes its place. -/
theorem NewBlock.replaces (hl : Layout m oi) (hm : Mapped m oi n) (hn : n < 65802) (hj : j < n)
    (hf : oiFtype m oi ≠ FTYPE_SYMLINK) (hnew : NewBlock oi (dataSlot j) b m (addBlock m oi).1)
    (hsize : oiSize (addBlock m oi).1 oi = oiSize m oi + 1024) :
    blockOf (addBlock m oi).1 oi j ≠ blockOf m oi j := by
  have hb0 : b ≠ 0 := (hm.working hl).free_ne_zero hnew.fresh
  have hused := (hm.data j hj).2.2
  rw [hnew.blockOf_eq hm hn hsize hf (by omega) (by rw [hnew.slot]; exact hb0), hnew.slot]
  intro heq
  rw [← heq, hnew.fresh] at hused
  cases hused

/-- `add_block` extends the block map of the read path, except for the first 256 blocks below the doubly
indirect block. -/
theorem addBlock_extends_iff (hl : Layout m oi) (hm : Mapped m oi n) (hn : n < 65802)
    (hfree : blocksNeeded m oi n ≤ freeCount m) :
    AddsBlock m oi n ↔ oiFtype m oi ≠ FTYPE_SYMLINK ∧ (n < 266 ∨ 522 ≤ n) := by
  have hworking := hm.working hl
  have hcount := hm.count hn
  have hcovers := hm.size
  have hpos : 1 ≤ freeCount m := le_trans blocksNeeded_pos hfree
  constructor
  · intro h
    have hf : oiFtype m oi ≠ FTYPE_SYMLINK := by
      intro hf
      have hn0 : n = 0 := by
        by_contra hne
        exact hm.data_ne_zero hl (show 0 < n by omega) (blockOf_symlink hf)
      subst hn0
      obtain ⟨b, -, hnew, -⟩ := addBlock_newBlock hworking (by omega) hcount
        (addBlockAt_stores hn hworking hfree (.inl (by omega)))
      have hzero : blockOf (addBlock m oi).1 oi 0 = 0 := blockOf_symlink (hnew.ftype.trans hf)
      have hlow := hl.reserved 0 (by have := hl.dataStart_pos; omega)
      rw [← hzero, h.free.2] at hlow
      cases hlow
    refine ⟨hf, ?_⟩
    by_contra hslot
    have hind : oiIndirect m oi ≠ 0 := hm.above 10 .indirect (by omega) (.inl rfl)
    obtain ⟨b, -, hnew, hsize⟩ := addBlock_newBlock hworking (by omega) hcount
      (addBlockAt_reuses hworking hpos hind (by omega) (by omega))
    exact hnew.replaces hl hm hn (by omega) hf hsize (h.kept (n - 256) (by omega))
  · rintro ⟨hf, hslot⟩
    obtain ⟨b, hresult, hnew, hsize⟩ := addBlock_newBlock hworking (by omega) hcount
      (addBlockAt_stores hn hworking hfree hslot)
    exact hnew.addsBlock hl hm hn hf hresult hsize

end BlockMap

section BigFile

/-- The words of a disk of 300 blocks, of which the last 29 are free. Inode 2 has a file of 266 blocks,
and inode 1 is empty. -/
def bigWord (k : Nat) : Nat :=
  if k = 257 then 300 else if k = 258 then 16 else if k = 259 then 3
  else if k = 520 then 4294934528 else if k = 521 then 4095
  else if k = 800 then 272384 else if 804 ≤ k ∧ k < 814 then k - 800 else if k = 814 then 14
  else if 3584 ≤ k ∧ k < 3840 then k - 3569 else 0

def bigFile : Bytes := fun a => UInt8.ofNat (bigWord (a / 4) / 256 ^ (a % 4))

/-- What the results about `bigFile` read of it. -/
theorem bigFile_reads :
    (osNblocks bigFile = 300 ∧ osNinodes bigFile = 16 ∧ osFirstinob bigFile = 3) ∧
    ((∀ b, b < 300 → isFree bigFile b = decide (271 ≤ b)) ∧ freeCount bigFile = 29) ∧
    (oiFtype bigFile 3200 = FTYPE_REG ∧ oiSize bigFile 3200 = 272384 ∧
      ptr bigFile 3200 .indirect = 14 ∧ oiIndirect2 bigFile 3200 = 0 ∧
      ∀ j, j < 266 → blockOf bigFile 3200 j = if j < 10 then 4 + j else 5 + j) ∧
    ∀ k, k < 64 → bigFile (3136 + k) = 0 := by
  decide +kernel

theorem bigFile_super : osNblocks bigFile = 300 ∧ osNinodes bigFile = 16 ∧ osFirstinob bigFile = 3 :=
  bigFile_reads.1

theorem bigFile_free : ∀ b, b < 300 → isFree bigFile b = decide (271 ≤ b) := bigFile_reads.2.1.1

theorem bigFile_freeCount : freeCount bigFile = 29 := bigFile_reads.2.1.2

theorem bigFile_ftype : oiFtype bigFile 3200 = FTYPE_REG := bigFile_reads.2.2.1.1

theorem bigFile_size : oiSize bigFile 3200 = 272384 := bigFile_reads.2.2.1.2.1

theorem bigFile_blockOf : ∀ j, j < 266 → blockOf bigFile 3200 j = if j < 10 then 4 + j else 5 + j :=
  bigFile_reads.2.2.1.2.2.2.2

theorem bigFile_dataStart : dataStart bigFile = 4 := by
  obtain ⟨-, h2, h3⟩ := bigFile_super
  unfold dataStart
  rw [h2, h3]

theorem bigFile_allocated {b : Nat} (h1 : 4 ≤ b) (h2 : b < 271) : Allocated bigFile b := by
  unfold Allocated
  rw [bigFile_dataStart, bigFile_super.1, bigFile_free b (by omega)]
  exact ⟨h1, by omega, decide_eq_false (by omega)⟩

theorem bigFile_layout {i : Nat} (h : i < 16) : Layout bigFile (3072 + 64 * i) := by
  obtain ⟨h1, h2, h3⟩ := bigFile_super
  constructor
  · rw [h1, h3]
  · rw [bigFile_dataStart, h1]
    decide
  · rw [h1]
    decide
  · refine ⟨i, ?_⟩
    unfold ospfsInode
    rw [h2, h3, if_neg (by omega)]
    rfl
  · intro b hb
    rw [bigFile_dataStart] at hb
    rw [bigFile_free b (by omega)]
    exact decide_eq_false (by omega)

theorem bigFile_index : ptr bigFile 3200 .indirect = 14 ∧
    ∀ p, p.isIndex = true → ptr bigFile 3200 p ≠ 0 → p = .indirect := by
  obtain ⟨-, -, hind, hind2, -⟩ := bigFile_reads.2.2.1
  refine ⟨hind, fun p hp h0 => ?_⟩
  cases p with
  | indirect => rfl
  | indirect2 => exact absurd hind2 h0
  | entry2 k =>
    rw [ptr, hind2, below_zero] at h0
    exact absurd rfl h0
  | direct k => cases hp
  | entry j => cases hp
  | leaf k j => cases hp

theorem bigFile_mapped : Mapped bigFile 3200 266 := by
  obtain ⟨hind, hindex⟩ := bigFile_index
  constructor
  · rw [bigFile_size]
    decide
  · intro j hj
    rw [bigFile_blockOf j hj]
    split <;> exact bigFile_allocated (by omega) (by omega)
  · intro j k hj hk heq
    rw [bigFile_blockOf j hj, bigFile_blockOf k hk] at heq
    split at heq <;> split at heq <;> omega
  · intro j p hj hp
    have h10 : 10 ≤ j := by
      by_contra hlt
      rw [dataSlot_direct (by omega)] at hp
      exact Slot.not_below_root rfl hp
    rw [dataSlot_entry h10 hj] at hp
    have heq : Slot.indirect = p :=
      ((Slot.below_iff rfl).mp hp).resolve_right (Slot.not_below_root rfl)
    rw [← heq, hind]
    decide
  · intro p hp h0
    rw [hindex p hp h0, hind]
    exact bigFile_allocated (by decide) (by decide)
  · intro p q hp hq h0 heq
    rw [hindex p hp h0, hindex q hq (heq ▸ h0)]

theorem bigFile_needed : blocksNeeded bigFile 3200 266 ≤ freeCount bigFile := by
  obtain ⟨-, -, -, hind2, -⟩ := bigFile_reads.2.2.1
  rw [bigFile_freeCount, blocksNeeded, if_neg (by decide), if_neg (by decide), if_pos hind2]
  decide

theorem bigFile_empty : Mapped bigFile 3136 0 := by
  have hzero : ∀ k, 16 ≤ k → k < 64 → bigFile (3136 + k) = 0 := fun k _ hk =>
    bigFile_reads.2.2.2 k hk
  have hsize : oiSize bigFile 3136 = 0 := by decide
  constructor
  · rw [hsize]
    decide
  · intro j hj
    omega
  · intro j k hj
    omega
  · intro j p hj
    omega
  · intro p _ h0
    exact absurd (ptr_eq_zero hzero p) h0
  · intro p q _ _ h0
    exact absurd (ptr_eq_zero hzero p) h0

/-- The file of inode 1 gets its first block, and that of inode 2 cannot get block 266. -/
theorem addBlock_extends_iff_bigFile :
    AddsBlock bigFile 3136 0 ∧ ¬ AddsBlock bigFile 3200 266 := by
  constructor
  · apply (addBlock_extends_iff (bigFile_layout (i := 1) (by decide)) bigFile_empty (by decide)
      _).mpr
    · exact ⟨by decide, .inl (by decide)⟩
    · rw [bigFile_freeCount]
      decide
  · intro h
    have hslot := (addBlock_extends_iff (bigFile_layout (i := 2) (by decide)) bigFile_mapped
      (by decide) bigFile_needed).mp h
    exact absurd hslot.2 (by decide)

/-- Block 266 is stored where the file has block 10. -/
theorem block_266_replaces_block_10 : Layout bigFile 3200 ∧ Mapped bigFile 3200 266 ∧
    blocksNeeded bigFile 3200 266 ≤ freeCount bigFile ∧ blockOf bigFile 3200 10 = 15 ∧
    blockOf (addBlock bigFile 3200).1 3200 10 = 271 ∧ ¬ AddsBlock bigFile 3200 266 := by
  have hbefore : blockOf bigFile 3200 10 = 15 := bigFile_blockOf 10 (by decide)
  have hafter : blockOf (addBlock bigFile 3200).1 3200 10 = 271 := by decide +kernel
  refine ⟨bigFile_layout (i := 2) (by decide), bigFile_mapped, bigFile_needed, hbefore, hafter,
    fun h => ?_⟩
  have hkept := h.kept 10 (by decide)
  rw [hbefore, hafter] at hkept
  exact absurd hkept (by decide)

end BigFile

end CS111.Ospfs
