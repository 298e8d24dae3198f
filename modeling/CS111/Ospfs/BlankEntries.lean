import CS111.Lib.Fallible
import CS111.Ospfs.Directories
import CS111.Ospfs.SizeLimits

/-!
# The search for a blank entry

`create_blank_direntry` on any directory that has all its blocks, also where the new block goes into a
wrong slot. It fails with no error: it returns an entry, or runs for ever on a full disk.
-/

namespace CS111.Ospfs

open Memory Fuel

set_option autoImplicit false

variable {m m' x : Bytes} {dir i oi oj n newSize off od : Nat} {U V : Slot → Prop}

section Definitions

/-- A directory with all its blocks, on a volume with a root directory. -/
structure DirectoryTree (m : Bytes) (dir oi n : Nat) : Prop where
  inode : ospfsInode m dir = some oi
  tree : FileTree m oi n
  size_le : oiSize m oi ≤ maxFileSize
  aligned : oiSize m oi % 128 = 0
  root : 2 ≤ osNinodes m

/-- A directory that grows is not so large that `add_block` writes behind the doubly indirect block, and
where a missing index block is taken for the boot block, this one is zero. -/
structure GrowsPlainly (m : Bytes) (oi n : Nat) : Prop where
  max : oiSize m oi < maxFileSize
  boot : 266 ≤ n → n < 522 → ∀ a, a < 1024 → m a = 0

/-- One more entry fits into the last block, or the disk has what a new block needs. -/
def CanGrow (m : Bytes) (oi : Nat) : Prop :=
  size2nblocks (oiSize m oi + 128) = size2nblocks (oiSize m oi) ∨
    slotCost m oi (addSlot (size2nblocks (oiSize m oi))) ≤ freeCount m

/-- Entry `od` of the directory is blank, after the directory has grown if it had no blank one. The
entry lies away from the superblock and the inodes. -/
structure NewEntry (m : Bytes) (oi : Nat) (m' : Bytes) (od : Nat) : Prop where
  low : ∀ a, a < freemap → m' a = m a
  nlink : ∀ i oj, ospfsInode m i = some oj → oiNlink m' oj = oiNlink m oj
  apart : od + 128 ≤ 1024 ∨ 1024 * dataStart m ≤ od
  source : (m' = m ∧ (firstBlank m oi).isSome = true) ∨
    (firstBlank m oi = none ∧ oiSize m' oi = oiSize m oi + 128)

end Definitions

section Sizes

/-- The block count stays. -/
theorem changeSize_keeps_count (h : size2nblocks newSize = size2nblocks (oiSize m oi)) :
    Returns (fun fuel => changeSize fuel m oi newSize) (setSize m oi newSize, 0) := by
  have hrun : ∀ fuel, changeSize (fuel + 1) m oi newSize = some (setSize m oi newSize, 0) := by
    intro fuel
    rw [changeSize_shrinks (Nat.le_of_eq h), removeBlocks, if_neg (by omega)]
    rfl
  constructor
  · exact ⟨1, hrun 0⟩
  · intro fuel r hr
    cases fuel with
    | zero => cases hr
    | succ fuel => exact Option.some.inj (hr.symm.trans (hrun fuel))

theorem changeSize_one_more (hret : (addBlock m oi).2 = 0)
    (hcount : size2nblocks (oiSize (addBlock m oi).1 oi) = size2nblocks newSize)
    (hlt : size2nblocks (oiSize m oi) < size2nblocks newSize) :
    Returns (fun fuel => changeSize fuel m oi newSize) (setSize (addBlock m oi).1 oi newSize, 0) := by
  have hadd : ∀ fuel, addBlocks oi (oiSize m oi) newSize (fuel + 1) m =
      addBlocks oi (oiSize m oi) newSize fuel (addBlock m oi).1 := by
    intro fuel
    rw [addBlocks, if_pos hlt]
    dsimp only
    rw [hret, if_neg (by decide), if_neg (by decide)]
  have hrun : ∀ fuel, changeSize (fuel + 2) m oi newSize =
      some (setSize (addBlock m oi).1 oi newSize, 0) := by
    intro fuel
    unfold changeSize
    rw [hadd, addBlocks, if_neg (by omega)]
    dsimp only
    rw [if_neg (by decide), removeBlocks, if_neg (by omega)]
    rfl
  constructor
  · exact ⟨2, hrun 0⟩
  · intro fuel r hr
    cases fuel with
    | zero => cases hr
    | succ fuel =>
      cases fuel with
      | zero =>
        change changeSize 1 m oi newSize = some r at hr
        unfold changeSize at hr
        rw [hadd] at hr
        cases hr
      | succ fuel => exact Option.some.inj (hr.symm.trans (hrun fuel))

/-- What is missing for the next block does not change by failing attempts. -/
theorem SlotTree.slotCost_eq (h : SlotTree m oi U) (h' : SlotTree x oi U) (s : Slot) :
    slotCost x oi s = slotCost m oi s := by
  have hzero : ∀ t, (ptr x oi t = 0 ↔ ptr m oi t = 0) := fun t =>
    not_iff_not.mp ((h'.used t).trans (h.used t).symm)
  cases s with
  | entry j => exact if_congr (hzero .indirect) rfl rfl
  | leaf k j =>
    exact if_congr (hzero .indirect2) rfl (if_congr (hzero (.entry2 k)) rfl rfl)
  | _ => rfl

end Sizes

section Grow
variable (h : DirectoryTree m dir oi n)
include h

theorem DirectoryTree.blocks : n = (oiSize m oi + 1023) / 1024 ∧
    size2nblocks (oiSize m oi + 128) = (oiSize m oi + 1151) / 1024 ∧ n ≤ 65802 := by
  have hsize := h.size_le
  have hcount := h.tree.count
  rw [size_blocks hsize] at hcount
  unfold maxFileSize at hsize
  exact ⟨hcount.symm, size2nblocks_of_lt (by omega), by omega⟩

theorem DirectoryTree.parts : Parts m oi := h.tree.layout.parts

/-- The link counts lie among the bytes that growing leaves alone. -/
theorem DirectoryTree.nlink_kept (hj : ospfsInode m i = some oj)
    (hfields : ∀ a, 1024 * osFirstinob m ≤ a → a < 1024 * dataStart m →
      a < oi ∨ oi + 4 ≤ a ∧ a < oi + 16 ∨ oi + 64 ≤ a → m' a = m a) :
    oiNlink m' oj = oiNlink m oj := by
  have hp := h.parts
  have hpj : Parts m oj := ⟨hp.free_map, hp.room, hp.small, i, hj⟩
  obtain ⟨_, _, hmod⟩ := hp.inode_place
  obtain ⟨h1, h2, hmodj⟩ := hpj.inode_place
  apply rd32_congr
  intro k hk
  exact hfields _ (by omega) (by omega) (by omega)

/-- An entry lies in one block. -/
theorem DirectoryTree.entry_apart (hoff : off % 128 = 0)
    (hblock : ospfsInodeBlockno x oi off = 0 ∨ dataStart m ≤ ospfsInodeBlockno x oi off ∧
      ospfsInodeBlockno x oi off < osNblocks m) :
    ospfsInodeData x oi off + 128 ≤ 1024 ∨ 1024 * dataStart m ≤ ospfsInodeData x oi off := by
  have hsmall := h.parts.small
  unfold ospfsInodeData
  rcases hblock with h0 | ⟨h1, h2⟩
  · rw [h0, ospfsBlock_of_lt (by decide)]
    omega
  · rw [ospfsBlock_of_lt (by omega)]
    omega

theorem DirectoryTree.firstBlank_apart (hfind : firstBlank m oi = some od) :
    od + 128 ≤ 1024 ∨ 1024 * dataStart m ≤ od := by
  have hmem := List.mem_of_find?_eq_some hfind
  unfold entries entryOffsets at hmem
  rw [List.map_map] at hmem
  obtain ⟨k, hk, rfl⟩ := List.mem_map.mp hmem
  have hk := List.mem_range.mp hk
  have haligned := h.aligned
  obtain ⟨hn, _, _⟩ := h.blocks
  have hused : ptr m oi (dataSlot (128 * k / 1024)) ≠ 0 := by
    rw [h.tree.used, first_dataSlot (by omega)]
    omega
  refine h.entry_apart (show 128 * k % 128 = 0 by omega) ?_
  rw [blockno_eq_slot h.tree.ftype (by omega) h.size_le hused]
  exact .inr (h.tree.pointed _ hused)

/-- A new entry in the last block. -/
theorem DirectoryTree.entry_fits
    (hsame : size2nblocks (oiSize m oi + 128) = size2nblocks (oiSize m oi))
    (hnone : firstBlank m oi = none) :
    NewEntry m oi (setSize m oi (oiSize m oi + 128))
      (ospfsInodeData (setSize m oi (oiSize m oi + 128)) oi (oiSize m oi)) := by
  obtain ⟨hn, hnext, hmax⟩ := h.blocks
  rw [h.tree.count] at hsame
  have hkept := h.tree.slotTree.setSize_kept (K := fun _ => True) (oiSize m oi + 128)
  have hnew : oiSize (setSize m oi (oiSize m oi + 128)) oi = oiSize m oi + 128 :=
    oiSize_setSize (by omega)
  have hused : ptr (setSize m oi (oiSize m oi + 128)) oi (dataSlot (oiSize m oi / 1024)) ≠ 0 := by
    rw [hkept.ptr _ trivial, h.tree.used, first_dataSlot (by omega)]
    omega
  constructor
  · exact hkept.low
  · intro i oj hj
    exact h.nlink_kept hj fun a _ _ ha => wr32_outside (by omega)
  · apply h.entry_apart h.aligned
    rw [blockno_eq_slot (by rw [hkept.ftype]; exact h.tree.ftype) (by omega)
      (by rw [hnew]; unfold maxFileSize; omega) hused, hkept.ptr _ trivial]
    rw [hkept.ptr _ trivial] at hused
    exact .inr (h.tree.pointed _ hused)
  · exact .inr ⟨hnone, hnew⟩

variable (hplain : GrowsPlainly m oi n)
include hplain

/-- A new entry at the beginning of a new block. -/
theorem DirectoryTree.entry_added
    (hmore : size2nblocks (oiSize m oi + 128) ≠ size2nblocks (oiSize m oi))
    (hgrows : Grows oi (·.first < n) n m x) (hnone : firstBlank m oi = none) :
    NewEntry m oi (setSize x oi (oiSize m oi + 128))
      (ospfsInodeData (setSize x oi (oiSize m oi + 128)) oi (oiSize m oi)) := by
  obtain ⟨hn, hnext, _⟩ := h.blocks
  have haligned := h.aligned
  have hmax := hplain.max
  unfold maxFileSize at hmax
  rw [h.tree.count] at hmore
  have hsize : oiSize m oi / 1024 = n := by omega
  have hkept := hgrows.kept.trans (hgrows.tree.setSize_kept (oiSize m oi + 128))
  obtain ⟨htree, _⟩ := hgrows.tree.sized (oiSize m oi + 128)
  have hnew : oiSize (setSize x oi (oiSize m oi + 128)) oi = oiSize m oi + 128 :=
    oiSize_setSize (by omega)
  have hftype : oiFtype (setSize x oi (oiSize m oi + 128)) oi ≠ FTYPE_SYMLINK := by
    rw [hkept.ftype]
    exact h.tree.ftype
  have hblock : ospfsInodeBlockno (setSize x oi (oiSize m oi + 128)) oi (oiSize m oi) =
      ptr (setSize x oi (oiSize m oi + 128)) oi (dataSlot (oiSize m oi / 1024)) := by
    by_cases hwrong : 266 ≤ n ∧ n < 522
    · refine blockno_boot (fun a ha => ?_) hftype (by rw [hnew]; omega) (by omega)
      rw [hkept.low a (by unfold freemap; omega)]
      exact hplain.boot hwrong.1 hwrong.2 a ha
    · apply blockno_eq_slot hftype (by rw [hnew]; omega) (by rw [hnew]; unfold maxFileSize; omega)
      rw [hsize]
      exact (htree.used _).mpr (.inl (.inl (addSlot_eq (by omega)).symm))
  constructor
  · exact hkept.low
  · intro i oj hj
    refine h.nlink_kept hj fun a h1 h2 ha => ?_
    exact (wr32_outside (by omega)).trans (hgrows.fields a h1 h2 ha)
  · apply h.entry_apart h.aligned
    rw [hblock]
    by_cases h0 : ptr (setSize x oi (oiSize m oi + 128)) oi (dataSlot (oiSize m oi / 1024)) = 0
    · exact .inl h0
    · have hplace := htree.pointed _ h0
      rw [hkept.dataStart, hkept.superblock.1] at hplace
      exact .inr hplace
  · exact .inr ⟨hnone, hnew⟩

/-- The growth of the directory. -/
theorem DirectoryTree.grows (hnone : firstBlank m oi = none) :
    (CanGrow m oi ∧ ∃ m', NewEntry m oi m' (ospfsInodeData m' oi (oiSize m oi)) ∧
      Returns (fun fuel => changeSize fuel m oi (oiSize m oi + 128)) (m', 0)) ∨
    (¬ CanGrow m oi ∧ Diverges fun fuel => changeSize fuel m oi (oiSize m oi + 128)) := by
  obtain ⟨hblocks, hnext, _⟩ := h.blocks
  have hcount := h.tree.count
  by_cases hsame : size2nblocks (oiSize m oi + 128) = size2nblocks (oiSize m oi)
  · exact .inl ⟨.inl hsame, _, h.entry_fits hsame hnone, changeSize_keeps_count hsame⟩
  have hlt : size2nblocks (oiSize m oi) < size2nblocks (oiSize m oi + 128) := by omega
  have hmax := hplain.max
  unfold maxFileSize at hmax
  have hn : n < 65802 := by
    have haligned := h.aligned
    omega
  rcases addBlock_cases h.tree.slotTree hn hcount with ⟨hle, hret, hgrows⟩ | ⟨hfull, _, _⟩
  · refine .inl ⟨.inr (by rw [hcount]; exact hle), _, h.entry_added hplain hsame hgrows hnone, ?_⟩
    exact changeSize_one_more hret (by rw [hgrows.blocks]; omega) hlt
  · refine .inr ⟨?_, fun fuel => ?_⟩
    · rintro (hstays | hle)
      · exact hsame hstays
      · rw [hcount] at hle
        omega
    · refine changeSize_stuck (P := fun x => SlotTree x oi (·.first < n) ∧
        size2nblocks (oiSize x oi) = n ∧ freeCount x < slotCost m oi (addSlot n)) ?_
        ⟨h.tree.slotTree, hcount, hfull⟩ hlt
      rintro x ⟨hx, hxn, hxfull⟩
      have hcost := h.tree.slotTree.slotCost_eq hx (addSlot n)
      rcases addBlock_cases hx hn hxn with ⟨hle, _, _⟩ | ⟨_, hret, hrestored⟩
      · omega
      · have hfree := hrestored.count
        have hsize := hrestored.size
        exact ⟨hret, ⟨hrestored.tree, by rw [hsize, hxn], by omega⟩, by rw [hxn, hcount]⟩

omit hplain in
theorem createBlankDirentry_none (hnone : firstBlank m oi = none) (fuel : Nat) :
    createBlankDirentry fuel m oi =
      (changeSize fuel m oi (oiSize m oi + 128)).bind fun r =>
        if r.2 < 0 then some (r.1, .error r.2)
        else some (r.1, .ok (ospfsInodeData r.1 oi (oiSize m oi))) := by
  have hsize := h.size_le
  have hold : u32 (oiSize m oi + 128) = oiSize m oi + 128 := by
    unfold maxFileSize at hsize
    exact u32_of_lt (by omega)
  rw [createBlankDirentry_of_none hnone, hold]

omit hplain in
/-- The search returns an entry, or runs for ever. -/
theorem DirectoryTree.search (hplain : firstBlank m oi = none → GrowsPlainly m oi n) :
    (((firstBlank m oi).isSome = true ∨ CanGrow m oi) ∧ ∃ m' od, NewEntry m oi m' od ∧
      Returns (fun fuel => createBlankDirentry fuel m oi) (m', .ok od)) ∨
    (¬ ((firstBlank m oi).isSome = true ∨ CanGrow m oi) ∧
      Diverges fun fuel => createBlankDirentry fuel m oi) := by
  cases hfind : firstBlank m oi with
  | some od =>
    refine .inl ⟨.inl rfl, m, od, ?_, ?_⟩
    · exact ⟨fun _ _ => rfl, fun _ _ _ => rfl, h.firstBlank_apart hfind,
        .inl ⟨rfl, by rw [hfind]; rfl⟩⟩
    · have hrun : (fun fuel => createBlankDirentry fuel m oi) = fun _ => some (m, .ok od) := by
        funext fuel
        exact createBlankDirentry_of_some hfind
      rw [hrun]
      exact returns_some _
  | none =>
    have hrun := funext (createBlankDirentry_none h hfind)
    rw [hrun]
    rcases h.grows (hplain hfind) hfind with ⟨hcan, m', hentry, hreturns⟩ | ⟨hcannot, hdiverges⟩
    · exact .inl ⟨.inr hcan, m', _, hentry, hreturns.bind (if_neg (Int.lt_irrefl 0))⟩
    · refine .inr ⟨?_, hdiverges.bind⟩
      rintro (hsome | hcan)
      · cases hsome
      · exact hcannot hcan

end Grow

end CS111.Ospfs
