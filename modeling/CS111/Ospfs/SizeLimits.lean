import CS111.Ospfs.BoundedReads
import CS111.Ospfs.FullDisk
import CS111.Ospfs.SafeResizing

/-!
# The limits of `change_size`

The size that a call asks for can be beyond `OSPFS_MAXFILESIZE`, which the code never compares it with,
and a call can pass through the block counts at which `add_block` and `remove_block` lose blocks.
-/

namespace CS111.Ospfs

open Memory

set_option autoImplicit false

variable {m m' x y : Bytes} {oi n j k c last target fuel oldSize newSize : Nat} {s t p : Slot}
variable {U V K : Slot → Prop} {r : Bytes × Int}

section Definitions

/-- What a call that returns 0 is to have done. -/
structure GetsSize (m : Bytes) (oi newSize : Nat) (m' : Bytes) : Prop where
  size : oiSize m' oi = newSize
  mapped : ∀ x, x < newSize → Allocated m' (ospfsInodeBlockno m' oi x)
  bytes : ∀ x, x < oiSize m oi → x < newSize → contentAt m' oi x = contentAt m oi x

/-- Sizes up to `OSPFS_MAXFILESIZE` are given to the file when the call returns 0, and larger ones are
refused. -/
def KeepsLimits (m : Bytes) (oi newSize : Nat) : Prop :=
  (newSize ≤ maxFileSize → ∀ fuel m', changeSize fuel m oi newSize = some (m', 0) →
    GetsSize m oi newSize m') ∧
  (maxFileSize < newSize → ∃ fuel m' ret, changeSize fuel m oi newSize = some (m', ret) ∧ ret < 0 ∧
    oiSize m' oi = oiSize m oi ∧ ∀ x, x < oiSize m oi → contentAt m' oi x = contentAt m oi x)

/-- The blocks that a file of `n` blocks takes on its way to `target` blocks. File blocks 266 to 521 do
without a doubly indirect block, which is then missing for block 522. -/
def growthTakes (n target : Nat) : Nat := taken n target + if n ≤ 266 ∧ 522 < target then 1 else 0

/-- The size is not too large, a file that keeps its leaf index blocks loses none of them, and a file that
grows gets no block that `add_block` stores in a wrong place, or that the undo of `add_block` loses. -/
structure WithinLimits (m : Bytes) (oi newSize : Nat) : Prop where
  max : newSize ≤ maxFileSize
  shrinks : 266 ≤ size2nblocks newSize → ∀ k, size2nblocks newSize ≤ k →
    k < size2nblocks (oiSize m oi) → (k - 10) % 256 ≠ 0
  grows : GrowsSafely m (size2nblocks (oiSize m oi)) (size2nblocks newSize)

end Definitions

section Safe

theorem size_blocks (h : newSize ≤ maxFileSize) : size2nblocks newSize = (newSize + 1023) / 1024 := by
  unfold maxFileSize at h
  exact size2nblocks_of_lt (by omega)

/-- The end of `change_size`. -/
theorem SlotTree.getsSize (ht : SlotTree x oi (·.first < size2nblocks newSize))
    (hk : SlotsKept oi (fun s => s.first < n ∧ s.first < size2nblocks newSize) m x)
    (h : FileTree m oi n) (hsize : oiSize m oi ≤ maxFileSize) (hnew : newSize ≤ maxFileSize) :
    GetsSize m oi newSize (setSize x oi newSize) := by
  have hblocks := size_blocks hnew
  have hn := h.count
  rw [size_blocks hsize] at hn
  obtain ⟨hty, _⟩ := ht.sized newSize
  have hky := hk.trans (ht.setSize_kept newSize)
  have hsizey : oiSize (setSize x oi newSize) oi = newSize := by
    unfold maxFileSize at hnew
    exact oiSize_setSize (by omega)
  generalize setSize x oi newSize = y at hty hky hsizey
  have hslot : ∀ a, a < newSize → ospfsInodeBlockno y oi a = ptr y oi (dataSlot (a / 1024)) ∧
      (dataSlot (a / 1024)).first = a / 1024 ∧ a / 1024 < size2nblocks newSize := by
    intro a ha
    have hfirst : (dataSlot (a / 1024)).first = a / 1024 := by
      unfold maxFileSize at hnew
      exact first_dataSlot (by omega)
    refine ⟨?_, hfirst, by omega⟩
    apply blockno_eq_slot
    · rw [hky.ftype]
      exact h.ftype
    · rw [hsizey]
      exact ha
    · rw [hsizey]
      exact hnew
    · exact (hty.used _).mpr (by omega)
  constructor
  · exact hsizey
  · intro a ha
    obtain ⟨hblock, hfirst, hlt⟩ := hslot a ha
    rw [hblock]
    exact hty.allocated _ (by omega)
  · intro a hold ha
    obtain ⟨hblock, hfirst, hlt⟩ := hslot a ha
    have hused : ptr m oi (dataSlot (a / 1024)) ≠ 0 := (h.used _).mpr (by omega)
    have hsmall := h.layout.small
    have hbound := h.pointed _ hused
    have hsame := hky.ptr (dataSlot (a / 1024)) ⟨by omega, by omega⟩
    have holdblock := blockno_eq_slot h.ftype hold hsize hused
    unfold contentAt ospfsInodeData
    rw [hblock, hsame, holdblock, ospfsBlock_of_lt (by omega)]
    exact hky.data _ _ ⟨by omega, by omega⟩ (dataSlot_isIndex _) hused (by omega)

theorem FileTree.getsSize (h : FileTree m oi n) (hsize : oiSize m oi ≤ maxFileSize)
    (hlimits : WithinLimits m oi newSize) (hrun : changeSize fuel m oi newSize = some (m', 0)) :
    GetsSize m oi newSize m' := by
  have hnew := hlimits.max
  have hblocks := size_blocks hnew
  have hmax : size2nblocks newSize ≤ 65802 := by
    unfold maxFileSize at hnew
    omega
  have hshrinks := hlimits.shrinks
  have hgrows := hlimits.grows
  rw [h.count] at hshrinks hgrows
  by_cases hle : size2nblocks newSize ≤ n
  · rw [changeSize_shrinks (by rw [h.count]; exact hle), Option.map_eq_some_iff] at hrun
    obtain ⟨r, hrun, hr⟩ := hrun
    by_cases hneg : r.2 < 0
    · rw [if_pos hneg] at hr
      rw [hr] at hneg
      exact absurd hneg (Int.lt_irrefl 0)
    rw [if_neg hneg, Prod.mk.injEq] at hr
    obtain ⟨_, hcut⟩ := removeBlocks_safe h.slotTree h.count h.max hle (fun k h1 h2 => by
      by_cases h266 : size2nblocks newSize < 266
      · by_cases hn : 266 < n
        · have hbeyond := removeBlocks_beyond h.layout.parts h.pointed (by rw [h.count]; exact hn)
            h266 hrun
          exact absurd hbeyond hneg
        · exact .inl (by omega)
      · exact .inr (hshrinks (by omega) k h1 h2)) hrun
    rw [← hr.1]
    exact hcut.tree.getsSize (hcut.kept.mono fun s hs => hs.2) h hsize hnew
  · unfold changeSize at hrun
    cases hadded : addBlocks oi (oiSize m oi) newSize fuel m with
    | none =>
      rw [hadded] at hrun
      cases hrun
    | some r =>
      have hstart : OnTheWay oi n (size2nblocks newSize) m m n := by
        constructor
        · exact Nat.le_refl n
        · omega
        · exact h.slotTree
        · exact SlotsKept.refl
        · exact h.count
        · rw [taken_self]
          exact Nat.le_refl _
        · intro _
          rw [taken_self]
          rfl
      obtain ⟨hr, hway⟩ := addBlocks_safe hgrows hmax hstart h.count rfl hadded
      rw [hadded] at hrun
      dsimp only at hrun
      rw [if_neg (by omega)] at hrun
      cases hremoved : removeBlocks oi (size2nblocks newSize) fuel r.1 with
      | none =>
        rw [hremoved] at hrun
        cases hrun
      | some q =>
        obtain ⟨hq, hcut⟩ := removeBlocks_safe hway.tree hway.blocks hmax (Nat.le_refl _)
          (fun k h1 h2 => absurd h1 (by omega)) hremoved
        rw [hremoved] at hrun
        dsimp only at hrun
        rw [if_neg (by omega), Option.some.injEq, Prod.mk.injEq] at hrun
        rw [← hrun.1]
        refine hcut.tree.getsSize ?_ h hsize hnew
        exact (hway.kept.mono fun s hs => hs.1).trans (hcut.kept.mono fun s hs => hs.2)

end Safe

section Errors

theorem addDirect_result : (addDirect m oi n).2 = 0 ∨ (addDirect m oi n).2 = -ENOSPC := by
  unfold addDirect
  dsimp only
  split
  · exact .inr rfl
  · exact .inl rfl

theorem addEntry_result {a : Nat} : (addEntry m oi n a).2 = 0 ∨ (addEntry m oi n a).2 = -ENOSPC := by
  unfold addEntry
  dsimp only
  split
  · exact .inr rfl
  · exact .inl rfl

theorem addLeaf_result {b a0 a1 : Nat} :
    (addLeaf m oi n b a0 a1).2 = 0 ∨ (addLeaf m oi n b a0 a1).2 = -ENOSPC := by
  unfold addLeaf
  dsimp only
  split
  · exact .inr rfl
  · exact .inl rfl

theorem addEntry2_result {a : Nat} :
    (addEntry2 m oi n a).2 = 0 ∨ (addEntry2 m oi n a).2 = -ENOSPC := by
  unfold addEntry2
  dsimp only
  split
  · split
    · exact .inr rfl
    · exact addLeaf_result
  · exact addLeaf_result

/-- `add_block` never fails with `-EIO`. -/
theorem addBlock_result : (addBlock m oi).2 = 0 ∨ (addBlock m oi).2 = -ENOSPC := by
  have hat : ∀ n, (addBlockAt m oi n).2 = 0 ∨ (addBlockAt m oi n).2 = -ENOSPC := by
    intro n
    unfold addBlockAt addIndirect addIndirect2
    dsimp only
    split
    · exact addDirect_result
    · split
      · split
        · split
          · exact .inr rfl
          · exact addEntry_result
        · exact addEntry_result
      · split
        · split
          · split
            · exact .inr rfl
            · exact addEntry2_result
          · exact addEntry2_result
        · exact .inr rfl
  unfold addBlock
  dsimp only
  split
  · exact hat _
  · exact .inl rfl

/-- `remove_block` fails before it has done anything. -/
theorem removeBlock_error (h : (removeBlock m oi).2 < 0) : (removeBlock m oi).1 = m := by
  have hdirect : ∀ k, (removeDirect m oi k).2 < 0 → (removeDirect m oi k).1 = m := by
    intro k hk
    unfold removeDirect at hk ⊢
    split at hk
    · next h0 => rw [if_pos h0]
    · exact absurd hk (Int.lt_irrefl 0)
  have hentry : ∀ k, (removeEntry m oi k).2 < 0 → (removeEntry m oi k).1 = m := by
    intro k hk
    unfold removeEntry at hk ⊢
    dsimp only at hk ⊢
    split at hk
    · next h0 => rw [if_pos h0]
    · next h0 =>
      rw [if_neg h0]
      split at hk
      · next h1 => rw [if_pos h1]
      · exact absurd hk (Int.lt_irrefl 0)
  have hleaf : ∀ k, (removeLeaf m oi k).2 < 0 → (removeLeaf m oi k).1 = m := by
    intro k hk
    unfold removeLeaf at hk ⊢
    dsimp only at hk ⊢
    split at hk
    · next h0 => rw [if_pos h0]
    · next h0 =>
      rw [if_neg h0]
      split at hk
      · next h1 => rw [if_pos h1]
      · next h1 =>
        rw [if_neg h1]
        split at hk
        · next h2 => rw [if_pos h2]
        · split at hk <;> exact absurd hk (Int.lt_irrefl 0)
  have hat : ∀ k, (removeBlockAt m oi k).2 < 0 → (removeBlockAt m oi k).1 = m := by
    intro k hk
    unfold removeBlockAt at hk ⊢
    split at hk
    · next h0 =>
      rw [if_pos h0]
      exact hdirect k hk
    · next h0 =>
      rw [if_neg h0]
      split at hk
      · next h1 =>
        rw [if_pos h1]
        exact hentry k hk
      · next h1 =>
        rw [if_neg h1]
        split at hk
        · next h2 =>
          rw [if_pos h2]
          exact hleaf k hk
        · next h2 => rw [if_neg h2]
  unfold removeBlock at h ⊢
  dsimp only at h ⊢
  split at h
  · exact absurd h (Int.lt_irrefl 0)
  · next h0 =>
    rw [if_neg h0]
    split at h
    · next hneg =>
      rw [if_pos hneg]
      exact hat _ hneg
    · exact absurd h (Int.lt_irrefl 0)

theorem removeBlocks_error (hrun : removeBlocks oi target fuel m = some r) (hneg : r.2 < 0) :
    target < size2nblocks (oiSize r.1 oi) := by
  refine removeBlocks_run (P := fun _ r => r.2 < 0 → target < size2nblocks (oiSize r.1 oi))
    ?_ ?_ ?_ hrun hneg
  · exact fun _ _ hneg => absurd hneg (Int.lt_irrefl 0)
  · intro m hlt herr _
    rw [removeBlock_error herr]
    exact hlt
  · exact fun _ _ _ _ hrest => hrest

theorem addBlocks_error (hrun : addBlocks oi oldSize newSize fuel m = some r) (hneg : r.2 < 0) :
    size2nblocks oldSize < size2nblocks (oiSize r.1 oi) := by
  refine addBlocks_run
    (P := fun _ r => r.2 < 0 → size2nblocks oldSize < size2nblocks (oiSize r.1 oi))
    ?_ ?_ ?_ ?_ ?_ hrun hneg
  · exact fun _ _ hneg => absurd hneg (Int.lt_irrefl 0)
  · intro m _ hio _
    have hresult : (addBlock m oi).2 = 0 ∨ (addBlock m oi).2 = -ENOSPC := addBlock_result
    rw [hio] at hresult
    exact absurd hresult (by decide)
  · exact fun _ _ _ _ _ hremoved herr _ => removeBlocks_error hremoved herr
  · exact fun _ _ _ _ _ _ _ _ hrest => hrest
  · exact fun _ _ _ _ _ hrest => hrest

theorem removeBlocks_le (hp : Parts m oi) (hpt : Pointed m oi)
    (hrun : removeBlocks oi target fuel m = some r) :
    size2nblocks (oiSize r.1 oi) ≤ size2nblocks (oiSize m oi) := by
  refine removeBlocks_run (P := fun m r => Parts m oi → Pointed m oi →
    size2nblocks (oiSize r.1 oi) ≤ size2nblocks (oiSize m oi)) ?_ ?_ ?_ hrun hp hpt
  · exact fun _ _ _ _ => Nat.le_refl _
  · intro m _ herr _ _
    rw [removeBlock_error herr]
  · intro m r hlt hok hrest hp hpt
    obtain ⟨n, hn⟩ : ∃ n, size2nblocks (oiSize m oi) = n + 1 :=
      ⟨size2nblocks (oiSize m oi) - 1, by omega⟩
    rcases removeBlock_cases hp hpt hn with ⟨heq, _⟩ | ⟨_, _, heq⟩
    · rw [heq] at hok
      exact absurd neg_EIO hok
    · have hr : (removeBlock m oi).2 = 0 := by rw [heq]
      obtain ⟨hp', hpt', hcount⟩ := removeBlock_step hp hpt hn hr
      have hle := hrest hp' hpt'
      omega

/-- A call that fails has changed the size, if it was to get too large. -/
theorem FileTree.size_changed (h : FileTree m oi n) (hbig : maxFileSize < newSize)
    (hnew : newSize < 4294967296) (hrun : changeSize fuel m oi newSize = some r) (hneg : r.2 < 0) :
    oiSize r.1 oi ≠ oiSize m oi := by
  have hcount : size2nblocks (oiSize r.1 oi) ≠ n → oiSize r.1 oi ≠ oiSize m oi := by
    intro hne heq
    rw [heq] at hne
    exact hne h.count
  have hmax := h.max
  apply hcount
  by_cases hle : size2nblocks newSize ≤ n
  · -- the block count of the new size has wrapped to 0
    have hzero : size2nblocks newSize = 0 := by
      unfold maxFileSize at hbig
      unfold size2nblocks u32 at hle ⊢
      omega
    rw [changeSize_shrinks (by rw [h.count]; exact hle), hzero, Option.map_eq_some_iff] at hrun
    obtain ⟨q, hrun, hq⟩ := hrun
    by_cases herr : q.2 < 0
    swap
    · rw [if_neg herr] at hq
      rw [← hq] at hneg
      exact absurd hneg (Int.lt_irrefl 0)
    rw [if_pos herr] at hq
    subst hq
    cases fuel with
    | zero => cases hrun
    | succ fuel =>
      rw [removeBlocks, h.count] at hrun
      cases n with
      | zero =>
        rw [if_neg (by decide)] at hrun
        rw [← Option.some.inj hrun] at hneg
        exact absurd hneg (Int.lt_irrefl 0)
      | succ last =>
        have hfirst := first_dataSlot (k := last) (by omega)
        obtain ⟨hret, hloses⟩ := h.slotTree.loses h.count (by omega)
          (show (dataSlot last).first < last + 1 by omega)
        rw [if_pos (by omega)] at hrun
        dsimp only at hrun
        rw [if_neg (by omega)] at hrun
        have hless := removeBlocks_le hloses.tree.layout.parts hloses.tree.pointed hrun
        rw [hloses.blocks] at hless
        omega
  · unfold changeSize at hrun
    split at hrun
    · cases hrun
    · next hadded =>
      split at hrun
      · next herr =>
        have hmore := addBlocks_error hadded herr
        rw [← Option.some.inj hrun, ← h.count]
        omega
      · split at hrun
        · cases hrun
        · next hremoved =>
          split at hrun
          · next herr =>
            have hmore := removeBlocks_error hremoved herr
            rw [← Option.some.inj hrun]
            omega
          · rw [← Option.some.inj hrun] at hneg
            exact absurd hneg (Int.lt_irrefl 0)

end Errors

section Defects

/-- A file has come to `target` blocks. -/
structure Reached (oi target : Nat) (V : Slot → Prop) (m m' : Bytes) : Prop where
  tree : SlotTree m' oi V
  kept : SlotsKept oi (fun _ => False) m m'
  blocks : size2nblocks (oiSize m' oi) = target

theorem Reached.trans (h : SlotsKept oi K m x) (h' : Reached oi target V x y) :
    Reached oi target V m y :=
  ⟨h'.tree, (h.mono fun _ hs => hs.elim).trans h'.kept, h'.blocks⟩

theorem blockWord_zero (hboot : ∀ a, a < 1024 → m a = 0) (hj : j < 256) : blockWord m 0 j = 0 := by
  unfold blockWord
  rw [ospfsBlock_of_lt (by decide)]
  exact rd32_eq_zero fun i hi => hboot _ (by omega)

/-- The read path takes a missing index block for the boot block. -/
theorem blockno_boot (hboot : ∀ a, a < 1024 → m a = 0) (hf : oiFtype m oi ≠ FTYPE_SYMLINK)
    (hlt : k < oiSize m oi) (hmax : k / 1024 < 65802) :
    ospfsInodeBlockno m oi k = ptr m oi (dataSlot (k / 1024)) := by
  apply blockno_eq_ptr hf hlt hmax
  intro p j _ hj
  unfold below
  split
  · next h0 => rw [h0, blockWord_zero hboot hj]
  · rfl

/-- A call that returns 0 without a block for `k`. -/
theorem Reached.not_gets (h : Reached oi target V m x) (hboot : ∀ a, a < 1024 → m a = 0)
    (hf : oiFtype m oi ≠ FTYPE_SYMLINK) (hnew : newSize ≤ maxFileSize)
    (hk : k < size2nblocks newSize) (hmissing : ¬ V (dataSlot k)) :
    ¬ GetsSize m oi newSize (setSize x oi newSize) := by
  intro hgets
  rw [size_blocks hnew] at hk
  unfold maxFileSize at hnew
  have hkept := h.kept.trans (h.tree.setSize_kept newSize)
  have hlow : ∀ a, a < 1024 → setSize x oi newSize a = 0 := fun a ha => by
    rw [hkept.low a (by unfold freemap; omega)]
    exact hboot a ha
  obtain ⟨htree, _⟩ := h.tree.sized newSize
  have hblock := hgets.mapped (1024 * k) (by omega)
  rw [blockno_boot hlow (by rw [hkept.ftype]; exact hf) (by rw [hgets.size]; omega) (by omega),
    Nat.mul_div_cancel_left k (by decide), htree.ptr_zero hmissing] at hblock
  have hplace := htree.layout.inode_place
  obtain ⟨h1, _, _⟩ := hblock
  omega

/-- The first block of a leaf goes together with the indirect block. -/
theorem SlotTree.removeBlocks_loses (h : SlotTree m oi U)
    (hcount : size2nblocks (oiSize m oi) = target + n) (hmax : target + n ≤ 65802)
    (h266 : 266 ≤ target) (hU : ∀ k, target ≤ k → k < target + n → U (dataSlot k)) :
    ∃ x V, removeBlocks oi target (n + 1) m = some (x, 0) ∧ Reached oi target V m x ∧
      (∀ s, V s → U s) ∧
      ∀ k, target ≤ k → k < target + n → (k - 10) % 256 = 0 → ¬ V .indirect := by
  induction n generalizing m U with
  | zero =>
    refine ⟨m, U, ?_, ⟨h, SlotsKept.refl, hcount⟩, fun _ hs => hs, fun k h1 h2 => by omega⟩
    rw [removeBlocks, if_neg (by omega)]
  | succ n ih =>
    have hcount' : size2nblocks (oiSize m oi) = (target + n) + 1 := hcount
    obtain ⟨hret, hloses⟩ := h.loses hcount' (by omega) (hU (target + n) (by omega) (by omega))
    have hkept : ∀ k, target ≤ k → k < target + n →
        U (dataSlot k) ∧ Spared (droppedSlots (target + n)) (dataSlot k) := by
      intro k h1 h2
      refine ⟨hU k h1 (by omega), fun s hs => ?_⟩
      rcases mem_droppedSlots.mp hs with rfl | ⟨_, hmod, rfl | ⟨_, rfl⟩⟩
      · refine ⟨fun heq => ?_, Slot.not_below_of_data (dataSlot_isIndex _)⟩
        have hk := dataSlot_inj (by omega) (by omega) heq
        omega
      · rw [dataSlot_leaf (by omega) (by omega)]
        exact ⟨by simp, by simp [Slot.Below, Slot.parent]⟩
      · omega
    obtain ⟨x, V, hrun, hreached, hle, hlost⟩ := ih hloses.tree hloses.blocks (by omega) hkept
    refine ⟨x, V, ?_, Reached.trans hloses.kept hreached, fun s hs => (hle s hs).1, ?_⟩
    · rw [removeBlocks, if_pos (by omega)]
      dsimp only
      rw [if_neg (by omega)]
      exact hrun
    · intro k h1 h2 hmod hind
      by_cases hk : k < target + n
      · exact hlost k h1 hk hmod hind
      · obtain ⟨_, hspared⟩ := hle _ hind
        have heq : k = target + n := by omega
        rw [heq] at hmod
        exact (hspared .indirect (mem_droppedSlots.mpr (.inr ⟨by omega, hmod, .inl rfl⟩))).1 rfl

/-- The index blocks that a file of `c` blocks has above its next block, if the last one has them. -/
structure Indexed (U : Slot → Prop) (c : Nat) : Prop where
  indirect : 10 < c → U .indirect
  indirect2 : 522 < c → U .indirect2
  entry2 : 522 ≤ c → (c - 10) % 256 ≠ 0 → ∀ k : Fin 256, k.val = (c - 266) / 256 → U (.entry2 k)

theorem Indexed.next (hi : Indexed U c) (hc : c < 65802) :
    Indexed (fun t => (t = addSlot c ∨ (addSlot c).Below t) ∨ U t) (c + 1) := by
  by_cases h522 : c < 522
  · refine ⟨fun hlt => ?_, fun hlt => absurd hlt (by omega), fun hle hmod => absurd hle (by omega)⟩
    by_cases h10 : c = 10
    · rw [addSlot_entry (by omega) h522]
      exact .inl (.inr (.inl rfl))
    · exact .inr (hi.indirect (by omega))
  · have hk := indirIndex_leaf (k := c) (by omega)
    rw [addSlot_eq (.inr (by omega)), dataSlot_leaf (by omega) hc]
    refine ⟨fun _ => .inr (hi.indirect (by omega)), fun _ => .inl (.inr (.inr rfl)),
      fun _ hmod k hkc => .inl (.inr (.inl ?_))⟩
    have hsame : (indirIndex c).toNat = k.val := by omega
    exact congrArg (fun k => some (Slot.entry2 k)) (Fin.ext hsame)

/-- Block 522 takes one more if the doubly indirect block is missing. -/
theorem SlotTree.addSlot_cost (h : SlotTree m oi U) (hi : Indexed U c) (hc : c < 65802) :
    slotCost m oi (addSlot c) ≤ takes c ∨
      c = 522 ∧ ¬ U .indirect2 ∧ slotCost m oi (addSlot c) ≤ takes c + 1 := by
  by_cases h10 : c < 10
  · have hslot : addSlot c = .direct ⟨c, h10⟩ := (addSlot_eq (.inl (by omega))).trans
      (dataSlot_direct h10)
    have htakes : takes c = 1 := if_neg (by omega)
    rw [hslot, htakes]
    exact .inl (Nat.le_refl 1)
  by_cases h522 : c < 522
  · left
    rw [addSlot_entry (by omega) h522]
    have hind : oiIndirect m oi ≠ 0 ↔ U .indirect := h.used .indirect
    by_cases heq : c = 10
    · have htakes : takes c = 2 := if_pos (.inl heq)
      rw [htakes]
      show (if oiIndirect m oi = 0 then 2 else 1) ≤ 2
      split <;> omega
    · have htakes : takes c = 1 := if_neg (by omega)
      rw [htakes]
      exact Nat.le_of_eq (if_neg (hind.mpr (hi.indirect (by omega))))
  · have hk := indirIndex_lt (k := c) (by omega) hc
    have hidx := indirIndex_leaf (k := c) (by omega)
    rw [addSlot_eq (.inr (by omega)), dataSlot_leaf (by omega) hc]
    have hind : oiIndirect2 m oi ≠ 0 ↔ U .indirect2 := h.used .indirect2
    have hentry : ptr m oi (.entry2 ⟨(indirIndex c).toNat, hk⟩) ≠ 0 ↔ U _ := h.used _
    have hcost : slotCost m oi (.leaf ⟨(indirIndex c).toNat, hk⟩ ⟨directIndex c, directIndex_lt c⟩) =
        if oiIndirect2 m oi = 0 then 3
        else if ptr m oi (.entry2 ⟨(indirIndex c).toNat, hk⟩) = 0 then 2 else 1 := rfl
    rw [hcost]
    by_cases hU : U .indirect2
    · left
      rw [if_neg (hind.mpr hU)]
      by_cases hmod : (c - 10) % 256 = 0
      · have htakes : takes c = 2 := if_pos (.inr ⟨by omega, hmod⟩)
        rw [htakes]
        split <;> omega
      · have htakes : takes c = 1 := if_neg (by omega)
        rw [htakes]
        exact Nat.le_of_eq (if_neg (hentry.mpr (hi.entry2 (by omega) hmod _ hidx)))
    · have heq : c = 522 := by
        by_contra hne
        exact hU (hi.indirect2 (by omega))
      have htakes : takes c = 2 := if_pos (.inr ⟨by omega, by omega⟩)
      rw [htakes]
      refine .inr ⟨heq, hU, ?_⟩
      split
      · omega
      · split <;> omega

/-- Block `j` never gets a slot. -/
theorem SlotTree.addBlocks_misplaces {more : Nat} (h : SlotTree m oi U) (hi : Indexed U c)
    (hmore : U .indirect2 ∨ 1 ≤ more) (oldSize : Nat)
    (hcount : size2nblocks (oiSize m oi) = c) (htarget : c + n = size2nblocks newSize)
    (hmax : c + n ≤ 65802)
    (hroom : taken c (c + n) + (if c ≤ 522 ∧ 522 < c + n then more else 0) ≤ freeCount m)
    (hj : ¬ U (dataSlot j)) (hnever : ∀ k, c ≤ k → k < c + n → addSlot k ≠ dataSlot j) :
    ∃ x V, addBlocks oi oldSize newSize (n + 1) m = some (x, 0) ∧
      Reached oi (c + n) V m x ∧ ¬ V (dataSlot j) := by
  induction n generalizing m U c with
  | zero =>
    refine ⟨m, U, ?_, ⟨h, SlotsKept.refl, hcount⟩, hj⟩
    rw [addBlocks, if_neg (by omega)]
  | succ n ih =>
    have hfirst := taken_first (n := c) (k := c + (n + 1)) (by omega)
    have hcost : slotCost m oi (addSlot c) ≤ takes c + if c = 522 then more else 0 := by
      rcases h.addSlot_cost hi (by omega) with hle | ⟨heq, hU, hle⟩
      · omega
      · rw [if_pos heq]
        have hone := hmore.resolve_left hU
        omega
    have hsame : c + 1 + n = c + (n + 1) := by omega
    have hroom' : slotCost m oi (addSlot c) + (taken (c + 1) (c + 1 + n) +
        if c + 1 ≤ 522 ∧ 522 < c + 1 + n then more else 0) ≤ freeCount m := by
      rw [hsame]
      split_ifs at hroom hcost ⊢ <;> omega
    rcases addBlock_cases h (by omega) hcount with ⟨hle, hret, hgrows⟩ | ⟨hfull, _, _⟩
    swap
    · omega
    have hfree := hgrows.count
    obtain ⟨x, V, hrun, hreached, hmissing⟩ := ih hgrows.tree (hi.next (by omega))
      (hmore.imp_left .inr) hgrows.blocks (by omega) (by omega) (by omega) (by
        rintro ((heq | hbelow) | hused)
        · exact hnever c (by omega) (by omega) heq.symm
        · exact Slot.not_below_of_data (dataSlot_isIndex j) hbelow
        · exact hj hused) (fun k h1 h2 => hnever k (by omega) (by omega))
    rw [hsame] at hreached
    refine ⟨x, V, ?_, Reached.trans hgrows.kept hreached, hmissing⟩
    rw [addBlocks, if_pos (by omega)]
    dsimp only
    rw [hret, if_neg (by decide), if_neg (by decide)]
    exact hrun

theorem addSlot_ne (hj1 : 266 ≤ j) (hj2 : j < 522) (hk : k < 65802) : addSlot k ≠ dataSlot j := by
  intro heq
  unfold addSlot at heq
  split at heq
  · have hkj := dataSlot_inj (by omega) (by omega) heq
    omega
  · have hkj := dataSlot_inj (by omega) (by omega) heq
    omega

variable (h : FileTree m oi n) (hboot : ∀ a, a < 1024 → m a = 0)
variable (hkeeps : KeepsLimits m oi newSize)
include h hkeeps

theorem FileTree.max_of_keeps (hnew : newSize < 4294967296) : newSize ≤ maxFileSize := by
  by_contra hbig
  obtain ⟨fuel, m', ret, hrun, hneg, hsize, _⟩ := hkeeps.2 (by omega)
  exact h.size_changed (by omega) hnew hrun hneg hsize

variable (hnew : newSize ≤ maxFileSize)
include hboot hnew

theorem FileTree.shrinks_of_keeps (h266 : 266 ≤ size2nblocks newSize)
    (h1 : size2nblocks newSize ≤ k) (h2 : k < n) : (k - 10) % 256 ≠ 0 := by
  intro hmod
  have hmax := h.max
  obtain ⟨d, hd⟩ := Nat.exists_eq_add_of_le (show size2nblocks newSize ≤ n by omega)
  obtain ⟨x, V, hrun, hreached, _, hlost⟩ := h.slotTree.removeBlocks_loses (n := d)
    (h.count.trans hd) (by omega) h266 (fun j _ hj => by
      have hfirst := first_dataSlot (k := j) (by omega)
      show (dataSlot j).first < n
      omega)
  have hcall : changeSize (d + 1) m oi newSize = some (setSize x oi newSize, 0) := by
    rw [changeSize_shrinks (by rw [h.count]; omega), hrun]
    rfl
  refine hreached.not_gets (k := 10) hboot h.ftype hnew (by omega) ?_ (hkeeps.1 hnew _ _ hcall)
  intro hused
  exact hlost k h1 (by omega) hmod (hreached.tree.parent_used rfl hused)

theorem FileTree.grows_of_keeps (hroom : growthTakes n (size2nblocks newSize) ≤ freeCount m)
    (h1 : n < 522) : size2nblocks newSize ≤ 266 ∨ size2nblocks newSize ≤ n := by
  by_contra hbeyond
  have hmax : size2nblocks newSize ≤ 65802 := by
    rw [size_blocks hnew]
    unfold maxFileSize at hnew
    omega
  obtain ⟨d, hd⟩ := Nat.exists_eq_add_of_le (show n ≤ size2nblocks newSize by omega)
  obtain ⟨j, hj1, hj2, hj3, hj4⟩ : ∃ j, n ≤ j ∧ 266 ≤ j ∧ j < 522 ∧ j < size2nblocks newSize := by
    rcases Nat.le_total n 266 with hle | hle
    · exact ⟨266, by omega⟩
    · exact ⟨n, by omega⟩
  have hfirst := first_dataSlot (k := j) (by omega)
  have hindexed : Indexed (·.first < n) n :=
    ⟨fun hlt => hlt, fun hlt => absurd hlt (by omega), fun hle => absurd hle (by omega)⟩
  have hmore : Slot.first .indirect2 < n ∨ 1 ≤ if n ≤ 266 then 1 else 0 := by
    rcases Nat.lt_or_ge 266 n with hlt | hge
    · exact .inl hlt
    · rw [if_pos hge]
      exact .inr (Nat.le_refl 1)
  have hroom' : taken n (n + d) + (if n ≤ 522 ∧ 522 < n + d then if n ≤ 266 then 1 else 0 else 0) ≤
      freeCount m := by
    unfold growthTakes at hroom
    rw [← hd]
    split_ifs at hroom ⊢ <;> omega
  obtain ⟨x, V, hrun, hreached, hmissing⟩ := h.slotTree.addBlocks_misplaces hindexed hmore
    (oiSize m oi) h.count hd.symm (by omega) hroom' (show ¬ (dataSlot j).first < n by omega)
    fun k _ hk => addSlot_ne hj2 hj3 (by omega)
  have hcall : changeSize (d + 1) m oi newSize = some (setSize x oi newSize, 0) := by
    have hblocks := hreached.blocks
    unfold changeSize
    rw [hrun]
    dsimp only
    rw [if_neg (by decide), removeBlocks, if_neg (by omega)]
    rfl
  exact hreached.not_gets hboot h.ftype hnew hj4 hmissing (hkeeps.1 hnew _ _ hcall)

end Defects

/-- Where the disk has what the growth takes, `change_size` keeps the limits on no other calls. -/
theorem size_limits (h : FileTree m oi n) (hsize : oiSize m oi ≤ maxFileSize)
    (hnew : newSize < 4294967296) :
    (WithinLimits m oi newSize → KeepsLimits m oi newSize) ∧
    ((∀ a, a < 1024 → m a = 0) → growthTakes n (size2nblocks newSize) ≤ freeCount m →
      KeepsLimits m oi newSize → WithinLimits m oi newSize) := by
  constructor
  · intro hlimits
    refine ⟨fun _ fuel m' hrun => h.getsSize hsize hlimits hrun, fun hbig => ?_⟩
    exact absurd hlimits.max (by omega)
  · intro hboot hroom hkeeps
    have hmax := h.max_of_keeps hkeeps hnew
    constructor
    · exact hmax
    · rw [h.count]
      intro h266 k h1 h2
      exact h.shrinks_of_keeps hboot hkeeps hmax h266 h1 h2
    · rw [h.count]
      intro k h1 h2 _
      have hle : taken n (size2nblocks newSize) ≤ freeCount m :=
        Nat.le_trans (Nat.le_add_right _ _) hroom
      by_cases h522 : 522 ≤ k
      · exact .inr ⟨h522, .inr hle⟩
      · rcases h.grows_of_keeps hboot hkeeps hmax hroom (by omega) with h266 | hn
        · exact .inl (by omega)
        · omega

theorem bigFile_boot : ∀ a, a < 1024 → bigFile a = 0 := by decide +kernel

theorem size_limits_bigFile :
    KeepsLimits bigFile 3200 5 ∧ ¬ KeepsLimits bigFile 3200 272385 := by
  have hmax : oiSize bigFile 3200 ≤ maxFileSize := by
    rw [bigFile_size]
    decide
  constructor
  · apply (size_limits bigFile_tree hmax (by decide)).1
    constructor
    · decide
    · intro h266
      exact absurd h266 (by decide)
    · intro k h1 h2
      rw [bigFile_size] at h1
      exact absurd (Nat.lt_of_le_of_lt h1 h2) (by decide)
  · intro hkeeps
    have hroom : growthTakes 266 (size2nblocks 272385) ≤ freeCount bigFile := by
      rw [bigFile_freeCount]
      decide +kernel
    have hlimits := (size_limits bigFile_tree hmax (by decide)).2 bigFile_boot hroom hkeeps
    have hgrows := hlimits.grows 266
    rw [bigFile_size, bigFile_freeCount] at hgrows
    have hbad := hgrows (by decide) (by decide) (by decide)
    omega

/-- The new block replaces block 10, and a size that is too large is not refused. -/
theorem change_size_beyond_limits : FileTree bigFile 3200 266 ∧ oiSize bigFile 3200 = 272384 ∧
    (∃ m', changeSize 2 bigFile 3200 272385 = some (m', 0) ∧
      ospfsInodeBlockno m' 3200 272384 = 0) ∧
    ¬ KeepsLimits bigFile 3200 272385 ∧ ¬ KeepsLimits bigFile 3200 (maxFileSize + 1) := by
  have hrun : ∃ m', changeSize 2 bigFile 3200 272385 = some (m', 0) ∧
      ospfsInodeBlockno m' 3200 272384 = 0 ∧ dataStart m' = 4 := by
    have hsome : (changeSize 2 bigFile 3200 272385).map (fun r =>
        (ospfsInodeBlockno r.1 3200 272384, dataStart r.1, r.2)) = some (0, 4, 0) := by
      decide +kernel
    obtain ⟨⟨m', ret⟩, hrun, hr⟩ := Option.map_eq_some_iff.mp hsome
    simp only [Prod.mk.injEq] at hr
    rw [hr.2.2] at hrun
    exact ⟨m', hrun, hr.1, hr.2.1⟩
  obtain ⟨m', hrun, hblock, hstart⟩ := hrun
  refine ⟨bigFile_tree, bigFile_size, ⟨m', hrun, hblock⟩, fun hkeeps => ?_, fun hkeeps => ?_⟩
  · have hmapped := (hkeeps.1 (by decide) 2 m' hrun).mapped 272384 (by decide)
    rw [hblock] at hmapped
    have hlow := hmapped.1
    omega
  · have hmax := bigFile_tree.max_of_keeps hkeeps (by decide)
    exact absurd hmax (Nat.not_succ_le_self _)

end CS111.Ospfs
