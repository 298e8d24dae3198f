import CS111.Ospfs.ZeroFill

/-!
# Growing on a full disk

`change_size` undoes what it has added when a block is missing, and then tries again. `-ENOSPC` is
never its result.
-/

namespace CS111.Ospfs

open Memory

set_option autoImplicit false

variable {m m' : Bytes} {oi n last target oldSize newSize fuel : Nat} {r : Bytes × Int}

/-- The results of `remove_block`. -/
def Removed (r : Int) : Prop := r = 0 ∨ r = - EIO

theorem removeDirect_result : Removed (removeDirect m oi last).2 := by
  unfold removeDirect
  split
  · exact .inr rfl
  · exact .inl rfl

theorem removeEntry_result : Removed (removeEntry m oi last).2 := by
  unfold removeEntry
  dsimp only
  split
  · exact .inr rfl
  · split
    · exact .inr rfl
    · exact .inl rfl

theorem removeLeaf_result : Removed (removeLeaf m oi last).2 := by
  unfold removeLeaf
  dsimp only
  split
  · exact .inr rfl
  · split
    · exact .inr rfl
    · split
      · exact .inr rfl
      · split <;> exact .inl rfl

theorem removeBlockAt_result : Removed (removeBlockAt m oi last).2 := by
  unfold removeBlockAt
  split
  · exact removeDirect_result
  · split
    · exact removeEntry_result
    · split
      · exact removeLeaf_result
      · exact .inr rfl

theorem removeBlock_result : Removed (removeBlock m oi).2 := by
  unfold removeBlock
  dsimp only
  split
  · exact .inl rfl
  · split
    · exact removeBlockAt_result
    · exact .inl rfl

theorem removeBlocks_result (h : removeBlocks oi target fuel m = some r) : Removed r.2 := by
  refine removeBlocks_run (P := fun _ r => Removed r.2) ?_ ?_ ?_ h
  · exact fun _ _ => .inl rfl
  · exact fun _ _ _ => removeBlock_result
  · exact fun _ _ _ _ hrest => hrest

theorem addBlocks_result (h : addBlocks oi oldSize newSize fuel m = some r) : Removed r.2 := by
  refine addBlocks_run (P := fun _ r => Removed r.2) ?_ ?_ ?_ ?_ ?_ h
  · exact fun _ _ => .inl rfl
  · exact fun _ _ hio => .inr hio
  · exact fun _ _ _ _ _ hremoved _ => removeBlocks_result hremoved
  · exact fun _ _ _ _ _ _ _ _ hrest => hrest
  · exact fun _ _ _ _ _ hrest => hrest

theorem changeSize_result (h : changeSize fuel m oi newSize = some r) : Removed r.2 := by
  unfold changeSize at h
  split at h
  · cases h
  · next hadded =>
    split at h
    · cases h
      exact addBlocks_result hadded
    · split at h
      · cases h
      · next hremoved =>
        split at h
        · cases h
          exact removeBlocks_result hremoved
        · cases h
          exact .inl rfl

/-! ## The growing loop without free blocks -/

section Stuck
variable {P : Bytes → Prop}

/-- Every attempt fails, removes nothing, and is followed by another one. -/
theorem addBlocks_stuck (hstuck : ∀ x, P x → (addBlock x oi).2 = -ENOSPC ∧ P (addBlock x oi).1 ∧
      size2nblocks (oiSize x oi) = size2nblocks oldSize)
    (hm : P m) (hgrows : size2nblocks oldSize < size2nblocks newSize) :
    addBlocks oi oldSize newSize fuel m = none := by
  induction fuel generalizing m with
  | zero => rfl
  | succ fuel ih =>
    obtain ⟨hret, hnext, hcount⟩ := hstuck m hm
    rw [addBlocks, hcount, if_pos hgrows]
    dsimp only
    rw [hret, if_neg (by decide), if_pos rfl]
    cases fuel with
    | zero => rfl
    | succ fuel =>
      rw [removeBlocks, (hstuck _ hnext).2.2, if_neg (Nat.lt_irrefl _)]
      exact ih hnext

theorem changeSize_stuck (hstuck : ∀ x, P x → (addBlock x oi).2 = -ENOSPC ∧ P (addBlock x oi).1 ∧
      size2nblocks (oiSize x oi) = size2nblocks (oiSize m oi))
    (hm : P m) (hgrows : size2nblocks (oiSize m oi) < size2nblocks newSize) :
    changeSize fuel m oi newSize = none := by
  unfold changeSize
  rw [addBlocks_stuck hstuck hm hgrows]

end Stuck

section Full
variable (hfull : allocateBlock m = (m, 0))
include hfull

theorem addEntry_full : addEntry m oi n 0 = (m, -ENOSPC) := by
  unfold addEntry
  simp only [hfull, if_true, ne_eq, not_true_eq_false, if_false, freeBlock_zero]

theorem addIndirect_full : addIndirect m oi n = (m, -ENOSPC) := by
  unfold addIndirect
  simp only [hfull, if_true, addEntry_full hfull, ite_self]

theorem addLeaf_full {indirect2 : Nat} : addLeaf m oi n indirect2 0 0 = (m, -ENOSPC) := by
  unfold addLeaf
  simp only [hfull, if_true, ne_eq, not_true_eq_false, if_false, freeBlock_zero]

theorem addIndirect2_full : addIndirect2 m oi n = (m, -ENOSPC) := by
  unfold addIndirect2 addEntry2
  simp only [hfull, if_true, ne_eq, not_true_eq_false, if_false, freeBlock_zero,
    addLeaf_full hfull, ite_self]

theorem addBlock_full : addBlock m oi = (m, -ENOSPC) := by
  have hat : ∀ n, addBlockAt m oi n = (m, -ENOSPC) := by
    intro n
    unfold addBlockAt addDirect
    simp only [hfull, if_true, addIndirect_full hfull, addIndirect2_full hfull, ite_self]
  unfold addBlock
  rw [hat]
  exact if_pos (show -ENOSPC < 0 by decide)

theorem changeSize_full (hgrows : size2nblocks (oiSize m oi) < size2nblocks newSize) :
    changeSize fuel m oi newSize = none := by
  apply changeSize_stuck (P := fun x => x = m) _ rfl hgrows
  rintro x rfl
  exact ⟨by rw [addBlock_full hfull], by rw [addBlock_full hfull], rfl⟩

end Full

/-- What `change_size` is to do when blocks are missing. -/
structure Refused (m : Bytes) (oi newSize : Nat) (m' : Bytes) : Prop where
  returns : ∃ fuel, changeSize fuel m oi newSize = some (m', -ENOSPC)
  inode : ∀ k, k < 64 → m' (oi + k) = m (oi + k)
  index : ∀ s a, s.isIndex = true → ptr m oi s ≠ 0 → a / 1024 = ptr m oi s → m' a = m a
  freemap : ∀ b, isFree m' b = isFree m b

/-- It never does that. -/
theorem growth_never_refused (m : Bytes) (oi newSize : Nat) : ¬ ∃ m', Refused m oi newSize m' := by
  rintro ⟨m', ⟨⟨fuel, h⟩, -, -, -⟩⟩
  rcases changeSize_result h with h0 | hio
  · exact absurd h0 (show ¬ -ENOSPC = 0 by decide)
  · exact absurd hio (show ¬ -ENOSPC = - EIO by decide)

/-- All five blocks are in use, and the file of 1000 bytes is to get 2048. -/
theorem full_disk_never_returns : Sound tinyGeometry tinyFile ∧
    HasBlocks tinyGeometry tinyFile 2 ∧ oiSize tinyFile (inodeAddr 2) = 1000 ∧
    (∀ b, b < 5 → isFree tinyFile b = false) ∧
    ∀ fuel, changeSize fuel tinyFile (inodeAddr 2) 2048 = none := by
  obtain ⟨hstart, hsize, -⟩ := tinyFile_start 0
  have hused : ∀ b, b < 5 → isFree tinyFile b = false := by decide +kernel
  have hfull : allocateBlock tinyFile = (tinyFile, 0) := by
    rcases hstart.sound.allocate with ⟨h1, h2⟩ | ⟨-, -, -, hlt, hfree⟩
    · exact Prod.ext h1 h2
    · rw [hused _ hlt] at hfree
      cases hfree
  refine ⟨hstart.sound, ⟨hstart.exists_ino, ?_⟩, hsize, hused, fun fuel => changeSize_full hfull ?_⟩
  · rw [hstart.regular]
    decide
  · rw [hsize]
    decide

end CS111.Ospfs
