import CS111.Ospfs.Dropping

/-!
# A failed `add_block`

Each block that `add_block` takes is stored in a slot that was empty. When a later allocation fails, the
slot is emptied and the bit of the block is set again, so that only blocks which were free before may
have other contents.
-/

namespace CS111.Ospfs

open Memory

set_option autoImplicit false

variable {m m' m₁ x : Bytes} {oi n a b c v : Nat}

/-- An address in a free block. -/
def InFree (m : Bytes) (a : Nat) : Prop := a / 1024 < osNblocks m ∧ isFree m (a / 1024) = true

/-- Only free blocks have other contents. -/
def SameUsed (m m' : Bytes) : Prop := ∀ a, ¬ InFree m a → m' a = m a

/-- `free_block` gives back every block that is free. -/
def FreeAbove (m : Bytes) : Prop := ∀ b, b < osNblocks m → isFree m b = true → freeBound m < b

section SameUsed
variable (hp : Parts m oi) (hf : FreeAbove m)
include hp hf

/-- The superblock, the free map and the inodes are not in free blocks. -/
theorem FreeAbove.not_inFree (ha : a < 1024 * osFirstinob m ∨ oi ≤ a ∧ a < oi + 64) :
    ¬ InFree m a := by
  rintro ⟨h1, h2⟩
  have hlt := hf _ h1 h2
  obtain ⟨_, hplace, _⟩ := hp.inode_place
  unfold freeBound at hlt
  unfold dataStart at hplace
  omega

variable (h : SameUsed m x)
include h

theorem SameUsed.rd32 (ha : a + 4 ≤ 1024 * osFirstinob m) : rd32 x a = rd32 m a :=
  rd32_congr fun k hk => h _ (hf.not_inFree hp (.inl (by omega)))

theorem SameUsed.superblock : osNblocks x = osNblocks m ∧ osNinodes x = osNinodes m ∧
    osFirstinob x = osFirstinob m := by
  have hmap := hp.free_map
  refine ⟨?_, ?_, ?_⟩ <;> exact h.rd32 hp hf (by omega)

theorem SameUsed.freeBound : freeBound x = freeBound m := by
  obtain ⟨_, h2, h3⟩ := h.superblock hp hf
  unfold CS111.Ospfs.freeBound
  rw [h2, h3]

theorem SameUsed.isFree (hc : c < osNblocks m) : isFree x c = isFree m c := by
  have hword := hp.map_word hc
  apply bitvectorTest_congr
  intro k hk
  exact h _ (hf.not_inFree hp (.inl (by omega)))

theorem SameUsed.parts : Parts x oi := hp.of_superblock (h.superblock hp hf)

end SameUsed

section Take
variable (hp : Parts m oi) (hf : FreeAbove m) (hb : b < osNblocks m) (hfree : isFree m b = true)
variable (hc : 1024 * osFirstinob m ≤ c)
include hp hf hb hfree hc

/-- What lies in front of the inodes, after a free block has been taken and stored somewhere. -/
theorem stored_front (ha : a < 1024 * osFirstinob m) :
    wr32 (takeBlock m b) c b a = bitvectorClear m freemap b a := by
  have hsmall := hp.small
  have hlt := hf b hb hfree
  unfold CS111.Ospfs.freeBound at hlt
  unfold takeBlock clearBlock
  rw [wr32_outside (by omega), ospfsBlock_of_lt (by omega), fill_outside (by omega)]

theorem stored_superblock : osNblocks (wr32 (takeBlock m b) c b) = osNblocks m ∧
    osNinodes (wr32 (takeBlock m b) c b) = osNinodes m ∧
    osFirstinob (wr32 (takeBlock m b) c b) = osFirstinob m := by
  have hmap := hp.free_map
  refine ⟨?_, ?_, ?_⟩ <;>
  · apply rd32_congr
    intro k hk
    rw [stored_front hp hf hb hfree hc (by omega)]
    exact bitvectorClear_outside (by unfold freemap; omega)

theorem stored_isFree {d : Nat} (hd : d < osNblocks m) :
    isFree (wr32 (takeBlock m b) c b) d = (decide (d ≠ b) && isFree m d) := by
  have hword := hp.map_word hd
  have hbit : isFree (bitvectorClear m freemap b) d = (decide (d ≠ b) && isFree m d) :=
    bitvectorTest_clear m freemap b d
  rw [← hbit]
  apply bitvectorTest_congr
  intro k hk
  exact stored_front hp hf hb hfree hc (by omega)

theorem stored_freeAbove : FreeAbove (wr32 (takeBlock m b) c b) := by
  obtain ⟨h1, h2, h3⟩ := stored_superblock hp hf hb hfree hc
  intro d hd hdfree
  rw [h1] at hd
  rw [stored_isFree hp hf hb hfree hc hd, Bool.and_eq_true] at hdfree
  have hlt := hf d hd hdfree.2
  unfold CS111.Ospfs.freeBound at hlt ⊢
  rw [h2, h3]
  exact hlt

theorem stored_parts : Parts (wr32 (takeBlock m b) c b) oi :=
  hp.of_superblock (stored_superblock hp hf hb hfree hc)

/-- The block is given back, and the place that was 0 becomes 0 again. -/
theorem undo_stored (h0 : rd32 m c = 0) (h : SameUsed (wr32 (takeBlock m b) c b) x) :
    SameUsed m (wr32 (freeBlock x b) c 0) := by
  have hp₁ := stored_parts hp hf hb hfree hc
  have hf₁ := stored_freeAbove hp hf hb hfree hc
  obtain ⟨h1, h2, h3⟩ := stored_superblock hp hf hb hfree hc
  have hlt := hf b hb hfree
  have hword := hp.map_word hb
  have hsmall := hp.small
  have hbound : freeBound x = freeBound m := by
    rw [h.freeBound hp₁ hf₁]
    unfold freeBound
    rw [h2, h3]
  intro a ha
  have hne : a / 1024 ≠ b := fun heq => ha ⟨heq ▸ hb, heq ▸ hfree⟩
  have hkept : x a = wr32 (takeBlock m b) c b a := by
    apply h
    rintro ⟨h4, h5⟩
    rw [h1] at h4
    rw [stored_isFree hp hf hb hfree hc h4, Bool.and_eq_true] at h5
    exact ha ⟨h4, h5.2⟩
  by_cases hcell : c ≤ a ∧ a < c + 4
  · obtain ⟨k, rfl⟩ := Nat.exists_eq_add_of_le hcell.1
    have hzero : wr32 (freeBlock x b) c (rd32 m c) (c + k) = m (c + k) := wr32_rd32 _ _ _ (by omega)
    rwa [h0] at hzero
  rw [wr32_outside (by omega), (h.parts hp₁ hf₁).freeBlock_eq, hbound, if_neg (by omega)]
  by_cases hmap : freemap + 4 * (b / 32) ≤ a ∧ a < freemap + 4 * (b / 32) + 4
  · obtain ⟨k, rfl⟩ := Nat.exists_eq_add_of_le hmap.1
    apply bitvectorSet_restores hfree _ (by omega)
    rw [h.rd32 hp₁ hf₁ (by rw [h3]; omega)]
    apply rd32_congr
    intro j hj
    exact stored_front hp hf hb hfree hc (by omega)
  · rw [bitvectorSet_outside (by omega), hkept, wr32_outside (by omega)]
    exact takeBlock_apart (by omega) (by omega) hne

end Take

/-- An allocation takes nothing, or a block that can be given back. -/
theorem allocateBlock_cases (hf : FreeAbove m) : allocateBlock m = (m, 0) ∨
    ∃ b, b ≠ 0 ∧ b < osNblocks m ∧ isFree m b = true ∧
      allocateBlock m = (bitvectorClear m freemap b, b) := by
  unfold allocateBlock
  rcases allocateFrom_spec (m := m) (osNblocks m) 0 with hnone | ⟨b, _, h2, h3, h4⟩
  · exact .inl hnone
  · have hlt := hf b (by omega) h3
    exact .inr ⟨b, by omega, by omega, h3, h4⟩

theorem SameUsed.refl : SameUsed m m := fun _ _ => rfl

section Branches
variable (hp : Parts m oi) (hf : FreeAbove m)

/-- The undo of an index block, if one was taken. -/
def giveBack (m : Bytes) (allocated cell : Nat) : Bytes :=
  if allocated ≠ 0 then wr32 (freeBlock m allocated) cell 0 else m

theorem giveBack_eq (m : Bytes) (allocated cell : Nat) :
    (if allocated ≠ 0 then wr32 (freeBlock m allocated) cell 0 else freeBlock m allocated) =
      giveBack m allocated cell := by
  unfold giveBack
  by_cases h0 : allocated = 0
  · rw [if_neg (by omega), if_neg (by omega), h0]
    exact if_pos (Nat.zero_le _)
  · rw [if_pos h0, if_pos h0]

theorem giveBack_none (m : Bytes) (cell : Nat) : giveBack m 0 cell = m := rfl

include hf

theorem addDirect_undone (hret : (addDirect m oi n).2 = -ENOSPC) : (addDirect m oi n).1 = m := by
  unfold addDirect at hret ⊢
  rcases allocateBlock_cases hf with halloc | ⟨b, hb0, _, _, halloc⟩
  · simp only [halloc, if_true]
  · simp only [halloc, if_neg hb0] at hret
    exact absurd hret (by decide)

theorem addEntry_undone {allocated : Nat} (hret : (addEntry m oi n allocated).2 = -ENOSPC) :
    (addEntry m oi n allocated).1 = giveBack m allocated (oi + 56) := by
  unfold addEntry at hret ⊢
  rcases allocateBlock_cases hf with halloc | ⟨b, hb0, _, _, halloc⟩
  · simp only [halloc, if_true]
    exact giveBack_eq m allocated (oi + 56)
  · simp only [halloc, if_neg hb0] at hret
    exact absurd hret (by decide)

theorem addLeaf_undone {indirect2 a0 a1 : Nat}
    (hret : (addLeaf m oi n indirect2 a0 a1).2 = -ENOSPC) :
    (addLeaf m oi n indirect2 a0 a1).1 =
      giveBack (giveBack m a0 (ospfsBlock indirect2 + 4 * (indirIndex n).toNat)) a1 (oi + 60) := by
  unfold addLeaf at hret ⊢
  rcases allocateBlock_cases hf with halloc | ⟨b, hb0, _, _, halloc⟩
  · simp only [halloc, if_true]
    rw [← giveBack_eq m a0, ← giveBack_eq _ a1]
    rfl
  · simp only [halloc, if_neg hb0] at hret
    exact absurd hret (by decide)

include hp

theorem addIndirect_undone (hret : (addIndirect m oi n).2 = -ENOSPC) :
    SameUsed m (addIndirect m oi n).1 := by
  obtain ⟨hplace, _, _⟩ := hp.inode_place
  unfold addIndirect at hret ⊢
  by_cases h0 : oiIndirect m oi = 0
  · rw [if_pos h0] at hret ⊢
    rcases allocateBlock_cases hf with halloc | ⟨b, hb0, hb, hfree, halloc⟩
    · simp only [halloc, if_true]
      exact SameUsed.refl
    · simp only [halloc, if_neg hb0] at hret ⊢
      have hcell : 1024 * osFirstinob m ≤ oi + 56 := by omega
      change (addEntry (wr32 (takeBlock m b) (oi + 56) b) oi n b).2 = _ at hret
      change SameUsed m (addEntry (wr32 (takeBlock m b) (oi + 56) b) oi n b).1
      rw [addEntry_undone (stored_freeAbove hp hf hb hfree hcell) hret]
      unfold giveBack
      rw [if_pos hb0]
      exact undo_stored hp hf hb hfree hcell h0 SameUsed.refl
  · rw [if_neg h0] at hret ⊢
    rw [addEntry_undone hf hret, giveBack_none]
    exact SameUsed.refl

/-- The leaf index block is undone first. -/
theorem addEntry2_undone {allocated1 : Nat}
    (hind : osFirstinob m ≤ oiIndirect2 m oi ∧ oiIndirect2 m oi < osNblocks m)
    (hret : (addEntry2 m oi n allocated1).2 = -ENOSPC) :
    ∃ x, SameUsed m x ∧ (addEntry2 m oi n allocated1).1 = giveBack x allocated1 (oi + 60) := by
  have hsmall := hp.small
  unfold addEntry2 at hret ⊢
  dsimp only at hret ⊢
  by_cases h0 : blockWord m (oiIndirect2 m oi) (indirIndex n).toNat = 0
  · rw [if_pos h0] at hret ⊢
    rcases allocateBlock_cases hf with halloc | ⟨b, hb0, hb, hfree, halloc⟩
    · simp only [halloc, if_true]
      refine ⟨m, SameUsed.refl, ?_⟩
      rw [← giveBack_eq]
      rfl
    · have hcell : 1024 * osFirstinob m ≤
          ospfsBlock (oiIndirect2 m oi) + 4 * (indirIndex n).toNat := by
        rw [ospfsBlock_of_lt (by omega)]
        omega
      simp only [halloc, if_neg hb0] at hret ⊢
      change (addLeaf (wr32 (takeBlock m b) _ b) oi n _ b allocated1).2 = _ at hret
      change ∃ x, SameUsed m x ∧ (addLeaf (wr32 (takeBlock m b) _ b) oi n _ b allocated1).1 = _
      rw [addLeaf_undone (stored_freeAbove hp hf hb hfree hcell) hret]
      refine ⟨_, ?_, rfl⟩
      unfold giveBack
      rw [if_pos hb0]
      exact undo_stored hp hf hb hfree hcell h0 SameUsed.refl
  · rw [if_neg h0] at hret ⊢
    rw [addLeaf_undone hf hret, giveBack_none]
    exact ⟨m, SameUsed.refl, rfl⟩

theorem addIndirect2_undone
    (hind : oiIndirect2 m oi ≠ 0 →
      osFirstinob m ≤ oiIndirect2 m oi ∧ oiIndirect2 m oi < osNblocks m)
    (hret : (addIndirect2 m oi n).2 = -ENOSPC) : SameUsed m (addIndirect2 m oi n).1 := by
  obtain ⟨hplace, _, _⟩ := hp.inode_place
  have hsmall := hp.small
  unfold addIndirect2 at hret ⊢
  by_cases h0 : oiIndirect2 m oi = 0
  · rw [if_pos h0] at hret ⊢
    rcases allocateBlock_cases hf with halloc | ⟨b, hb0, hb, hfree, halloc⟩
    · simp only [halloc, if_true]
      exact SameUsed.refl
    · simp only [halloc, if_neg hb0] at hret ⊢
      have hcell : 1024 * osFirstinob m ≤ oi + 60 := by omega
      have hlt := hf b hb hfree
      unfold freeBound at hlt
      obtain ⟨h1, _, h3⟩ := stored_superblock hp hf hb hfree hcell
      have hnew : oiIndirect2 (wr32 (takeBlock m b) (oi + 60) b) oi = b :=
        rd32_wr32_of_lt _ _ (by omega)
      change (addEntry2 (wr32 (takeBlock m b) (oi + 60) b) oi n b).2 = _ at hret
      change SameUsed m (addEntry2 (wr32 (takeBlock m b) (oi + 60) b) oi n b).1
      obtain ⟨x, hx, heq⟩ := addEntry2_undone (stored_parts hp hf hb hfree hcell)
        (stored_freeAbove hp hf hb hfree hcell) (by rw [hnew, h1, h3]; omega) hret
      rw [heq]
      unfold giveBack
      rw [if_pos hb0]
      exact undo_stored hp hf hb hfree hcell h0 hx
  · rw [if_neg h0] at hret ⊢
    obtain ⟨x, hx, heq⟩ := addEntry2_undone hp hf (hind h0) hret
    rw [heq, giveBack_none]
    exact hx

end Branches

/-- The size, the pointers, the free map and all contents of blocks in use are as before. -/
structure Untouched (m : Bytes) (oi : Nat) (m' : Bytes) : Prop where
  used : SameUsed m m'
  size : oiSize m' oi = oiSize m oi
  pointers : ∀ s, ptr m' oi s = ptr m oi s
  free : ∀ b, b < osNblocks m → isFree m' b = isFree m b

theorem addBlock_undone (hp : Parts m oi) (hf : FreeAbove m)
    (hindex : ∀ p, p.isIndex = true → ptr m oi p ≠ 0 → Allocated m (ptr m oi p))
    (hret : (addBlock m oi).2 = -ENOSPC) : Untouched m oi (addBlock m oi).1 := by
  have hsmall := hp.small
  have hsame : SameUsed m (addBlock m oi).1 := by
    unfold addBlock at hret ⊢
    generalize size2nblocks (oiSize m oi) = n at hret ⊢
    dsimp only at hret ⊢
    by_cases hneg : (addBlockAt m oi n).2 < 0
    · rw [if_pos hneg] at hret ⊢
      unfold addBlockAt at hret ⊢
      split at hret
      · next hdirect =>
        rw [if_pos hdirect, addDirect_undone hf hret]
        exact SameUsed.refl
      · next hdirect =>
        rw [if_neg hdirect]
        split at hret
        · next hentry =>
          rw [if_pos hentry]
          exact addIndirect_undone hp hf hret
        · next hentry =>
          rw [if_neg hentry]
          split at hret
          · next hleaf =>
            rw [if_pos hleaf]
            refine addIndirect2_undone hp hf (fun h0 => ?_) hret
            obtain ⟨h1, h2, _⟩ := hindex .indirect2 rfl h0
            unfold dataStart at h1
            exact ⟨le_trans (Nat.le_add_right _ _) h1, h2⟩
          · next hleaf =>
            rw [if_neg hleaf]
            exact SameUsed.refl
    · rw [if_neg hneg] at hret
      have herr : (0 : Int) = -ENOSPC := hret
      exact absurd herr (by decide)
  have hinode : ∀ k, k < 64 → (addBlock m oi).1 (oi + k) = m (oi + k) := fun k hk =>
    hsame _ (hf.not_inFree hp (.inr (by omega)))
  constructor
  · exact hsame
  · exact rd32_congr fun k hk => hinode k (by omega)
  · apply ptr_congr_index
    · intro s hs
      by_cases h0 : ptr m oi s = 0
      · omega
      · have hlt := (hindex s hs h0).2.1
        omega
    · intro a h1 h2
      obtain ⟨k, rfl⟩ := Nat.exists_eq_add_of_le (show oi ≤ a by omega)
      exact hinode k (by omega)
    · intro s a hs h0 ha
      apply hsame
      rintro ⟨_, hfree⟩
      rw [ha, (hindex s hs h0).2.2] at hfree
      cases hfree
  · exact fun b hb => hsame.isFree hp hf hb

section LastFreeBlock

/-- Block 271 is the only free one, and the file of inode 1 ends with its direct blocks. -/
def lastFree : Bytes := wr32 (wr32 (wr32 bigFile 2080 32768) 2084 0) 3136 10240

theorem lastFree_parts : Parts lastFree 3136 := by
  have hn : osNblocks lastFree = 300 := by decide +kernel
  have hi : osNinodes lastFree = 16 := by decide +kernel
  have hf : osFirstinob lastFree = 3 := by decide +kernel
  constructor
  · rw [hn, hf]
  · unfold dataStart
    rw [hn, hi, hf]
    decide
  · rw [hn]
    decide
  · exact ⟨1, by decide +kernel⟩

/-- The block is taken for the indirect block, and given back. -/
theorem addBlock_undone_lastFree : Untouched lastFree 3136 (addBlock lastFree 3136).1 := by
  apply addBlock_undone lastFree_parts
  · have hn : osNblocks lastFree = 300 := by decide +kernel
    have hbound : freeBound lastFree = 4 := by decide +kernel
    have hfree : ∀ b, b < 300 → isFree lastFree b = true → 4 < b := by decide +kernel
    intro b hb
    rw [hn] at hb
    rw [hbound]
    exact hfree b hb
  · intro p _ h0
    have hzero : ∀ k, k < 64 → 16 ≤ k → lastFree (3136 + k) = 0 := by decide +kernel
    exact absurd (ptr_eq_zero (fun k h1 h2 => hzero k h2 h1) p) h0
  · decide +kernel

end LastFreeBlock

end CS111.Ospfs
