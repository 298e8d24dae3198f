import CS111.Ospfs.FileBytes

/-!
# What an operation on one inode leaves alone
-/

namespace CS111.Ospfs

open Memory

set_option autoImplicit false

variable {g : Geometry} {m m' m'' : Bytes} {i j k x : Nat}

section Same

/-- Inode `j` has the same bytes, apart from its link count, the same pointers and the same
contents. -/
structure Same (g : Geometry) (j : Nat) (m m' : Bytes) : Prop where
  inode : ∀ k, k < 8 ∨ (12 ≤ k ∧ k < 64) → m' (inodeAddr j + k) = m (inodeAddr j + k)
  own_eq : ∀ s, own g m' (j, s) = own g m (j, s)
  blocks : ∀ s a, own g m (j, s) ≠ 0 → a / 1024 = own g m (j, s) → m' a = m a

theorem Same.refl : Same g j m m := by
  constructor
  · intro k _
    rfl
  · intro s
    rfl
  · intro s a _ _
    rfl

theorem Same.trans (h : Same g j m m') (h' : Same g j m' m'') : Same g j m m'' := by
  constructor
  · intro k hk
    rw [h'.inode k hk, h.inode k hk]
  · intro s
    rw [h'.own_eq, h.own_eq]
  · intro s a h0 ha
    rw [← h.own_eq] at h0 ha
    rw [h'.blocks s a h0 ha]
    rw [h.own_eq] at h0 ha
    exact h.blocks s a h0 ha

theorem Same.symm (h : Same g j m m') : Same g j m' m where
  inode k hk := (h.inode k hk).symm
  own_eq s := (h.own_eq s).symm
  blocks s a h0 ha := by
    rw [h.own_eq] at h0 ha
    exact (h.blocks s a h0 ha).symm

theorem Same.ftype (h : Same g i m m') : oiFtype m' (inodeAddr i) = oiFtype m (inodeAddr i) := by
  apply rd32_congr
  intro k hk
  rw [Nat.add_assoc]
  exact h.inode _ (by omega)

theorem Same.size (h : Same g i m m') : oiSize m' (inodeAddr i) = oiSize m (inodeAddr i) := by
  apply rd32_congr
  intro k hk
  exact h.inode _ (by omega)

theorem Same.fileByte {x : Nat} (h : Same g i m m') (h0 : own g m (i, dataSlot (x / 1024)) ≠ 0) :
    fileByte g m' i x = fileByte g m i x := by
  unfold CS111.Ospfs.fileByte
  rw [h.own_eq]
  exact h.blocks _ _ h0 (by omega)

theorem Same.complete (h : Same g i m m') (hc : Complete g m i) : Complete g m' i := by
  intro k hk
  rw [fileBlocks, h.size] at hk
  rw [h.own_eq]
  exact hc k hk

/-- An operation on another inode. -/
theorem Change.same (h : Change g i m m') (hs : Sound g m) (hi : i < g.ninodes) (hj : j < g.ninodes)
    (hne : j ≠ i) : Same g j m m' := by
  constructor
  · intro k hk
    exact h.inode_bytes hj (by omega) (.inl hne)
  · intro s
    exact h.others (j, s) hne
  · intro s a h0 ha
    exact h.block hs hi hne h0 ha

end Same

section Overwritten

/-- Only data blocks of inode `i` have new contents. -/
structure Overwritten (g : Geometry) (i : Nat) (m m' : Bytes) : Prop where
  sound : Sound g m'
  own_eq : own g m' = own g m
  inodes : ∀ j k, j < g.ninodes → k < 64 → m' (inodeAddr j + k) = m (inodeAddr j + k)
  others : ∀ y, own g m y ≠ 0 → y.1 ≠ i → ∀ a, a / 1024 = own g m y → m' a = m a

theorem Overwritten.refl (hs : Sound g m) : Overwritten g i m m := by
  constructor
  · exact hs
  · rfl
  · intro j k _ _
    rfl
  · intro y _ _ a _
    rfl

theorem Overwritten.trans (h : Overwritten g i m m') (h' : Overwritten g i m' m'') :
    Overwritten g i m m'' := by
  constructor
  · exact h'.sound
  · rw [h'.own_eq, h.own_eq]
  · intro j k hj hk
    rw [h'.inodes j k hj hk, h.inodes j k hj hk]
  · intro y h0 hy a ha
    rw [← h.others y h0 hy a ha]
    rw [← h.own_eq] at h0 ha
    exact h'.others y h0 hy a ha

theorem Overwritten.of_block (hs : Sound g m) {s : Slot} (hidx : s.isIndex = false)
    (h0 : own g m (i, s) ≠ 0) (hout : ∀ a, a / 1024 ≠ own g m (i, s) → m' a = m a) :
    Overwritten g i m m' := by
  constructor
  · exact hs.writeBlock (y := (i, s)) hidx h0 hout
  · exact own_writeBlock hs (y := (i, s)) hidx h0 hout
  · intro j k hj hk
    exact writeBlock_inode hs (y := (i, s)) h0 hout hj hk
  · intro y hy0 hy a ha
    apply hout
    rw [ha]
    intro heq
    exact hy (congrArg Prod.fst (hs.owns.inj hy0 heq))

theorem Overwritten.same (h : Overwritten g i m m') (hj : j < g.ninodes) (hne : j ≠ i) :
    Same g j m m' := by
  constructor
  · intro k hk
    exact h.inodes j k hj (by omega)
  · intro s
    rw [h.own_eq]
  · intro s a h0 ha
    exact h.others (j, s) h0 hne a ha

theorem Overwritten.size (h : Overwritten g i m m') (hj : j < g.ninodes) :
    oiSize m' (inodeAddr j) = oiSize m (inodeAddr j) :=
  rd32_congr fun k hk => h.inodes j k hj (by omega)

theorem Overwritten.ftype (h : Overwritten g i m m') (hj : j < g.ninodes) :
    oiFtype m' (inodeAddr j) = oiFtype m (inodeAddr j) := by
  apply rd32_congr
  intro k hk
  rw [Nat.add_assoc]
  exact h.inodes j _ hj (by omega)

theorem Overwritten.nlink (h : Overwritten g i m m') (hj : j < g.ninodes) :
    oiNlink m' (inodeAddr j) = oiNlink m (inodeAddr j) := by
  apply rd32_congr
  intro k hk
  rw [Nat.add_assoc]
  exact h.inodes j _ hj (by omega)

/-- The copying loop of `ospfs_write`, with any buffer and in any file. -/
theorem writeLoop_overwritten (count p : Nat) (buffer : Nat → Option UInt8) (fuel amount : Nat)
    (hs : Sound g m) (hx : HasBlocks g m i) (hsize : oiSize m (inodeAddr i) ≤ maxFileSize) :
    Overwritten g i m (writeLoop (inodeAddr i) count buffer fuel m amount p).data := by
  induction fuel generalizing m amount p with
  | zero => exact Overwritten.refl hs
  | succ fuel ih =>
    rw [writeLoop]
    by_cases hlt : amount < count
    swap
    · rw [if_neg hlt]
      exact Overwritten.refl hs
    rw [if_pos hlt]
    by_cases hblock : ospfsInodeBlockno m (inodeAddr i) (u32 p) = 0
    · simp only [if_pos hblock]
      exact Overwritten.refl hs
    have hp : u32 p < oiSize m (inodeAddr i) := by
      by_contra hge
      apply hblock
      unfold ospfsInodeBlockno
      simp only [if_pos (Or.inl (by omega) :
        u32 p ≥ oiSize m (inodeAddr i) ∨ oiFtype m (inodeAddr i) = FTYPE_SYMLINK)]
    have hmod : p % 1024 < 1024 := Nat.mod_lt _ (by omega)
    have hn := Nat.min_le_left (1024 - p % 1024) (count - amount)
    simp only [if_neg hblock]
    rw [blockno_eq_own hs hx hsize hp] at hblock ⊢
    have hsmall := own_small hs.owns (inUse_dataBlocks g m) (i, dataSlot (u32 p / 1024))
    rw [ospfsBlock_of_lt hsmall]
    generalize min (1024 - p % 1024) (count - amount) = n at hn
    generalize hr : copyFromUser m (1024 * own g m (i, dataSlot (u32 p / 1024)) + p % 1024) buffer
      amount n = r
    have hstep : Overwritten g i m r.1 := by
      apply Overwritten.of_block hs (dataSlot_isIndex _) hblock
      intro a ha
      rw [← hr]
      apply store_outside
      have hlen := readableBytes_le buffer amount n
      rw [List.length_append, List.length_replicate]
      omega
    split
    · exact hstep
    · have hx' : HasBlocks g r.1 i := ⟨hx.1, by rw [hstep.ftype hx.1]; exact hx.2⟩
      exact hstep.trans (ih _ _ hstep.sound hx' (by rw [hstep.size hx.1]; exact hsize))

end Overwritten

section Fields

variable (hs : Sound g m) (hi : i < g.ninodes)

/-- The link count is not part of what a file is. -/
theorem setField_same (hs : Sound g m) (hi : i < g.ninodes)
    (hk : k = 0 ∨ k = 8 ∨ k = 12) (hne : j ≠ i ∨ k = 8) (v : Nat) :
    Same g j m (wr32 m (inodeAddr i + k) v) := by
  have hr := g.inode_region hi
  constructor
  · intro l hl
    apply wr32_outside
    unfold inodeAddr
    omega
  · intro s
    exact congrFun (own_setField hs hi hk v) (j, s)
  · intro s a h0 ha
    have hb := own_bounds hs.owns (inUse_dataBlocks g m) h0
    exact wr32_outside (by omega)

theorem setNlink_sound (hs : Sound g m) (hi : i < g.ninodes) (v : Nat) :
    Sound g (setNlink m (inodeAddr i) v) := hs.setField hi (.inr (.inl rfl)) v

theorem setNlink_frame (hs : Sound g m) (hi : i < g.ninodes) (v : Nat) :
    Same g j m (setNlink m (inodeAddr i) v) :=
  setField_same hs hi (.inr (.inl rfl)) (.inr rfl) v

theorem oiNlink_setNlink {v : Nat} (h : v < 4294967296) :
    oiNlink (setNlink m (inodeAddr i) v) (inodeAddr i) = v := rd32_wr32_of_lt _ _ h

theorem oiNlink_setNlink_ne (hne : j ≠ i) (v : Nat) :
    oiNlink (setNlink m (inodeAddr i) v) (inodeAddr j) = oiNlink m (inodeAddr j) := by
  apply rd32_wr32_ne
  unfold inodeAddr
  omega

end Fields

section Renewed

/-- Inode `i` is made anew, without blocks. -/
structure Renewed (g : Geometry) (i : Nat) (m m' : Bytes) : Prop where
  outside : ∀ a, a < inodeAddr i ∨ inodeAddr i + 64 ≤ a → m' a = m a
  own_zero : ∀ s, own g m' (i, s) = 0

theorem Renewed.same (h : Renewed g i m m') (hs : Sound g m) (hi : i < g.ninodes)
    (hne : j ≠ i) : Same g j m m' := by
  have hr := g.inode_region hi
  have hout : ∀ k, k < 64 → m' (inodeAddr j + k) = m (inodeAddr j + k) := by
    intro k hk
    apply h.outside
    unfold inodeAddr
    omega
  have hblock : ∀ s a, own g m (j, s) ≠ 0 → a / 1024 = own g m (j, s) → m' a = m a := by
    intro s a h0 ha
    have hb := own_bounds hs.owns (inUse_dataBlocks g m) h0
    exact h.outside a (by omega)
  constructor
  · intro k hk
    exact hout k (by omega)
  · apply own_congr_at hs.owns (inUse_dataBlocks g m)
    · intro k _ hk
      exact hout k (by omega)
    · intro t a _ h0 ha
      exact hblock t a h0 ha
  · exact hblock

theorem Renewed.nlink (h : Renewed g i m m') (hne : j ≠ i) :
    oiNlink m' (inodeAddr j) = oiNlink m (inodeAddr j) := by
  apply rd32_congr
  intro k hk
  apply h.outside
  unfold inodeAddr
  omega

theorem Renewed.sound (h : Renewed g i m m') (hs : Sound g m) (hi : i < g.ninodes) : Sound g m' := by
  have hr := g.inode_region hi
  have hn := g.nblocks_le
  have hroom := g.room
  have hfree : ∀ c, c < 8192 → isFree m' c = isFree m c := fun c hc =>
    isFree_congr hc fun a _ _ => h.outside a (by omega)
  have hown : ∀ x, own g m' x = 0 ∨ own g m' x = own g m x := by
    rintro ⟨j, s⟩
    by_cases hj : j = i
    · rw [hj]
      exact .inl (h.own_zero s)
    · exact .inr ((h.same hs hi hj).own_eq s)
  apply hs.of_parts
  · intro a ha
    exact h.outside a (by omega)
  · intro c hc
    rw [hfree c (by unfold Geometry.dataStart at *; omega), hs.reserved c hc]
  · apply hs.owns.shrink hown
    intro x hx
    have heq := (hown x).resolve_left hx
    rw [heq] at hx ⊢
    obtain ⟨h1, h2, h3⟩ := hs.owns.used_of_ne hx
    exact ⟨h1, h2, by rw [hfree _ (by omega)]; exact h3⟩

end Renewed

end CS111.Ospfs
