import CS111.Ospfs.Volume

/-!
# Adding and removing blocks

`dataSlot k` is the slot of file block `k`. The specifications of `add_block` and
`remove_block` say which data slots of the file keep their block and its contents.
-/

namespace CS111.Ospfs

open Memory

set_option autoImplicit false

variable {g : Geometry} {m m' m'' : Bytes} {i k n b v oi : Nat} {s t : Slot} {x : Nat × Slot}

section Slots

def dataSlot (k : Nat) : Slot :=
  if k < 10 then .direct (Fin.ofNat 10 k)
  else if k < 266 then .entry (Fin.ofNat 256 (k - 10))
  else .leaf (Fin.ofNat 256 ((k - 266) / 256)) (Fin.ofNat 256 (k - 266))

theorem dataSlot_isIndex (k : Nat) : (dataSlot k).isIndex = false := by
  unfold dataSlot
  split
  · rfl
  · split <;> rfl

theorem dataSlot_inj {k k' : Nat} (hk : k < 65802) (hk' : k' < 65802)
    (h : dataSlot k = dataSlot k') : k = k' := by
  unfold dataSlot at h
  split at h <;> split at h <;> (try split at h) <;> (try split at h) <;>
    simp only [Slot.direct.injEq, Slot.entry.injEq, Slot.leaf.injEq, Fin.ext_iff, Fin.ofNat,
      reduceCtorEq] at h <;> omega

theorem dataSlot_direct (h : k < 10) : dataSlot k = .direct ⟨k, h⟩ := by
  unfold dataSlot
  rw [if_pos h]
  congr 1
  exact Fin.ext (Nat.mod_eq_of_lt h)

theorem directIndex_lt (k : Nat) : directIndex k < 256 := by
  unfold directIndex
  split <;> omega

theorem indirIndex_leaf (h1 : 266 ≤ k) : (indirIndex k).toNat = (k - 266) / 256 := by
  unfold indirIndex
  rw [if_neg (by omega), if_neg (by omega)]
  rfl

theorem indirIndex_lt (h1 : 266 ≤ k) (h2 : k < 65802) : (indirIndex k).toNat < 256 := by
  rw [indirIndex_leaf h1]
  omega

theorem dataSlot_entry (h1 : 10 ≤ k) (h2 : k < 266) :
    dataSlot k = .entry ⟨directIndex k, directIndex_lt k⟩ := by
  unfold dataSlot
  rw [if_neg (by omega), if_pos h2, Slot.entry.injEq, Fin.ext_iff]
  have hd : directIndex k = (k - 10) % 256 := if_neg (by omega)
  exact hd.symm

theorem dataSlot_leaf (h1 : 266 ≤ k) (h2 : k < 65802) :
    dataSlot k = .leaf ⟨(indirIndex k).toNat, indirIndex_lt h1 h2⟩
      ⟨directIndex k, directIndex_lt k⟩ := by
  unfold dataSlot
  rw [if_neg (by omega), if_neg (by omega), Slot.leaf.injEq, Fin.ext_iff, Fin.ext_iff]
  have hd : directIndex k = (k - 10) % 256 := if_neg (by omega)
  constructor
  · exact (Nat.mod_eq_of_lt (by omega)).trans (indirIndex_leaf h1).symm
  · refine Eq.trans ?_ hd.symm
    exact show (k - 266) % 256 = (k - 10) % 256 by omega

/-- The writes of the code as writes of slots. -/
theorem setDirect_eq (h : k < 10) : setDirect m oi k v = setCell m oi (.direct ⟨k, h⟩) v := by
  unfold setDirect setCell
  rw [cell_root rfl]
  congr 1
  simp only [Slot.index]
  omega

theorem setBlockWord_eq {p : Slot} (hp : s.parent = some p) (hb : ptr m oi p = b)
    (hlt : b < 4194304) : setBlockWord m b s.index v = setCell m oi s v := by
  unfold setBlockWord setCell
  rw [cell_child hp, hb, ospfsBlock_of_lt hlt]

/-- The read path follows the tree, where it does not take a missing index block for one. -/
theorem blockno_eq_ptr {a : Nat} (hf : oiFtype m oi ≠ FTYPE_SYMLINK) (hlt : a < oiSize m oi)
    (hmax : a / 1024 < 65802)
    (hbelow : ∀ p j, (dataSlot (a / 1024)).Below p → j < 256 →
      blockWord m (ptr m oi p) j = below m (ptr m oi p) j) :
    ospfsInodeBlockno m oi a = ptr m oi (dataSlot (a / 1024)) := by
  have hguard : ¬ (a ≥ oiSize m oi ∨ oiFtype m oi = FTYPE_SYMLINK) :=
    not_or.mpr ⟨by omega, hf⟩
  unfold ospfsInodeBlockno
  simp only [if_neg hguard]
  by_cases h266 : a / 1024 ≥ 266
  · have hslot : dataSlot (a / 1024) = .leaf (Fin.ofNat 256 ((a / 1024 - 266) / 256))
        (Fin.ofNat 256 (a / 1024 - 266)) := by
      unfold dataSlot
      rw [if_neg (by omega), if_neg (by omega)]
    have hk := hbelow .indirect2 ((a / 1024 - 266) / 256) (by rw [hslot]; exact .inr rfl) (by omega)
    have hj := hbelow (.entry2 (Fin.ofNat 256 ((a / 1024 - 266) / 256))) ((a / 1024 - 266) % 256)
      (by rw [hslot]; exact .inl rfl) (by omega)
    rw [if_pos h266, hslot, ptr]
    simp only [ptr, Fin.ofNat] at hk hj ⊢
    rw [Nat.mod_eq_of_lt (show (a / 1024 - 266) / 256 < 256 by omega)] at hj ⊢
    rw [hk, hj]
  · rw [if_neg h266]
    by_cases h10 : a / 1024 ≥ 10
    · have hslot : dataSlot (a / 1024) = .entry (Fin.ofNat 256 (a / 1024 - 10)) := by
        unfold dataSlot
        rw [if_neg (by omega), if_pos (by omega)]
      have hj := hbelow .indirect (a / 1024 - 10) (by rw [hslot]; exact .inl rfl) (by omega)
      rw [if_pos h10, hslot, ptr]
      simp only [ptr, Fin.ofNat] at hj ⊢
      rw [hj, Nat.mod_eq_of_lt (show a / 1024 - 10 < 256 by omega)]
    · rw [if_neg h10, dataSlot_direct (by omega), ptr]

end Slots

section Counts

theorem size2nblocks_of_lt (h : n < 4294966273) : size2nblocks n = (n + 1023) / 1024 := by
  unfold size2nblocks
  rw [u32_of_lt (by omega)]

theorem size2nblocks_add (h : size2nblocks n + 1 < 4194304) :
    size2nblocks (u32 (n + 1024)) = size2nblocks n + 1 := by
  unfold size2nblocks u32 at *
  omega

theorem size2nblocks_sub (hn : n < 4294967296) (h : size2nblocks n ≠ 0) :
    size2nblocks (usub32 n 1024) = size2nblocks n - 1 := by
  unfold size2nblocks u32 usub32 at *
  omega

end Counts

section Keep

/-- The data slots in `K` of inode `i` keep their blocks with the contents. -/
structure Keep (g : Geometry) (i : Nat) (K : Slot → Prop) (m m' : Bytes) : Prop where
  own_eq : ∀ s, K s → s.isIndex = false → own g m' (i, s) = own g m (i, s)
  data : ∀ s, K s → s.isIndex = false → own g m (i, s) ≠ 0 →
    ∀ a, a / 1024 = own g m (i, s) → m' a = m a

variable {K K' : Slot → Prop}

theorem Keep.refl : Keep g i K m m := by
  constructor
  · intro s _ _
    rfl
  · intro s _ _ _ a _
    rfl

theorem Keep.mono (h : Keep g i K m m') (hle : ∀ s, K' s → K s) : Keep g i K' m m' := by
  constructor
  · intro s hs
    exact h.own_eq s (hle s hs)
  · intro s hs
    exact h.data s (hle s hs)

theorem Keep.trans (h : Keep g i K m m') (h' : Keep g i K m' m'') : Keep g i K m m'' := by
  constructor
  · intro s hs hd
    rw [h'.own_eq s hs hd, h.own_eq s hs hd]
  · intro s hs hd h0 a ha
    rw [← h.own_eq s hs hd] at h0 ha
    rw [h'.data s hs hd h0 a ha]
    rw [h.own_eq s hs hd] at h0 ha
    exact h.data s hs hd h0 a ha

/-- The size, type, link count and mode of every inode. -/
def FieldsKept (g : Geometry) (m m' : Bytes) : Prop :=
  ∀ j k, j < g.ninodes → k < 16 → m' (inodeAddr j + k) = m (inodeAddr j + k)

theorem FieldsKept.trans (h : FieldsKept g m m') (h' : FieldsKept g m' m'') :
    FieldsKept g m m'' := fun j k hj hk => by rw [h' j k hj hk, h j k hj hk]

theorem FieldsKept.size (h : FieldsKept g m m') (hi : i < g.ninodes) :
    oiSize m' (inodeAddr i) = oiSize m (inodeAddr i) :=
  rd32_congr fun k hk => h i k hi (by omega)

section Link
variable (hs : Sound g m) (hb : Fresh g m b) (hx : HasBlocks g m i)
variable (hp : ∀ p, s.parent = some p → own g m (i, p) ≠ 0)
include hs hb hx hp

theorem linkBlock_fields : FieldsKept g m (linkBlock m (i, s) b) := by
  intro j k hj hk
  have hge := g.dataStart_ge
  have hr := g.inode_region hj
  have howns : Owns (own g (takeBlock m b)) (InUse g m) := by
    rw [own_takeBlock hs hb]
    exact hs.owns
  have hset := setCell_fields howns (inUse_dataBlocks g m)
    (takeBlock_hasBlocks (x := (i, s)) hb hx)
    (by rw [own_takeBlock hs hb]; exact hp) b hj hk
  refine hset.trans (takeBlock_outside hb (by omega) ?_)
  have := hb.1
  omega

theorem linkBlock_keep_data :
    Keep g i (fun t => t ≠ s ∧ ¬ t.Below s) m (linkBlock m (i, s) b) := by
  constructor
  · rintro t ⟨h1, h2⟩ _
    rw [own_linkBlock hs hb hx hp, if_neg (fun hc => h1 (by simpa using hc)),
      if_neg (fun hc => h2 hc.2)]
  · intro t _ hd h0 a ha
    exact linkBlock_data hs hb (x := (i, s)) hx hp (y := (i, t)) hd h0 ha

/-- Below an empty slot nothing can be lost. -/
theorem linkBlock_keep_index (h0 : own g m (i, s) = 0) (hidx : s.isIndex = true) :
    Keep g i (fun _ => True) m (linkBlock m (i, s) b) := by
  constructor
  · intro t _ hd
    have hts : t ≠ s := fun hc => by
      rw [hc, hidx] at hd
      exact absurd hd (by simp)
    rw [own_linkBlock hs hb hx hp, if_neg (fun hc => hts (by simpa using hc))]
    split
    · rename_i hbelow
      exact (own_below_zero hbelow.2 h0).symm
    · rfl
  · intro t _ hd h0 a ha
    exact linkBlock_data hs hb (x := (i, s)) hx hp (y := (i, t)) hd h0 ha

end Link

section Drop
variable (hs : Sound g m) (hx : HasBlocks g m i)
variable (hp : ∀ p, s.parent = some p → own g m (i, p) ≠ 0) (hb : own g m (i, s) = b)
include hs hx hp hb

theorem dropBlock_fields : FieldsKept g m (dropBlock m (i, s) b) := by
  intro j k hj hk
  have hge := g.dataStart_ge
  have hr := g.inode_region hj
  have hbn : b < g.nblocks := hb ▸ own_lt_nblocks hs _
  have howns : Owns (own g (freeBlock m b)) (InUse g m) := by
    rw [own_freeBlock hs hbn]
    exact hs.owns
  have hset := setCell_fields howns (inUse_dataBlocks g m)
    (freeBlock_hasBlocks hs (x := (i, s)) hx hbn)
    (by rw [own_freeBlock hs hbn]; exact hp) 0 hj hk
  exact hset.trans (hs.freeBlock_outside hbn (by omega))

theorem dropBlock_keep :
    Keep g i (fun t => t ≠ s ∧ ¬ t.Below s) m (dropBlock m (i, s) b) := by
  have hbn : b < g.nblocks := hb ▸ own_lt_nblocks hs _
  constructor
  · rintro t ⟨h1, h2⟩ _
    rw [own_dropBlock hs hx hp hbn, if_neg (fun hc => h1 (by simpa using hc)),
      if_neg (fun hc => h2 hc.2)]
  · intro t _ hd h0 a ha
    exact dropBlock_data hs (x := (i, s)) hx hp hbn (y := (i, t)) hd h0 ha

end Drop

end Keep

section AddBlock

/-- A call that changed nothing but the free map and blocks it gave back. -/
structure Unchanged (g : Geometry) (i : Nat) (m m' : Bytes) : Prop where
  change : Change g i m m'
  fields : FieldsKept g m m'
  keep : Keep g i (fun _ => True) m m'

/-- File block `n` has been added, and is all zero. -/
structure Added (g : Geometry) (i n : Nat) (m m' : Bytes) : Prop where
  change : Change g i m m'
  fields : FieldsKept g m m'
  keep : Keep g i (fun s => s ≠ dataSlot n) m m'
  new : own g m' (i, dataSlot n) ≠ 0
  zero : ZeroBlock m' (own g m' (i, dataSlot n))

theorem Unchanged.refl (hs : Sound g m) : Unchanged g i m m := by
  constructor
  · exact Change.refl hs i
  · intro j k _ _
    rfl
  · exact Keep.refl

theorem Unchanged.trans (h : Unchanged g i m m') (h' : Unchanged g i m' m'') :
    Unchanged g i m m'' := by
  constructor
  · exact h.change.trans h'.change
  · exact h.fields.trans h'.fields
  · exact h.keep.trans h'.keep

theorem Unchanged.added (h : Unchanged g i m m') (h' : Added g i n m' m'') : Added g i n m m'' := by
  constructor
  · exact h.change.trans h'.change
  · exact h.fields.trans h'.fields
  · exact (h.keep.mono fun _ _ => trivial).trans h'.keep
  · exact h'.new
  · exact h'.zero

variable (hs : Sound g m) (hx : HasBlocks g m i)
include hs hx

omit hs in
theorem own_eq_ptr (s : Slot) : own g m (i, s) = ptr m (inodeAddr i) s := own_of hx.1 hx.2 s

theorem linkBlock_added (hb : Fresh g m b)
    (hp : ∀ p, (dataSlot n).parent = some p → own g m (i, p) ≠ 0) :
    Added g i n m (linkBlock m (i, dataSlot n) b) := by
  have hge := g.dataStart_ge
  have hown : own g (linkBlock m (i, dataSlot n) b) (i, dataSlot n) = b := by
    rw [own_linkBlock hs hb hx hp, if_pos rfl]
  constructor
  · exact linkBlock_change hs hb (x := (i, dataSlot n)) hx hp
  · exact linkBlock_fields hs hb hx hp
  · apply (linkBlock_keep_data hs hb hx hp).mono
    intro t ht
    exact ⟨ht, Slot.not_below_of_data (dataSlot_isIndex n)⟩
  · rw [hown]
    have := hb.1
    omega
  · rw [hown]
    exact linkBlock_zero hs hb (x := (i, dataSlot n)) hx hp

theorem addDirect_spec (hn : n < 10) :
    addDirect m (inodeAddr i) n = (m, -ENOSPC) ∨
      ∃ m', addDirect m (inodeAddr i) n = (m', 0) ∧ Added g i n m m' := by
  unfold addDirect
  rcases hs.allocate with ⟨h1, h2⟩ | ⟨h1, h2, h3⟩
  · left
    simp only [h1, h2, if_true]
  · right
    refine ⟨linkBlock m (i, dataSlot n) (allocateBlock m).2, ?_, ?_⟩
    · simp only [if_neg h2]
      rw [setDirect_eq hn, h1, dataSlot_direct hn]
      rfl
    · apply linkBlock_added hs hx h3
      intro p hp
      rw [dataSlot_direct hn] at hp
      exact absurd hp (by simp [Slot.parent])

theorem addEntry_spec (h1 : 10 ≤ n) (h2 : n < 266) (hind : own g m (i, .indirect) ≠ 0)
    {allocated : Nat} (ha : allocated = 0 ∨ allocated = own g m (i, .indirect)) :
    addEntry m (inodeAddr i) n allocated =
        (if allocated ≠ 0 then dropBlock m (i, .indirect) allocated else m, -ENOSPC) ∨
      ∃ m', addEntry m (inodeAddr i) n allocated = (m', 0) ∧ Added g i n m m' := by
  have hparent : (dataSlot n).parent = some .indirect := by rw [dataSlot_entry h1 h2]; rfl
  unfold addEntry
  rcases hs.allocate with ⟨h3, h4⟩ | ⟨h3, h4, h5⟩
  · left
    simp only [h3, h4, if_true]
    rcases ha with h0 | h0
    · subst h0
      simp [freeBlock]
    · rw [if_pos (by rw [h0]; exact hind), if_pos (by rw [h0]; exact hind)]
      rfl
  · right
    refine ⟨linkBlock m (i, dataSlot n) (allocateBlock m).2, ?_, ?_⟩
    · simp only [if_neg h4]
      have hh := takeBlock_hasBlocks (x := (i, .indirect)) h5 hx
      have hptr : ptr (takeBlock m (allocateBlock m).2) (inodeAddr i) .indirect
          = oiIndirect (takeBlock m (allocateBlock m).2) (inodeAddr i) := rfl
      have hsmall : oiIndirect (takeBlock m (allocateBlock m).2) (inodeAddr i) < 4194304 := by
        rw [← hptr, ← own_of hh.1 hh.2, own_takeBlock hs h5]
        exact own_small hs.owns (inUse_dataBlocks g m) _
      have hset := setBlockWord_eq (v := (allocateBlock m).2) hparent hptr hsmall
      rw [h3, linkBlock, ← hset]
      rw [dataSlot_entry h1 h2]
      rfl
    · apply linkBlock_added hs hx h5
      intro p hp
      rw [hparent, Option.some.injEq] at hp
      rw [← hp]
      exact hind

theorem linkBlock_unchanged (hb : Fresh g m b) (h0 : own g m (i, .indirect) = 0) :
    Unchanged g i m (linkBlock m (i, .indirect) b) := by
  have hp : ∀ p, Slot.indirect.parent = some p → own g m (i, p) ≠ 0 := fun p hp =>
    absurd hp (by simp [Slot.parent])
  constructor
  · exact linkBlock_change hs hb (x := (i, .indirect)) hx hp
  · exact linkBlock_fields hs hb hx hp
  · exact linkBlock_keep_index hs hb hx hp h0 rfl

omit hs hx in
/-- An index block that serves no file block may be given back. -/
theorem dropBlock_unchanged (hs : Sound g m) (hx : HasBlocks g m i)
    (hb : own g m (i, .indirect) = b)
    (hempty : ∀ s, s.Below .indirect → own g m (i, s) = 0) :
    Unchanged g i m (dropBlock m (i, .indirect) b) := by
  have hp : ∀ p, Slot.indirect.parent = some p → own g m (i, p) ≠ 0 := fun p hp =>
    absurd hp (by simp [Slot.parent])
  have hkeep := dropBlock_keep hs hx hp hb
  have hbn : b < g.nblocks := hb ▸ own_lt_nblocks hs _
  constructor
  · exact dropBlock_change hs (x := (i, .indirect)) hx hp hb
  · exact dropBlock_fields hs hx hp hb
  · constructor
    · intro t _ hd
      have hts : t ≠ .indirect := fun hc => by
        rw [hc] at hd
        exact absurd hd (by simp [Slot.isIndex])
      by_cases hbelow : t.Below .indirect
      · rw [own_dropBlock hs (x := (i, .indirect)) hx hp hbn, if_neg (by simpa using hts),
          if_pos ⟨rfl, hbelow⟩, hempty t hbelow]
      · exact hkeep.own_eq t ⟨hts, hbelow⟩ hd
    · intro t _ hd h0 a ha
      exact dropBlock_data hs (x := (i, .indirect)) hx hp hbn (y := (i, t)) hd h0 ha

theorem addIndirect_spec (h1 : 10 ≤ n) (h2 : n < 266) :
    (∃ m', addIndirect m (inodeAddr i) n = (m', -ENOSPC) ∧ Unchanged g i m m') ∨
      ∃ m', addIndirect m (inodeAddr i) n = (m', 0) ∧ Added g i n m m' := by
  unfold addIndirect
  have hown : own g m (i, .indirect) = oiIndirect m (inodeAddr i) := own_eq_ptr hx _
  by_cases h0 : oiIndirect m (inodeAddr i) = 0
  · rw [if_pos h0]
    rcases hs.allocate with ⟨h3, h4⟩ | ⟨h3, h4, h5⟩
    · left
      simp only [h3, h4, if_true]
      exact ⟨m, rfl, Unchanged.refl hs⟩
    · simp only [if_neg h4]
      rw [h0] at hown
      have hlink := linkBlock_unchanged hs hx h5 hown
      have hroot : ∀ p, Slot.indirect.parent = some p → own g m (i, p) ≠ 0 := fun p hp =>
        absurd hp (by simp [Slot.parent])
      have hnew : own g (linkBlock m (i, .indirect) (allocateBlock m).2) (i, .indirect)
          = (allocateBlock m).2 := by
        rw [own_linkBlock hs h5 hx hroot, if_pos rfl]
      have heq : setIndirect (clearBlock (allocateBlock m).1 (allocateBlock m).2) (inodeAddr i)
          (allocateBlock m).2 = linkBlock m (i, .indirect) (allocateBlock m).2 := by
        rw [h3]
        rfl
      rw [heq]
      rcases addEntry_spec hlink.change.sound (hlink.change.hasBlocks hx) h1 h2
        (by rw [hnew]; exact h4) (.inr hnew.symm) with h6 | ⟨m', h6, h7⟩
      · left
        rw [if_pos h4] at h6
        refine ⟨_, h6, hlink.trans ?_⟩
        apply dropBlock_unchanged hlink.change.sound (hlink.change.hasBlocks hx) hnew
        intro s hbelow
        have hne : (i, s) ≠ (i, Slot.indirect) := fun hc => by
          rw [Prod.mk.injEq] at hc
          exact Slot.not_below_root (s := .indirect) rfl (hc.2 ▸ hbelow)
        rw [own_linkBlock hs h5 hx hroot, if_neg hne, if_pos ⟨rfl, hbelow⟩]
      · exact .inr ⟨m', h6, hlink.added h7⟩
  · rw [if_neg h0]
    rcases addEntry_spec hs hx h1 h2 (by rw [hown]; exact h0) (Or.inl (Eq.refl 0)) with
      h6 | ⟨m', h6, h7⟩
    · left
      refine ⟨m, ?_, Unchanged.refl hs⟩
      rw [h6]
      simp
    · exact .inr ⟨m', h6, h7⟩

end AddBlock

section Sizes

/-- The number of blocks of a file, as the code computes it from its size. -/
def fileBlocks (m : Bytes) (i : Nat) : Nat := size2nblocks (oiSize m (inodeAddr i))

theorem oiSize_setSize (h : v < 4294967296) : oiSize (setSize m oi v) oi = v :=
  rd32_wr32_of_lt m oi h

theorem setSize_keep (hs : Sound g m) (hi : i < g.ninodes) {K : Slot → Prop} (v : Nat) :
    Keep g i K m (setSize m (inodeAddr i) v) := by
  have hown : own g (setSize m (inodeAddr i) v) = own g m := own_setField hs hi (k := 0) (.inl rfl) v
  have hr := g.inode_region hi
  constructor
  · intro s _ _
    rw [hown]
  · intro s _ _ h0 a ha
    have hbd := own_bounds hs.owns (inUse_dataBlocks g m) h0
    exact wr32_outside (by omega)

theorem FieldsKept.fileBlocks (h : FieldsKept g m m') (hi : i < g.ninodes) :
    fileBlocks m' i = fileBlocks m i := by
  unfold Ospfs.fileBlocks
  rw [h.size hi]

/-- `add_block` succeeded on a file of `n` blocks. -/
structure Grown (g : Geometry) (i n : Nat) (m m' : Bytes) : Prop where
  change : Change g i m m'
  keep : Keep g i (fun s => s ≠ dataSlot n) m m'
  new : own g m' (i, dataSlot n) ≠ 0
  zero : ZeroBlock m' (own g m' (i, dataSlot n))
  count : fileBlocks m' i = n + 1

theorem Added.grown (h : Added g i n m m') (hi : i < g.ninodes) (hn : fileBlocks m i = n)
    (hlt : n < 266) :
    Grown g i n m (setSize m' (inodeAddr i) (u32 (oiSize m' (inodeAddr i) + 1024))) := by
  have hs := h.change.sound
  have hkeep := setSize_keep hs hi (K := fun _ => True) (u32 (oiSize m' (inodeAddr i) + 1024))
  have hnew := hkeep.own_eq (dataSlot n) trivial (dataSlot_isIndex n)
  have hcount : fileBlocks m' i = n := by rw [h.fields.fileBlocks hi, hn]
  constructor
  · exact h.change.trans (setSize_change hs hi _)
  · exact h.keep.trans (hkeep.mono fun _ _ => trivial)
  · rw [hnew]
    exact h.new
  · rw [hnew]
    intro a ha
    rw [hkeep.data (dataSlot n) trivial (dataSlot_isIndex n) h.new a ha, h.zero a ha]
  · unfold fileBlocks at hcount ⊢
    rw [oiSize_setSize (u32_lt _), size2nblocks_add (by omega), hcount]

theorem addBlockAt_spec (hs : Sound g m) (hx : HasBlocks g m i) (hlt : n < 266) :
    (∃ m', addBlockAt m (inodeAddr i) n = (m', -ENOSPC) ∧ Unchanged g i m m') ∨
      ∃ m', addBlockAt m (inodeAddr i) n = (m', 0) ∧ Added g i n m m' := by
  unfold addBlockAt
  by_cases h10 : n < 10
  · have hidx : indirIndex n = -1 := if_pos h10
    rw [if_pos hidx]
    rcases addDirect_spec hs hx h10 with h | h
    · exact .inl ⟨m, h, Unchanged.refl hs⟩
    · exact .inr h
  · have hidx : indirIndex n = 0 := by
      unfold indirIndex
      rw [if_neg h10, if_pos hlt]
    rw [if_neg (by omega), if_pos hidx]
    exact addIndirect_spec hs hx (by omega) hlt

theorem addBlock_spec (hs : Sound g m) (hx : HasBlocks g m i) (hlt : fileBlocks m i < 266) :
    (∃ m', addBlock m (inodeAddr i) = (m', -ENOSPC) ∧ Unchanged g i m m') ∨
      ∃ m', addBlock m (inodeAddr i) = (m', 0) ∧ Grown g i (fileBlocks m i) m m' := by
  unfold addBlock
  rcases addBlockAt_spec hs hx hlt with ⟨m', h, hun⟩ | ⟨m', h, hadd⟩
  · left
    refine ⟨m', ?_, hun⟩
    rw [fileBlocks] at h
    rw [h]
    rfl
  · right
    refine ⟨_, ?_, hadd.grown hx.1 rfl hlt⟩
    rw [fileBlocks] at h
    rw [h]
    rfl

end Sizes

section RemoveBlock

/-- What `remove_block` leaves of a file of `n` blocks. -/
structure Shrunk (g : Geometry) (i n : Nat) (m m' : Bytes) : Prop where
  change : Change g i m m'
  fields : FieldsKept g m m'
  keep : n ≤ 266 → Keep g i (fun s => ∃ k, k < n - 1 ∧ s = dataSlot k) m m'

theorem Shrunk.of_drop (hs : Sound g m) (hx : HasBlocks g m i) {K : Slot → Prop}
    (hp : ∀ p, s.parent = some p → own g m (i, p) ≠ 0)
    (hK : ∀ t, K t → t ≠ s ∧ ¬ t.Below s) :
    Change g i m (dropBlock m (i, s) (own g m (i, s))) ∧
      FieldsKept g m (dropBlock m (i, s) (own g m (i, s))) ∧
      Keep g i K m (dropBlock m (i, s) (own g m (i, s))) := by
  refine ⟨?_, ?_, ?_⟩
  · exact dropBlock_change hs (x := (i, s)) hx hp rfl
  · exact dropBlock_fields hs hx hp rfl
  · exact (dropBlock_keep hs hx hp rfl).mono hK

theorem root_parent (h : s.parent = none) : ∀ p, s.parent = some p → own g m (i, p) ≠ 0 :=
  fun p hp => absurd (h.symm.trans hp) (by simp)

variable (hs : Sound g m) (hx : HasBlocks g m i)
include hs hx

theorem removeDirect_spec (hk : k < 10) :
    (removeDirect m (inodeAddr i) k = (m, - EIO) ∧ own g m (i, dataSlot k) = 0) ∨
      ∃ m', removeDirect m (inodeAddr i) k = (m', 0) ∧ Shrunk g i (k + 1) m m' := by
  have hown : own g m (i, dataSlot k) = oiDirect m (inodeAddr i) k := by
    rw [dataSlot_direct hk]
    exact own_eq_ptr hx _
  unfold removeDirect
  by_cases h0 : oiDirect m (inodeAddr i) k = 0
  · left
    rw [if_pos h0, hown]
    exact ⟨rfl, h0⟩
  · right
    have hroot : (dataSlot k).parent = none := by rw [dataSlot_direct hk]; rfl
    obtain ⟨h1, h2, h3⟩ := Shrunk.of_drop hs hx (s := dataSlot k) (root_parent hroot)
      (K := fun s => ∃ k', k' < k + 1 - 1 ∧ s = dataSlot k') (by
        rintro t ⟨k', hk', rfl⟩
        refine ⟨fun heq => ?_, Slot.not_below_of_data (dataSlot_isIndex k)⟩
        have := dataSlot_inj (by omega) (by omega) heq
        omega)
    refine ⟨_, ?_, h1, h2, fun _ => h3⟩
    rw [if_neg h0, setDirect_eq hk, hown, dataSlot_direct hk]
    rfl

theorem removeEntry_spec (h1 : 10 ≤ k) (h2 : k < 266) :
    (removeEntry m (inodeAddr i) k = (m, - EIO) ∧ own g m (i, dataSlot k) = 0) ∨
      ∃ m', removeEntry m (inodeAddr i) k = (m', 0) ∧ Shrunk g i (k + 1) m m' := by
  have hparent : (dataSlot k).parent = some .indirect := by rw [dataSlot_entry h1 h2]; rfl
  have hind : own g m (i, .indirect) = oiIndirect m (inodeAddr i) := own_eq_ptr hx _
  have hown : own g m (i, dataSlot k) =
      below m (oiIndirect m (inodeAddr i)) (directIndex k) := by
    rw [dataSlot_entry h1 h2]
    exact own_eq_ptr hx _
  unfold removeEntry
  by_cases h0 : oiIndirect m (inodeAddr i) = 0
  · left
    simp only [h0, if_true, hown, below_zero, and_self]
  have hown' : own g m (i, dataSlot k) =
      blockWord m (oiIndirect m (inodeAddr i)) (directIndex k) := by
    rw [hown, below, if_neg h0]
  by_cases hb0 : blockWord m (oiIndirect m (inodeAddr i)) (directIndex k) = 0
  · left
    simp only [h0, hb0, if_true, if_false, hown', and_self]
  · right
    have hp : ∀ p, (dataSlot k).parent = some p → own g m (i, p) ≠ 0 := by
      intro p hp
      rw [hparent, Option.some.injEq] at hp
      rw [← hp, hind]
      exact h0
    obtain ⟨hc, hf, hk⟩ := Shrunk.of_drop hs hx hp
      (K := fun s => ∃ k', k' < k + 1 - 1 ∧ s = dataSlot k') (by
        rintro t ⟨k', hk', rfl⟩
        refine ⟨fun heq => ?_, Slot.not_below_of_data (dataSlot_isIndex k)⟩
        have := dataSlot_inj (by omega) (by omega) heq
        omega)
    have hbn := own_lt_nblocks hs (i, dataSlot k)
    have hfh := freeBlock_hasBlocks hs (x := (i, .indirect)) hx hbn
    have hptr : ptr (freeBlock m (own g m (i, dataSlot k))) (inodeAddr i) .indirect
        = oiIndirect m (inodeAddr i) := by
      rw [← own_of hfh.1 hfh.2, own_freeBlock hs hbn, hind]
    have hsmall : oiIndirect m (inodeAddr i) < 4194304 :=
      hind ▸ own_small hs.owns (inUse_dataBlocks g m) _
    have hset : setBlockWord (freeBlock m (blockWord m (oiIndirect m (inodeAddr i)) (directIndex k)))
        (oiIndirect m (inodeAddr i)) (directIndex k) 0 =
        dropBlock m (i, dataSlot k) (own g m (i, dataSlot k)) := by
      rw [dropBlock, ← setBlockWord_eq (v := 0) hparent hptr hsmall, hown']
      rw [dataSlot_entry h1 h2]
      rfl
    simp only [if_neg h0, if_neg hb0, hset]
    by_cases hidx : directIndex k = 0
    · have hx' := hc.hasBlocks hx
      obtain ⟨hc', hf', hk'⟩ := Shrunk.of_drop hc.sound hx' (s := .indirect) (root_parent rfl)
        (K := fun s => ∃ k', k' < k + 1 - 1 ∧ s = dataSlot k') (by
          rintro t ⟨k', hk', rfl⟩
          have h10 : k' < 10 := by
            unfold directIndex at hidx
            rw [if_neg (by omega)] at hidx
            omega
          rw [dataSlot_direct h10]
          exact ⟨by simp, Slot.not_below_root rfl⟩)
      refine ⟨_, ?_, hc.trans hc', hf.trans hf', fun _ => hk.trans hk'⟩
      rw [if_pos hidx, own_eq_ptr hx']
      rfl
    · refine ⟨_, ?_, hc, hf, fun _ => hk⟩
      rw [if_neg hidx]

theorem removeLeaf_spec (h1 : 266 ≤ k) (h2 : k < 65802) :
    removeLeaf m (inodeAddr i) k = (m, - EIO) ∨
      ∃ m', removeLeaf m (inodeAddr i) k = (m', 0) ∧ Shrunk g i (k + 1) m m' := by
  have hleaf := dataSlot_leaf h1 h2
  have hparent : (dataSlot k).parent = some (.entry2 ⟨_, indirIndex_lt h1 h2⟩) := by
    rw [hleaf]
    rfl
  have hind2 : own g m (i, .indirect2) = oiIndirect2 m (inodeAddr i) := own_eq_ptr hx _
  have hent2 : own g m (i, .entry2 ⟨_, indirIndex_lt h1 h2⟩) =
      below m (oiIndirect2 m (inodeAddr i)) (indirIndex k).toNat := own_eq_ptr hx _
  have hown : own g m (i, dataSlot k) =
      below m (below m (oiIndirect2 m (inodeAddr i)) (indirIndex k).toNat) (directIndex k) := by
    rw [hleaf]
    exact own_eq_ptr hx _
  unfold removeLeaf
  by_cases h0 : oiIndirect2 m (inodeAddr i) = 0
  · left
    simp only [h0, if_true]
  rw [below, if_neg h0] at hent2
  by_cases hb0 : blockWord m (oiIndirect2 m (inodeAddr i)) (indirIndex k).toNat = 0
  · left
    simp only [h0, hb0, if_true, if_false]
  rw [below, below, if_neg h0, if_neg hb0] at hown
  by_cases hl0 : blockWord m (blockWord m (oiIndirect2 m (inodeAddr i)) (indirIndex k).toNat)
      (directIndex k) = 0
  · left
    simp only [h0, hb0, hl0, if_true, if_false]
  right
  have hp : ∀ p, (dataSlot k).parent = some p → own g m (i, p) ≠ 0 := by
    intro p hp
    rw [hparent, Option.some.injEq] at hp
    rw [← hp, hent2]
    exact hb0
  obtain ⟨hc, hf, _⟩ := Shrunk.of_drop hs hx hp (K := fun _ => False) (fun _ h => h.elim)
  have hbn := own_lt_nblocks hs (i, dataSlot k)
  have hfh := freeBlock_hasBlocks hs (x := (i, .indirect)) hx hbn
  have hptr : ptr (freeBlock m (own g m (i, dataSlot k))) (inodeAddr i)
      (.entry2 ⟨_, indirIndex_lt h1 h2⟩) =
        blockWord m (oiIndirect2 m (inodeAddr i)) (indirIndex k).toNat := by
    rw [← own_of hfh.1 hfh.2, own_freeBlock hs hbn, hent2]
  have hsmall : blockWord m (oiIndirect2 m (inodeAddr i)) (indirIndex k).toNat < 4194304 :=
    hent2 ▸ own_small hs.owns (inUse_dataBlocks g m) _
  have hset : setBlockWord (freeBlock m
      (blockWord m (blockWord m (oiIndirect2 m (inodeAddr i)) (indirIndex k).toNat) (directIndex k)))
      (blockWord m (oiIndirect2 m (inodeAddr i)) (indirIndex k).toNat) (directIndex k) 0 =
      dropBlock m (i, dataSlot k) (own g m (i, dataSlot k)) := by
    rw [dropBlock, ← setBlockWord_eq (v := 0) hparent hptr hsmall, hown]
    rw [hleaf]
    rfl
  have hkeep : ∀ m', k + 1 ≤ 266 → Keep g i (fun s => ∃ k', k' < k + 1 - 1 ∧ s = dataSlot k') m m' :=
    fun m' h => absurd h (by omega)
  simp only [if_neg h0, if_neg hb0, if_neg hl0, hset]
  by_cases hidx : directIndex k = 0
  · have hx' := hc.hasBlocks hx
    obtain ⟨hc', hf', _⟩ := Shrunk.of_drop hc.sound hx' (s := .indirect) (root_parent rfl)
      (K := fun _ => False) (fun _ h => h.elim)
    have heq' : setIndirect (freeBlock (dropBlock m (i, dataSlot k) (own g m (i, dataSlot k)))
        (oiIndirect (dropBlock m (i, dataSlot k) (own g m (i, dataSlot k))) (inodeAddr i)))
        (inodeAddr i) 0 = dropBlock (dropBlock m (i, dataSlot k) (own g m (i, dataSlot k)))
          (i, .indirect) (own g (dropBlock m (i, dataSlot k) (own g m (i, dataSlot k)))
            (i, .indirect)) := by
      rw [own_eq_ptr hx']
      rfl
    simp only [if_pos hidx, heq']
    by_cases hk0 : (indirIndex k).toNat = 0
    · have hx'' := hc'.hasBlocks hx'
      obtain ⟨hc'', hf'', _⟩ := Shrunk.of_drop hc'.sound hx'' (s := .indirect2) (root_parent rfl)
        (K := fun _ => False) (fun _ h => h.elim)
      refine ⟨_, ?_, (hc.trans hc').trans hc'', (hf.trans hf').trans hf'', hkeep _⟩
      rw [if_pos hk0, own_eq_ptr hx'']
      rfl
    · refine ⟨_, ?_, hc.trans hc', hf.trans hf', hkeep _⟩
      rw [if_neg hk0]
  · refine ⟨_, ?_, hc, hf, hkeep _⟩
    rw [if_neg hidx]

theorem removeBlockAt_spec (hk : k < 65802) :
    (removeBlockAt m (inodeAddr i) k = (m, - EIO) ∧ (k < 266 → own g m (i, dataSlot k) = 0)) ∨
      ∃ m', removeBlockAt m (inodeAddr i) k = (m', 0) ∧ Shrunk g i (k + 1) m m' := by
  unfold removeBlockAt
  by_cases h10 : k < 10
  · rw [if_pos h10]
    rcases removeDirect_spec hs hx h10 with ⟨h, h0⟩ | h
    · exact .inl ⟨h, fun _ => h0⟩
    · exact .inr h
  · rw [if_neg h10]
    by_cases h266 : k < 266
    · rw [if_pos h266]
      rcases removeEntry_spec hs hx (by omega) h266 with ⟨h, h0⟩ | h
      · exact .inl ⟨h, fun _ => h0⟩
      · exact .inr h
    · rw [if_neg h266, if_pos hk]
      rcases removeLeaf_spec hs hx (by omega) hk with h | h
      · exact .inl ⟨h, fun hlt => absurd hlt h266⟩
      · exact .inr h

theorem removeBlock_spec (h0 : fileBlocks m i ≠ 0) (hn : fileBlocks m i ≤ 65802) :
    (removeBlock m (inodeAddr i) = (m, - EIO) ∧
        (fileBlocks m i ≤ 266 → own g m (i, dataSlot (fileBlocks m i - 1)) = 0)) ∨
      ∃ m', removeBlock m (inodeAddr i) = (m', 0) ∧ Change g i m m' ∧
        fileBlocks m' i = fileBlocks m i - 1 ∧ (fileBlocks m i ≤ 266 →
          Keep g i (fun s => ∃ k, k < fileBlocks m i - 1 ∧ s = dataSlot k) m m') := by
  have hlast : usub32 (fileBlocks m i) 1 = fileBlocks m i - 1 := usub32_of_le (by omega) (by omega)
  unfold removeBlock
  change (_ = _ ∧ _) ∨ _
  rcases removeBlockAt_spec hs hx (k := fileBlocks m i - 1) (by omega) with ⟨h, hz⟩ | ⟨m', h, hsh⟩
  · left
    refine ⟨?_, fun hle => hz (by omega)⟩
    rw [← hlast] at h
    rw [fileBlocks] at h h0
    simp only [if_neg h0, h]
    rfl
  · right
    have hcount := hsh.fields.fileBlocks hx.1
    have hset := setSize_keep hsh.change.sound hx.1
      (K := fun s => ∃ k, k < fileBlocks m i - 1 ∧ s = dataSlot k)
      (usub32 (oiSize m' (inodeAddr i)) 1024)
    refine ⟨setSize m' (inodeAddr i) (usub32 (oiSize m' (inodeAddr i)) 1024), ?_, ?_, ?_, ?_⟩
    · rw [← hlast] at h
      rw [fileBlocks] at h h0
      simp only [if_neg h0, h]
      rfl
    · exact hsh.change.trans (setSize_change hsh.change.sound hx.1 _)
    · rw [← hcount] at h0 ⊢
      rw [fileBlocks, oiSize_setSize (usub32_lt _ _)]
      exact size2nblocks_sub (rd32_lt _ _) h0
    · intro hle
      have hk := hsh.keep (by omega)
      rw [show fileBlocks m i - 1 + 1 - 1 = fileBlocks m i - 1 by omega] at hk
      exact hk.trans hset

end RemoveBlock

end CS111.Ospfs
