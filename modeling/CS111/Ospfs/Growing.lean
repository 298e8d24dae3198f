import CS111.Ospfs.SlotTrees

/-!
# What `add_block` stores

`add_block` takes the blocks that are missing on the way to a slot, or undoes what it has done when the
disk is full. It may be called on an inode with any set of slots in use.
-/

namespace CS111.Ospfs

open Memory

set_option autoImplicit false

variable {m m' m'' x : Bytes} {oi n k a a0 a1 b last : Nat} {s t p : Slot}
variable {U V K L : Slot → Prop} {f : Bytes → Bytes} {r : Bytes × Int}

section Allocate

theorem allocateBlock_full (h : freeCount m = 0) : allocateBlock m = (m, 0) := by
  unfold allocateBlock
  rcases allocateFrom_spec (m := m) (osNblocks m) 0 with hnone | ⟨b, _, hb, hfree, _⟩
  · exact hnone
  · have hempty := Finset.card_eq_zero.mp h
    have hmem : b ∈ (Finset.range (osNblocks m)).filter fun b => isFree m b = true :=
      Finset.mem_filter.mpr ⟨Finset.mem_range.mpr (by omega), hfree⟩
    rw [hempty] at hmem
    exact absurd hmem (Finset.notMem_empty b)

theorem SlotTree.allocate (h : SlotTree m oi U) : (freeCount m = 0 ∧ allocateBlock m = (m, 0)) ∨
    (1 ≤ freeCount m ∧ ∃ b, b ≠ 0 ∧ b < osNblocks m ∧ isFree m b = true ∧
      allocateBlock m = (bitvectorClear m freemap b, b)) := by
  by_cases h0 : freeCount m = 0
  · exact .inl ⟨h0, allocateBlock_full h0⟩
  · obtain ⟨b, hb, hfree, halloc⟩ := allocateBlock_free (Nat.pos_of_ne_zero h0)
    exact .inr ⟨by omega, b, h.working.free_ne_zero hfree, hb, hfree, halloc⟩

end Allocate

section Table

/-- The inodes are as before, but for the block pointers of this one. -/
def TableKept (oi : Nat) (m m' : Bytes) : Prop :=
  ∀ a, 1024 * osFirstinob m ≤ a → a < 1024 * dataStart m → a < oi + 16 ∨ oi + 64 ≤ a → m' a = m a

theorem TableKept.after (hk : SlotsKept oi K m m') (h : TableKept oi m m')
    (h' : TableKept oi m' m'') : TableKept oi m m'' := by
  obtain ⟨_, _, hfirst⟩ := hk.superblock
  intro a h1 h2 ha
  rw [h' a (by rw [hfirst]; exact h1) (by rw [hk.dataStart]; exact h2) ha]
  exact h a h1 h2 ha

theorem SlotTree.place_table (h : SlotTree m oi U) (hb : b < osNblocks m) (hfree : isFree m b = true)
    (hs : ∀ p, s.parent = some p → U p) : TableKept oi m (placeBlock m oi s b) := by
  intro a h1 h2 ha
  have hsmall := h.layout.small
  have hword := h.layout.parts.map_word hb
  have hlo := h.working.lo_le hfree
  rw [h.working.placeBlock_apart hb hfree (fun p hp => (h.used p).mpr (hs p hp)) ha]
  · exact takeBlock_apart (by omega) (by omega) (by omega)
  · intro p _ h0
    have hblock := h.pointed p h0
    omega

end Table

section Outcomes

/-- `k` blocks have been taken, for slot `s` and for the slots above it that had none. -/
structure Gains (oi : Nat) (U : Slot → Prop) (s : Slot) (k : Nat) (m m' : Bytes) : Prop where
  tree : SlotTree m' oi fun t => (t = s ∨ s.Below t) ∨ U t
  kept : SlotsKept oi (fun t => U t ∧ t ≠ s) m m'
  table : TableKept oi m m'
  size : oiSize m' oi = oiSize m oi
  count : freeCount m' + k = freeCount m

/-- No slot has changed. Blocks may have been lost. -/
structure Restored (oi : Nat) (U : Slot → Prop) (m m' : Bytes) : Prop where
  tree : SlotTree m' oi U
  kept : SlotsKept oi U m m'
  size : oiSize m' oi = oiSize m oi
  count : freeCount m' ≤ freeCount m

/-- Slot `s` gets a block, or the disk is full. In that case `f` is what is left to be undone. -/
def Adds (oi : Nat) (U : Slot → Prop) (s : Slot) (k : Nat) (f : Bytes → Bytes) (m : Bytes)
    (r : Bytes × Int) : Prop :=
  (k ≤ freeCount m ∧ r.2 = 0 ∧ Gains oi U s k m r.1) ∨
    (freeCount m < k ∧ ∃ x, Restored oi U m x ∧ r = (f x, -ENOSPC))

/-- The undo of slot `s`, if block `a` was taken for it. -/
def undo (oi a : Nat) (s : Slot) (x : Bytes) : Bytes := if a = 0 then x else dropSlot oi x s

theorem undo_root (hs : s.parent = none) (ha : a = 0 ∨ a = ptr m oi s) :
    (if a ≠ 0 then wr32 (freeBlock m a) (oi + 4 * s.index) 0 else freeBlock m a) = undo oi a s m := by
  unfold undo
  by_cases h0 : a = 0
  · rw [if_neg (not_not.mpr h0), if_pos h0, h0, freeBlock_zero]
  · rw [if_pos h0, if_neg h0, dropSlot, ← ha.resolve_left h0, setCell, cell_root hs]

theorem Restored.refl (h : SlotTree m oi U) : Restored oi U m m :=
  ⟨h, SlotsKept.refl, rfl, Nat.le_refl _⟩

theorem SlotTree.above_used (h : SlotTree m oi U) (hs : ∀ p, s.parent = some p → U p)
    (ht : s.Below t) : U t := by
  rcases ht with hp | hp
  · exact hs t hp
  · cases hq : s.parent with
    | none =>
      rw [hq] at hp
      cases hp
    | some q =>
      rw [hq, Option.bind_some] at hp
      exact h.parent_used hp (hs q hq)

section Place
variable (h : SlotTree m oi U) (hb : b < osNblocks m) (hfree : isFree m b = true)
variable (hs : ∀ p, s.parent = some p → U p)
include h hb hfree hs

/-- The slots above have blocks. -/
theorem SlotTree.gains (hdata : s.isIndex = false) : Gains oi U s 1 m (placeBlock m oi s b) := by
  have hnew : s.isIndex = true → ¬ U s := fun hindex => by
    rw [hdata] at hindex
    cases hindex
  obtain ⟨hcount, hsize⟩ := h.place_count hb hfree hs
  constructor
  · refine (h.placed hb hfree hs hnew).congr fun t => ?_
    constructor
    · rintro ((heq | hbelow) | ht)
      · exact .inl heq
      · exact .inr (h.above_used hs hbelow)
      · exact .inr ht
    · rintro (heq | ht)
      · exact .inl (.inl heq)
      · exact .inr ht
  · exact (h.place_kept hb hfree hs hnew).mono fun t ht => ht.2
  · exact h.place_table hb hfree hs
  · exact hsize
  · exact hcount

variable (hnew : ¬ U s)
include hnew

theorem Restored.undone (hx : Restored oi (fun t => t = s ∨ U t) (placeBlock m oi s b) x) :
    Restored oi U m (dropSlot oi x s) := by
  obtain ⟨hcount, hsize⟩ := h.place_count hb hfree hs
  have htree := hx.tree
  have hd := dropSlot_dropped htree.layout.parts htree.pointed htree.indexTree fun p hp =>
    (htree.used p).mpr (.inr (hs p hp))
  have hspared : ∀ t, U t → Spared [s] t := by
    intro t ht u hu
    rw [List.mem_singleton.mp hu]
    refine ⟨fun heq => hnew (heq ▸ ht), fun hbelow => hnew ?_⟩
    exact h.above_used (fun p hp => h.parent_used hp ht) hbelow
  constructor
  · refine (htree.dropped hd).congr fun t => ?_
    constructor
    · exact fun ht => ⟨.inr ht, hspared t ht⟩
    · rintro ⟨heq | ht, hsp⟩
      · exact absurd heq (hsp s List.mem_cons_self).1
      · exact ht
  · apply ((h.place_kept hb hfree hs fun _ => hnew).mono _).trans
    · exact (hx.kept.mono fun t ht => .inr ht).trans ((htree.drop_kept hd).mono hspared)
    · exact fun t ht heq => hnew (heq ▸ ht)
  · rw [hd.cleared.size, hx.size, hsize]
  · have hdrop := hd.count
    have hle := hx.count
    rw [List.length_singleton] at hdrop
    omega

/-- An index block is stored first. -/
theorem Adds.after (hbelow : t.Below s)
    (hadds : Adds oi (fun u => u = s ∨ U u) t k (fun y => f (dropSlot oi y s))
      (placeBlock m oi s b) r) : Adds oi U t (k + 1) f m r := by
  obtain ⟨hcount, hsize⟩ := h.place_count hb hfree hs
  rcases hadds with ⟨hk, hr, hgains⟩ | ⟨hk, y, hy, hr⟩
  · refine .inl ⟨by omega, hr, ?_⟩
    constructor
    · refine hgains.tree.congr fun u => ?_
      constructor
      · rintro (hu | hu)
        · exact .inl hu
        · exact .inr (.inr hu)
      · rintro (hu | rfl | hu)
        · exact .inl hu
        · exact .inl (.inr hbelow)
        · exact .inr hu
    · apply ((h.place_kept hb hfree hs fun _ => hnew).mono _).trans
      · exact hgains.kept.mono fun u hu => ⟨.inr hu.1, hu.2⟩
      · exact fun u hu heq => hnew (heq ▸ hu.1)
    · exact (h.place_table hb hfree hs).after (h.place_kept hb hfree hs fun _ => hnew) hgains.table
    · rw [hgains.size, hsize]
    · have hle := hgains.count
      omega
  · exact .inr ⟨by omega, _, hy.undone h hb hfree hs hnew, hr⟩

end Place

end Outcomes

section Branches
variable (h : SlotTree m oi U)
include h

theorem addDirect_adds (hn : n < 10) : Adds oi U (.direct ⟨n, hn⟩) 1 id m (addDirect m oi n) := by
  unfold addDirect
  rcases h.allocate with ⟨h0, halloc⟩ | ⟨hcount, b, hb0, hb, hfree, halloc⟩
  · simp only [halloc, if_true]
    exact .inr ⟨by omega, m, Restored.refl h, rfl⟩
  · simp only [halloc, if_neg hb0, setDirect_eq hn]
    exact .inl ⟨hcount, rfl, h.gains hb hfree (fun p hp => by cases hp) rfl⟩

theorem addEntry_adds (hind : U .indirect) (ha : a = 0 ∨ a = oiIndirect m oi) :
    Adds oi U (.entry ⟨directIndex n, directIndex_lt n⟩) 1 (undo oi a .indirect) m
      (addEntry m oi n a) := by
  have hind0 := (h.used .indirect).mpr hind
  have hsmall := (h.indexTree.bound .indirect rfl hind0).2
  unfold addEntry
  rcases h.allocate with ⟨h0, halloc⟩ | ⟨hcount, b, hb0, hb, hfree, halloc⟩
  · simp only [halloc, if_true]
    exact .inr ⟨by omega, m, Restored.refl h,
      congrArg (·, -ENOSPC) (undo_root (s := .indirect) rfl ha)⟩
  · simp only [halloc, if_neg hb0]
    have hptr : ptr (takeBlock m b) oi .indirect = oiIndirect m oi :=
      h.working.ptr_takeBlock hb hfree .indirect
    have hset : setBlockWord (takeBlock m b) (oiIndirect m oi) (directIndex n) b =
        placeBlock m oi (.entry ⟨directIndex n, directIndex_lt n⟩) b :=
      setBlockWord_eq (s := .entry ⟨directIndex n, directIndex_lt n⟩) rfl hptr hsmall
    change Adds oi U _ 1 _ m (setBlockWord (takeBlock m b) (ptr (takeBlock m b) oi .indirect) _ b,
      (0 : Int))
    rw [hptr, hset]
    exact .inl ⟨hcount, rfl, h.gains hb hfree (fun p hp => by cases hp; exact hind) rfl⟩

theorem addIndirect_adds : Adds oi U (.entry ⟨directIndex n, directIndex_lt n⟩)
    (if oiIndirect m oi = 0 then 2 else 1) id m (addIndirect m oi n) := by
  unfold addIndirect
  by_cases h0 : oiIndirect m oi = 0
  · rw [if_pos h0, if_pos h0]
    have hnew : ¬ U .indirect := fun hu => (h.used .indirect).mpr hu h0
    have hroot : ∀ p, Slot.indirect.parent = some p → U p := fun p hp => by cases hp
    rcases h.allocate with ⟨hfull, halloc⟩ | ⟨_, b, hb0, hb, hfree, halloc⟩
    · simp only [halloc, if_true]
      exact .inr ⟨by omega, m, Restored.refl h, rfl⟩
    · simp only [halloc, if_neg hb0]
      have hptr : oiIndirect (placeBlock m oi .indirect b) oi = b := by
        have hplaced := h.ptr_place hb hfree hroot (fun _ => hnew) .indirect
        rw [if_pos rfl] at hplaced
        exact hplaced
      have hundo : undo oi b .indirect = fun y => id (dropSlot oi y .indirect) := by
        funext y
        exact if_neg hb0
      have hadds := addEntry_adds (n := n) (h.placed hb hfree hroot fun _ => hnew) (.inl rfl)
        (.inr hptr.symm)
      rw [hundo] at hadds
      exact Adds.after h hb hfree hroot hnew (.inl rfl) hadds
  · rw [if_neg h0, if_neg h0]
    exact addEntry_adds h ((h.used .indirect).mp h0) (.inl rfl)

section Leaf
variable (hlt : (indirIndex n).toNat < 256)

theorem addLeaf_adds (hentry : U (.entry2 ⟨(indirIndex n).toNat, hlt⟩))
    (ha0 : a0 = 0 ∨ a0 = ptr m oi (.entry2 ⟨(indirIndex n).toNat, hlt⟩))
    (ha1 : a1 = 0 ∨ a1 = oiIndirect2 m oi) :
    Adds oi U (.leaf ⟨(indirIndex n).toNat, hlt⟩ ⟨directIndex n, directIndex_lt n⟩) 1
      (fun y => undo oi a1 .indirect2 (undo oi a0 (.entry2 ⟨(indirIndex n).toNat, hlt⟩) y)) m
      (addLeaf m oi n (oiIndirect2 m oi) a0 a1) := by
  have hentry0 := (h.used _).mpr hentry
  have hind0 : oiIndirect2 m oi ≠ 0 := ptr_parent_ne (p := .indirect2) rfl hentry0
  have hind : U .indirect2 := (h.used .indirect2).mp hind0
  have hsmall2 := (h.indexTree.bound .indirect2 rfl hind0).2
  have hsmall := (h.indexTree.bound _ rfl hentry0).2
  unfold addLeaf
  rcases h.allocate with ⟨h0, halloc⟩ | ⟨hcount, b, hb0, hb, hfree, halloc⟩
  · simp only [halloc, if_true]
    refine .inr ⟨by omega, m, Restored.refl h, ?_⟩
    have hfirst : (if a0 ≠ 0 then setBlockWord (freeBlock m a0) (oiIndirect2 m oi)
        (indirIndex n).toNat 0 else freeBlock m a0) =
          undo oi a0 (.entry2 ⟨(indirIndex n).toNat, hlt⟩) m := by
      unfold undo
      rcases ha0 with rfl | rfl
      · rw [if_neg (by decide), if_pos rfl, freeBlock_zero]
      · rw [if_pos hentry0, if_neg hentry0]
        have hkept := Pointed.ptr_freeBlock h.layout.parts h.pointed
          (Pointed.lt_nblocks h.layout.parts h.pointed (.entry2 ⟨(indirIndex n).toNat, hlt⟩))
          .indirect2
        exact setBlockWord_eq (s := .entry2 ⟨(indirIndex n).toNat, hlt⟩) rfl hkept hsmall2
    have hind2 : oiIndirect2 (undo oi a0 (.entry2 ⟨(indirIndex n).toNat, hlt⟩) m) oi =
        oiIndirect2 m oi := by
      unfold undo
      split
      · rfl
      · have hd := dropSlot_dropped h.layout.parts h.pointed h.indexTree
          (s := .entry2 ⟨(indirIndex n).toNat, hlt⟩) fun p hp => by cases hp; exact hind0
        apply hd.kept .indirect2
        intro s hs
        rw [List.mem_singleton.mp hs]
        exact ⟨by simp, Slot.not_below_root rfl⟩
    rw [hfirst]
    rw [← hind2] at ha1
    exact congrArg (·, -ENOSPC) (undo_root (s := .indirect2) rfl ha1)
  · simp only [halloc, if_neg hb0]
    have htake := h.working.ptr_takeBlock hb hfree
    have hset : setBlockWord (takeBlock m b) (ptr m oi (.entry2 ⟨(indirIndex n).toNat, hlt⟩))
        (directIndex n) b =
          placeBlock m oi (.leaf ⟨(indirIndex n).toNat, hlt⟩ ⟨directIndex n, directIndex_lt n⟩) b :=
      setBlockWord_eq (s := .leaf ⟨(indirIndex n).toNat, hlt⟩ ⟨directIndex n, directIndex_lt n⟩)
        rfl (htake _) hsmall
    have hind2 : oiIndirect2 (takeBlock m b) oi = oiIndirect2 m oi := htake .indirect2
    rw [← htake, ptr_entry2 hlt (by rw [hind2]; exact hind0), hind2] at hset
    change Adds oi U _ 1 _ m (setBlockWord (takeBlock m b) (blockWord (takeBlock m b)
      (oiIndirect2 m oi) (indirIndex n).toNat) (directIndex n) b, (0 : Int))
    rw [hset]
    exact .inl ⟨hcount, rfl, h.gains hb hfree (fun p hp => by cases hp; exact hentry) rfl⟩

theorem addEntry2_adds (hind : U .indirect2) (ha1 : a1 = 0 ∨ a1 = oiIndirect2 m oi) :
    Adds oi U (.leaf ⟨(indirIndex n).toNat, hlt⟩ ⟨directIndex n, directIndex_lt n⟩)
      (if ptr m oi (.entry2 ⟨(indirIndex n).toNat, hlt⟩) = 0 then 2 else 1)
      (undo oi a1 .indirect2) m (addEntry2 m oi n a1) := by
  have hind0 : oiIndirect2 m oi ≠ 0 := (h.used .indirect2).mpr hind
  have hsmall := (h.indexTree.bound .indirect2 rfl hind0).2
  have hentry := ptr_entry2 hlt hind0
  unfold addEntry2
  simp only [← hentry]
  by_cases h0 : ptr m oi (.entry2 ⟨(indirIndex n).toNat, hlt⟩) = 0
  · rw [if_pos h0, if_pos h0]
    have hnew : ¬ U (.entry2 ⟨(indirIndex n).toNat, hlt⟩) := fun hu => (h.used _).mpr hu h0
    have hparent : ∀ p, (Slot.entry2 ⟨(indirIndex n).toNat, hlt⟩).parent = some p → U p :=
      fun p hp => by cases hp; exact hind
    rcases h.allocate with ⟨hfull, halloc⟩ | ⟨_, b, hb0, hb, hfree, halloc⟩
    · simp only [halloc, if_true]
      exact .inr ⟨by omega, m, Restored.refl h,
        congrArg (·, -ENOSPC) (undo_root (s := .indirect2) rfl ha1)⟩
    · simp only [halloc, if_neg hb0]
      have hptr : ptr (takeBlock m b) oi .indirect2 = oiIndirect2 m oi :=
        h.working.ptr_takeBlock hb hfree .indirect2
      have hset : setBlockWord (takeBlock m b) (oiIndirect2 m oi) (indirIndex n).toNat b =
          placeBlock m oi (.entry2 ⟨(indirIndex n).toNat, hlt⟩) b :=
        setBlockWord_eq (s := .entry2 ⟨(indirIndex n).toNat, hlt⟩) rfl hptr hsmall
      change Adds oi U _ 2 _ m (addLeaf (setBlockWord (takeBlock m b) _ _ b) oi n _ b a1)
      rw [hset]
      have hplaced := h.ptr_place hb hfree hparent fun _ => hnew
      have hkept : oiIndirect2 (placeBlock m oi (.entry2 ⟨(indirIndex n).toNat, hlt⟩) b) oi =
          oiIndirect2 m oi := by
        have hptr2 := hplaced .indirect2
        rw [if_neg (by simp)] at hptr2
        exact hptr2
      have hb' := hplaced (.entry2 ⟨(indirIndex n).toNat, hlt⟩)
      rw [if_pos rfl] at hb'
      have hadds := addLeaf_adds (h.placed hb hfree hparent fun _ => hnew) hlt (.inl rfl)
        (.inr hb'.symm) (by rw [hkept]; exact ha1)
      rw [hkept] at hadds
      have hundo : (fun y => undo oi a1 .indirect2 (undo oi b
          (.entry2 ⟨(indirIndex n).toNat, hlt⟩) y)) = fun y => undo oi a1 .indirect2
            (dropSlot oi y (.entry2 ⟨(indirIndex n).toNat, hlt⟩)) := by
        funext y
        exact congrArg (undo oi a1 .indirect2) (if_neg hb0)
      rw [hundo] at hadds
      exact Adds.after h hb hfree hparent hnew (.inl rfl) hadds
  · rw [if_neg h0, if_neg h0]
    have hadds : Adds oi U _ 1 (fun y => undo oi a1 .indirect2
        (undo oi 0 (.entry2 ⟨(indirIndex n).toNat, hlt⟩) y)) m
        (addLeaf m oi n (oiIndirect2 m oi) 0 a1) :=
      addLeaf_adds h hlt ((h.used _).mp h0) (.inl rfl) ha1
    exact hadds

theorem addIndirect2_adds :
    Adds oi U (.leaf ⟨(indirIndex n).toNat, hlt⟩ ⟨directIndex n, directIndex_lt n⟩)
      (if oiIndirect2 m oi = 0 then 3
        else if ptr m oi (.entry2 ⟨(indirIndex n).toNat, hlt⟩) = 0 then 2 else 1)
      id m (addIndirect2 m oi n) := by
  unfold addIndirect2
  by_cases h0 : oiIndirect2 m oi = 0
  · rw [if_pos h0, if_pos h0]
    have hnew : ¬ U .indirect2 := fun hu => (h.used .indirect2).mpr hu h0
    have hroot : ∀ p, Slot.indirect2.parent = some p → U p := fun p hp => by cases hp
    rcases h.allocate with ⟨hfull, halloc⟩ | ⟨_, b, hb0, hb, hfree, halloc⟩
    · simp only [halloc, if_true]
      exact .inr ⟨by omega, m, Restored.refl h, rfl⟩
    · simp only [halloc, if_neg hb0]
      have hplaced := h.ptr_place hb hfree hroot fun _ => hnew
      have hptr : oiIndirect2 (placeBlock m oi .indirect2 b) oi = b := by
        have hind2 := hplaced .indirect2
        rw [if_pos rfl] at hind2
        exact hind2
      have hentry : ptr (placeBlock m oi .indirect2 b) oi
          (.entry2 ⟨(indirIndex n).toNat, hlt⟩) = 0 := by
        rw [hplaced, if_neg (by simp)]
        exact ptr_below_zero (.inl rfl) h0
      have hundo : undo oi b .indirect2 = fun y => id (dropSlot oi y .indirect2) := by
        funext y
        exact if_neg hb0
      have hadds := addEntry2_adds (h.placed hb hfree hroot fun _ => hnew) hlt (.inl rfl)
        (.inr hptr.symm)
      rw [hundo, if_pos hentry] at hadds
      exact Adds.after h hb hfree hroot hnew (.inr rfl) hadds
  · rw [if_neg h0, if_neg h0]
    exact addEntry2_adds h hlt ((h.used .indirect2).mp h0) (.inl rfl)

end Leaf

end Branches

section AddBlock

/-- The slot for file block `n`. The first 256 blocks below the doubly indirect block get the slots of
the blocks below the indirect one. -/
def addSlot (n : Nat) : Slot := if 266 ≤ n ∧ n < 522 then dataSlot (n - 256) else dataSlot n

/-- The number of blocks that are missing on the way to a data slot. -/
def slotCost (m : Bytes) (oi : Nat) : Slot → Nat
  | .entry _ => if oiIndirect m oi = 0 then 2 else 1
  | .leaf k _ => if oiIndirect2 m oi = 0 then 3 else if ptr m oi (.entry2 k) = 0 then 2 else 1
  | _ => 1

/-- One more block. -/
structure Grows (oi : Nat) (U : Slot → Prop) (n : Nat) (m m' : Bytes) : Prop where
  tree : SlotTree m' oi fun t => (t = addSlot n ∨ (addSlot n).Below t) ∨ U t
  kept : SlotsKept oi (fun t => U t ∧ t ≠ addSlot n) m m'
  fields : ∀ a, 1024 * osFirstinob m ≤ a → a < 1024 * dataStart m →
    a < oi ∨ oi + 4 ≤ a ∧ a < oi + 16 ∨ oi + 64 ≤ a → m' a = m a
  blocks : size2nblocks (oiSize m' oi) = n + 1
  count : freeCount m' + slotCost m oi (addSlot n) = freeCount m

theorem addSlot_entry (h1 : 10 ≤ n) (h2 : n < 522) :
    addSlot n = .entry ⟨directIndex n, directIndex_lt n⟩ := by
  unfold addSlot
  by_cases h266 : 266 ≤ n
  · have hindex : directIndex (n - 256) = directIndex n := by
      unfold directIndex
      rw [if_neg (by omega), if_neg (by omega)]
      omega
    rw [if_pos ⟨h266, h2⟩, dataSlot_entry (by omega) (by omega)]
    simp only [hindex]
  · rw [if_neg (by omega), dataSlot_entry h1 (by omega)]

variable (h : SlotTree m oi U) (hn : n < 65802)
include h hn

theorem addBlockAt_adds : Adds oi U (addSlot n) (slotCost m oi (addSlot n)) id m
    (addBlockAt m oi n) := by
  unfold addBlockAt
  by_cases h10 : n < 10
  · have hidx : indirIndex n = -1 := if_pos h10
    have hslot : addSlot n = .direct ⟨n, h10⟩ := by
      unfold addSlot
      rw [if_neg (by omega), dataSlot_direct h10]
    rw [if_pos hidx, hslot]
    exact addDirect_adds h h10
  by_cases h522 : n < 522
  · have hidx : indirIndex n = 0 := by
      unfold indirIndex
      rw [if_neg h10]
      split <;> omega
    rw [if_neg (by omega), if_pos hidx, addSlot_entry (by omega) h522]
    exact addIndirect_adds h
  · have hidx := indirIndex_leaf (k := n) (by omega)
    have hidx2 : indir2Index n = 0 := if_pos (by omega)
    have hslot : addSlot n = _ := (if_neg (by omega)).trans (dataSlot_leaf (by omega) hn)
    rw [if_neg (by omega), if_neg (by omega), if_pos hidx2, hslot]
    exact addIndirect2_adds h (indirIndex_lt (by omega) hn)

theorem addBlock_cases (hcount : size2nblocks (oiSize m oi) = n) :
    (slotCost m oi (addSlot n) ≤ freeCount m ∧ (addBlock m oi).2 = 0 ∧
      Grows oi U n m (addBlock m oi).1) ∨
    (freeCount m < slotCost m oi (addSlot n) ∧ (addBlock m oi).2 = -ENOSPC ∧
      Restored oi U m (addBlock m oi).1) := by
  rcases addBlockAt_adds h hn with ⟨hle, hr, hgains⟩ | ⟨hlt, x, hx, hr⟩
  · have heq : addBlock m oi = (setSize (addBlockAt m oi n).1 oi (u32 (oiSize m oi + 1024)), 0) := by
      unfold addBlock
      simp only [hcount]
      rw [if_neg (by omega), hgains.size]
    obtain ⟨htree, hfree⟩ := hgains.tree.sized (u32 (oiSize m oi + 1024))
    rw [heq]
    refine .inl ⟨hle, rfl, ?_⟩
    constructor
    · exact htree
    · exact hgains.kept.trans (hgains.tree.setSize_kept _)
    · intro a h1 h2 ha
      exact (wr32_outside (by omega)).trans (hgains.table a h1 h2 (by omega))
    · rw [oiSize_setSize (u32_lt _), size2nblocks_add (by omega), hcount]
    · rw [hfree]
      exact hgains.count
  · have heq : addBlock m oi = (x, -ENOSPC) := by
      unfold addBlock
      simp only [hcount, hr]
      exact if_pos (by decide)
    rw [heq]
    exact .inr ⟨hlt, rfl, hx⟩

end AddBlock

section RemoveBlock

/-- One block less. -/
structure Loses (oi : Nat) (U : Slot → Prop) (last : Nat) (m m' : Bytes) : Prop where
  tree : SlotTree m' oi fun t => U t ∧ Spared (droppedSlots last) t
  kept : SlotsKept oi (Spared (droppedSlots last)) m m'
  blocks : size2nblocks (oiSize m' oi) = last
  count : freeCount m' ≤ freeCount m + (droppedSlots last).length

variable (h : SlotTree m oi U) (hcount : size2nblocks (oiSize m oi) = last + 1)
include h hcount

theorem SlotTree.loses (hlast : last < 65802) (hU : U (dataSlot last)) :
    (removeBlock m oi).2 = 0 ∧ Loses oi U last m (removeBlock m oi).1 := by
  have hp := h.layout.parts
  have h0 := (h.used _).mpr hU
  rcases removeBlock_cases hp h.pointed hcount with ⟨_, hmissing⟩ | ⟨_, _, heq⟩
  · exact absurd (hmissing hlast) h0
  · have hd := droppedSlots_dropped hp h.pointed h.indexTree h0
    have htree := h.dropped hd
    obtain ⟨hset, hfree⟩ := htree.sized (usub32 (oiSize m oi) 1024)
    obtain ⟨_, _, hblocks⟩ := removeBlock_step hp h.pointed hcount (by rw [heq])
    rw [heq] at hblocks ⊢
    refine ⟨rfl, ?_⟩
    constructor
    · exact hset
    · exact (h.drop_kept hd).trans (htree.setSize_kept _)
    · exact hblocks
    · rw [hfree]
      exact hd.count

end RemoveBlock

end CS111.Ospfs
