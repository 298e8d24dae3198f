import CS111.Ospfs.LastBlock

/-!
# Inodes with any set of slots in use

What is said here about storing a block in a slot and about clearing slots holds for every inode whose
blocks are different ones and in use, also where `add_block` and `remove_block` go wrong.
-/

namespace CS111.Ospfs

open Memory

set_option autoImplicit false

variable {m m' m'' : Bytes} {oi n k b last : Nat} {s t p : Slot} {slots : List Slot}
variable {U V K L : Slot → Prop}

/-- The slots in `U` have blocks, which are different ones and in use. -/
structure SlotTree (m : Bytes) (oi : Nat) (U : Slot → Prop) : Prop where
  layout : Layout m oi
  used : ∀ s, ptr m oi s ≠ 0 ↔ U s
  allocated : ∀ s, U s → Allocated m (ptr m oi s)
  distinct : ∀ s t, U s → ptr m oi s = ptr m oi t → s = t

/-- The slots in `K` keep their blocks, and those that hold data also the contents. -/
structure SlotsKept (oi : Nat) (K : Slot → Prop) (m m' : Bytes) : Prop where
  ptr : ∀ s, K s → ptr m' oi s = ptr m oi s
  data : ∀ s a, K s → s.isIndex = false → CS111.Ospfs.ptr m oi s ≠ 0 →
    a / 1024 = CS111.Ospfs.ptr m oi s → m' a = m a
  low : ∀ a, a < freemap → m' a = m a
  ftype : oiFtype m' oi = oiFtype m oi

section Kept

theorem SlotsKept.refl : SlotsKept oi K m m := ⟨fun _ _ => rfl, fun _ _ _ _ _ _ => rfl,
  fun _ _ => rfl, rfl⟩

theorem SlotsKept.mono (h : SlotsKept oi K m m') (hle : ∀ s, L s → K s) : SlotsKept oi L m m' where
  ptr s hs := h.ptr s (hle s hs)
  data s a hs := h.data s a (hle s hs)
  low := h.low
  ftype := h.ftype

theorem SlotsKept.trans (h : SlotsKept oi K m m') (h' : SlotsKept oi K m' m'') :
    SlotsKept oi K m m'' where
  ptr s hs := (h'.ptr s hs).trans (h.ptr s hs)
  data s a hs hdata h0 ha := by
    rw [h'.data s a hs hdata (by rw [h.ptr s hs]; exact h0) (by rw [h.ptr s hs]; exact ha)]
    exact h.data s a hs hdata h0 ha
  low a ha := (h'.low a ha).trans (h.low a ha)
  ftype := h'.ftype.trans h.ftype

theorem SlotsKept.superblock (h : SlotsKept oi K m m') : osNblocks m' = osNblocks m ∧
    osNinodes m' = osNinodes m ∧ osFirstinob m' = osFirstinob m :=
  super_congr fun a _ ha => h.low a ha

theorem SlotsKept.dataStart (h : SlotsKept oi K m m') : dataStart m' = dataStart m :=
  dataStart_of_superblock h.superblock

theorem SlotsKept.parts (h : SlotsKept oi K m m') (hp : Parts m oi) : Parts m' oi :=
  hp.of_superblock h.superblock

end Kept

section Tree
variable (h : SlotTree m oi U)
include h

theorem SlotTree.congr (heq : ∀ s, V s ↔ U s) : SlotTree m oi V where
  layout := h.layout
  used s := (h.used s).trans (heq s).symm
  allocated s hs := h.allocated s ((heq s).mp hs)
  distinct s t hs := h.distinct s t ((heq s).mp hs)

theorem SlotTree.pointed : Pointed m oi := by
  intro s h0
  obtain ⟨h1, h2, _⟩ := h.allocated s ((h.used s).mp h0)
  exact ⟨h1, h2⟩

theorem SlotTree.ptr_zero (hs : ¬ U s) : ptr m oi s = 0 := by
  by_contra h0
  exact hs ((h.used s).mp h0)

theorem SlotTree.indexTree : IndexTree m oi (dataStart m) where
  bound s _ h0 := by
    have hsmall := h.layout.small
    have hblock := h.pointed s h0
    omega
  inj s t _ _ h0 heq := h.distinct s t ((h.used s).mp h0) heq
  region := h.layout.inode_place.2

theorem SlotTree.working : Working m oi (dataStart m) where
  tree := h.indexTree
  small := h.layout.small
  super := by
    have hmap := h.layout.free_map
    have hplace := h.layout.inode_place
    unfold freemap
    omega
  map c hc := by
    have hword := h.layout.parts.map_word hc
    have hplace := h.layout.inode_place
    omega
  used s _ h0 := (h.allocated s ((h.used s).mp h0)).2
  reserved := h.layout.reserved

/-- No slot has a free block. -/
theorem SlotTree.ptr_ne_free (hfree : isFree m b = true) (s : Slot) : ptr m oi s ≠ b := by
  intro heq
  by_cases hs : U s
  · have hused := (h.allocated s hs).2.2
    rw [heq, hfree] at hused
    cases hused
  · rw [h.ptr_zero hs] at heq
    exact h.working.free_ne_zero hfree heq.symm

theorem SlotTree.parent_used (hp : t.parent = some p) (ht : U t) : U p :=
  (h.used p).mp (ptr_parent_ne hp ((h.used t).mpr ht))

end Tree

section Place
variable (h : SlotTree m oi U) (hb : b < osNblocks m) (hfree : isFree m b = true)
variable (hs : ∀ p, s.parent = some p → U p) (hnew : s.isIndex = true → ¬ U s)
include h hb hfree hs hnew

theorem SlotTree.ptr_place (t : Slot) :
    ptr (placeBlock m oi s b) oi t = if t = s then b else ptr m oi t := by
  rw [h.working.ptr_placeBlock hb hfree fun p hp => (h.used p).mpr (hs p hp)]
  by_cases hbelow : t.Below s
  · have hindex : s.isIndex = true := by
      by_contra hdata
      exact Slot.not_below_of_data (Bool.eq_false_iff.mpr hdata) hbelow
    rw [if_pos hbelow, ptr_below_zero hbelow (h.ptr_zero (hnew hindex))]
  · rw [if_neg hbelow]

theorem SlotTree.placed : SlotTree (placeBlock m oi s b) oi fun t => t = s ∨ U t := by
  have hparents : ∀ p, s.parent = some p → ptr m oi p ≠ 0 := fun p hp => (h.used p).mpr (hs p hp)
  have hptr := h.ptr_place hb hfree hs hnew
  have hfree' := fun c => h.working.isFree_placeBlock (c := c) hb hfree hparents
  have hsuper : ∀ a, 1024 ≤ a → a < 2048 → placeBlock m oi s b a = m a := fun a _ ha => by
    have hplace := h.working.super
    unfold freemap at hplace
    exact h.working.placeBlock_front hb hfree hparents (by omega) (.inl (by unfold freemap; omega))
  obtain ⟨h1, h2, h3⟩ := super_congr hsuper
  have hstart : dataStart (placeBlock m oi s b) = dataStart m := by
    unfold dataStart
    rw [h2, h3]
  have hlo := h.working.lo_le hfree
  have hb0 := h.working.free_ne_zero hfree
  constructor
  · constructor
    · rw [h1, h3]
      exact h.layout.free_map
    · rw [hstart, h1]
      exact h.layout.room
    · rw [h1]
      exact h.layout.small
    · obtain ⟨ino, hino⟩ := h.layout.inode
      refine ⟨ino, ?_⟩
      unfold ospfsInode at hino ⊢
      rw [h2, h3]
      exact hino
    · intro c hc
      rw [hstart] at hc
      rw [hfree' c (by omega), h.layout.reserved c hc, Bool.and_false]
  · intro t
    rw [hptr]
    by_cases ht : t = s
    · rw [if_pos ht]
      exact iff_of_true hb0 (.inl ht)
    · rw [if_neg ht, h.used]
      exact ⟨.inr, fun h' => h'.resolve_left ht⟩
  · intro t ht
    rw [hptr]
    by_cases hts : t = s
    · rw [if_pos hts]
      refine ⟨by rw [hstart]; exact hlo, by rw [h1]; exact hb, ?_⟩
      rw [hfree' b hb]
      simp
    · obtain ⟨h4, h5, h6⟩ := h.allocated t (ht.resolve_left hts)
      rw [if_neg hts]
      refine ⟨by rw [hstart]; exact h4, by rw [h1]; exact h5, ?_⟩
      rw [hfree' _ h5, h6, Bool.and_false]
  · intro t u ht heq
    rw [hptr, hptr] at heq
    by_cases hts : t = s
    · by_cases hus : u = s
      · rw [hts, hus]
      · rw [if_pos hts, if_neg hus] at heq
        exact absurd heq.symm (h.ptr_ne_free hfree u)
    · by_cases hus : u = s
      · rw [if_neg hts, if_pos hus] at heq
        exact absurd heq (h.ptr_ne_free hfree t)
      · rw [if_neg hts, if_neg hus] at heq
        exact h.distinct t u (ht.resolve_left hts) heq

theorem SlotTree.place_kept : SlotsKept oi (· ≠ s) m (placeBlock m oi s b) := by
  have hparents : ∀ p, s.parent = some p → ptr m oi p ≠ 0 := fun p hp => (h.used p).mpr (hs p hp)
  have hsmall := h.layout.small
  have hplace := h.layout.inode_place
  have hword := h.layout.parts.map_word hb
  constructor
  · intro t ht
    rw [h.ptr_place hb hfree hs hnew, if_neg ht]
  · intro t a _ hdata h0 ha
    have hblock := h.pointed t h0
    have hne := h.ptr_ne_free hfree t
    rw [h.working.placeBlock_apart hb hfree hparents (.inr (by omega))]
    · exact takeBlock_apart (by omega) (by omega) (by omega)
    · intro p hindex hp0 heq
      rw [h.distinct t p ((h.used t).mp h0) (ha.symm.trans heq)] at hdata
      rw [hindex] at hdata
      cases hdata
  · intro a ha
    exact h.working.placeBlock_front hb hfree hparents (by have := h.working.super; omega)
      (.inl (by omega))
  · apply rd32_congr
    intro k hk
    rw [Nat.add_assoc]
    exact h.working.placeBlock_fields hb hfree hparents (by omega)

omit hnew in
theorem SlotTree.place_count : freeCount (placeBlock m oi s b) + 1 = freeCount m ∧
    oiSize (placeBlock m oi s b) oi = oiSize m oi := by
  have hparents : ∀ p, s.parent = some p → ptr m oi p ≠ 0 := fun p hp => (h.used p).mpr (hs p hp)
  constructor
  · exact freeCount_take hb hfree (h.working.placeBlock_nblocks hb hfree hparents)
      fun c hc => h.working.isFree_placeBlock hb hfree hparents hc
  · exact rd32_congr fun k hk => h.working.placeBlock_fields hb hfree hparents (by omega)

end Place

section Drop

/-- Slots that are not cleared with these. -/
def Spared (slots : List Slot) (t : Slot) : Prop := ∀ s, s ∈ slots → t ≠ s ∧ ¬ t.Below s

theorem freeCount_give (hn : osNblocks m' = osNblocks m) {given : List Nat}
    (h : ∀ c, c < osNblocks m → isFree m' c = true → isFree m c = true ∨ c ∈ given) :
    freeCount m' ≤ freeCount m + given.length := by
  have hsub : ((Finset.range (osNblocks m')).filter fun c => isFree m' c = true) ⊆
      ((Finset.range (osNblocks m)).filter fun c => isFree m c = true) ∪ given.toFinset := by
    intro c hc
    obtain ⟨hlt, hfree⟩ := Finset.mem_filter.mp hc
    rw [hn] at hlt
    rw [Finset.mem_union, List.mem_toFinset, Finset.mem_filter]
    rcases h c (Finset.mem_range.mp hlt) hfree with hfree | hgiven
    · exact .inl ⟨hlt, hfree⟩
    · exact .inr hgiven
  refine (Finset.card_le_card hsub).trans ((Finset.card_union_le _ _).trans ?_)
  exact Nat.add_le_add_left (List.toFinset_card_le given) _

variable (h : SlotTree m oi U) (hd : Dropped oi slots m m')
include h hd

theorem SlotTree.dropped : SlotTree m' oi fun t => U t ∧ Spared slots t := by
  have hp := h.layout.parts
  have hpt := h.pointed
  have hparts := hd.cleared.parts hp
  have hstart := hd.cleared.dataStart
  have hnblocks := hd.cleared.superblock.1
  have hused : ∀ t, ptr m' oi t ≠ 0 ↔ U t ∧ Spared slots t := by
    intro t
    constructor
    · intro h0
      have hold := (hd.cleared.ptr hp hpt t).resolve_right h0
      refine ⟨(h.used t).mp (hold ▸ h0), fun s hs => ?_⟩
      exact ⟨fun heq => h0 (hd.gone t s hs (.inl heq)), fun hb => h0 (hd.gone t s hs (.inr hb))⟩
    · rintro ⟨ht, hspared⟩
      rw [hd.kept t hspared]
      exact (h.used t).mpr ht
  have hnot : ∀ c, c < osNblocks m → isFree m c = false →
      (∀ s, s ∈ slots → ptr m oi s ≠ c) → isFree m' c = false := by
    intro c hc hused' hne
    rw [Bool.eq_false_iff, ne_eq, hd.free c hc, hused']
    rintro (h0 | ⟨_, s, hs, hsc⟩)
    · cases h0
    · exact hne s hs hsc
  constructor
  · refine ⟨hparts.free_map, hparts.room, hparts.small, hparts.inode, fun c hc => ?_⟩
    have hroom := hp.room
    have hpos := hp.dataStart_pos
    rw [hstart] at hc
    by_cases hfree : isFree m' c = true
    · rcases (hd.free c (by omega)).mp hfree with h0 | ⟨hbound, s, _, hsc⟩
      · rw [h.layout.reserved c hc] at h0
        cases h0
      · by_cases h0 : ptr m oi s = 0
        · omega
        · have hblock := hpt s h0
          omega
    · exact Bool.eq_false_iff.mpr hfree
  · exact hused
  · rintro t ⟨ht, hspared⟩
    obtain ⟨h1, h2, h3⟩ := h.allocated t ht
    rw [hd.kept t hspared]
    refine ⟨by rw [hstart]; exact h1, by rw [hnblocks]; exact h2, hnot _ h2 h3 fun s hs heq => ?_⟩
    exact (hspared s hs).1 (h.distinct t s ht heq.symm)
  · rintro t u ⟨ht, hspared⟩ heq
    rw [hd.kept t hspared] at heq
    have hu0 : ptr m' oi u ≠ 0 := heq ▸ (h.used t).mpr ht
    rw [hd.kept u ((hused u).mp hu0).2] at heq
    exact h.distinct t u ht heq

theorem SlotTree.drop_kept : SlotsKept oi (Spared slots) m m' := by
  constructor
  · exact hd.kept
  · intro t a _ hdata h0 ha
    have hblock := h.pointed t h0
    apply hd.data a (by omega)
    intro p hindex hp0 heq
    rw [h.distinct t p ((h.used t).mp h0) (ha.symm.trans heq), hindex] at hdata
    cases hdata
  · exact fun a ha => hd.cleared.fields a (.inl ha)
  · exact hd.cleared.ftype

omit h in
theorem Dropped.count : freeCount m' ≤ freeCount m + slots.length := by
  have hgiven : ∀ c, c < osNblocks m → isFree m' c = true →
      isFree m c = true ∨ c ∈ slots.map (ptr m oi) := by
    intro c hc hfree
    rcases (hd.free c hc).mp hfree with hfree | ⟨_, s, hs, heq⟩
    · exact .inl hfree
    · exact .inr (List.mem_map.mpr ⟨s, hs, heq⟩)
  have hcount := freeCount_give hd.cleared.superblock.1 hgiven
  rw [List.length_map] at hcount
  exact hcount

end Drop

section SetSize
variable (h : SlotTree m oi U)
include h

theorem SlotTree.setSize_kept (v : Nat) : SlotsKept oi K m (setSize m oi v) := by
  have hp := h.layout.parts
  obtain ⟨hplace, hregion, _⟩ := hp.inode_place
  have hmap := hp.free_map
  constructor
  · exact fun s _ => Pointed.ptr_setSize hp h.pointed v s
  · intro s a _ _ h0 ha
    have hblock := h.pointed s h0
    exact wr32_outside (by omega)
  · intro a ha
    unfold freemap at ha
    exact wr32_outside (by omega)
  · exact rd32_wr32_ne (.inl (Nat.le_refl _))

theorem SlotTree.sized (v : Nat) : SlotTree (setSize m oi v) oi U ∧
    freeCount (setSize m oi v) = freeCount m := by
  have hp := h.layout.parts
  have hkept := h.setSize_kept (K := fun _ => True) v
  have hparts := hkept.parts hp
  have hstart := hkept.dataStart
  have hnblocks := hkept.superblock.1
  have hroom := hp.room
  constructor
  · constructor
    · refine ⟨hparts.free_map, hparts.room, hparts.small, hparts.inode, fun c hc => ?_⟩
      rw [hstart] at hc
      rw [isFree_setSize hp (by omega)]
      exact h.layout.reserved c hc
    · intro s
      rw [hkept.ptr s trivial]
      exact h.used s
    · intro s hs
      obtain ⟨h1, h2, h3⟩ := h.allocated s hs
      rw [hkept.ptr s trivial]
      exact ⟨by rw [hstart]; exact h1, by rw [hnblocks]; exact h2,
        (isFree_setSize hp h2 v).trans h3⟩
    · intro s t hs heq
      rw [hkept.ptr s trivial, hkept.ptr t trivial] at heq
      exact h.distinct s t hs heq
  · unfold freeCount
    rw [hnblocks]
    apply congrArg Finset.card
    apply Finset.filter_congr
    intro c hc
    rw [isFree_setSize hp (Finset.mem_range.mp hc)]

end SetSize

/-- The slots of a well-formed file. -/
theorem FileTree.slotTree (h : FileTree m oi n) : SlotTree m oi (·.first < n) where
  layout := h.layout
  used := h.used
  allocated s hs := h.allocated s ((h.used s).mpr hs)
  distinct s t hs := h.distinct s t ((h.used s).mpr hs)

end CS111.Ospfs
