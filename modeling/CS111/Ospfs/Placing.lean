import Mathlib.Data.Finset.Card
import Mathlib.Data.Finset.Range
import CS111.Ospfs.Resize

/-!
# Storing new blocks in the slots of an inode

This is about one inode of a volume of any size. `Working` holds before and after each block that is
taken from the free map and stored in a slot, and `Stored` says what the slot has then.
-/

namespace CS111.Ospfs

open Memory

set_option autoImplicit false

variable {m m' m'' : Bytes} {oi lo n a b c : Nat} {p s t : Slot}

section FreeCount

def freeCount (m : Bytes) : Nat :=
  ((Finset.range (osNblocks m)).filter fun b => isFree m b = true).card

theorem freeCount_take (hb : b < osNblocks m) (hfree : isFree m b = true)
    (hn : osNblocks m' = osNblocks m)
    (h : ∀ c, c < osNblocks m → isFree m' c = (decide (c ≠ b) && isFree m c)) :
    freeCount m' + 1 = freeCount m := by
  unfold freeCount
  have herase : ((Finset.range (osNblocks m')).filter fun c => isFree m' c = true) =
      ((Finset.range (osNblocks m)).filter fun c => isFree m c = true).erase b := by
    ext c
    simp only [Finset.mem_erase, Finset.mem_filter, Finset.mem_range, hn]
    constructor
    · rintro ⟨hc, hfree'⟩
      rw [h c hc, Bool.and_eq_true, decide_eq_true_eq] at hfree'
      exact ⟨hfree'.1, hc, hfree'.2⟩
    · rintro ⟨hne, hc, hfree'⟩
      refine ⟨hc, ?_⟩
      rw [h c hc, hfree', Bool.and_true]
      exact decide_eq_true hne
  rw [herase]
  apply Finset.card_erase_add_one
  exact Finset.mem_filter.mpr ⟨Finset.mem_range.mpr hb, hfree⟩

theorem allocateFrom_free (start left : Nat)
    (h : ∃ b, start ≤ b ∧ b < start + left ∧ isFree m b = true) :
    ∃ b, b < start + left ∧ isFree m b = true ∧
      allocateFrom m start left = (bitvectorClear m freemap b, b) := by
  induction left generalizing start with
  | zero =>
    obtain ⟨b, h1, h2, _⟩ := h
    omega
  | succ left ih =>
    rw [allocateFrom]
    by_cases hfree : bitvectorTest m freemap start = true
    · rw [if_pos hfree]
      exact ⟨start, by omega, hfree, rfl⟩
    · rw [if_neg hfree]
      obtain ⟨b, h1, h2, h3⟩ := h
      have hne : b ≠ start := fun heq => hfree (heq ▸ h3)
      obtain ⟨c, h4, h5, h6⟩ := ih (start + 1) ⟨b, by omega, by omega, h3⟩
      exact ⟨c, by omega, h5, h6⟩

theorem allocateBlock_free (h : 0 < freeCount m) :
    ∃ b, b < osNblocks m ∧ isFree m b = true ∧
      allocateBlock m = (bitvectorClear m freemap b, b) := by
  obtain ⟨b, hb⟩ := Finset.card_pos.mp h
  obtain ⟨hlt, hfree⟩ := Finset.mem_filter.mp hb
  have hlt := Finset.mem_range.mp hlt
  obtain ⟨c, h1, h2, h3⟩ := allocateFrom_free 0 (osNblocks m)
    ⟨b, by omega, by omega, hfree⟩
  exact ⟨c, by omega, h2, h3⟩

end FreeCount

section Trees

theorem ptr_below_zero (hb : t.Below s) (h0 : ptr m oi s = 0) : ptr m oi t = 0 := by
  rcases hb with hp | hp
  · rw [ptr_child hp, h0, below_zero]
  · cases hq : t.parent with
    | none =>
      rw [hq] at hp
      cases hp
    | some q =>
      rw [hq, Option.bind_some] at hp
      rw [ptr_child hq, ptr_child hp, h0, below_zero, below_zero]

theorem IndexTree.congr (h : IndexTree m oi lo) (heq : ∀ s, ptr m' oi s = ptr m oi s) :
    IndexTree m' oi lo where
  bound s hs h0 := by
    rw [heq] at h0 ⊢
    exact h.bound s hs h0
  inj s t hs ht h0 hst := by
    rw [heq] at h0 hst
    rw [heq] at hst
    exact h.inj s t hs ht h0 hst
  region := h.region

end Trees

/-- A volume on which `add_block` works: the free map lies in front of the inode, the index blocks of
the inode are in use, and the blocks in front of block `lo` are never free. -/
structure Working (m : Bytes) (oi lo : Nat) : Prop where
  tree : IndexTree m oi lo
  small : osNblocks m < 4194304
  super : freemap ≤ oi
  map : ∀ b, b < osNblocks m → freemap + 4 * (b / 32) + 4 ≤ oi
  used : ∀ s, s.isIndex = true → ptr m oi s ≠ 0 →
    ptr m oi s < osNblocks m ∧ isFree m (ptr m oi s) = false
  reserved : ∀ b, b < lo → isFree m b = false

/-- Block `b` is taken, cleared and stored in a slot. -/
def placeBlock (m : Bytes) (oi : Nat) (s : Slot) (b : Nat) : Bytes :=
  setCell (takeBlock m b) oi s b

/-- Block `b` was free, and is now all zero and the block of slot `s`. -/
structure NewBlock (oi : Nat) (s : Slot) (b : Nat) (m m' : Bytes) : Prop where
  fresh : isFree m b = true
  bound : b < osNblocks m
  marked : isFree m' b = false
  zero : ZeroBlock m' b
  slot : ptr m' oi s = b
  others : ∀ t, t ≠ s → ptr m oi t ≠ 0 → ptr m' oi t = ptr m oi t
  ftype : oiFtype m' oi = oiFtype m oi

/-- Only the size of the file is still to be changed. -/
structure Stored (oi : Nat) (s : Slot) (b : Nat) (m m' : Bytes) : Prop
    extends NewBlock oi s b m m' where
  size : oiSize m' oi = oiSize m oi
  nblocks : osNblocks m' = osNblocks m
  free : ∀ c, c < osNblocks m → isFree m' c = true → isFree m c = true

/-- An index block is stored first. -/
theorem Stored.after (h : Stored oi p c m m') (h' : Stored oi s b m' m'') (h0 : ptr m oi p = 0) :
    Stored oi s b m m'' where
  fresh := h.free b (h.nblocks ▸ h'.bound) h'.fresh
  bound := h.nblocks ▸ h'.bound
  marked := h'.marked
  zero := h'.zero
  slot := h'.slot
  others t hne ht := by
    have hp : t ≠ p := fun heq => ht (heq ▸ h0)
    have ht' := h.others t hp ht
    rw [h'.others t hne (by rw [ht']; exact ht), ht']
  ftype := by rw [h'.ftype, h.ftype]
  size := by rw [h'.size, h.size]
  nblocks := by rw [h'.nblocks, h.nblocks]
  free c hc hfree := h.free c hc (h'.free c (by rw [h.nblocks]; exact hc) hfree)

section Place
variable (h : Working m oi lo) (hb : b < osNblocks m) (hfree : isFree m b = true)
include h hb hfree

omit hb in
theorem Working.lo_le : lo ≤ b := by
  by_contra hlt
  rw [h.reserved b (by omega)] at hfree
  cases hfree

omit hb in
theorem Working.free_ne_zero : b ≠ 0 := by
  have hlo := h.lo_le hfree
  have hregion := h.tree.region
  omega

omit hb in
theorem Working.index_ne (hs : s.isIndex = true) : ptr m oi s ≠ b := by
  intro heq
  have hused := (h.used s hs (heq ▸ h.free_ne_zero hfree)).2
  rw [heq, hfree] at hused
  cases hused

theorem Working.ptr_takeBlock : ∀ s, ptr (takeBlock m b) oi s = ptr m oi s := by
  have hlo := h.lo_le hfree
  have hsmall := h.small
  have hregion := h.tree.region
  have hmap := h.map b hb
  apply ptr_congr_index
  · intro s hs
    by_cases h0 : ptr m oi s = 0
    · omega
    · exact (h.tree.bound s hs h0).2
  · intro a h1 h2
    exact takeBlock_apart (by omega) (by omega) (by omega)
  · intro s a hs h0 ha
    have hbound := h.tree.bound s hs h0
    have hne := h.index_ne hfree hs
    exact takeBlock_apart (by omega) (by omega) (by omega)

variable (hs : ∀ p, s.parent = some p → ptr m oi p ≠ 0)
include hs

theorem Working.ptr_placeBlock (t : Slot) :
    ptr (placeBlock m oi s b) oi t =
      if t = s then b else if t.Below s then 0 else ptr m oi t := by
  have hlo := h.lo_le hfree
  have hsmall := h.small
  have htake := h.ptr_takeBlock hb hfree
  rw [placeBlock, (h.tree.congr htake).ptr_setCell _ (by omega), htake]
  · intro _ _
    refine ⟨hlo, by omega, fun q hq => ?_, takeBlock_cleared (by omega)⟩
    rw [htake]
    exact h.index_ne hfree hq
  · intro p hp
    rw [htake]
    exact hs p hp

theorem Working.placeBlock_apart (hino : a < oi + 16 ∨ oi + 64 ≤ a)
    (hindex : ∀ p, p.isIndex = true → ptr m oi p ≠ 0 → a / 1024 ≠ ptr m oi p) :
    placeBlock m oi s b a = takeBlock m b a := by
  have htake := h.ptr_takeBlock hb hfree
  apply wr32_outside
  have hplace : ∀ p, s.parent = some p → ptr (takeBlock m b) oi p ≠ 0 := fun p hp => by
    rw [htake]
    exact hs p hp
  rcases cell_place hplace with ⟨h1, h2⟩ | ⟨p, hp, h0, h1, h2⟩
  · omega
  · rw [htake] at h0 h1
    have hne := hindex p hp h0
    omega

/-- In front of the pointers only the word of the free map changes. -/
theorem Working.placeBlock_front (ha : a < oi + 16)
    (hmap : a < freemap + 4 * (b / 32) ∨ freemap + 4 * (b / 32) + 4 ≤ a) :
    placeBlock m oi s b a = m a := by
  have hlo := h.lo_le hfree
  have hsmall := h.small
  have hregion := h.tree.region
  rw [h.placeBlock_apart hb hfree hs (.inl ha)]
  · exact takeBlock_apart (by omega) hmap (by omega)
  · intro p hp h0
    have hbound := h.tree.bound p hp h0
    omega

theorem Working.placeBlock_fields {k : Nat} (hk : k < 16) :
    placeBlock m oi s b (oi + k) = m (oi + k) := by
  have hmap := h.map b hb
  exact h.placeBlock_front hb hfree hs (by omega) (by omega)

theorem Working.placeBlock_nblocks : osNblocks (placeBlock m oi s b) = osNblocks m := by
  have hsuper := h.super
  unfold freemap at hsuper
  apply rd32_congr
  intro k hk
  apply h.placeBlock_front hb hfree hs (by omega)
  unfold freemap
  omega

theorem Working.placeBlock_zero : ZeroBlock (placeBlock m oi s b) b := by
  have hlo := h.lo_le hfree
  have hsmall := h.small
  have hregion := h.tree.region
  intro a ha
  rw [h.placeBlock_apart hb hfree hs (.inr (by omega))]
  · exact takeBlock_cleared (by omega) a ha
  · intro p hp _
    rw [ha]
    exact Ne.symm (h.index_ne hfree hp)

theorem Working.isFree_placeBlock (hc : c < osNblocks m) :
    isFree (placeBlock m oi s b) c = (decide (c ≠ b) && isFree m c) := by
  have hlo := h.lo_le hfree
  have hsmall := h.small
  have hregion := h.tree.region
  have hmap := h.map c hc
  rw [← isFree_takeBlock_of (by omega) (by omega)]
  apply bitvectorTest_congr
  intro k hk
  apply h.placeBlock_apart hb hfree hs (.inl (by omega))
  intro p hp h0
  have hbound := h.tree.bound p hp h0
  omega

variable (hempty : ∀ t, t.Below s → ptr m oi t = 0)

include hempty in
theorem Working.placeBlock_stored : Stored oi s b m (placeBlock m oi s b) where
  fresh := hfree
  bound := hb
  marked := by
    rw [h.isFree_placeBlock hb hfree hs hb]
    simp
  zero := h.placeBlock_zero hb hfree hs
  slot := by rw [h.ptr_placeBlock hb hfree hs, if_pos rfl]
  others t hne ht := by
    rw [h.ptr_placeBlock hb hfree hs, if_neg hne, if_neg fun hbelow => ht (hempty t hbelow)]
  ftype := rd32_congr fun k hk => by
    rw [Nat.add_assoc]
    exact h.placeBlock_fields hb hfree hs (by omega)
  size := rd32_congr fun k hk => h.placeBlock_fields hb hfree hs (by omega)
  nblocks := h.placeBlock_nblocks hb hfree hs
  free c hc hfree' := by
    rw [h.isFree_placeBlock hb hfree hs hc, Bool.and_eq_true] at hfree'
    exact hfree'.2

/-- The index blocks after the change are the new block and old ones. -/
theorem Working.placeBlock_index (ht : ptr (placeBlock m oi s b) oi t ≠ 0) :
    (t = s ∧ ptr (placeBlock m oi s b) oi t = b) ∨
      (ptr m oi t ≠ 0 ∧ ptr (placeBlock m oi s b) oi t = ptr m oi t) := by
  rw [h.ptr_placeBlock hb hfree hs] at ht ⊢
  by_cases heq : t = s
  · exact .inl ⟨heq, if_pos heq⟩
  · right
    rw [if_neg heq] at ht ⊢
    by_cases hbelow : t.Below s
    · rw [if_pos hbelow] at ht
      exact absurd rfl ht
    · rw [if_neg hbelow] at ht ⊢
      exact ⟨ht, rfl⟩

theorem Working.placeBlock_tree : IndexTree (placeBlock m oi s b) oi lo where
  bound t ht h0 := by
    have hlo := h.lo_le hfree
    have hsmall := h.small
    rcases h.placeBlock_index hb hfree hs h0 with ⟨-, heq⟩ | ⟨h0', heq⟩
    · rw [heq]
      omega
    · rw [heq]
      exact h.tree.bound t ht h0'
  inj t u ht hu h0 heq := by
    have hu0 : ptr (placeBlock m oi s b) oi u ≠ 0 := heq ▸ h0
    rcases h.placeBlock_index hb hfree hs h0 with ⟨rfl, ht'⟩ | ⟨h0', ht'⟩
    · rcases h.placeBlock_index hb hfree hs hu0 with ⟨rfl, -⟩ | ⟨-, hu'⟩
      · rfl
      · rw [ht', hu'] at heq
        exact absurd heq.symm (h.index_ne hfree hu)
    · rcases h.placeBlock_index hb hfree hs hu0 with ⟨rfl, hu'⟩ | ⟨-, hu'⟩
      · rw [ht', hu'] at heq
        exact absurd heq (h.index_ne hfree ht)
      · rw [ht', hu'] at heq
        exact h.tree.inj t u ht hu h0' heq
  region := h.tree.region

theorem Working.placed : Working (placeBlock m oi s b) oi lo where
  tree := h.placeBlock_tree hb hfree hs
  small := by
    rw [h.placeBlock_nblocks hb hfree hs]
    exact h.small
  super := h.super
  map c hc := by
    rw [h.placeBlock_nblocks hb hfree hs] at hc
    exact h.map c hc
  used t ht h0 := by
    rw [h.placeBlock_nblocks hb hfree hs]
    rcases h.placeBlock_index hb hfree hs h0 with ⟨-, heq⟩ | ⟨h0', heq⟩
    · rw [heq, h.isFree_placeBlock hb hfree hs hb]
      exact ⟨hb, by simp⟩
    · obtain ⟨h1, h2⟩ := h.used t ht h0'
      rw [heq, h.isFree_placeBlock hb hfree hs h1, h2, Bool.and_false]
      exact ⟨h1, rfl⟩
  reserved c hc := by
    have hlo := h.lo_le hfree
    rw [h.isFree_placeBlock hb hfree hs (by omega), h.reserved c hc, Bool.and_false]

end Place

/-- One allocation. -/
theorem Working.allocate (h : Working m oi lo) {k : Nat} (hcount : k + 1 ≤ freeCount m) :
    ∃ b, b ≠ 0 ∧ allocateBlock m = (bitvectorClear m freemap b, b) ∧
      ptr (takeBlock m b) oi = ptr m oi ∧
      ∀ s, (∀ p, s.parent = some p → ptr m oi p ≠ 0) → (∀ t, t.Below s → ptr m oi t = 0) →
        Stored oi s b m (placeBlock m oi s b) ∧ Working (placeBlock m oi s b) oi lo ∧
          k ≤ freeCount (placeBlock m oi s b) := by
  obtain ⟨b, hb, hfree, halloc⟩ := allocateBlock_free (m := m) (by omega)
  refine ⟨b, h.free_ne_zero hfree, halloc, funext (h.ptr_takeBlock hb hfree), ?_⟩
  intro s hs hempty
  refine ⟨h.placeBlock_stored hb hfree hs hempty, h.placed hb hfree hs, ?_⟩
  have hone := freeCount_take hb hfree (h.placeBlock_nblocks hb hfree hs)
    fun c hc => h.isFree_placeBlock hb hfree hs hc
  omega

end CS111.Ospfs
