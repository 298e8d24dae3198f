import CS111.Ospfs.Pointers

/-!
# Sound volumes, and what work on one inode may change

`Sound` is the invariant of block ownership. The elementary changes are: to store the number of
a new block in a slot, to give the block of a slot back, and to store a word in an inode.
-/

namespace CS111.Ospfs

open Memory

set_option autoImplicit false

def isFree (m : Bytes) (b : Nat) : Bool := bitvectorTest m freemap b

def InUse (g : Geometry) (m : Bytes) (b : Nat) : Prop :=
  g.dataStart ≤ b ∧ b < g.nblocks ∧ isFree m b = false

structure Sound (g : Geometry) (m : Bytes) : Prop where
  nblocks : osNblocks m = g.nblocks
  ninodes : osNinodes m = g.ninodes
  firstinob : osFirstinob m = 3
  boot : ∀ a, a < 1024 → m a = 0
  reserved : ∀ b, b < g.dataStart → isFree m b = false
  owns : Owns (own g m) (InUse g m)

/-- Inode `i` exists and has block pointers. -/
def HasBlocks (g : Geometry) (m : Bytes) (i : Nat) : Prop :=
  i < g.ninodes ∧ oiFtype m (inodeAddr i) ≠ FTYPE_SYMLINK

variable {g : Geometry} {m m' m'' : Bytes} {i b v a : Nat} {s : Slot} {x : Nat × Slot}

theorem inUse_dataBlocks (g : Geometry) (m : Bytes) : DataBlocks g (InUse g m) :=
  fun _ h => ⟨h.1, h.2.1⟩

theorem Geometry.dataStart_ge (g : Geometry) : 4 ≤ g.dataStart := by
  have := g.two_le_ninodes
  unfold Geometry.dataStart
  omega

theorem freemap_word (h : b < 8192) : freemap ≤ freemap + 4 * (b / 32) ∧
    freemap + 4 * (b / 32) + 4 ≤ 3072 := by
  unfold freemap
  omega

theorem isFree_congr (hb : b < 8192) (h : ∀ a, 2048 ≤ a → a < 3072 → m' a = m a) :
    isFree m' b = isFree m b := by
  apply bitvectorTest_congr
  intro k hk
  have := freemap_word hb
  exact h _ (by unfold freemap at *; omega) (by omega)

section Superblock

theorem Sound.inode (hs : Sound g m) (h : i < g.ninodes) :
    ospfsInode m i = some (inodeAddr i) := by
  unfold ospfsInode
  rw [hs.ninodes, hs.firstinob, if_neg (by omega)]
  rfl

theorem super_congr (h : ∀ a, 1024 ≤ a → a < 2048 → m' a = m a) :
    osNblocks m' = osNblocks m ∧ osNinodes m' = osNinodes m ∧ osFirstinob m' = osFirstinob m := by
  refine ⟨?_, ?_, ?_⟩ <;> apply rd32_congr <;> intro k hk <;> exact h _ (by omega) (by omega)

/-- The soundness of a volume after a change of the free map, the inodes and the data blocks. -/
theorem Sound.of_parts (hs : Sound g m) (hlow : ∀ a, a < 2048 → m' a = m a)
    (hreserved : ∀ b, b < g.dataStart → isFree m' b = false)
    (howns : Owns (own g m') (InUse g m')) : Sound g m' := by
  obtain ⟨h1, h2, h3⟩ := super_congr (m := m) fun a _ h => hlow a h
  constructor
  · rw [h1, hs.nblocks]
  · rw [h2, hs.ninodes]
  · rw [h3, hs.firstinob]
  · intro a ha
    rw [hlow a (by omega), hs.boot a ha]
  · exact hreserved
  · exact howns

end Superblock

section FreeMap

theorem allocateFrom_spec (left start : Nat) :
    allocateFrom m start left = (m, 0) ∨
      ∃ b, start ≤ b ∧ b < start + left ∧ isFree m b = true ∧
        allocateFrom m start left = (bitvectorClear m freemap b, b) := by
  induction left generalizing start with
  | zero => exact .inl rfl
  | succ left ih =>
    rw [allocateFrom]
    by_cases hfree : bitvectorTest m freemap start = true
    · rw [if_pos hfree]
      exact .inr ⟨start, by omega, by omega, hfree, rfl⟩
    · rw [if_neg hfree]
      rcases ih (start + 1) with hnone | ⟨b, h1, h2, h3, h4⟩
      · exact .inl hnone
      · exact .inr ⟨b, by omega, by omega, h3, h4⟩

/-- A block is free to be taken. -/
def Fresh (g : Geometry) (m : Bytes) (b : Nat) : Prop :=
  g.dataStart ≤ b ∧ b < g.nblocks ∧ isFree m b = true

theorem Sound.allocate (hs : Sound g m) :
    ((allocateBlock m).1 = m ∧ (allocateBlock m).2 = 0) ∨
      ((allocateBlock m).1 = bitvectorClear m freemap (allocateBlock m).2 ∧
        (allocateBlock m).2 ≠ 0 ∧ Fresh g m (allocateBlock m).2) := by
  unfold allocateBlock
  rcases allocateFrom_spec (m := m) (osNblocks m) 0 with hnone | ⟨b, _, h2, h3, h4⟩
  · rw [hnone]
    exact .inl ⟨rfl, rfl⟩
  · rw [h4]
    right
    have hdata : g.dataStart ≤ b := by
      by_contra hlt
      rw [hs.reserved b (by omega)] at h3
      exact absurd h3 (by simp)
    have hge := g.dataStart_ge
    rw [hs.nblocks] at h2
    exact ⟨rfl, by omega, hdata, by omega, h3⟩

theorem Sound.freeBlock_eq (hs : Sound g m) (b : Nat) :
    freeBlock m b = m ∨ (freeBlock m b = bitvectorSet m freemap b ∧ g.dataStart ≤ b) := by
  have hn := g.nblocks_le
  have hroom := g.room
  unfold freeBlock
  rw [hs.firstinob, hs.ninodes, u32_of_lt (by omega)]
  by_cases hle : b ≤ 3 + g.ninodes / 16
  · exact .inl (if_pos hle)
  · right
    rw [if_neg hle]
    refine ⟨rfl, ?_⟩
    unfold Geometry.dataStart
    omega

theorem Sound.freeBlock_outside (hs : Sound g m) (hb : b < g.nblocks)
    (ha : a < 2048 ∨ 3072 ≤ a) : freeBlock m b a = m a := by
  have hn := g.nblocks_le
  have hw := freemap_word (b := b) (by omega)
  rcases hs.freeBlock_eq b with h | ⟨h, _⟩
  · rw [h]
  · rw [h]
    apply bitvectorSet_outside
    unfold freemap at *
    omega

theorem Sound.isFree_freeBlock (hs : Sound g m) {c : Nat}
    (h : isFree (freeBlock m b) c = true) : isFree m c = true ∨ (c = b ∧ g.dataStart ≤ b) := by
  rcases hs.freeBlock_eq b with heq | ⟨heq, hge⟩
  · rw [heq] at h
    exact .inl h
  · rw [heq] at h
    unfold isFree at h ⊢
    rw [bitvectorTest_set] at h
    by_cases hc : c = b
    · exact .inr ⟨hc, hge⟩
    · left
      simpa [hc] using h

end FreeMap

theorem Sound.ne_fresh (hs : Sound g m) (hb : Fresh g m b) (h0 : own g m x ≠ 0) :
    own g m x ≠ b := by
  intro hxb
  have hused := (hs.owns.used_of_ne h0).2.2
  rw [hxb, hb.2.2] at hused
  exact absurd hused (by simp)

section Change

/-- What an operation on inode `i` may change: the free map, the size and the pointers of the
inode, its own blocks and free ones. -/
structure Change (g : Geometry) (i : Nat) (m m' : Bytes) : Prop where
  sound : Sound g m'
  others : ∀ x, x.1 ≠ i → own g m' x = own g m x
  frame : ∀ a, (a < 2048 ∨ 3072 ≤ a) →
    (a < inodeAddr i ∨ inodeAddr i + 64 ≤ a ∨ (inodeAddr i + 4 ≤ a ∧ a < inodeAddr i + 16)) →
    (1024 * g.dataStart ≤ a → ∃ x, x.1 ≠ i ∧ own g m x ≠ 0 ∧ a / 1024 = own g m x) → m' a = m a

theorem Change.refl (hs : Sound g m) (i : Nat) : Change g i m m := by
  constructor
  · exact hs
  · intro x _
    rfl
  · intro a _ _ _
    rfl

theorem Change.trans (h : Change g i m m') (h' : Change g i m' m'') : Change g i m m'' := by
  constructor
  · exact h'.sound
  · intro x hx
    rw [h'.others x hx, h.others x hx]
  · intro a h1 h2 h3
    rw [h'.frame a h1 h2, h.frame a h1 h2 h3]
    intro hdata
    obtain ⟨x, hx, h0, hax⟩ := h3 hdata
    rw [← h.others x hx] at h0 hax
    exact ⟨x, hx, h0, hax⟩

/-- Fields 4 to 15 of the inode itself, and all bytes of the other inodes. -/
theorem Change.inode_bytes (h : Change g i m m') {j k : Nat} (hj : j < g.ninodes) (hk : k < 64)
    (hne : j ≠ i ∨ (4 ≤ k ∧ k < 16)) : m' (inodeAddr j + k) = m (inodeAddr j + k) := by
  have hr := g.inode_region hj
  apply h.frame
  · omega
  · unfold inodeAddr
    omega
  · intro hdata
    omega

theorem Change.ftype (h : Change g i m m') {j : Nat} (hj : j < g.ninodes) :
    oiFtype m' (inodeAddr j) = oiFtype m (inodeAddr j) := by
  apply rd32_congr
  intro k hk
  rw [Nat.add_assoc]
  exact h.inode_bytes hj (by omega) (by omega)

theorem Change.nlink (h : Change g i m m') {j : Nat} (hj : j < g.ninodes) :
    oiNlink m' (inodeAddr j) = oiNlink m (inodeAddr j) := by
  apply rd32_congr
  intro k hk
  rw [Nat.add_assoc]
  exact h.inode_bytes hj (by omega) (by omega)

theorem Change.hasBlocks (h : Change g i m m') {j : Nat} (hj : HasBlocks g m j) :
    HasBlocks g m' j := by
  obtain ⟨h1, h2⟩ := hj
  exact ⟨h1, by rw [h.ftype h1]; exact h2⟩

/-- The blocks of the other inodes keep their contents. -/
theorem Change.block (h : Change g i m m') (hs : Sound g m) (hi : i < g.ninodes) (hx : x.1 ≠ i)
    (h0 : own g m x ≠ 0) (ha : a / 1024 = own g m x) : m' a = m a := by
  have hb := own_bounds hs.owns (inUse_dataBlocks g m) h0
  have hge := g.dataStart_ge
  have hr := g.inode_region hi
  exact h.frame a (by omega) (by omega) fun _ => ⟨x, hx, h0, ha⟩

end Change

section Blank

theorem ptr_eq_zero {oi : Nat} (h : ∀ k, 16 ≤ k → k < 64 → m (oi + k) = 0) (s : Slot) :
    ptr m oi s = 0 := by
  revert s
  apply Slot.parent_induction
  intro s ih
  cases hp : s.parent with
  | none =>
    have hlt := Slot.index_root hp
    rw [ptr_root hp]
    apply rd32_eq_zero
    intro k hk
    rw [Nat.add_assoc]
    exact h _ (by omega) (by omega)
  | some p => rw [ptr_child hp, ih p hp, below_zero]

/-- A volume with cleared inodes. -/
theorem Sound.blank (h1 : osNblocks m = g.nblocks) (h2 : osNinodes m = g.ninodes)
    (h3 : osFirstinob m = 3) (hboot : ∀ a, a < 1024 → m a = 0)
    (hreserved : ∀ b, b < g.dataStart → isFree m b = false)
    (hinodes : ∀ i k, i < g.ninodes → k < 64 → m (inodeAddr i + k) = 0) : Sound g m := by
  constructor
  · exact h1
  · exact h2
  · exact h3
  · exact hboot
  · exact hreserved
  · apply Owns.none_held
    rintro ⟨i, s⟩
    unfold own
    split
    · rename_i hi
      exact ptr_eq_zero (fun k _ hk => hinodes i k hi.1 hk) s
    · rfl

end Blank

section Link
variable (hs : Sound g m) (hb : Fresh g m b)

/-- A block taken from the free map and cleared. -/
def takeBlock (m : Bytes) (b : Nat) : Bytes := clearBlock (bitvectorClear m freemap b) b

/-- Only the word of its bit and the block itself change. -/
theorem takeBlock_apart (hlt : b < 4194304)
    (hmap : a < freemap + 4 * (b / 32) ∨ freemap + 4 * (b / 32) + 4 ≤ a) (ha : a / 1024 ≠ b) :
    takeBlock m b a = m a := by
  unfold takeBlock clearBlock
  rw [ospfsBlock_of_lt hlt, fill_outside (by omega)]
  exact bitvectorClear_outside hmap

theorem takeBlock_cleared (hlt : b < 4194304) : ZeroBlock (takeBlock m b) b := by
  intro a ha
  unfold takeBlock clearBlock
  rw [ospfsBlock_of_lt hlt, fill_inside (by omega)]

theorem isFree_takeBlock_of (hlt : b < 4194304) {c : Nat}
    (hc : freemap + 4 * (c / 32) + 4 ≤ 1024 * b) :
    isFree (takeBlock m b) c = (decide (c ≠ b) && isFree m c) := by
  have hbit : isFree (bitvectorClear m freemap b) c = (decide (c ≠ b) && isFree m c) :=
    bitvectorTest_clear m freemap b c
  rw [← hbit]
  apply bitvectorTest_congr
  intro k hk
  unfold takeBlock clearBlock
  rw [ospfsBlock_of_lt hlt, fill_outside (by omega)]

include hb

theorem takeBlock_outside (hmap : a < 2048 ∨ 3072 ≤ a) (ha : a / 1024 ≠ b) :
    takeBlock m b a = m a := by
  have hn := g.nblocks_le
  obtain ⟨_, h2, _⟩ := hb
  have hw := freemap_word (b := b) (by omega)
  apply takeBlock_apart (by omega) _ ha
  unfold freemap at *
  omega

theorem takeBlock_zero : ZeroBlock (takeBlock m b) b := by
  have hn := g.nblocks_le
  obtain ⟨_, h2, _⟩ := hb
  exact takeBlock_cleared (by omega)

theorem isFree_takeBlock (c : Nat) (hc : c < 8192) :
    isFree (takeBlock m b) c = (decide (c ≠ b) && isFree m c) := by
  have hn := g.nblocks_le
  have hge := g.dataStart_ge
  obtain ⟨h1, h2, _⟩ := hb
  have hw := freemap_word hc
  exact isFree_takeBlock_of (by omega) (by omega)

include hs

theorem own_takeBlock : own g (takeBlock m b) = own g m := by
  have hge := g.dataStart_ge
  apply own_congr hs.owns (inUse_dataBlocks g m)
  · intro i k hi _
    have hr := g.inode_region hi
    exact takeBlock_outside hb (by omega) (by have := hb.1; omega)
  · intro x a _ h0 ha
    have hbd := own_bounds hs.owns (inUse_dataBlocks g m) h0
    apply takeBlock_outside hb (by omega)
    rw [ha]
    exact hs.ne_fresh hb h0

variable (hx : HasBlocks g m x.1) (hxp : ∀ p, x.2.parent = some p → own g m (x.1, p) ≠ 0)

/-- A new block is cleared and its number stored in a slot. -/
def linkBlock (m : Bytes) (x : Nat × Slot) (b : Nat) : Bytes :=
  setCell (takeBlock m b) (inodeAddr x.1) x.2 b

include hx

omit hs in
theorem takeBlock_hasBlocks : HasBlocks g (takeBlock m b) x.1 := by
  have hge := g.dataStart_ge
  have hr := g.inode_region hx.1
  have hft : oiFtype (takeBlock m b) (inodeAddr x.1) = oiFtype m (inodeAddr x.1) :=
    rd32_congr fun k hk => takeBlock_outside hb (by omega) (by have := hb.1; omega)
  exact ⟨hx.1, by rw [hft]; exact hx.2⟩

include hxp

theorem own_linkBlock (y : Nat × Slot) :
    own g (linkBlock m x b) y =
      if y = x then b else if y.1 = x.1 ∧ y.2.Below x.2 then 0 else own g m y := by
  have hn := g.nblocks_le
  have howns : Owns (own g (takeBlock m b)) (InUse g m) := by
    rw [own_takeBlock hs hb]
    exact hs.owns
  have heq := own_setCell (y := y) howns (inUse_dataBlocks g m) (takeBlock_hasBlocks hb hx)
    (by rw [own_takeBlock hs hb]; exact hxp) (v := b) (by have := hb.2.1; omega)
    fun _ => ⟨hb.1, hb.2.1, fun hused => absurd (hused.2.2.symm.trans hb.2.2) (by simp),
      fun _ => takeBlock_zero hb⟩
  rw [own_takeBlock hs hb] at heq
  exact heq

omit hxp in
/-- Where the slot lies, as seen before the change. -/
theorem linkBlock_outside (hmap : a < 2048 ∨ 3072 ≤ a) (hab : a / 1024 ≠ b)
    (hcell : a < cell m (inodeAddr x.1) x.2 ∨ cell m (inodeAddr x.1) x.2 + 4 ≤ a) :
    linkBlock m x b a = m a := by
  have hcell' : cell (takeBlock m b) (inodeAddr x.1) x.2 = cell m (inodeAddr x.1) x.2 := by
    cases hp : x.2.parent with
    | none => rw [cell_root hp, cell_root hp]
    | some p =>
      have hh := takeBlock_hasBlocks hb hx
      rw [cell_child hp, cell_child hp, ← own_of hh.1 hh.2 p, ← own_of hx.1 hx.2 p,
        own_takeBlock hs hb]
  have hw : linkBlock m x b a = takeBlock m b a := wr32_outside (by rw [hcell']; exact hcell)
  rw [hw, takeBlock_outside hb hmap hab]

theorem isFree_linkBlock {c : Nat} (hc : c < 8192) :
    isFree (linkBlock m x b) c = (decide (c ≠ b) && isFree m c) := by
  have hge := g.dataStart_ge
  have hr := g.inode_region hx.1
  rw [← isFree_takeBlock hb c hc]
  apply isFree_congr hc
  intro a h1 h2
  apply wr32_outside
  have howns : Owns (own g (takeBlock m b)) (InUse g m) := by
    rw [own_takeBlock hs hb]
    exact hs.owns
  rcases cell_region howns (inUse_dataBlocks g m) (takeBlock_hasBlocks hb hx)
    (by rw [own_takeBlock hs hb]; exact hxp) with ⟨_, h3, h4⟩ | ⟨p, _, h3, _, h5⟩ <;> omega

theorem linkBlock_change : Change g x.1 m (linkBlock m x b) := by
  have hge := g.dataStart_ge
  have hr := g.inode_region hx.1
  have hn := g.nblocks_le
  have hdata := inUse_dataBlocks g m
  have hregion := cell_region hs.owns hdata hx hxp
  constructor
  · apply hs.of_parts
    · intro a ha
      apply linkBlock_outside hs hb hx (by omega) (by have := hb.1; omega)
      rcases hregion with ⟨_, h1, h2⟩ | ⟨p, _, h1, h2, h3⟩ <;> omega
    · intro c hc
      have := g.room
      rw [isFree_linkBlock hs hb hx hxp (by unfold Geometry.dataStart at *; omega),
        hs.reserved c hc, Bool.and_false]
    · have hnew : isFree (linkBlock m x b) b = false := by
        rw [isFree_linkBlock hs hb hx hxp (by have := hb.2.1; omega)]
        simp
      apply hs.owns.acquire (b := b) (c := x)
      · exact fun hused => absurd (hused.2.2.symm.trans hb.2.2) (by simp)
      · intro y
        rw [own_linkBlock hs hb hx hxp]
        by_cases hy : y = x
        · right; right
          exact ⟨hy, if_pos hy⟩
        · rw [if_neg hy]
          split
          · exact .inl rfl
          · exact .inr (.inl rfl)
      · rintro c (⟨h1, h2, h3⟩ | rfl)
        · refine ⟨h1, h2, ?_⟩
          rw [isFree_linkBlock hs hb hx hxp (by omega), h3, Bool.and_false]
        · exact ⟨hb.1, hb.2.1, hnew⟩
  · intro y hy
    rw [own_linkBlock hs hb hx hxp, if_neg (fun hyx => hy (by rw [hyx])), if_neg (fun hc => hy hc.1)]
  · intro a h1 h2 h3
    apply linkBlock_outside hs hb hx h1
    · intro hab
      obtain ⟨y, _, h0, hay⟩ := h3 (by have := hb.1; omega)
      exact hs.ne_fresh hb h0 (hay.symm.trans hab)
    · rcases hregion with ⟨_, h4, h5⟩ | ⟨p, hp, h4, h5, h6⟩
      · omega
      · by_contra hcon
        obtain ⟨y, hy, h0, hay⟩ := h3 (by omega)
        have heq := hs.owns.inj h0 (y := (x.1, p)) (by omega)
        exact hy (by rw [heq])

/-- Blocks that hold data keep their contents. -/
theorem linkBlock_data {y : Nat × Slot} (hy : y.2.isIndex = false) (h0 : own g m y ≠ 0)
    (ha : a / 1024 = own g m y) : linkBlock m x b a = m a := by
  have hge := g.dataStart_ge
  have hr := g.inode_region hx.1
  have hbd := own_bounds hs.owns (inUse_dataBlocks g m) h0
  apply linkBlock_outside hs hb hx (by omega)
  · rw [ha]
    exact hs.ne_fresh hb h0
  · rcases cell_region hs.owns (inUse_dataBlocks g m) hx hxp with ⟨_, h4, h5⟩ | ⟨p, hp, h4, h5, h6⟩
    · omega
    · by_contra hcon
      have heq := hs.owns.inj h0 (y := (x.1, p)) (by omega)
      rw [heq] at hy
      rw [Slot.isIndex_parent hp] at hy
      exact absurd hy (by simp)

theorem linkBlock_zero : ZeroBlock (linkBlock m x b) b := by
  intro a ha
  rw [← takeBlock_zero hb a ha]
  apply wr32_outside
  have hge := g.dataStart_ge
  have hr := g.inode_region hx.1
  have h1 := hb.1
  have howns : Owns (own g (takeBlock m b)) (InUse g m) := by
    rw [own_takeBlock hs hb]
    exact hs.owns
  rcases cell_region howns (inUse_dataBlocks g m) (takeBlock_hasBlocks hb hx)
    (by rw [own_takeBlock hs hb]; exact hxp) with ⟨_, h4, h5⟩ | ⟨p, hp, h4, h5, h6⟩
  · omega
  · have hne := hs.ne_fresh hb (hxp p hp)
    rw [← own_takeBlock hs hb] at hne
    omega

end Link

section Drop
variable (hs : Sound g m) (hx : HasBlocks g m x.1)
variable (hxp : ∀ p, x.2.parent = some p → own g m (x.1, p) ≠ 0)

/-- The block of a slot is given back and the slot cleared. -/
def dropBlock (m : Bytes) (x : Nat × Slot) (b : Nat) : Bytes :=
  setCell (freeBlock m b) (inodeAddr x.1) x.2 0

include hs

theorem own_lt_nblocks (x : Nat × Slot) : own g m x < g.nblocks := by
  by_cases h0 : own g m x = 0
  · have := g.room
    omega
  · exact (own_bounds hs.owns (inUse_dataBlocks g m) h0).2.1

theorem own_freeBlock (hb : b < g.nblocks) : own g (freeBlock m b) = own g m := by
  have hge := g.dataStart_ge
  apply own_congr hs.owns (inUse_dataBlocks g m)
  · intro i k hi _
    have hr := g.inode_region hi
    exact hs.freeBlock_outside hb (by omega)
  · intro x a _ h0 ha
    have hbd := own_bounds hs.owns (inUse_dataBlocks g m) h0
    exact hs.freeBlock_outside hb (by omega)

include hx

theorem freeBlock_hasBlocks (hb : b < g.nblocks) : HasBlocks g (freeBlock m b) x.1 := by
  have hr := g.inode_region hx.1
  have hft : oiFtype (freeBlock m b) (inodeAddr x.1) = oiFtype m (inodeAddr x.1) :=
    rd32_congr fun k hk => hs.freeBlock_outside hb (by omega)
  exact ⟨hx.1, by rw [hft]; exact hx.2⟩

theorem dropBlock_outside (hb : b < g.nblocks) (hmap : a < 2048 ∨ 3072 ≤ a)
    (hcell : a < cell m (inodeAddr x.1) x.2 ∨ cell m (inodeAddr x.1) x.2 + 4 ≤ a) :
    dropBlock m x b a = m a := by
  have hcell' : cell (freeBlock m b) (inodeAddr x.1) x.2 = cell m (inodeAddr x.1) x.2 := by
    cases hp : x.2.parent with
    | none => rw [cell_root hp, cell_root hp]
    | some p =>
      have hh := freeBlock_hasBlocks hs hx hb
      rw [cell_child hp, cell_child hp, ← own_of hh.1 hh.2 p, ← own_of hx.1 hx.2 p,
        own_freeBlock hs hb]
  have hw : dropBlock m x b a = freeBlock m b a := wr32_outside (by rw [hcell']; exact hcell)
  rw [hw, hs.freeBlock_outside hb hmap]

include hxp

theorem own_dropBlock (hb : b < g.nblocks) (y : Nat × Slot) :
    own g (dropBlock m x b) y =
      if y = x then 0 else if y.1 = x.1 ∧ y.2.Below x.2 then 0 else own g m y := by
  have howns : Owns (own g (freeBlock m b)) (InUse g m) := by
    rw [own_freeBlock hs hb]
    exact hs.owns
  have heq := own_setCell (y := y) howns (inUse_dataBlocks g m) (freeBlock_hasBlocks hs hx hb)
    (by rw [own_freeBlock hs hb]; exact hxp) (v := 0) (by omega) fun hne => absurd rfl hne
  rw [own_freeBlock hs hb] at heq
  exact heq

theorem isFree_dropBlock (hb : b < g.nblocks) {c : Nat} (hc : c < 8192) :
    isFree (dropBlock m x b) c = isFree (freeBlock m b) c := by
  have hge := g.dataStart_ge
  have hr := g.inode_region hx.1
  apply isFree_congr hc
  intro a h1 h2
  apply wr32_outside
  have howns : Owns (own g (freeBlock m b)) (InUse g m) := by
    rw [own_freeBlock hs hb]
    exact hs.owns
  rcases cell_region howns (inUse_dataBlocks g m) (freeBlock_hasBlocks hs hx hb)
    (by rw [own_freeBlock hs hb]; exact hxp) with ⟨_, h3, h4⟩ | ⟨p, _, h3, _, h5⟩ <;> omega

theorem dropBlock_change (hb : own g m x = b) : Change g x.1 m (dropBlock m x b) := by
  have hge := g.dataStart_ge
  have hr := g.inode_region hx.1
  have hn := g.nblocks_le
  have hbn : b < g.nblocks := hb ▸ own_lt_nblocks hs x
  have hregion := cell_region hs.owns (inUse_dataBlocks g m) hx hxp
  constructor
  · apply hs.of_parts
    · intro a ha
      apply dropBlock_outside hs hx hbn (by omega)
      rcases hregion with ⟨_, h1, h2⟩ | ⟨p, _, h1, h2, h3⟩ <;> omega
    · intro c hc
      have hroom := g.room
      rw [isFree_dropBlock hs hx hxp hbn (by unfold Geometry.dataStart at *; omega)]
      by_contra hfree
      rcases hs.isFree_freeBlock (Bool.eq_true_of_not_eq_false hfree) with h1 | ⟨h1, h2⟩
      · rw [hs.reserved c hc] at h1
        exact absurd h1 (by simp)
      · omega
    · apply hs.owns.release (c := x)
      · rw [own_dropBlock hs hx hxp hbn, if_pos rfl]
      · intro y
        rw [own_dropBlock hs hx hxp hbn]
        split
        · exact .inl rfl
        · split
          · exact .inl rfl
          · exact .inr rfl
      · rintro c ⟨h1, h2, h3⟩ hne
        refine ⟨h1, h2, ?_⟩
        rw [isFree_dropBlock hs hx hxp hbn (by omega)]
        by_contra hfree
        rcases hs.isFree_freeBlock (Bool.eq_true_of_not_eq_false hfree) with h4 | ⟨h4, _⟩
        · rw [h3] at h4
          exact absurd h4 (by simp)
        · exact hne (h4.trans hb.symm)
  · intro y hy
    rw [own_dropBlock hs hx hxp hbn, if_neg (fun hyx => hy (by rw [hyx])),
      if_neg (fun hc => hy hc.1)]
  · intro a h1 h2 h3
    apply dropBlock_outside hs hx hbn h1
    rcases hregion with ⟨_, h4, h5⟩ | ⟨p, hp, h4, h5, h6⟩
    · omega
    · by_contra hcon
      obtain ⟨y, hy, h0, hay⟩ := h3 (by omega)
      have heq := hs.owns.inj h0 (y := (x.1, p)) (by omega)
      exact hy (by rw [heq])

theorem dropBlock_data (hb : b < g.nblocks) {y : Nat × Slot} (hy : y.2.isIndex = false)
    (h0 : own g m y ≠ 0) (ha : a / 1024 = own g m y) : dropBlock m x b a = m a := by
  have hge := g.dataStart_ge
  have hr := g.inode_region hx.1
  have hbd := own_bounds hs.owns (inUse_dataBlocks g m) h0
  apply dropBlock_outside hs hx hb (by omega)
  rcases cell_region hs.owns (inUse_dataBlocks g m) hx hxp with ⟨_, h4, h5⟩ | ⟨p, hp, h4, h5, h6⟩
  · omega
  · by_contra hcon
    have heq := hs.owns.inj h0 (y := (x.1, p)) (by omega)
    rw [heq, Slot.isIndex_parent hp] at hy
    exact absurd hy (by simp)

end Drop

section Fields

/-- A word of an inode other than its type and its pointers. -/
theorem own_setField (hs : Sound g m) (hi : i < g.ninodes) {k : Nat} (hk : k = 0 ∨ k = 8 ∨ k = 12)
    (v : Nat) : own g (wr32 m (inodeAddr i + k) v) = own g m := by
  have hr := g.inode_region hi
  apply own_congr hs.owns (inUse_dataBlocks g m)
  · intro j l _ hl
    apply wr32_outside
    unfold inodeAddr
    omega
  · intro x a _ h0 ha
    have hbd := own_bounds hs.owns (inUse_dataBlocks g m) h0
    exact wr32_outside (by omega)

theorem Sound.setField (hs : Sound g m) (hi : i < g.ninodes) {k : Nat}
    (hk : k = 0 ∨ k = 8 ∨ k = 12) (v : Nat) : Sound g (wr32 m (inodeAddr i + k) v) := by
  have hr := g.inode_region hi
  have hn := g.nblocks_le
  have hfree : ∀ c, c < 8192 → isFree (wr32 m (inodeAddr i + k) v) c = isFree m c := fun c hc =>
    isFree_congr hc fun a _ _ => wr32_outside (by omega)
  apply hs.of_parts
  · intro a ha
    exact wr32_outside (by omega)
  · intro c hc
    have := g.room
    rw [hfree c (by unfold Geometry.dataStart at *; omega), hs.reserved c hc]
  · rw [own_setField hs hi hk]
    apply hs.owns.mono
    rintro c ⟨h1, h2, h3⟩
    exact ⟨h1, h2, by rw [hfree c (by omega)]; exact h3⟩

theorem setSize_change (hs : Sound g m) (hi : i < g.ninodes) (v : Nat) :
    Change g i m (setSize m (inodeAddr i) v) := by
  constructor
  · exact hs.setField hi (k := 0) (.inl rfl) v
  · intro x _
    exact congrFun (own_setField hs hi (k := 0) (.inl rfl) v) x
  · intro a _ h2 _
    exact wr32_outside (by omega)

end Fields

end CS111.Ospfs
