import CS111.Ospfs.FormatTree

/-!
# The finished image

`main` from the empty disk to the last block. The result is a sound volume that holds a tree of
inodes, and its free map has the blocks from `nextb` on.
-/

namespace CS111.Ospfs

open Memory

set_option autoImplicit false

namespace Format

variable {g : Geometry} {m : Bytes} {f f' f₁ : Format} {i j k n b d : Nat}
variable {es : List (Name × Nat)} {A A' : Nodes} {name : Name} {md5 : List UInt8 → List UInt8}

section Start

/-- The geometry that the command line asks for. -/
theorem Arguments.geometry {args : Arguments} (h : args.accepted = true) :
    ∃ g : Geometry, g.nblocks = args.nblocks ∧ g.ninodes = args.ninodes := by
  unfold Arguments.accepted at h
  simp only [decide_eq_true_eq] at h
  exact ⟨⟨args.nblocks, args.ninodes, h.2.2.1, by omega, h.2.1⟩, rfl, rfl⟩

/-- The disk before the first inode is used. -/
def blankDisk : Bytes := fill (fun _ => 0) 2048 1024 255

theorem blankDisk_zero {a : Nat} (h : a < 2048 ∨ 3072 ≤ a) : blankDisk a = 0 := by
  unfold blankDisk
  rw [fill_outside (by omega)]

theorem clearBlocks {l : List Nat} (hl : ∀ i, i ∈ l → i < 8192) (hd : f.data = blankDisk)
    (hbit : f.nbitblock = 1)
    (hr : l.foldlM (fun f i => f.getblk (2 + f.nbitblock + i) true) f = some f') : f' = f := by
  induction l with
  | nil =>
    rw [List.foldlM_nil, Option.pure_def, Option.some.injEq] at hr
    exact hr.symm
  | cons i l ih =>
    rw [List.foldlM_cons, Option.bind_eq_bind, Option.bind_eq_some_iff] at hr
    obtain ⟨f₁, hget, hr⟩ := hr
    have hi := hl i List.mem_cons_self
    have hz : ZeroBlock f.data (2 + 1 + i) := fun a ha => by
      rw [hd]
      exact blankDisk_zero (by omega)
    have hsame : f₁ = f := by
      rw [hbit] at hget
      unfold getblk at hget
      split at hget
      · exact absurd hget (by simp)
      · simp only [if_true, Option.some.injEq] at hget
        rw [clearBlock_zero hz (by omega)] at hget
        exact hget.symm
    rw [hsame] at hr
    exact ih (fun j hj => hl j (List.mem_cons_of_mem _ hj)) hr

theorem opendisk_eq {linkContents : Bool} (g : Geometry)
    (hr : opendisk g.nblocks g.ninodes linkContents = some f) :
    f = ⟨g.nblocks, g.ninodes, linkContents, blankDisk, g.dataStart, 0, []⟩ := by
  have hn := g.nblocks_le
  have hroom := g.room
  have hbit : (g.nblocks + 8191) / 8192 = 1 := by omega
  unfold opendisk at hr
  simp only [nbitblock, hbit, List.range_one, List.foldlM_cons, List.foldlM_nil, Option.pure_def,
    Option.bind_eq_bind, Option.bind_eq_some_iff, Option.some.injEq] at hr
  obtain ⟨f₁, ⟨_, ⟨f₂, hget, rfl⟩, rfl⟩, f₃, hclear, rfl⟩ := hr
  obtain ⟨rfl, _⟩ := getblk_false hget
  have hsmall : ∀ i, i ∈ List.range ((g.ninodes + 15) / 16) → i < 8192 := fun i hi => by
    have := List.mem_range.mp hi
    omega
  have hsame := clearBlocks (f := ⟨g.nblocks, g.ninodes, linkContents, blankDisk, 0, 0, []⟩)
    hsmall rfl hbit hclear
  rw [hsame]
  unfold Geometry.dataStart
  simp only [hbit]

/-- The state after `opendisk`. -/
def opened (g : Geometry) (linkContents : Bool) : Format :=
  ⟨g.nblocks, g.ninodes, linkContents, blankDisk, g.dataStart, 0, []⟩

theorem opened_forming (linkContents : Bool) : Forming g [] (opened g linkContents) := by
  have hge := g.dataStart_ge
  have hroom := g.room
  have hdata : ∀ i k, i < g.ninodes → k < 64 → blankDisk (inodeAddr i + k) = 0 := fun i k hi _ => by
    have hr := g.inode_region hi
    exact blankDisk_zero (by omega)
  have hown : ∀ x, own g blankDisk x = 0 := by
    rintro ⟨i, s⟩
    by_cases hi : i < g.ninodes
    · exact own_zero (fun k _ hk => hdata i k hi hk) s
    · unfold own
      rw [if_neg fun hc => hi hc.1]
  constructor
  · rfl
  · rfl
  · exact Nat.le_refl _
  · exact hroom
  · exact Nat.zero_le _
  · intro a ha
    exact blankDisk_zero (.inl ha)
  · intro a h1 h2
    exact if_pos ⟨h1, h2⟩
  · intro i k _ hi hk
    exact hdata i k hi hk
  · intro a ha
    have hnext : g.dataStart ≤ a / 1024 := ha
    exact blankDisk_zero (by omega)
  · exact Owns.none_held hown
  · rintro b ⟨⟨h1, h2⟩, _⟩
    exact absurd h1 (Nat.not_le_of_lt h2)
  · intro b hb
    exact absurd hb (by simp)

/-- The inode that is taken out of use. -/
theorem unused_born (h : Forming g [] f) (hlt : f.nextinode < g.ninodes) :
    Born g f.hardlinks (.file []) f { f with
      nextinode := f.nextinode + 1, data := setNlink f.data (inodeAddr f.nextinode) 1 } := by
  have hz : ∀ k, k < 64 → f.data (inodeAddr f.nextinode + k) = 0 := fun k hk =>
    h.unborn _ k (Nat.le_refl _) hlt hk
  have hin : ∀ a, a < inodeAddr f.nextinode + 8 ∨ inodeAddr f.nextinode + 12 ≤ a →
      setNlink f.data (inodeAddr f.nextinode) 1 a = f.data a := fun a ha => wr32_outside (by omega)
  apply born_of_fields h hlt
  · intro a ha
    exact hin a (by omega)
  · intro hfilled
    refine ⟨?_, ?_, ?_⟩
    · apply rd32_eq_zero
      intro k hk
      rw [Nat.add_assoc, hin _ (by omega), hz _ (by omega)]
    · apply rd32_eq_zero
      intro k hk
      rw [hin _ (by omega), hz _ (by omega)]
    · constructor
      · exact hfilled
      · exact Nat.zero_le _
      · intro x hx
        exact absurd hx (Nat.not_lt_zero x)
  · exact rd32_wr32_of_lt _ _ (by decide)

/-- The inode of the root directory; its size is not stored. -/
theorem root_born (h : Forming g [] f) (hlt : f.nextinode < g.ninodes) :
    Born g f.hardlinks (.dir []) f { f with
      nextinode := f.nextinode + 1
      data := setMode (setNlink (setFtype f.data (inodeAddr f.nextinode) FTYPE_DIR)
        (inodeAddr f.nextinode) 1) (inodeAddr f.nextinode) 511 } := by
  have hsize : setSize (setFtype f.data (inodeAddr f.nextinode) FTYPE_DIR) (inodeAddr f.nextinode) 0 =
      setFtype f.data (inodeAddr f.nextinode) FTYPE_DIR := by
    apply wr32_zero
    intro k hk
    refine (wr32_outside (by omega)).trans ?_
    exact h.unborn _ k (Nat.le_refl _) hlt (by omega)
  have hdir : Born g f.hardlinks _ _ _ := dir_born h hlt 511
  unfold startDir at hdir
  rw [hsize] at hdir
  exact hdir

theorem startNodes_wellFormed : Nodes.WellFormed [.file [], .dir []] := by
  have empty : ∀ n, n ∈ [Node.file [], Node.dir []] → n.entries = [] := by
    intro n hn
    rcases List.mem_pair.mp hn with rfl | rfl
    · rfl
    · rfl
  constructor
  · exact Nat.le_refl 2
  · intro n hn e he
    rw [empty n hn] at he
    exact absurd he (by simp)
  · intro n hn e he
    rw [empty n hn] at he
    exact absurd he (by simp)

/-- Inode 0 is out of use, and inode 1 is an empty directory. -/
theorem makeRoot_built {linkContents : Bool}
    (hr : (opened g linkContents).makeRoot = some (f, n)) :
    Built g [.file [], .dir []] f ∧ n = inodeAddr 1 ∧ f.linkContents = linkContents := by
  have h := opened_forming (g := g) linkContents
  unfold makeRoot at hr
  simp only [Option.bind_eq_bind, Option.bind_eq_some_iff, Option.some.injEq, Prod.mk.injEq] at hr
  obtain ⟨⟨f₁, i₁, o₁⟩, halloc, ⟨f₂, i₂, o₂⟩, halloc₂, rfl, rfl⟩ := hr
  obtain ⟨hlt, rfl, rfl, rfl⟩ := allocinode_eq h.nblocks h.ninodes h.nextinode_le halloc
  have hzero := unused_born h hlt
  obtain ⟨hlt₂, rfl, rfl, rfl⟩ := allocinode_eq hzero.forming.nblocks hzero.forming.ninodes
    hzero.forming.nextinode_le halloc₂
  have hroot := root_born hzero.forming hlt₂
  have h2 := g.two_le_ninodes
  refine ⟨?_, rfl, rfl⟩
  constructor
  · exact hroot.forming
  · rfl
  · exact startNodes_wellFormed
  · intro i nd hi
    match i with
    | 0 =>
      obtain rfl : Node.file [] = nd := Option.some.inj hi
      exact (hroot.same 0 (by omega) Nat.zero_ne_one).isNode hzero.node
    | 1 =>
      obtain rfl : Node.dir [] = nd := Option.some.inj hi
      exact hroot.node
    | i + 2 => exact absurd hi (by simp)
  · intro i hi
    match i with
    | 0 => exact (hroot.nlinks 0 (by omega) Nat.zero_ne_one).trans hzero.nlink
    | 1 => exact hroot.nlink
    | i + 2 => exact absurd hi (by simp)
  · exact Nat.le_refl _
  · intro c hc
    exact absurd hc (by simp [opened])

end Start

section Finish

/-- Clearing bits changes the free map alone. -/
theorem clearBits (l : List Nat) (hl : ∀ i, i ∈ l → i < 8192) :
    ∃ m, l.foldl clearBit f = { f with data := m } ∧
      (∀ a, a < 2048 ∨ 3072 ≤ a → m a = f.data a) ∧
      ∀ b, isFree m b = (decide (b ∉ l) && isFree f.data b) := by
  induction l generalizing f with
  | nil =>
    refine ⟨f.data, rfl, ?_, ?_⟩
    · intro a _
      rfl
    · intro b
      simp
  | cons i l ih =>
    obtain ⟨m, heq, hout, hbit⟩ := ih (f := f.clearBit i) fun j hj =>
      hl j (List.mem_cons_of_mem _ hj)
    have hi := freemap_word (hl i List.mem_cons_self)
    refine ⟨m, ?_, ?_, ?_⟩
    · rw [List.foldl_cons, heq]
      rfl
    · intro a ha
      rw [hout a ha]
      apply bitvectorClear_outside
      unfold freemap at *
      omega
    · intro b
      have hclear : isFree (f.clearBit i).data b = (decide (b ≠ i) && isFree f.data b) :=
        bitvectorTest_clear f.data freemap i b
      rw [hbit, hclear]
      by_cases hbi : b = i <;> by_cases hbl : b ∈ l <;> simp [hbi, hbl]

/-- A bitmap of ones. -/
theorem isFree_ones (h : ∀ a, 2048 ≤ a → a < 3072 → m a = 255) (hb : b < 8192) :
    isFree m b = true := by
  have hw := freemap_word hb
  have hword : rd32 m (freemap + 4 * (b / 32)) = 2 ^ 32 - 1 := by
    have byte : ∀ k, k < 4 → m (freemap + 4 * (b / 32) + k) = 255 := fun k hk =>
      h _ (by unfold freemap; omega) (by omega)
    have h0 := byte 0 (by omega)
    rw [Nat.add_zero] at h0
    unfold rd32
    rw [h0, byte 1 (by omega), byte 2 (by omega), byte 3 (by omega)]
    rfl
  unfold isFree
  rw [bitvectorTest_eq, hword, Nat.testBit_two_pow_sub_one, decide_eq_true_eq]
  exact Nat.mod_lt _ (by decide)

/-- What `finishfs` leaves: the superblock, the free map, and the rest as it was. -/
structure Finished (g : Geometry) (f f' : Format) : Prop where
  nblocks : f'.nblocks = f.nblocks
  nextb : f'.nextb = f.nextb
  nextinode : f'.nextinode = f.nextinode
  osNblocks : CS111.Ospfs.osNblocks f'.data = g.nblocks
  osNinodes : CS111.Ospfs.osNinodes f'.data = g.ninodes
  osFirstinob : CS111.Ospfs.osFirstinob f'.data = 3
  boot : ∀ a, a < 1024 → f'.data a = 0
  free : ∀ b, b < 8192 → (isFree f'.data b = true ↔ f.nextb ≤ b ∧ b < g.nblocks)
  rest : ∀ a, 3072 ≤ a → f'.data a = f.data a

/-- The two loops over the free map. -/
theorem clearUsed (h : Forming g [] f) :
    ∃ m, (if ((List.range f.nextb).foldl clearBit f).nblocks ≠
          ((List.range f.nextb).foldl clearBit f).nbitblock * 8192 then
        ((List.range 8192).filter
          (((List.range f.nextb).foldl clearBit f).nblocks % 8192 ≤ ·)).foldl clearBit
          ((List.range f.nextb).foldl clearBit f)
      else (List.range f.nextb).foldl clearBit f) = { f with data := m } ∧
      (∀ a, a < 2048 ∨ 3072 ≤ a → m a = f.data a) ∧
      ∀ b, b < 8192 → (isFree m b = true ↔ f.nextb ≤ b ∧ b < g.nblocks) := by
  have hn := g.nblocks_le
  have hroom := g.room
  have hnext := h.nextb_le
  obtain ⟨m, hm, hout, hfree⟩ := clearBits (f := f) (List.range f.nextb) fun i hi => by
    have := List.mem_range.mp hi
    omega
  generalize hF : (List.range f.nextb).foldl clearBit f = F at *
  have hnb : F.nblocks = g.nblocks := by
    rw [hm]
    exact h.nblocks
  have hbit : F.nbitblock = 1 := by
    unfold nbitblock
    omega
  have hdata : F.data = m := by rw [hm]
  have hused : ∀ b, b < 8192 → (isFree m b = true ↔ f.nextb ≤ b) := by
    intro b hb
    rw [hfree, isFree_ones h.bitmap hb, Bool.and_true, decide_eq_true_eq, List.mem_range]
    omega
  rw [hbit, hnb]
  by_cases hfull : g.nblocks = 8192
  · rw [if_neg (by omega)]
    refine ⟨m, hm, hout, ?_⟩
    intro b hb
    rw [hused b hb]
    omega
  · rw [if_pos (by omega)]
    obtain ⟨m₂, hm₂, hout₂, hfree₂⟩ := clearBits (f := F)
      ((List.range 8192).filter (g.nblocks % 8192 ≤ ·)) fun i hi =>
        List.mem_range.mp (List.mem_filter.mp hi).1
    refine ⟨m₂, ?_, ?_, ?_⟩
    · rw [hm₂, hm]
    · intro a ha
      rw [hout₂ a ha, hdata, hout a ha]
    · intro b hb
      rw [hfree₂, Bool.and_eq_true, decide_eq_true_eq, hdata, hused b hb, List.mem_filter,
        List.mem_range, decide_eq_true_eq, Nat.mod_eq_of_lt (by omega)]
      omega

theorem finishfs_finished (h : Forming g [] f) (hr : f.finishfs = some f') : Finished g f f' := by
  have hn := g.nblocks_le
  have hroom := g.room
  obtain ⟨m, hm, hout, hfree⟩ := clearUsed h
  unfold finishfs at hr
  simp only [hm, Option.bind_eq_bind, Option.bind_eq_some_iff, Option.some.injEq] at hr
  obtain ⟨f₁, hget, rfl⟩ := hr
  have hf₁ : f₁ = { f with data := clearBlock m 1 } := by
    unfold getblk at hget
    split at hget
    · exact absurd hget (by simp)
    · simp only [if_true, Option.some.injEq] at hget
      exact hget.symm
  have hfirst : firstinob f₁ = 3 := by
    rw [hf₁]
    unfold firstinob nbitblock
    simp only [h.nblocks]
    omega
  have hclear : ∀ a, a < 1024 ∨ 2048 ≤ a → clearBlock m 1 a = m a := fun a ha => by
    unfold clearBlock
    rw [ospfsBlock_of_lt (by omega), fill_outside (by omega)]
  have hbytes : ∀ a, a < 1024 ∨ 1040 ≤ a →
      wr32 (wr32 (wr32 (wr32 f₁.data 1024 OSPFS_MAGIC) 1028 f₁.nblocks) 1032 f₁.ninodes) 1036
        (firstinob f₁) a = clearBlock m 1 a := fun a ha => by
    rw [wr32_outside (by omega), wr32_outside (by omega), wr32_outside (by omega),
      wr32_outside (by omega), hf₁]
  constructor
  · rw [hf₁]
  · rw [hf₁]
  · rw [hf₁]
  · unfold CS111.Ospfs.osNblocks
    rw [rd32_wr32_ne (by omega), rd32_wr32_ne (by omega), hf₁, h.nblocks]
    exact rd32_wr32_of_lt _ _ (by omega)
  · unfold CS111.Ospfs.osNinodes
    rw [rd32_wr32_ne (by omega), hf₁, h.ninodes]
    exact rd32_wr32_of_lt _ _ (by omega)
  · unfold CS111.Ospfs.osFirstinob
    rw [hfirst]
    exact rd32_wr32_of_lt _ _ (by decide)
  · intro a ha
    refine (hbytes a (.inl ha)).trans ?_
    rw [hclear a (.inl ha), hout a (by omega), h.low a (by omega)]
  · intro b hb
    have hsame : isFree (wr32 (wr32 (wr32 (wr32 f₁.data 1024 OSPFS_MAGIC) 1028 f₁.nblocks) 1032
        f₁.ninodes) 1036 (firstinob f₁)) b = isFree m b := by
      apply isFree_congr hb
      intro a h1 h2
      rw [hbytes a (by omega), hclear a (.inr h1)]
    rw [hsame]
    exact hfree b hb
  · intro a ha
    refine (hbytes a (by omega)).trans ?_
    rw [hclear a (by omega), hout a (.inr ha)]

end Finish

end Format

end CS111.Ospfs
