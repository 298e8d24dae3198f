import CS111.Ospfs.Format
import CS111.Ospfs.Frames

/-!
# The block map while the formatter runs

`Forming` is the invariant of the formatter: the blocks handed out by `nextb++` are the blocks that
the inodes point to, apart from those in `pending`, which are about to be stored.
-/

namespace CS111.Ospfs

open Memory

set_option autoImplicit false

variable {g : Geometry} {m m' m'' : Bytes} {f f' f'' : Format} {i j n b v : Nat} {s t : Slot}
variable {pending : List Nat}

namespace Format

/-- The blocks given out so far. -/
def Taken (g : Geometry) (f : Format) (b : Nat) : Prop := g.dataStart ≤ b ∧ b < f.nextb

def Stored (g : Geometry) (pending : List Nat) (f : Format) (b : Nat) : Prop :=
  Taken g f b ∧ b ∉ pending

structure Forming (g : Geometry) (pending : List Nat) (f : Format) : Prop where
  nblocks : f.nblocks = g.nblocks
  ninodes : f.ninodes = g.ninodes
  nextb_ge : g.dataStart ≤ f.nextb
  nextb_le : f.nextb ≤ g.nblocks
  nextinode_le : f.nextinode ≤ g.ninodes
  low : ∀ a, a < 2048 → f.data a = 0
  bitmap : ∀ a, 2048 ≤ a → a < 3072 → f.data a = 255
  unborn : ∀ i k, f.nextinode ≤ i → i < g.ninodes → k < 64 → f.data (inodeAddr i + k) = 0
  unused : ∀ a, f.nextb ≤ a / 1024 → f.data a = 0
  owns : Owns (own g f.data) (Stored g pending f)
  covered : ∀ b, Stored g pending f b → ∃ x, own g f.data x = b
  held : ∀ b, b ∈ pending → Taken g f b

theorem Forming.dataBlocks (h : Forming g pending f) : DataBlocks g (Stored g pending f) := by
  rintro b ⟨⟨h1, h2⟩, _⟩
  have := h.nextb_le
  exact ⟨h1, by omega⟩

/-- A block that inodes point to. -/
theorem Forming.own_taken (h : Forming g pending f) {x : Nat × Slot} (h0 : own g f.data x ≠ 0) :
    g.dataStart ≤ own g f.data x ∧ own g f.data x < f.nextb ∧ own g f.data x < 8192 := by
  obtain ⟨⟨h1, h2⟩, _⟩ := h.owns.used_of_ne h0
  have h3 := h.nextb_le
  have h4 := g.nblocks_le
  omega

theorem Forming.own_small (h : Forming g pending f) (x : Nat × Slot) :
    own g f.data x < 4194304 := CS111.Ospfs.own_small h.owns h.dataBlocks x

/-- A change that leaves the low blocks, the pointers and the index blocks alone. -/
theorem Forming.congr (h : Forming g pending f) (hlow : ∀ a, a < 3072 → m' a = f.data a)
    (hunborn : ∀ i k, f.nextinode ≤ i → i < g.ninodes → k < 64 →
      m' (inodeAddr i + k) = f.data (inodeAddr i + k))
    (hunused : ∀ a, f.nextb ≤ a / 1024 → m' a = f.data a) (hown : own g m' = own g f.data) :
    Forming g pending { f with data := m' } := by
  constructor
  · exact h.nblocks
  · exact h.ninodes
  · exact h.nextb_ge
  · exact h.nextb_le
  · exact h.nextinode_le
  · intro a ha
    exact (hlow a (by omega)).trans (h.low a ha)
  · intro a h1 h2
    exact (hlow a h2).trans (h.bitmap a h1 h2)
  · intro i k h1 h2 h3
    exact (hunborn i k h1 h2 h3).trans (h.unborn i k h1 h2 h3)
  · intro a ha
    exact (hunused a ha).trans (h.unused a ha)
  · have howns := h.owns
    rw [← hown] at howns
    exact howns
  · intro b hb
    obtain ⟨x, hx⟩ := h.covered b hb
    exact ⟨x, by rw [← hx]; exact congrFun hown x⟩
  · exact h.held

section Getblk

theorem getblk_false (h : f.getblk b false = some f') : f' = f ∧ b < f.nblocks := by
  unfold getblk at h
  split at h
  · exact absurd h (by simp)
  · rename_i hlt
    simp only [Bool.false_eq_true, if_false, Option.some.injEq] at h
    exact ⟨h.symm, by omega⟩

theorem clearBlock_zero (hz : ZeroBlock m b) (hb : b < 4194304) : clearBlock m b = m := by
  funext a
  unfold clearBlock
  rw [ospfsBlock_of_lt hb]
  by_cases ha : a / 1024 = b
  · rw [fill_inside (by omega), hz a ha]
  · rw [fill_outside (by omega)]

theorem Forming.zero_nextb (h : Forming g pending f) : ZeroBlock f.data f.nextb := fun a ha =>
  h.unused a (by omega)

/-- The block at `nextb` is empty before it is cleared. -/
theorem Forming.getblk_nextb (h : Forming g pending f) (hg : f.getblk f.nextb true = some f') :
    f' = f ∧ f.nextb < g.nblocks := by
  have hn := g.nblocks_le
  unfold getblk at hg
  split at hg
  · exact absurd hg (by simp)
  · rename_i hlt
    rw [h.nblocks] at hlt
    simp only [if_true, Option.some.injEq] at hg
    rw [clearBlock_zero h.zero_nextb (by omega)] at hg
    exact ⟨hg.symm, by omega⟩

/-- Block `nextb` becomes pending. -/
theorem Forming.take (h : Forming g pending f) (hlt : f.nextb < g.nblocks) :
    Forming g (f.nextb :: pending) { f with nextb := f.nextb + 1 } := by
  have stored : ∀ b, Stored g (f.nextb :: pending) { f with nextb := f.nextb + 1 } b ↔
      Stored g pending f b := by
    intro b
    simp only [Stored, Taken, List.mem_cons, not_or]
    constructor
    · rintro ⟨⟨h1, h2⟩, h3, h4⟩
      exact ⟨⟨h1, by omega⟩, h4⟩
    · rintro ⟨⟨h1, h2⟩, h3⟩
      exact ⟨⟨h1, by omega⟩, by omega, h3⟩
  constructor
  · exact h.nblocks
  · exact h.ninodes
  · exact Nat.le_succ_of_le h.nextb_ge
  · exact hlt
  · exact h.nextinode_le
  · exact h.low
  · exact h.bitmap
  · exact h.unborn
  · intro a ha
    exact h.unused a (Nat.le_of_succ_le ha)
  · exact h.owns.mono fun b hb => (stored b).mpr hb
  · intro b hb
    exact h.covered b ((stored b).mp hb)
  · intro b hb
    rcases List.mem_cons.mp hb with rfl | hb
    · exact ⟨h.nextb_ge, Nat.lt_succ_self _⟩
    · obtain ⟨h1, h2⟩ := h.held b hb
      exact ⟨h1, Nat.lt_succ_of_lt h2⟩

theorem Forming.newblk (h : Forming g pending f) (hr : f.newblk = some (f', b)) :
    f' = { f with nextb := f.nextb + 1 } ∧ b = f.nextb ∧ Forming g (b :: pending) f' := by
  unfold Format.newblk at hr
  simp only [Option.bind_eq_bind, Option.bind_eq_some_iff, Option.some.injEq, Prod.mk.injEq] at hr
  obtain ⟨f₁, hg, rfl, rfl⟩ := hr
  obtain ⟨rfl, hlt⟩ := h.getblk_nextb hg
  exact ⟨rfl, rfl, h.take hlt⟩

end Getblk

section Frames

/-- What a step that stores blocks of inode `i` leaves alone. -/
structure Within (g : Geometry) (i : Nat) (f f' : Format) : Prop where
  nextb : f.nextb ≤ f'.nextb
  nextinode : f'.nextinode = f.nextinode
  linkContents : f'.linkContents = f.linkContents
  hardlinks : f'.hardlinks = f.hardlinks
  nlinks : ∀ j, j < g.ninodes → oiNlink f'.data (inodeAddr j) = oiNlink f.data (inodeAddr j)
  same : ∀ j, j < g.ninodes → j ≠ i → Same g j f.data f'.data

theorem Within.refl : Within g i f f := by
  constructor
  · exact Nat.le_refl _
  · rfl
  · rfl
  · rfl
  · intro j _
    rfl
  · intro j _ _
    exact Same.refl

theorem Within.trans (h : Within g i f f') (h' : Within g i f' f'') : Within g i f f'' := by
  constructor
  · exact Nat.le_trans h.nextb h'.nextb
  · rw [h'.nextinode, h.nextinode]
  · rw [h'.linkContents, h.linkContents]
  · rw [h'.hardlinks, h.hardlinks]
  · intro j hj
    rw [h'.nlinks j hj, h.nlinks j hj]
  · intro j hj hne
    exact (h.same j hj hne).trans (h'.same j hj hne)

/-- As seen by inode `i`: its size and type, its data blocks and the pending blocks stay, and
pointers are only added. -/
structure Extends (g : Geometry) (i : Nat) (pending : List Nat) (f f' : Format) : Prop where
  within : Within g i f f'
  fields : ∀ k, k < 16 → f'.data (inodeAddr i + k) = f.data (inodeAddr i + k)
  kept : ∀ s, own g f.data (i, s) ≠ 0 → own g f'.data (i, s) = own g f.data (i, s)
  data : ∀ s a, s.isIndex = false → own g f.data (i, s) ≠ 0 → a / 1024 = own g f.data (i, s) →
    f'.data a = f.data a
  pending : ∀ c a, c ∈ pending → a / 1024 = c → f'.data a = f.data a

theorem Extends.refl : Extends g i pending f f := by
  constructor
  · exact Within.refl
  · intro k _
    rfl
  · intro s _
    rfl
  · intro s a _ _ _
    rfl
  · intro c a _ _
    rfl

theorem Extends.trans {pending' : List Nat} (h : Extends g i pending f f')
    (h' : Extends g i pending' f' f'') (hp : ∀ c, c ∈ pending → c ∈ pending') :
    Extends g i pending f f'' := by
  have kept' : ∀ s, own g f.data (i, s) ≠ 0 → own g f'.data (i, s) ≠ 0 := by
    intro s h0
    rw [h.kept s h0]
    exact h0
  constructor
  · exact h.within.trans h'.within
  · intro k hk
    rw [h'.fields k hk, h.fields k hk]
  · intro s h0
    rw [h'.kept s (kept' s h0), h.kept s h0]
  · intro s a hs h0 ha
    rw [h'.data s a hs (kept' s h0) (by rw [h.kept s h0]; exact ha), h.data s a hs h0 ha]
  · intro c a hc ha
    rw [h'.pending c a (hp c hc) ha, h.pending c a hc ha]

theorem Extends.hasBlocks (h : Extends g i pending f f') (hx : HasBlocks g f.data i) :
    HasBlocks g f'.data i := by
  have hft : oiFtype f'.data (inodeAddr i) = oiFtype f.data (inodeAddr i) := by
    apply rd32_congr
    intro k hk
    rw [Nat.add_assoc]
    exact h.fields _ (by omega)
  exact ⟨hx.1, by rw [hft]; exact hx.2⟩

theorem take_extends :
    Extends g i pending f { f with nextb := f.nextb + 1 } := by
  constructor
  · constructor
    · exact Nat.le_succ _
    · rfl
    · rfl
    · rfl
    · intro j _
      rfl
    · intro j _ _
      exact Same.refl
  · intro k _
    rfl
  · intro s _
    rfl
  · intro s a _ _ _
    rfl
  · intro c a _ _
    rfl

end Frames

section Attach
variable (h : Forming g (v :: pending) f) (hv : v ∉ pending)
variable (hx : HasBlocks g f.data i) (hborn : i < f.nextinode)
variable (hp : ∀ p, s.parent = some p → own g f.data (i, p) ≠ 0)
variable (h0 : own g f.data (i, s) = 0) (hz : s.isIndex = true → ZeroBlock f.data v)

/-- A pending block is stored in an empty slot. -/
def attach (f : Format) (i : Nat) (s : Slot) (v : Nat) : Format :=
  { f with data := setCell f.data (inodeAddr i) s v }

include h hx hp

theorem attach_region :
    (s.parent = none ∧ inodeAddr i + 16 ≤ cell f.data (inodeAddr i) s ∧
      cell f.data (inodeAddr i) s + 4 ≤ inodeAddr i + 64) ∨
    (∃ p, s.parent = some p ∧ own g f.data (i, p) = cell f.data (inodeAddr i) s / 1024 ∧
      cell f.data (inodeAddr i) s % 4 = 0 ∧ g.dataStart ≤ own g f.data (i, p)) :=
  cell_region (x := (i, s)) h.owns h.dataBlocks hx hp

/-- Where nothing changes. -/
theorem attach_outside {a : Nat} (h1 : a < inodeAddr i + 16 ∨ inodeAddr i + 64 ≤ a)
    (h2 : ∀ p, s.parent = some p → a / 1024 ≠ own g f.data (i, p)) :
    (attach f i s v).data a = f.data a := by
  apply wr32_outside
  rcases attach_region h hx hp with ⟨_, h3, h4⟩ | ⟨p, hsp, h3, h4, h5⟩
  · omega
  · have := h2 p hsp
    omega

theorem attach_block {c a : Nat} (hc : g.dataStart ≤ c) (ha : a / 1024 = c)
    (hne : ∀ p, s.parent = some p → c ≠ own g f.data (i, p)) :
    (attach f i s v).data a = f.data a := by
  have hr := g.inode_region hx.1
  apply attach_outside h hx hp
  · omega
  · intro p hsp
    rw [ha]
    exact hne p hsp

include h0 hz

theorem own_attach (y : Nat × Slot) :
    own g (attach f i s v).data y = if y = (i, s) then v else own g f.data y := by
  have hheld := h.held v List.mem_cons_self
  have hle := h.nextb_le
  have hn := g.nblocks_le
  have hset := own_setCell (y := y) (x := (i, s)) (v := v) h.owns h.dataBlocks hx hp
    (by have := hheld.2; omega) fun _ => by
      refine ⟨hheld.1, by have := hheld.2; omega, ?_, hz⟩
      rintro ⟨_, hnot⟩
      exact hnot List.mem_cons_self
  refine hset.trans ?_
  split
  · rfl
  · split
    · rename_i hbelow
      obtain ⟨j, t⟩ := y
      simp only at hbelow
      rw [hbelow.1]
      exact (own_below_zero hbelow.2 h0).symm
    · rfl

include hv hborn

theorem Forming.attach : Forming g pending (attach f i s v) := by
  have hown := own_attach h hx hp h0 hz
  have hheld := h.held v List.mem_cons_self
  have hge := g.dataStart_ge
  have hr := g.inode_region hx.1
  have hnotin : ∀ p, s.parent = some p → own g f.data (i, p) < f.nextb ∧
      g.dataStart ≤ own g f.data (i, p) := fun p hsp => by
    have := h.own_taken (hp p hsp)
    omega
  have stored : ∀ b, Stored g pending (Format.attach f i s v) b ↔
      Stored g (v :: pending) f b ∨ b = v := by
    intro b
    simp only [Stored, List.mem_cons, not_or]
    constructor
    · rintro ⟨h1, h2⟩
      by_cases hb : b = v
      · exact .inr hb
      · exact .inl ⟨h1, hb, h2⟩
    · rintro (⟨h1, _, h2⟩ | rfl)
      · exact ⟨h1, h2⟩
      · exact ⟨hheld, hv⟩
  have low : ∀ a, a < 3072 → (Format.attach f i s v).data a = f.data a := fun a ha =>
    attach_outside h hx hp (by omega) fun p hsp => by
      have := hnotin p hsp
      omega
  constructor
  · exact h.nblocks
  · exact h.ninodes
  · exact h.nextb_ge
  · exact h.nextb_le
  · exact h.nextinode_le
  · intro a ha
    rw [low a (by omega), h.low a ha]
  · intro a h1 h2
    rw [low a h2, h.bitmap a h1 h2]
  · intro j k h1 h2 h3
    rw [← h.unborn j k h1 h2 h3]
    have hrj := g.inode_region h2
    apply attach_outside h hx hp
    · have : i < j := Nat.lt_of_lt_of_le hborn h1
      unfold inodeAddr
      omega
    · intro p hsp
      have := hnotin p hsp
      omega
  · intro a ha
    have hnext : f.nextb ≤ a / 1024 := ha
    have := h.nextb_ge
    rw [← h.unused a hnext]
    apply attach_block h hx hp (c := a / 1024) (by omega) rfl
    intro p hsp
    have := hnotin p hsp
    omega
  · apply h.owns.acquire (b := v) (c := (i, s))
    · rintro ⟨_, hnot⟩
      exact hnot List.mem_cons_self
    · intro y
      rw [hown]
      by_cases hy : y = (i, s)
      · right; right
        exact ⟨hy, if_pos hy⟩
      · right; left
        exact if_neg hy
    · intro d hd
      exact (stored d).mpr hd
  · intro b hb
    rcases (stored b).mp hb with hold | rfl
    · obtain ⟨x, hxb⟩ := h.covered b hold
      refine ⟨x, ?_⟩
      have hne : x ≠ (i, s) := by
        rintro rfl
        have := h.nextb_ge
        have hb1 := hold.1.1
        omega
      rw [hown, if_neg hne, hxb]
    · exact ⟨(i, s), by rw [hown, if_pos rfl]⟩
  · intro b hb
    exact h.held b (List.mem_cons_of_mem v hb)

omit hv hborn in
theorem attach_extends : Extends g i (v :: pending) f (Format.attach f i s v) := by
  have hown := own_attach h hx hp h0 hz
  have hr := g.inode_region hx.1
  have hne : ∀ x : Nat × Slot, (x.1 ≠ i ∨ x.2.isIndex = false) → own g f.data x ≠ 0 →
      ∀ p, s.parent = some p → own g f.data x ≠ own g f.data (i, p) := by
    intro x hx' hx0 p hsp heq
    have hxp := h.owns.inj hx0 heq
    rcases hx' with h1 | h1
    · exact h1 (by rw [hxp])
    · rw [hxp, Slot.isIndex_parent hsp] at h1
      exact absurd h1 (by simp)
  have block : ∀ x : Nat × Slot, (x.1 ≠ i ∨ x.2.isIndex = false) → own g f.data x ≠ 0 →
      ∀ a, a / 1024 = own g f.data x → (Format.attach f i s v).data a = f.data a :=
    fun x hx' hx0 a ha => attach_block h hx hp (h.own_taken hx0).1 ha (hne x hx' hx0)
  have inode : ∀ j k, j < g.ninodes → k < 64 → (j ≠ i ∨ k < 16) →
      (Format.attach f i s v).data (inodeAddr j + k) = f.data (inodeAddr j + k) := by
    intro j k hj hk hjk
    have hrj := g.inode_region hj
    apply attach_outside h hx hp
    · unfold inodeAddr
      omega
    · intro p hsp
      have := (h.own_taken (hp p hsp)).1
      omega
  constructor
  · constructor
    · exact Nat.le_refl _
    · rfl
    · rfl
    · rfl
    · intro j hj
      apply rd32_congr
      intro k hk
      rw [Nat.add_assoc]
      exact inode j _ hj (by omega) (.inr (by omega))
    · intro j hj hji
      constructor
      · intro k hk
        exact inode j k hj (by omega) (.inl hji)
      · intro t
        rw [hown, if_neg (fun hc => hji (by rw [Prod.mk.injEq] at hc; exact hc.1))]
      · intro t a ht0 ha
        exact block (j, t) (.inl hji) ht0 a ha
  · intro k hk
    exact inode i k hx.1 (by omega) (.inr hk)
  · intro t ht0
    rw [hown, if_neg]
    intro hc
    rw [hc] at ht0
    exact ht0 h0
  · intro t a ht ht0 ha
    exact block (i, t) (.inr ht) ht0 a ha
  · intro c a hc ha
    have hheld := h.held c hc
    apply attach_block h hx hp hheld.1 ha
    intro p hsp heq
    have hused := h.owns.used_of_ne (hp p hsp)
    rw [← heq] at hused
    exact hused.2 hc

end Attach

section IndexBlocks

/-- Slot `p` of inode `i` holds the index block `c`. -/
structure Indexed (g : Geometry) (i : Nat) (pending : List Nat) (p : Slot) (f f' : Format) (c : Nat) :
    Prop where
  forming : Forming g pending f'
  extends_ : Extends g i pending f f'
  data_eq : ∀ s, s.isIndex = false → own g f'.data (i, s) = own g f.data (i, s)
  own_eq : own g f'.data (i, p) = c
  ne_zero : c ≠ 0

variable (h : Forming g pending f) (hx : HasBlocks g f.data i) (hborn : i < f.nextinode)
include h hx hborn

theorem newblk_indexed (hs : s.isIndex = true) (h0 : own g f.data (i, s) = 0)
    (hp : ∀ p, s.parent = some p → own g f.data (i, p) ≠ 0) (hr : f.newblk = some (f', b)) :
    Indexed g i pending s f (attach f' i s b) b := by
  obtain ⟨rfl, rfl, hf⟩ := h.newblk hr
  have hge := g.dataStart_ge
  have hnext := h.nextb_ge
  have hv : f.nextb ∉ pending := fun hmem => Nat.lt_irrefl _ (h.held _ hmem).2
  have hz : s.isIndex = true → ZeroBlock f.data f.nextb := fun _ => h.zero_nextb
  constructor
  · exact hf.attach hv hx (Nat.lt_of_lt_of_le hborn (Nat.le_refl _)) hp h0 hz
  · exact take_extends.trans (attach_extends hf hx hp h0 hz) fun c hc => List.mem_cons_of_mem _ hc
  · intro t ht
    rw [own_attach hf hx hp h0 hz, if_neg]
    intro hc
    rw [Prod.mk.injEq] at hc
    rw [hc.2, hs] at ht
    exact absurd ht (by simp)
  · rw [own_attach hf hx hp h0 hz, if_pos rfl]
  · omega

omit hborn hx in
/-- An index block that is there already. -/
theorem getblk_indexed {p : Slot} (hb : own g f.data (i, p) = b) (h0 : b ≠ 0)
    (hr : f.getblk b false = some f') : Indexed g i pending p f f' b := by
  obtain ⟨rfl, _⟩ := getblk_false hr
  constructor
  · exact h
  · exact Extends.refl
  · intro s _
    rfl
  · exact hb
  · exact h0

theorem indirectBlock_indexed (hr : f.indirectBlock (inodeAddr i) = some (f', b)) :
    Indexed g i pending .indirect f f' b := by
  have hown : own g f.data (i, .indirect) = oiIndirect f.data (inodeAddr i) := own_eq_ptr hx _
  unfold indirectBlock at hr
  split at hr <;>
    simp only [Option.bind_eq_bind, Option.bind_eq_some_iff, Option.some.injEq, Prod.mk.injEq] at hr
  · rename_i h0
    obtain ⟨⟨f₁, c⟩, hnew, rfl, rfl⟩ := hr
    exact newblk_indexed h hx hborn rfl (hown.trans h0) (root_parent rfl) hnew
  · rename_i h0
    obtain ⟨f₁, hget, rfl, rfl⟩ := hr
    obtain ⟨rfl, -⟩ := getblk_false hget
    exact getblk_indexed h hown h0 hget

theorem indirect2Block_indexed (hr : f.indirect2Block (inodeAddr i) = some (f', b)) :
    Indexed g i pending .indirect2 f f' b := by
  have hown : own g f.data (i, .indirect2) = oiIndirect2 f.data (inodeAddr i) := own_eq_ptr hx _
  unfold indirect2Block at hr
  split at hr <;>
    simp only [Option.bind_eq_bind, Option.bind_eq_some_iff, Option.some.injEq, Prod.mk.injEq] at hr
  · rename_i h0
    obtain ⟨⟨f₁, c⟩, hnew, rfl, rfl⟩ := hr
    exact newblk_indexed h hx hborn rfl (hown.trans h0) (root_parent rfl) hnew
  · rename_i h0
    obtain ⟨f₁, hget, rfl, rfl⟩ := hr
    obtain ⟨rfl, -⟩ := getblk_false hget
    exact getblk_indexed h hown h0 hget

theorem leafBlock_indexed {c : Nat} {k : Fin 256} (hc : own g f.data (i, .indirect2) = c)
    (hc0 : c ≠ 0) (hr : f.leafBlock c k = some (f', b)) :
    Indexed g i pending (.entry2 k) f f' b := by
  have hptr : ptr f.data (inodeAddr i) .indirect2 = c := (own_eq_ptr hx _).symm.trans hc
  have hsmall : c < 4194304 := hc ▸ h.own_small _
  have hown : own g f.data (i, .entry2 k) = blockWord f.data c k := by
    rw [own_eq_ptr hx, ptr_child rfl, hptr]
    exact if_neg hc0
  have hparent : ∀ p, (Slot.entry2 k).parent = some p → own g f.data (i, p) ≠ 0 := by
    intro p hp
    obtain rfl : Slot.indirect2 = p := Option.some.inj hp
    rw [hc]
    exact hc0
  unfold leafBlock at hr
  split at hr <;>
    simp only [Option.bind_eq_bind, Option.bind_eq_some_iff, Option.some.injEq, Prod.mk.injEq] at hr
  · rename_i h0
    obtain ⟨⟨f₁, d⟩, hnew, rfl, rfl⟩ := hr
    have hindex : (k : Nat) = (Slot.entry2 k).index := rfl
    have hset : setBlockWord f.data c k d = setCell f.data (inodeAddr i) (.entry2 k) d := by
      rw [hindex]
      exact setBlockWord_eq rfl hptr hsmall
    have hi := newblk_indexed h hx hborn (s := .entry2 k) rfl (hown.trans h0) hparent hnew
    obtain ⟨rfl, -, -⟩ := h.newblk hnew
    simp only [hset]
    exact hi
  · rename_i h0
    obtain ⟨f₁, hget, rfl, rfl⟩ := hr
    obtain ⟨rfl, -⟩ := getblk_false hget
    exact getblk_indexed h hown h0 hget

end IndexBlocks

section Storeblk

/-- Block `b` is now file block `n` of inode `i`. -/
structure Placed (g : Geometry) (i n b : Nat) (pending : List Nat) (f f' : Format) : Prop where
  forming : Forming g pending f'
  extends_ : Extends g i (b :: pending) f f'
  new : own g f'.data (i, dataSlot n) = b
  old : ∀ s, s.isIndex = false → s ≠ dataSlot n → own g f'.data (i, s) = own g f.data (i, s)

variable (h : Forming g (b :: pending) f) (hb : b ∉ pending) (hx : HasBlocks g f.data i)
variable (hborn : i < f.nextinode) (h0 : own g f.data (i, dataSlot n) = 0)
include h hb hx hborn h0

omit h in
/-- The last step of `storeblk`, with the index block in place. -/
theorem attach_placed (hext : Extends g i (b :: pending) f f') (hf : Forming g (b :: pending) f')
    (hdata : ∀ s, s.isIndex = false → own g f'.data (i, s) = own g f.data (i, s))
    (hp : ∀ p, (dataSlot n).parent = some p → own g f'.data (i, p) ≠ 0) :
    Placed g i n b pending f (attach f' i (dataSlot n) b) := by
  have hd := dataSlot_isIndex n
  have hx' := hext.hasBlocks hx
  have hborn' : i < f'.nextinode := by rw [hext.within.nextinode]; exact hborn
  have h0' : own g f'.data (i, dataSlot n) = 0 := by rw [hdata _ hd, h0]
  have hz : (dataSlot n).isIndex = true → ZeroBlock f'.data b := fun hc => by
    rw [hd] at hc
    exact absurd hc (by simp)
  constructor
  · exact hf.attach hb hx' hborn' hp h0' hz
  · exact hext.trans (attach_extends hf hx' hp h0' hz) fun c hc => hc
  · rw [own_attach hf hx' hp h0' hz, if_pos rfl]
  · intro s hs hne
    rw [own_attach hf hx' hp h0' hz, if_neg (fun hc => hne (by rw [Prod.mk.injEq] at hc; exact hc.2)),
      hdata s hs]

theorem storeblk_placed (hr : f.storeblk (inodeAddr i) b n = some f') :
    Placed g i n b pending f f' := by
  unfold storeblk at hr
  split at hr
  · rename_i h10
    rw [Option.some.injEq, setDirect_eq h10, ← dataSlot_direct h10] at hr
    rw [← hr]
    apply attach_placed hb hx hborn h0 Extends.refl h fun _ _ => rfl
    rw [dataSlot_direct h10]
    exact root_parent rfl
  · rename_i h10
    split at hr
    · rename_i h266
      simp only [Option.bind_eq_bind, Option.bind_eq_some_iff, Option.some.injEq] at hr
      obtain ⟨⟨f₁, c⟩, hind, rfl⟩ := hr
      have hi := indirectBlock_indexed h hx hborn hind
      have hslot := dataSlot_entry (k := n) (by omega) h266
      have hparent : (dataSlot n).parent = some .indirect := by rw [hslot]; rfl
      have hindex : (dataSlot n).index = n - 10 := by
        rw [hslot]
        simp only [Slot.index, directIndex]
        rw [if_neg (by omega)]
        omega
      have hptr : ptr f₁.data (inodeAddr i) .indirect = c := by
        rw [← own_eq_ptr (hi.extends_.hasBlocks hx), hi.own_eq]
      have hsmall : c < 4194304 := hi.own_eq ▸ hi.forming.own_small _
      have hset := setBlockWord_eq (v := b) hparent hptr hsmall
      rw [hindex] at hset
      simp only [hset]
      apply attach_placed hb hx hborn h0 hi.extends_ hi.forming hi.data_eq
      intro p hp
      rw [hparent] at hp
      rw [← Option.some.inj hp, hi.own_eq]
      exact hi.ne_zero
    · rename_i h266
      split at hr
      · rename_i hmax
        simp only [Option.bind_eq_bind, Option.bind_eq_some_iff, Option.some.injEq] at hr
        obtain ⟨⟨f₁, c₂⟩, hind2, ⟨f₂, c⟩, hleaf, rfl⟩ := hr
        have hi := indirect2Block_indexed h hx hborn hind2
        have hborn₁ : i < f₁.nextinode := by rw [hi.extends_.within.nextinode]; exact hborn
        have hslot := dataSlot_leaf (k := n) (by omega) hmax
        have hk : (n - 266) / 256 = (indirIndex n).toNat := (indirIndex_leaf (by omega)).symm
        have hj : (n - 266) % 256 = directIndex n := by
          simp only [directIndex]
          rw [if_neg (by omega)]
          omega
        simp only [hk] at hleaf
        have hl := leafBlock_indexed (k := ⟨(indirIndex n).toNat, indirIndex_lt (by omega) hmax⟩)
          hi.forming (hi.extends_.hasBlocks hx) hborn₁ hi.own_eq hi.ne_zero hleaf
        have hext := hi.extends_.trans hl.extends_ fun c hc => hc
        have hparent : (dataSlot n).parent =
            some (.entry2 ⟨(indirIndex n).toNat, indirIndex_lt (by omega) hmax⟩) := by
          rw [hslot]
          rfl
        have hindex : (dataSlot n).index = (n - 266) % 256 := by
          rw [hslot]
          exact hj.symm
        have hptr : ptr f₂.data (inodeAddr i)
            (.entry2 ⟨(indirIndex n).toNat, indirIndex_lt (by omega) hmax⟩) = c := by
          rw [← own_eq_ptr (hext.hasBlocks hx), hl.own_eq]
        have hsmall : c < 4194304 := hl.own_eq ▸ hl.forming.own_small _
        have hset := setBlockWord_eq (v := b) hparent hptr hsmall
        rw [hindex] at hset
        simp only [hset]
        apply attach_placed hb hx hborn h0 hext hl.forming
        · intro s hs
          rw [hl.data_eq s hs, hi.data_eq s hs]
        · intro p hp
          rw [hparent] at hp
          rw [← Option.some.inj hp, hl.own_eq]
          exact hl.ne_zero
      · exact absurd hr (by simp)

end Storeblk

end Format

end CS111.Ospfs
