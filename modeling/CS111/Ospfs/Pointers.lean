import CS111.Lib.Ownership
import CS111.Lib.Words
import CS111.Ospfs.Blocks

/-!
# The tree of block pointers of an inode

A slot is a place for a block pointer: in the inode, or in an index block named by another
slot. `own` collects the pointers of all inodes that have any.
-/

namespace CS111.Ospfs

open Memory

set_option autoImplicit false

structure Geometry where
  nblocks : Nat
  ninodes : Nat
  two_le_ninodes : 2 ≤ ninodes
  room : 3 + (ninodes + 15) / 16 ≤ nblocks
  nblocks_le : nblocks ≤ 8192

/-- The first block after the inode blocks. -/
def Geometry.dataStart (g : Geometry) : Nat := 3 + (g.ninodes + 15) / 16

def inodeAddr (ino : Nat) : Nat := 3072 + 64 * ino

inductive Slot where
  | direct (k : Fin 10)
  | indirect
  | indirect2
  | entry (j : Fin 256)
  | entry2 (k : Fin 256)
  | leaf (k j : Fin 256)
  deriving DecidableEq

namespace Slot

/-- The slot of the index block that a slot lies in. -/
def parent : Slot → Option Slot
  | direct _ | indirect | indirect2 => none
  | entry _ => some indirect
  | entry2 _ => some indirect2
  | leaf k _ => some (entry2 k)

/-- The number of the word, in the inode or in the index block. -/
def index : Slot → Nat
  | direct k => 4 + k
  | indirect => 14
  | indirect2 => 15
  | entry j => j
  | entry2 k => k
  | leaf _ j => j

def isIndex : Slot → Bool
  | indirect | indirect2 | entry2 _ => true
  | _ => false

def Below (s t : Slot) : Prop := s.parent = some t ∨ s.parent.bind parent = some t

instance (s t : Slot) : Decidable (s.Below t) :=
  inferInstanceAs (Decidable (s.parent = some t ∨ s.parent.bind parent = some t))

variable {s t p : Slot}

theorem ext_parent (hp : s.parent = t.parent) (hi : s.index = t.index) : s = t := by
  cases s <;> cases t <;> simp only [parent, index, Option.some.injEq, reduceCtorEq] at hp hi ⊢ <;>
    first | omega | (simp_all [Fin.ext_iff]; try omega)

theorem index_root (h : s.parent = none) : 4 ≤ s.index ∧ s.index < 16 := by
  cases s <;> simp only [parent, reduceCtorEq] at h <;> simp only [index] <;> omega

theorem index_child (h : s.parent = some p) : s.index < 256 := by
  cases s <;> simp only [parent, reduceCtorEq] at h <;> simp only [index] <;> omega

theorem isIndex_parent (h : s.parent = some p) : p.isIndex = true := by
  cases s <;> simp only [parent, reduceCtorEq, Option.some.injEq] at h <;> subst h <;> rfl

theorem parent_ne_self (h : s.parent = some p) : p ≠ s := by
  cases s <;> simp only [parent, reduceCtorEq, Option.some.injEq] at h <;> subst h <;> simp

theorem below_iff (h : s.parent = some p) : s.Below t ↔ p = t ∨ p.Below t := by
  cases s <;> simp only [parent, reduceCtorEq, Option.some.injEq] at h <;> subst h <;>
    simp [Below, parent]

theorem not_below_child (h : s.parent = some p) : ¬ p.Below s := by
  cases s <;> simp only [parent, reduceCtorEq, Option.some.injEq] at h <;> subst h <;>
    simp [Below, parent]

theorem not_below_root (h : s.parent = none) : ¬ s.Below t := by
  simp [Below, h]

/-- A tree of index blocks has two levels. -/
theorem grandparent_root {q : Slot} (h : s.parent = some p) (hp : p.parent = some q) :
    ¬ q.Below t := by
  apply not_below_root
  cases s <;> simp only [parent, reduceCtorEq, Option.some.injEq] at h <;> subst h <;>
    simp only [parent, reduceCtorEq, Option.some.injEq] at hp
  subst hp
  rfl

theorem not_below_of_data (h : t.isIndex = false) : ¬ s.Below t := by
  cases s <;> cases t <;> simp only [isIndex, reduceCtorEq] at h <;> simp [Below, parent]

/-- Parents come before their children. -/
theorem parent_induction {P : Slot → Prop} (step : ∀ s, (∀ p, s.parent = some p → P p) → P s)
    (s : Slot) : P s := by
  have root : ∀ s, s.parent = none → P s := fun s h => step s fun p hp => by
    rw [h] at hp
    exact absurd hp (by simp)
  have second : ∀ s t, s.parent = some t → t.parent = none → P s := fun s t h ht =>
    step s fun p hp => by
      rw [h, Option.some.injEq] at hp
      exact hp ▸ root t ht
  cases s with
  | direct k => exact root _ rfl
  | indirect => exact root _ rfl
  | indirect2 => exact root _ rfl
  | entry j => exact second _ _ rfl rfl
  | entry2 k => exact second _ _ rfl rfl
  | leaf k j =>
    apply step
    intro p hp
    simp only [parent, Option.some.injEq] at hp
    exact hp ▸ second _ _ rfl rfl

end Slot

section Pointers

/-- A word of an index block, 0 when the block is missing. -/
def below (m : Bytes) (b j : Nat) : Nat := if b = 0 then 0 else blockWord m b j

def ptr (m : Bytes) (oi : Nat) : Slot → Nat
  | .direct k => oiDirect m oi k
  | .indirect => oiIndirect m oi
  | .indirect2 => oiIndirect2 m oi
  | .entry j => below m (oiIndirect m oi) j
  | .entry2 k => below m (oiIndirect2 m oi) k
  | .leaf k j => below m (below m (oiIndirect2 m oi) k) j

variable {m m' : Bytes} {oi b j : Nat} {s p : Slot}

theorem ospfsBlock_of_lt (h : b < 4194304) : ospfsBlock b = 1024 * b := by
  unfold ospfsBlock
  rw [u32_of_lt (by omega), Nat.mul_comm]

theorem ptr_root (h : s.parent = none) : ptr m oi s = rd32 m (oi + 4 * s.index) := by
  cases s with
  | direct k =>
    simp only [ptr, oiDirect, Slot.index]
    congr 1
    omega
  | indirect => rfl
  | indirect2 => rfl
  | entry j => exact absurd h (by simp [Slot.parent])
  | entry2 k => exact absurd h (by simp [Slot.parent])
  | leaf k j => exact absurd h (by simp [Slot.parent])

theorem ptr_child (h : s.parent = some p) : ptr m oi s = below m (ptr m oi p) s.index := by
  cases s <;> simp only [Slot.parent, reduceCtorEq, Option.some.injEq] at h <;> subst h <;> rfl

theorem below_eq (h0 : b ≠ 0) (h : b < 4194304) : below m b j = rd32 m (1024 * b + 4 * j) := by
  unfold below blockWord
  rw [if_neg h0, ospfsBlock_of_lt h]

theorem below_zero : below m 0 j = 0 := rfl

theorem ptr_parent_ne (h : s.parent = some p) (hs : ptr m oi s ≠ 0) : ptr m oi p ≠ 0 := by
  intro h0
  apply hs
  rw [ptr_child h, h0, below_zero]

/-- The address of a slot. -/
def cell (m : Bytes) (oi : Nat) (s : Slot) : Nat :=
  match s.parent with
  | none => oi + 4 * s.index
  | some p => 1024 * ptr m oi p + 4 * s.index

theorem cell_root (h : s.parent = none) : cell m oi s = oi + 4 * s.index := by
  simp only [cell, h]

theorem cell_child (h : s.parent = some p) : cell m oi s = 1024 * ptr m oi p + 4 * s.index := by
  simp only [cell, h]

/-- The pointers of an inode depend on its bytes from 16 on and on its index blocks only. -/
theorem ptr_congr_index (hsmall : ∀ s, s.isIndex = true → ptr m oi s < 4194304)
    (hinode : ∀ a, oi + 16 ≤ a → a < oi + 64 → m' a = m a)
    (hindex : ∀ s a, s.isIndex = true → ptr m oi s ≠ 0 → a / 1024 = ptr m oi s → m' a = m a) :
    ∀ s, ptr m' oi s = ptr m oi s := by
  apply Slot.parent_induction
  intro s ih
  cases hp : s.parent with
  | none =>
    have hlt := Slot.index_root hp
    rw [ptr_root hp, ptr_root hp]
    apply rd32_congr
    intro k hk
    exact hinode _ (by omega) (by omega)
  | some p =>
    rw [ptr_child hp, ptr_child hp, ih p hp]
    by_cases h0 : ptr m oi p = 0
    · rw [h0, below_zero, below_zero]
    · have hlt := Slot.index_child hp
      have hp' := Slot.isIndex_parent hp
      rw [below_eq h0 (hsmall p hp'), below_eq h0 (hsmall p hp')]
      apply rd32_congr
      intro k hk
      exact hindex p _ hp' h0 (by omega)

theorem ptr_congr (hsmall : ∀ s, ptr m oi s < 4194304)
    (hinode : ∀ a, oi + 16 ≤ a → a < oi + 64 → m' a = m a)
    (hindex : ∀ s a, s.isIndex = true → ptr m oi s ≠ 0 → a / 1024 = ptr m oi s → m' a = m a) :
    ∀ s, ptr m' oi s = ptr m oi s :=
  ptr_congr_index (fun s _ => hsmall s) hinode hindex

/-- Writing a slot. A nonzero value must name a block of the data region, and a cleared one if it
becomes an index block. -/
def setCell (m : Bytes) (oi : Nat) (s : Slot) (v : Nat) : Bytes := wr32 m (cell m oi s) v

def ZeroBlock (m : Bytes) (b : Nat) : Prop := ∀ a, a / 1024 = b → m a = 0

/-- The index blocks of an inode are different blocks behind block `lo`, which the inode lies in
front of. -/
structure IndexTree (m : Bytes) (oi lo : Nat) : Prop where
  bound : ∀ s, s.isIndex = true → ptr m oi s ≠ 0 → lo ≤ ptr m oi s ∧ ptr m oi s < 4194304
  inj : ∀ s t, s.isIndex = true → t.isIndex = true → ptr m oi s ≠ 0 →
    ptr m oi s = ptr m oi t → s = t
  region : oi + 64 ≤ 1024 * lo

section IndexTree
variable {lo v : Nat} {t : Slot} (h : IndexTree m oi lo)
include h

theorem IndexTree.parent_bound (hp : s.parent = some p) (h0 : ptr m oi p ≠ 0) :
    lo ≤ ptr m oi p ∧ ptr m oi p < 4194304 :=
  h.bound p (Slot.isIndex_parent hp) h0

/-- Two slots of one inode do not overlap. -/
theorem IndexTree.cell_disjoint (hs : ∀ p, s.parent = some p → ptr m oi p ≠ 0)
    (ht : ∀ p, t.parent = some p → ptr m oi p ≠ 0) (hne : s ≠ t) :
    cell m oi s + 4 ≤ cell m oi t ∨ cell m oi t + 4 ≤ cell m oi s := by
  have hregion := h.region
  cases hp : s.parent with
  | none =>
    have hi := Slot.index_root hp
    rw [cell_root hp]
    cases hq : t.parent with
    | none =>
      rw [cell_root hq]
      have hindex : s.index ≠ t.index := fun heq => hne (Slot.ext_parent (hp.trans hq.symm) heq)
      omega
    | some q =>
      have hb := h.parent_bound hq (ht q hq)
      rw [cell_child hq]
      omega
  | some p =>
    have hb := h.parent_bound hp (hs p hp)
    have hi := Slot.index_child hp
    rw [cell_child hp]
    cases hq : t.parent with
    | none =>
      have hj := Slot.index_root hq
      rw [cell_root hq]
      omega
    | some q =>
      have hj := Slot.index_child hq
      rw [cell_child hq]
      by_cases hpq : ptr m oi p = ptr m oi q
      · have hparents := h.inj p q (Slot.isIndex_parent hp) (Slot.isIndex_parent hq) (hs p hp) hpq
        have hindex : s.index ≠ t.index := fun heq =>
          hne (Slot.ext_parent (by rw [hp, hq, hparents]) heq)
        omega
      · omega

omit h in
/-- Where a slot lies. -/
theorem cell_place (hs : ∀ p, s.parent = some p → ptr m oi p ≠ 0) :
    (oi + 16 ≤ cell m oi s ∧ cell m oi s + 4 ≤ oi + 64) ∨
      ∃ p, p.isIndex = true ∧ ptr m oi p ≠ 0 ∧ cell m oi s / 1024 = ptr m oi p ∧
        cell m oi s % 1024 + 4 ≤ 1024 := by
  cases hp : s.parent with
  | none =>
    have hi := Slot.index_root hp
    rw [cell_root hp]
    exact .inl (by omega)
  | some p =>
    have hi := Slot.index_child hp
    rw [cell_child hp]
    exact .inr ⟨p, Slot.isIndex_parent hp, hs p hp, by omega, by omega⟩

/-- All pointers of the inode after a write to a slot. -/
theorem IndexTree.ptr_setCell (hs : ∀ p, s.parent = some p → ptr m oi p ≠ 0)
    (hv : v < 4294967296) (hzero : v ≠ 0 → s.isIndex = true → lo ≤ v ∧ v < 4194304 ∧
      (∀ t, t.isIndex = true → ptr m oi t ≠ v) ∧ ZeroBlock m v) :
    ptr (setCell m oi s v) oi t = if t = s then v else if t.Below s then 0 else ptr m oi t := by
  -- parents first
  revert t
  apply Slot.parent_induction
  intro t ih
  have disjoint : t ≠ s → (∀ p, t.parent = some p → ptr m oi p ≠ 0) →
      rd32 (setCell m oi s v) (cell m oi t) = rd32 m (cell m oi t) := fun hne ht =>
    rd32_wr32_ne (h.cell_disjoint hs ht (Ne.symm hne))
  have same : t = s → rd32 (setCell m oi s v) (cell m oi t) = v := by
    rintro rfl
    exact rd32_wr32_of_lt _ _ hv
  cases hp : t.parent with
  | none =>
    have hnb := Slot.not_below_root (t := s) hp
    rw [ptr_root hp, ptr_root hp, ← cell_root (m := m) hp, if_neg hnb]
    by_cases heq : t = s
    · rw [if_pos heq, same heq]
    · rw [if_neg heq]
      exact disjoint heq fun p hp' => absurd (hp.symm.trans hp') (by simp)
  | some p =>
    have hbelow := Slot.below_iff (t := s) hp
    have hindex := Slot.isIndex_parent hp
    have hidx := Slot.index_child hp
    rw [ptr_child hp, ptr_child hp, ih p hp]
    by_cases hps : p = s
    · have hne : t ≠ s := fun heq => Slot.parent_ne_self hp (hps.trans heq.symm)
      rw [if_pos hps, if_neg hne, if_pos (hbelow.mpr (.inl hps))]
      by_cases hv0 : v = 0
      · rw [hv0, below_zero]
      · obtain ⟨hlo, hsmall, hnew, hclear⟩ := hzero hv0 (hps ▸ hindex)
        rw [below_eq hv0 hsmall]
        apply rd32_eq_zero
        intro k hk
        rw [← hclear (1024 * v + 4 * t.index + k) (by omega)]
        apply wr32_outside
        have hregion := h.region
        rcases cell_place hs with ⟨h1, h2⟩ | ⟨q, hq, _, h1, h2⟩
        · omega
        · have hqv := hnew q hq
          omega
    · rw [if_neg hps]
      by_cases hpb : p.Below s
      · have hne : t ≠ s := fun heq => Slot.not_below_child hp (heq ▸ hpb)
        rw [if_pos hpb, below_zero, if_neg hne, if_pos (hbelow.mpr (.inr hpb))]
      · have hnb : ¬ t.Below s := fun hb => (hbelow.mp hb).elim hps hpb
        rw [if_neg hpb, if_neg hnb]
        by_cases h0 : ptr m oi p = 0
        · have hne : t ≠ s := fun heq => hs p (heq ▸ hp) h0
          rw [if_neg hne, h0, below_zero, below_zero]
        · have hb := h.bound p hindex h0
          rw [below_eq h0 hb.2, below_eq h0 hb.2, ← cell_child hp]
          by_cases heq : t = s
          · rw [if_pos heq, same heq]
          · rw [if_neg heq]
            apply disjoint heq
            intro q hq
            rw [hp, Option.some.injEq] at hq
            rw [← hq]
            exact h0

end IndexTree

end Pointers

section Own

def own (g : Geometry) (m : Bytes) (x : Nat × Slot) : Nat :=
  if x.1 < g.ninodes ∧ oiFtype m (inodeAddr x.1) ≠ FTYPE_SYMLINK then ptr m (inodeAddr x.1) x.2 else 0

/-- Only blocks of the data region are in use. -/
def DataBlocks (g : Geometry) (used : Nat → Prop) : Prop :=
  ∀ b, used b → g.dataStart ≤ b ∧ b < g.nblocks

variable {g : Geometry} {m m' : Bytes} {used : Nat → Prop} {i v : Nat} {s : Slot} {x y : Nat × Slot}

theorem Geometry.inode_region (g : Geometry) (h : i < g.ninodes) :
    3072 ≤ inodeAddr i ∧ inodeAddr i + 64 ≤ 1024 * g.dataStart := by
  unfold inodeAddr Geometry.dataStart
  omega

theorem own_of (hi : i < g.ninodes) (hf : oiFtype m (inodeAddr i) ≠ FTYPE_SYMLINK) (s : Slot) :
    own g m (i, s) = ptr m (inodeAddr i) s := if_pos ⟨hi, hf⟩

theorem own_ne_zero (h : own g m x ≠ 0) :
    x.1 < g.ninodes ∧ oiFtype m (inodeAddr x.1) ≠ FTYPE_SYMLINK := by
  unfold own at h
  split at h
  · assumption
  · exact absurd rfl h

theorem own_parent_ne {p : Slot} (hp : s.parent = some p) (h : own g m (i, s) ≠ 0) :
    own g m (i, p) ≠ 0 := by
  obtain ⟨hi, hf⟩ := own_ne_zero h
  rw [own_of hi hf] at h ⊢
  exact ptr_parent_ne hp h

theorem own_below_zero {t : Slot} (hb : s.Below t) (h0 : own g m (i, t) = 0) :
    own g m (i, s) = 0 := by
  by_contra hs
  cases hp : s.parent with
  | none => exact Slot.not_below_root hp hb
  | some p =>
    have hp0 := own_parent_ne hp hs
    rcases (Slot.below_iff hp).mp hb with rfl | hpt
    · exact hp0 h0
    · cases hpp : p.parent with
      | none => exact Slot.not_below_root hpp hpt
      | some q =>
        have hqt : q = t := by
          rcases (Slot.below_iff hpp).mp hpt with h | h
          · exact h
          · exact absurd h (Slot.grandparent_root hp hpp)
        exact own_parent_ne hpp hp0 (hqt ▸ h0)

section Bounds
variable (h : Owns (own g m) used) (hd : DataBlocks g used)
include h hd

theorem own_bounds (h0 : own g m x ≠ 0) :
    g.dataStart ≤ own g m x ∧ own g m x < g.nblocks ∧ own g m x < 8192 := by
  obtain ⟨h1, h2⟩ := hd _ (h.used_of_ne h0)
  have h3 := g.nblocks_le
  omega

theorem own_small (x : Nat × Slot) : own g m x < 4194304 := by
  by_cases h0 : own g m x = 0
  · omega
  · have := own_bounds h hd h0
    omega

theorem ptr_small (hi : i < g.ninodes) (hf : oiFtype m (inodeAddr i) ≠ FTYPE_SYMLINK) (s : Slot) :
    ptr m (inodeAddr i) s < 4194304 := by
  have := own_small h hd (i, s)
  rwa [own_of hi hf] at this

/-- A change that keeps the type and the pointers in an inode and its index blocks. -/
theorem own_congr_at {j : Nat} (hinode : ∀ k, j < g.ninodes → (4 ≤ k ∧ k < 8 ∨ 16 ≤ k ∧ k < 64) →
      m' (inodeAddr j + k) = m (inodeAddr j + k))
    (hindex : ∀ t a, t.isIndex = true → own g m (j, t) ≠ 0 → a / 1024 = own g m (j, t) →
      m' a = m a) (s : Slot) : own g m' (j, s) = own g m (j, s) := by
  by_cases hj : j < g.ninodes
  · have hft : oiFtype m' (inodeAddr j) = oiFtype m (inodeAddr j) := rd32_congr fun k hk => by
      rw [Nat.add_assoc]
      exact hinode _ hj (by omega)
    by_cases hf : oiFtype m (inodeAddr j) = FTYPE_SYMLINK
    · simp only [own, hft, hf, ne_eq, not_true_eq_false, and_false, if_false]
    · rw [own_of hj (hft ▸ hf), own_of hj hf]
      apply ptr_congr (ptr_small h hd hj hf)
      · intro a h1 h2
        have := hinode (a - inodeAddr j) hj (by omega)
        rwa [show inodeAddr j + (a - inodeAddr j) = a by omega] at this
      · intro t a ht h0 ha
        rw [← own_of hj hf t] at h0 ha
        exact hindex t a ht h0 ha
  · simp only [own, hj, false_and, if_false]

theorem own_congr (hinodes : ∀ i k, i < g.ninodes → (4 ≤ k ∧ k < 8 ∨ 16 ≤ k ∧ k < 64) →
      m' (inodeAddr i + k) = m (inodeAddr i + k))
    (hindex : ∀ x a, x.2.isIndex = true → own g m x ≠ 0 → a / 1024 = own g m x → m' a = m a) :
    own g m' = own g m := by
  funext ⟨j, s⟩
  apply own_congr_at h hd
  · intro k hj hk
    exact hinodes j k hj hk
  · intro t a ht h0 ha
    exact hindex (j, t) a ht h0 ha

end Bounds

section SetCell
variable (h : Owns (own g m) used) (hd : DataBlocks g used)
variable (hx : x.1 < g.ninodes ∧ oiFtype m (inodeAddr x.1) ≠ FTYPE_SYMLINK)
variable (hxp : ∀ p, x.2.parent = some p → own g m (x.1, p) ≠ 0)
include h hd hx hxp

/-- A slot lies in the bytes of its inode after the mode, or in an index block. -/
theorem cell_region :
    (x.2.parent = none ∧ inodeAddr x.1 + 16 ≤ cell m (inodeAddr x.1) x.2 ∧
      cell m (inodeAddr x.1) x.2 + 4 ≤ inodeAddr x.1 + 64) ∨
    (∃ p, x.2.parent = some p ∧ own g m (x.1, p) = cell m (inodeAddr x.1) x.2 / 1024 ∧
      cell m (inodeAddr x.1) x.2 % 4 = 0 ∧ g.dataStart ≤ own g m (x.1, p)) := by
  cases hp : x.2.parent with
  | none =>
    have hs := Slot.index_root hp
    rw [cell_root hp]
    left
    refine ⟨rfl, ?_, ?_⟩ <;> omega
  | some p =>
    have hs := Slot.index_child hp
    have hb := own_bounds h hd (hxp p hp)
    right
    refine ⟨p, rfl, ?_, ?_, hb.1⟩
    · rw [cell_child hp, own_of hx.1 hx.2]
      omega
    · rw [cell_child hp]
      omega

theorem setCell_fields (v : Nat) {i : Nat} (hi : i < g.ninodes) {k : Nat} (hk : k < 16) :
    setCell m (inodeAddr x.1) x.2 v (inodeAddr i + k) = m (inodeAddr i + k) := by
  apply wr32_outside
  have hr := g.inode_region hi
  rcases cell_region h hd hx hxp with ⟨_, h1, h2⟩ | ⟨p, _, h1, h2, h3⟩
  · unfold inodeAddr at *
    omega
  · omega

theorem setCell_ftype (v : Nat) {i : Nat} (hi : i < g.ninodes) :
    oiFtype (setCell m (inodeAddr x.1) x.2 v) (inodeAddr i) = oiFtype m (inodeAddr i) := by
  apply rd32_congr
  intro k hk
  rw [Nat.add_assoc]
  exact setCell_fields h hd hx hxp v hi (by omega)

omit hxp hx in
/-- The index blocks of one inode of a volume. -/
theorem indexTree_of_owns (hi : i < g.ninodes) (hf : oiFtype m (inodeAddr i) ≠ FTYPE_SYMLINK) :
    IndexTree m (inodeAddr i) g.dataStart where
  bound s _ h0 := by
    rw [← own_of hi hf s] at h0 ⊢
    have hb := own_bounds h hd h0
    exact ⟨hb.1, by omega⟩
  inj s t _ _ h0 heq := by
    rw [← own_of hi hf s] at h0 heq
    rw [← own_of hi hf t] at heq
    exact (Prod.mk.inj (h.inj h0 heq)).2
  region := (g.inode_region hi).2

theorem own_setCell_other {v : Nat} (hne : i ≠ x.1) :
    own g (setCell m (inodeAddr x.1) x.2 v) (i, s) = own g m (i, s) := by
  have hregion := cell_region h hd hx hxp
  have hrx := g.inode_region hx.1
  apply own_congr_at h hd
  · intro k hi hk
    have hri := g.inode_region hi
    apply wr32_outside
    rcases hregion with ⟨_, h1, h2⟩ | ⟨p, _, h1, _, h3⟩
    · unfold inodeAddr at *
      omega
    · omega
  · intro t a ht h0 ha
    have hb := own_bounds h hd h0
    apply wr32_outside
    rcases hregion with ⟨_, h1, h2⟩ | ⟨p, hp, h1, h2, _⟩
    · omega
    · have hown : own g m (x.1, p) ≠ own g m (i, t) := fun heq =>
        hne (Prod.mk.inj (h.inj (hxp p hp) heq)).1.symm
      omega

theorem own_setCell (hv : v < 4294967296)
    (hzero : v ≠ 0 → g.dataStart ≤ v ∧ v < g.nblocks ∧ ¬ used v ∧
      (x.2.isIndex = true → ZeroBlock m v)) :
    own g (setCell m (inodeAddr x.1) x.2 v) y =
      if y = x then v else if y.1 = x.1 ∧ y.2.Below x.2 then 0 else own g m y := by
  obtain ⟨i, s⟩ := y
  by_cases hix : i = x.1
  · subst hix
    obtain ⟨i, t⟩ := x
    obtain ⟨hi, hf⟩ := hx
    dsimp only at hi hf hxp hzero ⊢
    have hft := setCell_ftype h hd (x := (i, t)) ⟨hi, hf⟩ hxp v hi
    have hparent : ∀ p, t.parent = some p → ptr m (inodeAddr i) p ≠ 0 := fun p hp => by
      rw [← own_of hi hf p]
      exact hxp p hp
    rw [own_of hi (hft ▸ hf), own_of hi hf, (indexTree_of_owns h hd hi hf).ptr_setCell hparent hv]
    · simp only [Prod.mk.injEq, true_and]
    · intro hv0 hindex
      obtain ⟨hv1, hv2, hv3, hv4⟩ := hzero hv0
      have hn := g.nblocks_le
      refine ⟨hv1, by omega, fun p _ heq => hv3 ?_, hv4 hindex⟩
      rw [← heq, ← own_of hi hf p]
      exact h.used_of_ne (by rw [own_of hi hf p, heq]; exact hv0)
  · have hne : (i, s) ≠ x := fun heq => hix (congrArg Prod.fst heq)
    rw [if_neg hne, if_neg fun hb => hix hb.1]
    exact own_setCell_other h hd hx hxp hix

end SetCell

end Own

end CS111.Ospfs
