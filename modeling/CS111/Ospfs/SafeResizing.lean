import Mathlib.Algebra.BigOperators.Intervals
import Mathlib.Algebra.Order.BigOperators.Group.Finset
import CS111.Ospfs.Growing

/-!
# Block counts through which `change_size` can go

The loops of `change_size` on a well-formed file, where no call of `add_block` or `remove_block` loses a
block. When the disk is full, the file is cut back and the growing loop starts again.
-/

namespace CS111.Ospfs

open Memory Finset

set_option autoImplicit false

variable {m m' m₀ : Bytes} {oi n j k c last target fuel oldSize newSize : Nat} {s t p : Slot}
variable {U V K : Slot → Prop} {r : Bytes × Int}

section Costs

/-- The blocks that file block `n` takes, when the blocks in front of it are there. -/
def takes (n : Nat) : Nat := if n = 10 ∨ 522 ≤ n ∧ (n - 10) % 256 = 0 then 2 else 1

def taken (n k : Nat) : Nat := ∑ i ∈ Ico n k, takes i

theorem taken_self (n : Nat) : taken n n = 0 := by
  unfold taken
  rw [Ico_self, sum_empty]

theorem taken_succ (h : n ≤ k) : taken n (k + 1) = taken n k + takes k := sum_Ico_succ_top h takes

theorem taken_first (h : n < k) : taken n k = takes n + taken (n + 1) k :=
  sum_eq_sum_Ico_succ_bot h takes

theorem taken_mono (h : j ≤ k) : taken n j ≤ taken n k :=
  sum_le_sum_of_subset (Ico_subset_Ico_right h)

end Costs

section Slots

/-- The slots that a file has for one more block. -/
theorem first_lt_succ (hn : n < 65802) :
    s.first < n + 1 ↔ (s = dataSlot n ∨ (dataSlot n).Below s) ∨ s.first < n := by
  constructor
  · intro hs
    by_cases hlt : s.first < n
    · exact .inr hlt
    left
    have hfirst : s.first = n := by omega
    cases hidx : s.isIndex with
    | false =>
      left
      rw [← hfirst, dataSlot_first hidx]
    | true =>
      right
      cases s with
      | indirect =>
        simp only [Slot.first] at hfirst
        subst hfirst
        exact .inl rfl
      | indirect2 =>
        simp only [Slot.first] at hfirst
        subst hfirst
        exact .inr rfl
      | entry2 k =>
        simp only [Slot.first] at hfirst
        rw [dataSlot_leaf (by omega) hn]
        left
        have hk : (indirIndex n).toNat = k := by
          rw [indirIndex_leaf (by omega)]
          omega
        exact congrArg (fun k => some (Slot.entry2 k)) (Fin.ext hk)
      | direct k => cases hidx
      | entry j => cases hidx
      | leaf k j => cases hidx
  · rintro ((rfl | hbelow) | hlt)
    · rw [first_dataSlot hn]
      omega
    · have hle := Slot.first_below hbelow
      rw [first_dataSlot hn] at hle
      omega
    · omega

theorem addSlot_eq (h : n < 266 ∨ 522 ≤ n) : addSlot n = dataSlot n := if_neg (by omega)

/-- What a file of `n` blocks needs for the next one. -/
theorem SlotTree.cost (h : SlotTree m oi (·.first < n)) (hn : n < 65802) :
    slotCost m oi (addSlot n) = takes n := by
  unfold takes
  by_cases h10 : n < 10
  · have hslot : addSlot n = .direct ⟨n, h10⟩ := (addSlot_eq (.inl (by omega))).trans
      (dataSlot_direct h10)
    rw [hslot, if_neg (by omega)]
    rfl
  by_cases h522 : n < 522
  · rw [addSlot_entry (by omega) h522]
    have hind : oiIndirect m oi ≠ 0 ↔ 10 < n := h.used .indirect
    by_cases heq : n = 10
    · rw [if_pos (.inl heq)]
      exact if_pos (by omega)
    · rw [if_neg (by omega)]
      exact if_neg (by omega)
  · have hk := indirIndex_lt (k := n) (by omega) hn
    rw [addSlot_eq (.inr (by omega)), dataSlot_leaf (by omega) hn]
    have hind : oiIndirect2 m oi ≠ 0 ↔ 266 < n := h.used .indirect2
    have hentry : ptr m oi (.entry2 ⟨(indirIndex n).toNat, hk⟩) ≠ 0 ↔
        266 + 256 * (indirIndex n).toNat < n := h.used _
    have hidx := indirIndex_leaf (k := n) (by omega)
    have hcost : slotCost m oi (.leaf ⟨(indirIndex n).toNat, hk⟩ ⟨directIndex n, directIndex_lt n⟩) =
        if ptr m oi (.entry2 ⟨(indirIndex n).toNat, hk⟩) = 0 then 2 else 1 := if_neg (by omega)
    rw [hcost]
    by_cases hmod : (n - 10) % 256 = 0
    · rw [if_pos (by omega), if_pos (.inr ⟨by omega, hmod⟩)]
    · rw [if_neg (by omega), if_neg (by omega)]

end Slots

section Shrink

theorem spared_iff (hlast : last < 65802) (hok : last < 266 ∨ (last - 10) % 256 ≠ 0) :
    s.first < last ↔ s.first < last + 1 ∧ Spared (droppedSlots last) s := by
  have hmem := fun t => droppedSlots_iff (s := t) hlast hok
  constructor
  · intro hs
    refine ⟨by omega, fun t ht => ?_⟩
    have hfirst := (hmem t).mp ht
    refine ⟨fun heq => by rw [heq] at hs; omega, fun hbelow => ?_⟩
    have hle := Slot.first_below hbelow
    omega
  · rintro ⟨hs, hspared⟩
    by_contra hge
    exact (hspared s ((hmem s).mpr (by omega))).1 rfl

theorem droppedSlots_length (hok : last < 266 ∨ (last - 10) % 256 ≠ 0) :
    (droppedSlots last).length ≤ takes last := by
  unfold droppedSlots takes
  by_cases h10 : last < 10
  · rw [if_pos (.inl h10), if_neg (by omega)]
    exact Nat.le_refl 1
  have hidx : directIndex last = (last - 10) % 256 := if_neg h10
  rw [hidx]
  by_cases hmod : (last - 10) % 256 = 0
  · rw [if_neg (by omega), if_neg (by omega), if_pos (by omega)]
    exact Nat.le_refl 2
  · rw [if_pos (.inr hmod), if_neg (by omega)]
    exact Nat.le_refl 1

/-- A file has been cut to `target` blocks. -/
structure CutTo (oi n target : Nat) (m m' : Bytes) : Prop where
  tree : SlotTree m' oi (·.first < target)
  kept : SlotsKept oi (·.first < target) m m'
  blocks : size2nblocks (oiSize m' oi) = target
  count : freeCount m' ≤ freeCount m + taken target n

theorem removeBlocks_safe (h : SlotTree m oi (·.first < n)) (hcount : size2nblocks (oiSize m oi) = n)
    (hmax : n ≤ 65802) (htarget : target ≤ n)
    (hok : ∀ k, target ≤ k → k < n → k < 266 ∨ (k - 10) % 256 ≠ 0)
    (hrun : removeBlocks oi target fuel m = some r) : r.2 = 0 ∧ CutTo oi n target m r.1 := by
  refine removeBlocks_run (P := fun m r => ∀ n, SlotTree m oi (·.first < n) →
    size2nblocks (oiSize m oi) = n → n ≤ 65802 → target ≤ n →
    (∀ k, target ≤ k → k < n → k < 266 ∨ (k - 10) % 256 ≠ 0) →
    r.2 = 0 ∧ CutTo oi n target m r.1) ?_ ?_ ?_ hrun n h hcount hmax htarget hok
  · intro m hle n h hcount _ htarget _
    obtain rfl : n = target := by omega
    exact ⟨rfl, h, SlotsKept.refl, hcount, Nat.le_add_right _ _⟩
  · intro m hlt hneg n h hcount hmax _ _
    obtain ⟨last, rfl⟩ : ∃ last, n = last + 1 := ⟨n - 1, by omega⟩
    have hfirst := first_dataSlot (k := last) (by omega)
    obtain ⟨hret, _⟩ := h.loses hcount (by omega) (show (dataSlot last).first < last + 1 by omega)
    omega
  · intro m r hlt _ hrest n h hcount hmax htarget hok
    obtain ⟨last, rfl⟩ : ∃ last, n = last + 1 := ⟨n - 1, by omega⟩
    have hlast : last < 266 ∨ (last - 10) % 256 ≠ 0 := hok last (by omega) (by omega)
    have hfirst := first_dataSlot (k := last) (by omega)
    obtain ⟨hret, hloses⟩ := h.loses hcount (by omega) (show (dataSlot last).first < last + 1 by omega)
    have hiff : ∀ s : Slot, s.first < last ↔ s.first < last + 1 ∧ Spared (droppedSlots last) s :=
      fun s => spared_iff (by omega) hlast
    obtain ⟨hr, hcut⟩ := hrest last (hloses.tree.congr hiff) hloses.blocks (by omega) (by omega)
      (fun k h1 h2 => hok k h1 (by omega))
    refine ⟨hr, hcut.tree, ?_, hcut.blocks, ?_⟩
    · refine (hloses.kept.mono fun s hs => ?_).trans hcut.kept
      exact ((hiff s).mp (by omega)).2
    · have hdropped := droppedSlots_length hlast
      have hone := hloses.count
      have hrest := hcut.count
      rw [taken_succ (by omega)]
      omega

end Shrink

section Grow

/-- A file of `n` blocks on its way to `target` blocks has `c` of them. -/
structure OnTheWay (oi n target : Nat) (m₀ m : Bytes) (c : Nat) : Prop where
  low : n ≤ c
  high : c ≤ target
  tree : SlotTree m oi (·.first < c)
  kept : SlotsKept oi (·.first < n) m₀ m
  blocks : size2nblocks (oiSize m oi) = c
  count : freeCount m + taken n c ≤ freeCount m₀
  exact_count : taken n target ≤ freeCount m₀ → freeCount m + taken n c = freeCount m₀

/-- For which blocks there is room, and what they may not be. -/
def GrowsSafely (m₀ : Bytes) (n target : Nat) : Prop :=
  ∀ k, n ≤ k → k < target → taken n (k + 1) ≤ freeCount m₀ →
    k < 266 ∨ 522 ≤ k ∧ ((k - 10) % 256 ≠ 0 ∨ taken n target ≤ freeCount m₀)

variable (hsafe : GrowsSafely m₀ n target) (hmax : target ≤ 65802)
include hsafe hmax

theorem OnTheWay.next (h : OnTheWay oi n target m₀ m c) (hlt : c < target) {m' : Bytes}
    (hgrows : Grows oi (·.first < c) c m m') (hle : slotCost m oi (addSlot c) ≤ freeCount m) :
    OnTheWay oi n target m₀ m' (c + 1) := by
  have hlow := h.low
  have hfree := h.count
  have hcount := hgrows.count
  rw [h.tree.cost (by omega)] at hle hcount
  have htaken := taken_succ (n := n) (k := c) h.low
  have hslot : addSlot c = dataSlot c := by
    apply addSlot_eq
    have hc := hsafe c hlow hlt (by omega)
    omega
  have htree := hgrows.tree
  have hkept := hgrows.kept
  rw [hslot] at htree hkept
  constructor
  · omega
  · omega
  · exact htree.congr fun s => first_lt_succ (by omega)
  · refine h.kept.trans (hkept.mono fun s hs => ⟨by omega, fun heq => ?_⟩)
    rw [heq, first_dataSlot (by omega)] at hs
    omega
  · exact hgrows.blocks
  · omega
  · intro hroom
    have hexact := h.exact_count hroom
    omega

/-- The undo of a call without success. -/
theorem OnTheWay.again (h : OnTheWay oi n target m₀ m c) (hlt : c < target) {x : Bytes}
    (hx : Restored oi (·.first < c) m x) (hfull : freeCount m < slotCost m oi (addSlot c))
    (hrun : removeBlocks oi n fuel x = some r) : r.2 = 0 ∧ OnTheWay oi n target m₀ r.1 n := by
  have hlow := h.low
  have hfree := h.count
  rw [h.tree.cost (by omega)] at hfull
  have htaken := taken_succ (n := n) (k := c) h.low
  have hnext := taken_mono (n := n) (j := c + 1) (k := target) hlt
  have hroom : ¬ taken n target ≤ freeCount m₀ := fun hroom => by
    have hexact := h.exact_count hroom
    omega
  obtain ⟨hr, hcut⟩ := removeBlocks_safe hx.tree (by rw [hx.size, h.blocks]) (by omega) h.low
    (fun k h1 h2 => by
      have hle := taken_mono (n := n) (j := k + 1) (k := c) h2
      have hk := hsafe k h1 (by omega) (by omega)
      omega) hrun
  refine ⟨hr, ?_⟩
  have hcount := hcut.count
  have hle := hx.count
  constructor
  · exact Nat.le_refl n
  · omega
  · exact hcut.tree
  · refine h.kept.trans (SlotsKept.trans ?_ hcut.kept)
    exact hx.kept.mono fun s hs => by omega
  · exact hcut.blocks
  · rw [taken_self]
    omega
  · exact fun h' => absurd h' hroom

theorem addBlocks_safe (h : OnTheWay oi n target m₀ m c) (hold : size2nblocks oldSize = n)
    (hnew : size2nblocks newSize = target) (hrun : addBlocks oi oldSize newSize fuel m = some r) :
    r.2 = 0 ∧ OnTheWay oi n target m₀ r.1 target := by
  subst hold hnew
  refine addBlocks_run (P := fun m r => ∀ c,
    OnTheWay oi (size2nblocks oldSize) (size2nblocks newSize) m₀ m c →
    r.2 = 0 ∧ OnTheWay oi (size2nblocks oldSize) (size2nblocks newSize) m₀ r.1
      (size2nblocks newSize)) ?_ ?_ ?_ ?_ ?_ hrun c h
  · intro m hle c h
    have hhigh := h.high
    have hblocks := h.blocks
    obtain rfl : c = size2nblocks newSize := by omega
    exact ⟨rfl, h⟩
  · intro m hlt hio c h
    rw [h.blocks] at hlt
    have hhigh := h.high
    rcases addBlock_cases h.tree (by omega) h.blocks with ⟨_, hret, _⟩ | ⟨_, hret, _⟩
    · rw [hret] at hio
      exact absurd hio (by decide)
    · rw [hret] at hio
      exact absurd hio (by decide)
  · intro m s fuel hlt hio hremoved hneg c h
    rw [h.blocks] at hlt
    rcases addBlock_cases h.tree (by omega) h.blocks with ⟨_, hret, _⟩ | ⟨hfull, _, hx⟩
    · rw [hret] at hio
      exact absurd hio (by decide)
    · obtain ⟨hs, _⟩ := h.again hsafe hmax hlt hx hfull hremoved
      omega
  · intro m s r fuel hlt hio hremoved _ hrest c h
    rw [h.blocks] at hlt
    rcases addBlock_cases h.tree (by omega) h.blocks with ⟨_, hret, _⟩ | ⟨hfull, _, hx⟩
    · rw [hret] at hio
      exact absurd hio (by decide)
    · exact hrest _ (h.again hsafe hmax hlt hx hfull hremoved).2
  · intro m r hlt _ hio hrest c h
    rw [h.blocks] at hlt
    rcases addBlock_cases h.tree (by omega) h.blocks with ⟨hle, _, hgrows⟩ | ⟨_, hret, _⟩
    · exact hrest _ (h.next hsafe hmax hlt hgrows hle)
    · exact absurd hret hio

end Grow

end CS111.Ospfs
