import CS111.Ospfs.BlockMap

/-!
# Well-formed files

Each slot of an inode serves a range of file blocks. In a well-formed file of `n` blocks a slot has a
block exactly if the first of them is one of the `n`, and different slots have different blocks.
-/

namespace CS111.Ospfs

open Memory

set_option autoImplicit false

variable {m m' : Bytes} {oi n j k b : Nat} {s t p : Slot}

namespace Slot

/-- The first file block that a slot serves. -/
def first : Slot → Nat
  | direct k => k
  | indirect => 10
  | indirect2 => 266
  | entry j => 10 + j
  | entry2 k => 266 + 256 * k
  | leaf k j => 266 + 256 * k + j

theorem first_parent (h : s.parent = some p) : p.first ≤ s.first := by
  cases s <;> simp only [parent, reduceCtorEq, Option.some.injEq] at h <;> subst h <;>
    simp only [first] <;> omega

theorem first_below (h : s.Below t) : t.first ≤ s.first := by
  rcases h with hp | hp
  · exact first_parent hp
  · cases hq : s.parent with
    | none =>
      rw [hq] at hp
      cases hp
    | some q =>
      rw [hq, Option.bind_some] at hp
      exact (first_parent hp).trans (first_parent hq)

end Slot

section DataSlots

theorem first_dataSlot (h : k < 65802) : (dataSlot k).first = k := by
  unfold dataSlot
  split
  · exact Nat.mod_eq_of_lt (by assumption)
  · split
    · simp only [Slot.first, Fin.ofNat]
      omega
    · simp only [Slot.first, Fin.ofNat]
      omega

theorem dataSlot_first (h : s.isIndex = false) : dataSlot s.first = s := by
  cases s with
  | direct k => exact dataSlot_direct k.isLt
  | entry j =>
    have hj := j.isLt
    have hfirst : (Slot.entry j).first = 10 + j := rfl
    have hindex : directIndex (10 + j) = (10 + j - 10) % 256 := if_neg (by omega)
    rw [hfirst, dataSlot_entry (by omega) (by omega), Slot.entry.injEq, Fin.ext_iff]
    exact hindex.trans (by omega)
  | leaf k j =>
    have hk := k.isLt
    have hj := j.isLt
    have hfirst : (Slot.leaf k j).first = 266 + 256 * k + j := rfl
    have hindex : directIndex (266 + 256 * k + j) = (266 + 256 * k + j - 10) % 256 :=
      if_neg (by omega)
    have hleaf := indirIndex_leaf (k := 266 + 256 * k + j) (by omega)
    rw [hfirst, dataSlot_leaf (by omega) (by omega), Slot.leaf.injEq, Fin.ext_iff, Fin.ext_iff]
    exact ⟨hleaf.trans (by omega), hindex.trans (by omega)⟩
  | indirect => cases h
  | indirect2 => cases h
  | entry2 k => cases h

end DataSlots

/-- A regular file or directory of `n` blocks, as the formatter writes it. -/
structure FileTree (m : Bytes) (oi n : Nat) : Prop where
  layout : Layout m oi
  ftype : oiFtype m oi ≠ FTYPE_SYMLINK
  count : size2nblocks (oiSize m oi) = n
  max : n ≤ 65802
  used : ∀ s, ptr m oi s ≠ 0 ↔ s.first < n
  allocated : ∀ s, ptr m oi s ≠ 0 → Allocated m (ptr m oi s)
  distinct : ∀ s t, ptr m oi s ≠ 0 → ptr m oi s = ptr m oi t → s = t

section FileTree
variable (h : FileTree m oi n)
include h

theorem FileTree.size (hn : 0 < n) : oiSize m oi ≤ 1024 * n ∧ 1024 * n < oiSize m oi + 1024 := by
  have hcount := h.count
  have hmax := h.max
  have hlt : oiSize m oi < 4294967296 := rd32_lt _ _
  unfold size2nblocks u32 at hcount
  omega

theorem FileTree.indexTree : IndexTree m oi (dataStart m) where
  bound s _ h0 := by
    have hsmall := h.layout.small
    obtain ⟨h1, h2, _⟩ := h.allocated s h0
    omega
  inj s t _ _ h0 heq := h.distinct s t h0 heq
  region := h.layout.inode_place.2

theorem FileTree.data_ne (hk : k < n) : ptr m oi (dataSlot k) ≠ 0 := by
  have hmax := h.max
  rw [h.used, first_dataSlot (by omega)]
  exact hk

theorem FileTree.blockOf_eq (hk : k < n) : blockOf m oi k = ptr m oi (dataSlot k) := by
  have hsize := h.size (by omega)
  have hmax := h.max
  apply blockOf_eq_ptr h.ftype (by omega) (by omega)
  intro p hp
  rw [h.used]
  have hle := Slot.first_below hp
  rw [first_dataSlot (by omega)] at hle
  omega

end FileTree

section BigFile

theorem bigFile_ptr (s : Slot) : ptr bigFile 3200 s =
    if s.first < 266 then if s = .indirect then 14 else if s.first < 10 then 4 + s.first
      else 5 + s.first else 0 := by
  have hdirect : ∀ k : Fin 10, ptr bigFile 3200 (.direct k) = 4 + k := by decide +kernel
  have hentry : ∀ j : Fin 256, ptr bigFile 3200 (.entry j) = 15 + j := by decide +kernel
  have hind2 : ptr bigFile 3200 .indirect2 = 0 := bigFile_reads.2.2.1.2.2.2.1
  cases s with
  | direct k =>
    have hfirst : (Slot.direct k).first = k := rfl
    rw [hdirect, hfirst, if_pos (by omega), if_neg (by simp), if_pos k.isLt]
  | indirect => exact bigFile_index.1
  | indirect2 => exact hind2
  | entry j =>
    have hfirst : (Slot.entry j).first = 10 + j := rfl
    rw [hentry, hfirst, if_pos (by omega), if_neg (by simp), if_neg (by omega)]
    omega
  | entry2 k =>
    have hfirst : (Slot.entry2 k).first = 266 + 256 * k := rfl
    rw [hfirst, if_neg (by omega)]
    exact ptr_below_zero (.inl rfl) hind2
  | leaf k j =>
    have hfirst : (Slot.leaf k j).first = 266 + 256 * k + j := rfl
    rw [hfirst, if_neg (by omega)]
    exact ptr_below_zero (.inr rfl) hind2

theorem bigFile_tree : FileTree bigFile 3200 266 := by
  have hused : ∀ s, ptr bigFile 3200 s ≠ 0 ↔ s.first < 266 := by
    intro s
    rw [bigFile_ptr]
    split
    · next hlt =>
      refine iff_of_true ?_ hlt
      split
      · decide
      · split <;> omega
    · next hge => exact iff_of_false (fun h => h rfl) hge
  constructor
  · exact bigFile_layout (i := 2) (by decide)
  · rw [bigFile_ftype]
    decide
  · rw [bigFile_size]
    rfl
  · decide
  · exact hused
  · intro s h0
    have hlt := (hused s).mp h0
    rw [bigFile_ptr, if_pos hlt]
    split
    · exact bigFile_allocated (by decide) (by decide)
    · split <;> exact bigFile_allocated (by omega) (by omega)
  · intro s t h0 heq
    have hs := (hused s).mp h0
    have ht := (hused t).mp (heq ▸ h0)
    rw [bigFile_ptr, bigFile_ptr, if_pos hs, if_pos ht] at heq
    have hindex : ∀ u : Slot, u.first < 266 → u ≠ .indirect → dataSlot u.first = u := by
      intro u hu hne
      apply dataSlot_first
      cases u with
      | indirect => exact absurd rfl hne
      | indirect2 => exact absurd hu (by decide)
      | entry2 k =>
        simp only [Slot.first] at hu
        omega
      | direct k => rfl
      | entry j => rfl
      | leaf k j => rfl
    by_cases hsi : s = .indirect
    · by_cases hti : t = .indirect
      · rw [hsi, hti]
      · rw [if_pos hsi, if_neg hti] at heq
        split at heq <;> omega
    · by_cases hti : t = .indirect
      · rw [if_neg hsi, if_pos hti] at heq
        split at heq <;> omega
      · rw [if_neg hsi, if_neg hti] at heq
        have hfirst : s.first = t.first := by
          split at heq <;> split at heq <;> omega
        rw [← hindex s hs hsi, ← hindex t ht hti, hfirst]

end BigFile

end CS111.Ospfs
