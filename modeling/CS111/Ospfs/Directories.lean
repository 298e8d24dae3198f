import CS111.Ospfs.Dirents
import CS111.Ospfs.Frames

/-!
# Directories under the directory operations

`IsDirectory` is what the operations rely on: no block is missing, the size is a number of entries,
and the last block is zero after the last entry. Two changes are special to directories: the search
for a blank entry, which may make the directory longer, and the writing of one entry.
-/

namespace CS111.Ospfs

open Memory

set_option autoImplicit false

variable {g : Geometry} {m m' m'' : Bytes} {d e i j k l n x a fuel : Nat}

structure IsDirectory (g : Geometry) (m : Bytes) (d : Nat) : Prop where
  exists_ino : d < g.ninodes
  ftype : oiFtype m (inodeAddr d) = FTYPE_DIR
  size_le : oiSize m (inodeAddr d) ≤ maxFileSize
  aligned : oiSize m (inodeAddr d) % 128 = 0
  complete : Complete g m d
  tail : ∀ x, oiSize m (inodeAddr d) ≤ x → x / 1024 < fileBlocks m d → fileByte g m d x = 0

/-- Entry `k` is one of a directory's entries. -/
def HasEntry (m : Bytes) (d k : Nat) : Prop := 128 * k < oiSize m (inodeAddr d)

section Directory
variable (hs : Sound g m) (hd : IsDirectory g m d)
include hd

theorem IsDirectory.hasBlocks : HasBlocks g m d := ⟨hd.exists_ino, by rw [hd.ftype]; decide⟩

theorem IsDirectory.fileBlocks_eq : fileBlocks m d = (oiSize m (inodeAddr d) + 1023) / 1024 :=
  fileBlocks_of_size hd.size_le

theorem IsDirectory.block_ne (hk : HasEntry m d k) : own g m (d, dataSlot (k / 8)) ≠ 0 := by
  apply hd.complete
  rw [hd.fileBlocks_eq]
  unfold HasEntry at hk
  omega

theorem IsDirectory.slot_lt (hk : HasEntry m d k) : k / 8 < 65802 := by
  have hsize := hd.size_le
  unfold HasEntry at hk
  unfold maxFileSize at hsize
  omega

omit hd in
theorem direntAt_block (j : Nat) (hj : j < 128) :
    (direntAt g m d k + j) / 1024 = own g m (d, dataSlot (k / 8)) := by
  unfold direntAt
  omega

include hs

theorem IsDirectory.mem_entries {od : Nat} :
    od ∈ entries m (inodeAddr d) ↔ ∃ k, HasEntry m d k ∧ od = direntAt g m d k :=
  CS111.Ospfs.mem_entries hs hd.hasBlocks hd.size_le

theorem IsDirectory.direntAt_eq (hk : HasEntry m d k) :
    ospfsInodeData m (inodeAddr d) (128 * k) = direntAt g m d k :=
  CS111.Ospfs.direntAt_eq hs hd.hasBlocks hd.size_le hk

/-- Different entries do not overlap. -/
theorem IsDirectory.dirent_apart (hk : HasEntry m d k) (hl : HasEntry m d l) (hne : k ≠ l) :
    direntAt g m d k + 128 ≤ direntAt g m d l ∨ direntAt g m d l + 128 ≤ direntAt g m d k := by
  unfold direntAt
  by_cases hblock : k / 8 = l / 8
  · rw [hblock]
    omega
  · have hown : own g m (d, dataSlot (k / 8)) ≠ own g m (d, dataSlot (l / 8)) := by
      intro heq
      have hslots := hs.owns.inj (hd.block_ne hk) heq
      exact hblock (dataSlot_inj (hd.slot_lt hk) (hd.slot_lt hl) (Prod.mk.inj hslots).2)
    omega

end Directory

theorem Same.direntAt (h : Same g d m m') : direntAt g m' d k = direntAt g m d k := by
  unfold CS111.Ospfs.direntAt
  rw [h.own_eq]

theorem Same.isDirectory (h : Same g d m m') (hd : IsDirectory g m d) : IsDirectory g m' d := by
  constructor
  · exact hd.exists_ino
  · rw [h.ftype, hd.ftype]
  · rw [h.size]
    exact hd.size_le
  · rw [h.size]
    exact hd.aligned
  · exact h.complete hd.complete
  · intro x hx hb
    have hcount : fileBlocks m' d = fileBlocks m d := by rw [fileBlocks, h.size, fileBlocks]
    rw [hcount] at hb
    rw [h.size] at hx
    rw [h.fileByte (hd.complete _ hb), hd.tail x hx hb]

/-- The entries of an unchanged directory. -/
theorem Same.entry_bytes (h : Same g d m m') (hd : IsDirectory g m d) (hk : HasEntry m d k)
    (hj : j < 128) : m' (CS111.Ospfs.direntAt g m' d k + j) = m (CS111.Ospfs.direntAt g m d k + j) := by
  rw [h.direntAt]
  exact h.blocks (dataSlot (k / 8)) _ (hd.block_ne hk) (direntAt_block j hj)

section EntryWritten

/-- Only entry `k` of directory `d` has new bytes. -/
def EntryWritten (g : Geometry) (d k : Nat) (m m' : Bytes) : Prop :=
  ∀ a, a < direntAt g m d k ∨ direntAt g m d k + 128 ≤ a → m' a = m a

variable (h : EntryWritten g d k m m') (hs : Sound g m) (hd : IsDirectory g m d)
variable (hk : HasEntry m d k)
include h hs hd hk

theorem EntryWritten.overwritten : Overwritten g d m m' := by
  apply Overwritten.of_block hs (dataSlot_isIndex (k / 8)) (hd.block_ne hk)
  intro a ha
  apply h
  unfold direntAt
  omega

theorem EntryWritten.direntAt_eq : direntAt g m' e l = direntAt g m e l := by
  unfold direntAt
  rw [(h.overwritten hs hd hk).own_eq]

theorem EntryWritten.others (hl : HasEntry m d l) (hne : l ≠ k) (hj : j < 128) :
    m' (direntAt g m' d l + j) = m (direntAt g m d l + j) := by
  rw [h.direntAt_eq hs hd hk]
  apply h
  have hapart := hd.dirent_apart hs hl hk hne
  omega

theorem EntryWritten.isDirectory (he : IsDirectory g m e) : IsDirectory g m' e := by
  have hover := h.overwritten hs hd hk
  by_cases hed : e = d
  · subst hed
    have hsize := hover.size hd.exists_ino
    have hcount : fileBlocks m' e = fileBlocks m e := by rw [fileBlocks, hsize, fileBlocks]
    constructor
    · exact hd.exists_ino
    · rw [hover.ftype hd.exists_ino, hd.ftype]
    · rw [hsize]
      exact hd.size_le
    · rw [hsize]
      exact hd.aligned
    · intro l hl
      rw [hcount] at hl
      rw [hover.own_eq]
      exact hd.complete l hl
    · intro x hx hb
      rw [hcount] at hb
      rw [hsize] at hx
      rw [← hd.tail x hx hb]
      unfold fileByte
      rw [hover.own_eq]
      apply h
      have haligned := hd.aligned
      unfold HasEntry at hk
      unfold direntAt
      by_cases hblock : x / 1024 = k / 8
      · rw [hblock]
        omega
      · have hown : own g m (e, dataSlot (x / 1024)) ≠ own g m (e, dataSlot (k / 8)) := by
          intro heq
          have hslots := hs.owns.inj (hd.complete _ hb) heq
          have hxlt : x / 1024 < 65802 := by
            have hle := fileBlocks_le hd.size_le
            omega
          exact hblock (dataSlot_inj hxlt (hd.slot_lt hk) (Prod.mk.inj hslots).2)
        omega
  · exact (hover.same he.exists_ino hed).isDirectory he

end EntryWritten

section Blank

/-- A new size with the same number of blocks. -/
theorem changeSize_stays {newSize : Nat} {r : Int} (hblocks : size2nblocks newSize = fileBlocks m i)
    (h : changeSize fuel m (inodeAddr i) newSize = some (m', r)) :
    m' = setSize m (inodeAddr i) newSize ∧ r = 0 := by
  unfold changeSize at h
  cases hadd : addBlocks (inodeAddr i) (oiSize m (inodeAddr i)) newSize fuel m with
  | none =>
    rw [hadd] at h
    cases h
  | some r₁ =>
    obtain ⟨m₁, r₁⟩ := r₁
    obtain ⟨rfl, rfl⟩ := addBlocks_stop (by omega) hadd
    have hrem : ∀ s, removeBlocks (inodeAddr i) (size2nblocks newSize) fuel m₁ = some s →
        s = (m₁, 0) := by
      intro s hs
      cases fuel with
      | zero => cases hs
      | succ fuel =>
        rw [removeBlocks, if_neg (by rw [hblocks]; exact Nat.lt_irrefl _)] at hs
        exact (Option.some.inj hs).symm
    simp only [hadd, Int.lt_irrefl, if_false] at h
    cases hrun : removeBlocks (inodeAddr i) (size2nblocks newSize) fuel m₁ with
    | none =>
      rw [hrun] at h
      cases h
    | some s =>
      rw [hrun, hrem s hrun] at h
      simp only [Int.lt_irrefl, if_false, Option.some.injEq, Prod.mk.injEq] at h
      exact ⟨h.1.symm, h.2.symm⟩

def firstBlank (m : Bytes) (dirOi : Nat) : Option Nat :=
  (entries m dirOi).find? fun od => odIno m od == 0

theorem createBlankDirentry_of_some {fuel dirOi od : Nat} {m : Bytes}
    (h : firstBlank m dirOi = some od) :
    createBlankDirentry fuel m dirOi = some (m, .ok od) := by
  unfold firstBlank at h
  unfold createBlankDirentry
  rw [h]

theorem createBlankDirentry_of_none {fuel dirOi : Nat} {m : Bytes} (h : firstBlank m dirOi = none) :
    createBlankDirentry fuel m dirOi =
      (changeSize fuel m dirOi (u32 (oiSize m dirOi + 128))).bind fun r =>
        if r.2 < 0 then some (r.1, .error r.2)
        else some (r.1, .ok (ospfsInodeData r.1 dirOi (oiSize m dirOi))) := by
  unfold firstBlank at h
  unfold createBlankDirentry
  rw [h]
  dsimp only
  cases changeSize fuel m dirOi (u32 (oiSize m dirOi + 128)) with
  | none => rfl
  | some r => rfl

/-- Where a search for a blank entry makes the directory longer, and to which size. -/
def blankRequest (m : Bytes) (dirOi : Nat) : Option Nat :=
  if (firstBlank m dirOi).isSome then none else some (u32 (oiSize m dirOi + 128))

/-- A search for a blank entry that found entry `k`; or the directory has grown to have it, and it is
all zero. -/
structure Blank (g : Geometry) (d k : Nat) (m m' : Bytes) : Prop where
  change : Change g d m m'
  dir : IsDirectory g m' d
  found : HasEntry m' d k
  blank : odIno m' (direntAt g m' d k) = 0
  grows : ∀ l, HasEntry m d l → HasEntry m' d l
  new : ∀ l, HasEntry m' d l → HasEntry m d l ∨ l = k
  kept : ∀ l j, HasEntry m d l → j < 128 →
    m' (direntAt g m' d l + j) = m (direntAt g m d l + j)
  source : (m' = m ∧ firstBlank m (inodeAddr d) = some (direntAt g m d k)) ∨
    (firstBlank m (inodeAddr d) = none ∧ ∀ j, j < 128 → m' (direntAt g m' d k + j) = 0)

/-- What a directory becomes that gets one more entry. -/
structure Longer (g : Geometry) (d : Nat) (m m' : Bytes) : Prop where
  change : Change g d m m'
  size : oiSize m' (inodeAddr d) = oiSize m (inodeAddr d) + 128
  complete : Complete g m' d
  kept : ∀ x, x / 1024 < fileBlocks m d → fileByte g m' d x = fileByte g m d x
  zero : ∀ x, fileBlocks m d ≤ x / 1024 → x / 1024 < fileBlocks m' d → fileByte g m' d x = 0

variable (hs : Sound g m) (hd : IsDirectory g m d)
include hd

theorem Longer.blank (h : Longer g d m m') (hle : oiSize m' (inodeAddr d) ≤ maxFileSize)
    (hnone : firstBlank m (inodeAddr d) = none) :
    Blank g d (oiSize m (inodeAddr d) / 128) m m' := by
  have haligned := hd.aligned
  have hsize := h.size
  have hblocks := hd.fileBlocks_eq
  have hblocks' : fileBlocks m' d = (oiSize m' (inodeAddr d) + 1023) / 1024 :=
    fileBlocks_of_size hle
  -- what lies after the old end is zero
  have hzero : ∀ x, oiSize m (inodeAddr d) ≤ x → x / 1024 < fileBlocks m' d →
      fileByte g m' d x = 0 := by
    intro x hx hb
    by_cases hold : x / 1024 < fileBlocks m d
    · rw [h.kept x hold, hd.tail x hx hold]
    · exact h.zero x (by omega) hb
  have hclear : ∀ j, j < 128 → m' (direntAt g m' d (oiSize m (inodeAddr d) / 128) + j) = 0 := by
    intro j hj
    have hbyte := fileByte_dirent (g := g) (m := m') (i := d)
      (k := oiSize m (inodeAddr d) / 128) hj
    rw [← hbyte]
    exact hzero _ (by omega) (by omega)
  constructor
  · exact h.change
  · constructor
    · exact hd.exists_ino
    · rw [h.change.ftype hd.exists_ino, hd.ftype]
    · exact hle
    · omega
    · exact h.complete
    · intro x hx hb
      exact hzero x (by omega) hb
  · unfold HasEntry
    omega
  · exact rd32_eq_zero fun j hj => hclear j (by omega)
  · intro l hl
    unfold HasEntry at hl ⊢
    omega
  · intro l hl
    unfold HasEntry at hl ⊢
    omega
  · intro l j hl hj
    unfold HasEntry at hl
    have hbyte := fileByte_dirent (g := g) (m := m) (i := d) (k := l) hj
    have hbyte' := fileByte_dirent (g := g) (m := m') (i := d) (k := l) hj
    rw [← hbyte, ← hbyte']
    exact h.kept _ (by omega)
  · exact .inr ⟨hnone, hclear⟩

omit hd in
theorem Blank.refl (hs : Sound g m) (hd : IsDirectory g m d) (hk : HasEntry m d k)
    (h0 : odIno m (direntAt g m d k) = 0)
    (hfirst : firstBlank m (inodeAddr d) = some (direntAt g m d k)) : Blank g d k m m := by
  constructor
  · exact Change.refl hs d
  · exact hd
  · exact hk
  · exact h0
  · exact fun l hl => hl
  · exact fun l hl => .inl hl
  · exact fun l j _ _ => rfl
  · exact .inl ⟨rfl, hfirst⟩

include hs

/-- `change_size` for one more entry, when the block count is the same. -/
theorem longer_setSize (hblocks : size2nblocks (oiSize m (inodeAddr d) + 128) = fileBlocks m d) :
    Longer g d m (setSize m (inodeAddr d) (oiSize m (inodeAddr d) + 128)) := by
  have hsize := hd.size_le
  have hkeep := setSize_keep hs hd.exists_ino (K := fun _ => True) (oiSize m (inodeAddr d) + 128)
  unfold maxFileSize at hsize
  have hnew : oiSize (setSize m (inodeAddr d) (oiSize m (inodeAddr d) + 128)) (inodeAddr d) =
      oiSize m (inodeAddr d) + 128 := oiSize_setSize (by omega)
  have hcount : fileBlocks (setSize m (inodeAddr d) (oiSize m (inodeAddr d) + 128)) d =
      fileBlocks m d := by rw [fileBlocks, hnew, hblocks]
  constructor
  · exact setSize_change hs hd.exists_ino _
  · exact hnew
  · intro k hk
    rw [hcount] at hk
    rw [hkeep.own_eq _ trivial (dataSlot_isIndex k)]
    exact hd.complete k hk
  · intro x hx
    unfold fileByte
    rw [hkeep.own_eq _ trivial (dataSlot_isIndex _)]
    exact hkeep.data _ trivial (dataSlot_isIndex _) (hd.complete _ hx) _ (by omega)
  · intro x h1 h2
    omega

omit hs in
theorem SizeChanged.longer (h : SizeChanged g d (oiSize m (inodeAddr d) + 128) m m')
    (hle : oiSize m (inodeAddr d) + 128 ≤ maxFileSize) : Longer g d m m' := by
  have hblocks := hd.fileBlocks_eq
  unfold maxFileSize at hle
  have hnew : size2nblocks (oiSize m (inodeAddr d) + 128) =
      (oiSize m (inodeAddr d) + 128 + 1023) / 1024 := size2nblocks_of_lt (by omega)
  constructor
  · exact h.change
  · exact h.size
  · exact h.complete hd.complete
  · intro x hx
    have hkept : FirstSlots (min (fileBlocks m d) (size2nblocks (oiSize m (inodeAddr d) + 128)))
        (dataSlot (x / 1024)) := ⟨x / 1024, by omega, rfl⟩
    unfold fileByte
    rw [h.keep.own_eq _ hkept (dataSlot_isIndex _)]
    exact h.keep.data _ hkept (dataSlot_isIndex _) (hd.complete _ hx) _ (by omega)
  · intro x h1 h2
    rw [fileBlocks, h.size] at h2
    exact (h.fresh _ h1 h2).2 _ (by omega)

/-- The search succeeds, if it returns. -/
theorem createBlankDirentry_spec {r : Except Int Nat}
    (hroom : ∀ sz, blankRequest m (inodeAddr d) = some sz →
      WithinIndirect (oiSize m (inodeAddr d)) sz)
    (h : createBlankDirentry fuel m (inodeAddr d) = some (m', r)) :
    ∃ k, Blank g d k m m' ∧ r = .ok (direntAt g m' d k) := by
  have hsize := hd.size_le
  have haligned := hd.aligned
  have hcount := hd.fileBlocks_eq
  unfold blankRequest at hroom
  cases hfind : firstBlank m (inodeAddr d) with
  | some od =>
    rw [createBlankDirentry_of_some hfind] at h
    cases h
    obtain ⟨k, hk, rfl⟩ := (hd.mem_entries hs).mp (List.mem_of_find?_eq_some hfind)
    have hzero := List.find?_some hfind
    have h0 : odIno m (direntAt g m d k) = 0 := beq_iff_eq.mp hzero
    exact ⟨k, Blank.refl hs hd hk h0 hfind, rfl⟩
  | none =>
    rw [hfind] at hroom
    rw [createBlankDirentry_of_none hfind] at h
    have hold : u32 (oiSize m (inodeAddr d) + 128) = oiSize m (inodeAddr d) + 128 := by
      unfold maxFileSize at hsize
      exact u32_of_lt (by omega)
    have hwithin := hroom _ rfl
    rw [hold] at h hwithin
    unfold WithinIndirect at hwithin
    have hle : oiSize m (inodeAddr d) + 128 ≤ maxFileSize := by
      unfold maxFileSize at hsize ⊢
      omega
    have hnew : size2nblocks (oiSize m (inodeAddr d) + 128) =
        (oiSize m (inodeAddr d) + 128 + 1023) / 1024 := by
      unfold maxFileSize at hle
      exact size2nblocks_of_lt (by omega)
    cases hrun : changeSize fuel m (inodeAddr d) (oiSize m (inodeAddr d) + 128) with
    | none =>
      rw [hrun] at h
      cases h
    | some s =>
      obtain ⟨m₁, r₁⟩ := s
      have hlonger : r₁ = 0 ∧ Longer g d m m₁ := by
        by_cases hsame : size2nblocks (oiSize m (inodeAddr d) + 128) = fileBlocks m d
        · obtain ⟨rfl, rfl⟩ := changeSize_stays hsame hrun
          exact ⟨rfl, longer_setSize hs hd hsame⟩
        · obtain ⟨hr, hch⟩ := changeSize_complete hs hd.hasBlocks (by omega) hd.complete
            (by unfold maxFileSize at hle; omega) (by omega) hrun
          exact ⟨hr, hch.longer hd hle⟩
      obtain ⟨rfl, hlonger⟩ := hlonger
      have hblank := hlonger.blank hd (by rw [hlonger.size]; exact hle) hfind
      rw [hrun] at h
      simp only [Option.bind_some, Int.lt_irrefl, if_false, Option.some.injEq, Prod.mk.injEq] at h
      obtain ⟨rfl, rfl⟩ := h
      refine ⟨_, hblank, ?_⟩
      have haddr := hblank.dir.direntAt_eq hblank.change.sound hblank.found
      rw [show 128 * (oiSize m (inodeAddr d) / 128) = oiSize m (inodeAddr d) by omega] at haddr
      rw [haddr]

end Blank

end CS111.Ospfs
