import Mathlib.Data.List.Find
import CS111.Ospfs.Directories
import CS111.Ospfs.Lookup

/-!
# What the directory operations write

Each operation on a directory that returns is taken apart into the changes it makes one after the
other: a blank entry, the bytes of one entry, one inode.
-/

namespace CS111.Ospfs

open Memory

set_option autoImplicit false

variable {g : Geometry} {m m' : Bytes} {d i j k l v od fuel : Nat} {name : Name}
variable {s s' : State} {ret : Int}

section Entry

theorem setOdIno_written (v : Nat) : EntryWritten g d k m (setOdIno m (direntAt g m d k) v) :=
  fun _ ha => wr32_outside (by omega)

theorem setEntry_written (h : name.length ≤ 123) (v : Nat) :
    EntryWritten g d k m (setEntry m (direntAt g m d k) v name) := by
  intro a ha
  unfold setEntry
  rw [store_outside (by omega)]
  exact wr32_outside (by omega)

theorem setEntryTerminated_written (h : name.length ≤ 123) (v : Nat) :
    EntryWritten g d k m (setEntryTerminated m (direntAt g m d k) v name) := by
  intro a ha
  unfold setEntryTerminated
  rw [store_outside (by simp only [List.length_singleton]; omega)]
  exact setEntry_written h v a ha

theorem odIno_setOdIno (h : v < 4294967296) : odIno (setOdIno m od v) od = v :=
  rd32_wr32_of_lt m od h

theorem odIno_setEntry (h : v < 4294967296) : odIno (setEntry m od v name) od = v := by
  have hkept : rd32 (store (setOdIno m od v) (od + 4) name) od = rd32 (setOdIno m od v) od :=
    rd32_store_disjoint (.inl (by omega))
  exact hkept.trans (odIno_setOdIno h)

theorem odIno_setEntryTerminated (h : v < 4294967296) :
    odIno (setEntryTerminated m od v name) od = v := by
  have hkept : rd32 (store (setEntry m od v name) (od + 4 + name.length) [0]) od =
      rd32 (setEntry m od v name) od := rd32_store_disjoint (.inl (by omega))
  exact hkept.trans (odIno_setEntry h)

end Entry

section Inode

theorem Sound.ospfsInode_iff (hs : Sound g m) {oi : Nat} :
    ospfsInode m i = some oi ↔ i < g.ninodes ∧ oi = inodeAddr i := by
  constructor
  · intro h
    by_cases hi : i < g.ninodes
    · rw [hs.inode hi, Option.some.injEq] at h
      exact ⟨hi, h.symm⟩
    · unfold ospfsInode at h
      rw [hs.ninodes, if_pos (by omega)] at h
      cases h
  · rintro ⟨hi, rfl⟩
    exact hs.inode hi

theorem findEmptyInode_some (hs : Sound g m) (h : findEmptyInode m = some i) :
    2 ≤ i ∧ i < g.ninodes ∧ oiNlink m (inodeAddr i) = 0 := by
  unfold findEmptyInode at h
  have hmem := List.mem_of_find?_eq_some h
  have hfree := List.find?_some h
  obtain ⟨j, _, rfl⟩ := List.mem_map.mp hmem
  cases hoi : ospfsInode m (j + 2) with
  | none =>
    simp only [hoi] at hfree
    cases hfree
  | some oi =>
    obtain ⟨hlt, rfl⟩ := hs.ospfsInode_iff.mp hoi
    simp only [hoi] at hfree
    exact ⟨by omega, hlt, beq_iff_eq.mp hfree⟩

theorem tick_mounted (h : s.nwritesToCrash = -1) : s.tick = some s := by
  unfold State.tick
  rw [h]
  rfl

end Inode

section Renew

/-- An inode has been made anew, as a regular file or a symbolic link with one link. -/
structure Made (oi : Nat) (m m' : Bytes) : Prop where
  outside : ∀ a, a < oi ∨ oi + 64 ≤ a → m' a = m a
  ftype : oiFtype m' oi = FTYPE_REG ∨ oiFtype m' oi = FTYPE_SYMLINK
  nlink : oiNlink m' oi = 1

/-- Inode `i` has been made anew, and has no blocks. -/
structure Remade (g : Geometry) (i : Nat) (m m' : Bytes) : Prop extends Renewed g i m m' where
  ftype : oiFtype m' (inodeAddr i) = FTYPE_REG ∨ oiFtype m' (inodeAddr i) = FTYPE_SYMLINK
  nlink : oiNlink m' (inodeAddr i) = 1
  size : oiFtype m' (inodeAddr i) ≠ FTYPE_SYMLINK → oiSize m' (inodeAddr i) = 0

theorem wr32_zero_inside {a x : Nat} (h1 : a ≤ x) (h2 : x < a + 4) : wr32 m a 0 x = 0 := by
  have hzero : wordBytes 0 = List.replicate 4 0 := rfl
  have hlen : x - a < (wordBytes 0).length := show x - a < 4 by omega
  have hbyte : wr32 m a 0 (a + (x - a)) = (wordBytes 0)[x - a] := store_inside hlen
  rw [show a + (x - a) = x by omega] at hbyte
  rw [hbyte]
  simp only [hzero, List.getElem_replicate]

theorem initRegular_pointers (mode : Nat) {b : Nat} (h1 : 16 ≤ b) (h2 : b < 64) :
    initRegular m (inodeAddr i) mode (inodeAddr i + b) = 0 := by
  unfold initRegular setIndirect2
  by_cases h60 : 60 ≤ b
  · exact wr32_zero_inside (by omega) (by omega)
  rw [wr32_outside (by omega)]
  by_cases h56 : 56 ≤ b
  · exact wr32_zero_inside (by omega) (by omega)
  unfold setIndirect
  rw [wr32_outside (by omega)]
  exact fill_inside (by omega)

/-- The size, the type and the link count, as `ospfs_create` sets them. -/
theorem initRegular_fields {oi : Nat} (mode : Nat) {a : Nat} (ha : a < oi + 12 ∨ oi + 64 ≤ a) :
    initRegular m oi mode a = setNlink (setFtype (setSize m oi 0) oi FTYPE_REG) oi 1 a := by
  unfold initRegular setMode setIndirect setIndirect2
  rw [wr32_outside (by omega), wr32_outside (by omega), fill_outside (by omega),
    wr32_outside (by omega)]

theorem initRegular_ftype {oi : Nat} (mode : Nat) : oiFtype (initRegular m oi mode) oi = FTYPE_REG := by
  refine (rd32_congr fun k hk => initRegular_fields mode (by omega)).trans ?_
  unfold setNlink setFtype
  rw [rd32_wr32_ne (by omega)]
  exact rd32_wr32_of_lt _ _ (by decide)

theorem initRegular_made {oi : Nat} (mode : Nat) : Made oi m (initRegular m oi mode) := by
  constructor
  · intro a ha
    rw [initRegular_fields mode (by omega)]
    unfold setNlink setFtype setSize
    rw [wr32_outside (by omega), wr32_outside (by omega), wr32_outside (by omega)]
  · exact .inl (initRegular_ftype mode)
  · refine (rd32_congr fun k hk => initRegular_fields mode (by omega)).trans ?_
    exact rd32_wr32_of_lt _ _ (by decide)

theorem initRegular_remade (mode : Nat) (hi : i < g.ninodes) :
    Remade g i m (initRegular m (inodeAddr i) mode) := by
  have hmade : Made (inodeAddr i) m (initRegular m (inodeAddr i) mode) := initRegular_made mode
  constructor
  · constructor
    · exact hmade.outside
    · intro s
      have hf : oiFtype (initRegular m (inodeAddr i) mode) (inodeAddr i) ≠ FTYPE_SYMLINK := by
        rw [initRegular_ftype]
        decide
      rw [own_of hi hf]
      exact ptr_eq_zero (fun k h1 h2 => initRegular_pointers mode h1 h2) s
  · exact hmade.ftype
  · exact hmade.nlink
  · intro _
    refine (rd32_congr fun k hk => initRegular_fields mode (by omega)).trans ?_
    unfold setNlink setFtype
    rw [rd32_wr32_ne (by omega), rd32_wr32_ne (by omega)]
    exact rd32_wr32_of_lt _ _ (by decide)

theorem initSymlink_ftype {oi : Nat} {symname : Name} :
    oiFtype (initSymlink m oi symname) oi = FTYPE_SYMLINK := by
  unfold initSymlink setNlink setFtype oiFtype
  rw [rd32_store_disjoint (by omega), rd32_wr32_ne (by omega)]
  exact rd32_wr32_of_lt _ _ (by decide)

theorem initSymlink_made {oi : Nat} {symname : Name} (h : symname.length ≤ 51) :
    Made oi m (initSymlink m oi symname) := by
  constructor
  · intro a ha
    unfold initSymlink setNlink setFtype setSize
    rw [store_outside (by omega), wr32_outside (by omega), wr32_outside (by omega),
      wr32_outside (by omega)]
  · exact .inr initSymlink_ftype
  · unfold initSymlink oiNlink
    rw [rd32_store_disjoint (by omega)]
    exact rd32_wr32_of_lt _ _ (by decide)

theorem initSymlink_remade {symname : Name} (h : symname.length ≤ 51) :
    Remade g i m (initSymlink m (inodeAddr i) symname) := by
  have hmade : Made (inodeAddr i) m (initSymlink m (inodeAddr i) symname) := initSymlink_made h
  constructor
  · constructor
    · exact hmade.outside
    · intro s
      unfold own
      exact if_neg fun hc => hc.2 initSymlink_ftype
  · exact hmade.ftype
  · exact hmade.nlink
  · intro hf
    exact absurd initSymlink_ftype hf

end Renew

section Insert

/-- The growth of the directory that an insertion asks for. -/
def insertRequest (m : Bytes) (dirOi : Nat) (name : Name) : Option Nat :=
  if name.length > 123 ∨ (findDirentry m dirOi name).isSome then none else blankRequest m dirOi

/-- Entry `k` of the directory, which was blank, has become the name of the new inode `i`. -/
structure Inserted (g : Geometry) (d k i : Nat) (name : Name) (init : Bytes → Nat → Bytes)
    (m m₁ m' : Bytes) : Prop where
  blank : Blank g d k m m₁
  empty : findEmptyInode m₁ = some i
  remade : Remade g i (setEntryTerminated m₁ (direntAt g m₁ d k) i name) m'
  data : m' = init (setEntryTerminated m₁ (direntAt g m₁ d k) i name) (inodeAddr i)

theorem mkLinuxInode_false {newInode : Bool} (hs : Sound g m) (hi : i < g.ninodes)
    (h : ospfsMkLinuxInode m i newInode = some false) : newInode = false := by
  unfold ospfsMkLinuxInode at h
  rw [hs.inode hi] at h
  cases newInode with
  | false => rfl
  | true =>
    simp only [Bool.not_true, Bool.false_eq_true, if_false] at h
    split at h <;> cases h

variable (hs : Sound g s.data) (hd : IsDirectory g s.data d)
include hs hd

/-- `ospfs_create` and `ospfs_symlink` on a directory. -/
theorem insertEntry_cases {newInode : Bool} {init : Bytes → Nat → Bytes} (hname : name.length ≤ 123)
    (hroom : ∀ sz, insertRequest s.data (inodeAddr d) name = some sz →
      WithinIndirect (oiSize s.data (inodeAddr d)) sz)
    (hinit : ∀ m i, i < g.ninodes → Remade g i m (init m (inodeAddr i)))
    (h : insertEntry fuel s d name newInode init = some (s', ret)) :
    s'.nwritesToCrash = s.nwritesToCrash ∧
      (((findDirentry s.data (inodeAddr d) name).isSome = true ∧ ret = -EEXIST ∧ s' = s) ∨
        (findDirentry s.data (inodeAddr d) name = none ∧ ∃ k m₁, Blank g d k s.data m₁ ∧
          ((findEmptyInode m₁ = none ∧ ret = -ENOSPC ∧ s'.data = m₁) ∨
            ∃ i, Inserted g d k i name init s.data m₁ s'.data ∧
              (ret = 0 ∨ ret = -ENOMEM ∧ newInode = false)))) := by
  unfold insertEntry at h
  rw [hs.inode hd.exists_ino] at h
  dsimp only at h
  by_cases hbound : (findDirentry s.data (inodeAddr d) name).isSome = true
  · rw [if_pos hbound, Option.some.injEq, Prod.mk.injEq] at h
    obtain ⟨rfl, rfl⟩ := h
    exact ⟨rfl, .inl ⟨hbound, rfl, rfl⟩⟩
  rw [if_neg hbound] at h
  have hnone := Option.not_isSome_iff_eq_none.mp hbound
  unfold insertRequest at hroom
  rw [if_neg (not_or.mpr ⟨by omega, hbound⟩)] at hroom
  cases hblank : createBlankDirentry fuel s.data (inodeAddr d) with
  | none =>
    rw [hblank] at h
    cases h
  | some r =>
    obtain ⟨m₁, r⟩ := r
    obtain ⟨k, hk, rfl⟩ := createBlankDirentry_spec hs hd hroom hblank
    have hs₁ := hk.change.sound
    rw [hblank] at h
    dsimp only at h
    cases hempty : findEmptyInode m₁ with
    | none =>
      have htwo := g.two_le_ninodes
      rw [hempty] at h
      dsimp only at h
      rw [if_neg (by rw [hs₁.ninodes]; omega), Option.some.injEq, Prod.mk.injEq] at h
      obtain ⟨rfl, rfl⟩ := h
      exact ⟨rfl, .inr ⟨hnone, k, m₁, hk, .inl ⟨hempty, rfl, rfl⟩⟩⟩
    | some i =>
      obtain ⟨-, hi, -⟩ := findEmptyInode_some hs₁ hempty
      have hentry := (setEntryTerminated_written hname i).overwritten hs₁ hk.dir hk.found
      have hremade := hinit (setEntryTerminated m₁ (direntAt g m₁ d k) i name) i hi
      rw [hempty] at h
      dsimp only at h
      rw [hs₁.inode hi] at h
      dsimp only at h
      split at h
      · cases h
      · next hmk =>
        rw [Option.some.injEq, Prod.mk.injEq] at h
        obtain ⟨rfl, rfl⟩ := h
        have hmemory := mkLinuxInode_false (hremade.sound hentry.sound hi) hi hmk
        exact ⟨rfl, .inr ⟨hnone, k, m₁, hk, .inr ⟨i, ⟨hk, hempty, hremade, rfl⟩, .inr ⟨rfl, hmemory⟩⟩⟩⟩
      · rw [Option.some.injEq, Prod.mk.injEq] at h
        obtain ⟨rfl, rfl⟩ := h
        exact ⟨rfl, .inr ⟨hnone, k, m₁, hk, .inr ⟨i, ⟨hk, hempty, hremade, rfl⟩, .inl rfl⟩⟩⟩

/-- Entry `k` of the directory, which was blank, has become one more name of inode `i`. -/
structure Linked (g : Geometry) (d k i : Nat) (name : Name) (m m₁ m' : Bytes) : Prop where
  blank : Blank g d k m m₁
  exists_ino : i < g.ninodes
  data : m' = setNlink (setEntry m₁ (direntAt g m₁ d k) i name) (inodeAddr i)
    (u32 (oiNlink (setEntry m₁ (direntAt g m₁ d k) i name) (inodeAddr i) + 1))

theorem ospfsLink_cases (hmounted : s.nwritesToCrash = -1)
    (hroom : ∀ sz, insertRequest s.data (inodeAddr d) name = some sz →
      WithinIndirect (oiSize s.data (inodeAddr d)) sz)
    (h : ospfsLink fuel s i d name = some (s', ret)) :
    s'.nwritesToCrash = -1 ∧
      ((s' = s ∧ ret < 0) ∨
        (ret = 0 ∧ name.length ≤ 123 ∧ findDirentry s.data (inodeAddr d) name = none ∧
          ∃ k m₁, Linked g d k i name s.data m₁ s'.data)) := by
  unfold ospfsLink at h
  rw [tick_mounted hmounted] at h
  dsimp only at h
  rw [hs.inode hd.exists_ino] at h
  dsimp only at h
  by_cases hlong : name.length > 123
  · rw [if_pos hlong, Option.some.injEq, Prod.mk.injEq] at h
    obtain ⟨rfl, rfl⟩ := h
    exact ⟨hmounted, .inl ⟨rfl, by decide⟩⟩
  rw [if_neg hlong] at h
  by_cases hbound : (findDirentry s.data (inodeAddr d) name).isSome = true
  · rw [if_pos hbound, Option.some.injEq, Prod.mk.injEq] at h
    obtain ⟨rfl, rfl⟩ := h
    exact ⟨hmounted, .inl ⟨rfl, by decide⟩⟩
  rw [if_neg hbound] at h
  have hnone := Option.not_isSome_iff_eq_none.mp hbound
  unfold insertRequest at hroom
  rw [if_neg (not_or.mpr ⟨hlong, hbound⟩)] at hroom
  cases hblank : createBlankDirentry fuel s.data (inodeAddr d) with
  | none =>
    rw [hblank] at h
    cases h
  | some r =>
    obtain ⟨m₁, r⟩ := r
    obtain ⟨k, hk, rfl⟩ := createBlankDirentry_spec hs hd hroom hblank
    rw [hblank] at h
    dsimp only at h
    have hname : name.length ≤ 123 := by omega
    have hentry := (setEntry_written hname i).overwritten hk.change.sound hk.dir hk.found
    split at h
    · cases h
    · next oi hoi =>
      obtain ⟨hi, rfl⟩ := hentry.sound.ospfsInode_iff.mp hoi
      rw [Option.some.injEq, Prod.mk.injEq] at h
      obtain ⟨rfl, rfl⟩ := h
      exact ⟨hmounted, .inr ⟨rfl, hname, hnone, k, m₁, hk, hi, rfl⟩⟩

end Insert

section Search

/-- The number of the first entry with a name. -/
def entryNamed (g : Geometry) (m : Bytes) (d : Nat) (name : Name) : Option Nat :=
  (List.range (oiSize m (inodeAddr d) / 128)).find? fun k => entryMatches m name (direntAt g m d k)

theorem entryNamed_some (ha : oiSize m (inodeAddr d) % 128 = 0) :
    entryNamed g m d name = some k ↔ HasEntry m d k ∧
      entryMatches m name (direntAt g m d k) = true ∧
      ∀ l, l < k → entryMatches m name (direntAt g m d l) = false := by
  unfold entryNamed HasEntry
  rw [List.find?_range_eq_some, List.mem_range]
  constructor
  · rintro ⟨hmatch, hk, hbefore⟩
    refine ⟨by omega, hmatch, fun l hl => ?_⟩
    simpa using hbefore l hl
  · rintro ⟨hk, hmatch, hbefore⟩
    refine ⟨hmatch, by omega, fun l hl => ?_⟩
    simpa using hbefore l hl

theorem entryNamed_none (ha : oiSize m (inodeAddr d) % 128 = 0) :
    entryNamed g m d name = none ↔
      ∀ k, HasEntry m d k → entryMatches m name (direntAt g m d k) = false := by
  unfold entryNamed HasEntry
  rw [List.find?_range_eq_none]
  constructor
  · intro h k hk
    simpa using h k (by omega)
  · intro h k hk
    simpa using h k (by omega)

variable (hs : Sound g m) (hd : IsDirectory g m d)
include hs hd

theorem findDirentry_eq :
    findDirentry m (inodeAddr d) name = (entryNamed g m d name).map (direntAt g m d) := by
  have haligned := hd.aligned
  unfold findDirentry entryNamed
  rw [entries_eq hs hd.hasBlocks hd.size_le, List.find?_map,
    show (oiSize m (inodeAddr d) + 127) / 128 = oiSize m (inodeAddr d) / 128 by omega]
  rfl

/-- `ospfs_unlink` finds what `find_direntry` finds. -/
theorem unlinkSearch_eq :
    unlinkSearch m (inodeAddr d) name = match entryNamed g m d name with
      | some k => (128 * k, some (direntAt g m d k))
      | none => (oiSize m (inodeAddr d),
        (entryOffsets (oiSize m (inodeAddr d))).getLast?.map (ospfsInodeData m (inodeAddr d))) := by
  have haligned := hd.aligned
  have hcount : (oiSize m (inodeAddr d) + 127) / 128 = oiSize m (inodeAddr d) / 128 := by omega
  have hfind : (entryOffsets (oiSize m (inodeAddr d))).find?
      (fun off => entryMatches m name (ospfsInodeData m (inodeAddr d) off)) =
        (entryNamed g m d name).map (128 * ·) := by
    unfold entryOffsets entryNamed
    rw [List.find?_map, hcount]
    refine congrArg (Option.map (128 * ·)) (List.find?_congr fun k hk => ?_)
    have hlt := List.mem_range.mp hk
    simp only [Function.comp_apply]
    rw [hd.direntAt_eq hs (by unfold HasEntry; omega)]
  unfold unlinkSearch
  dsimp only
  rw [hfind]
  cases hnamed : entryNamed g m d name with
  | some k =>
    have hk := ((entryNamed_some haligned).mp hnamed).1
    simp only [Option.map_some, hd.direntAt_eq hs hk]
  | none =>
    have hlen : (entryOffsets (oiSize m (inodeAddr d))).length = oiSize m (inodeAddr d) / 128 := by
      rw [entryOffsets, List.length_map, List.length_range, hcount]
    simp only [Option.map_none, hlen]
    rw [show 128 * (oiSize m (inodeAddr d) / 128) = oiSize m (inodeAddr d) by omega]

end Search

section Unlink

/-- Entry `k` of the directory has been cleared, and inode `i` has a link less. -/
def unlinked (g : Geometry) (m : Bytes) (d k i : Nat) : Bytes :=
  setNlink (setOdIno m (direntAt g m d k) 0) (inodeAddr i)
    (usub32 (oiNlink (setOdIno m (direntAt g m d k) 0) (inodeAddr i)) 1)

/-- The blocks of an inode without links are given back. -/
structure Unlinked (g : Geometry) (d k i : Nat) (name : Name) (fuel : Nat) (m m' : Bytes)
    (ret : Int) : Prop where
  exists_ino : i < g.ninodes
  found : entryNamed g m d name = some k
  data : if oiFtype (unlinked g m d k i) (inodeAddr i) ≠ FTYPE_SYMLINK ∧
      oiNlink (unlinked g m d k i) (inodeAddr i) = 0 then
    changeSize fuel (unlinked g m d k i) (inodeAddr i) 0 = some (m', ret)
  else m' = unlinked g m d k i ∧ ret = 0

theorem ospfsUnlink_cases (hs : Sound g s.data) (hd : IsDirectory g s.data d)
    (hmounted : s.nwritesToCrash = -1) (h : ospfsUnlink fuel s d i name = some (s', ret)) :
    s'.nwritesToCrash = -1 ∧
      ((entryNamed g s.data d name = none ∧ ret = -ENOENT ∧ s' = s) ∨
        ∃ k, Unlinked g d k i name fuel s.data s'.data ret) := by
  unfold ospfsUnlink at h
  rw [hs.inode hd.exists_ino] at h
  cases hoi : ospfsInode s.data i with
  | none =>
    rw [hoi] at h
    cases h
  | some oi =>
    obtain ⟨hi, rfl⟩ := hs.ospfsInode_iff.mp hoi
    rw [hoi] at h
    dsimp only at h
    rw [unlinkSearch_eq hs hd] at h
    cases hnamed : entryNamed g s.data d name with
    | none =>
      rw [hnamed] at h
      dsimp only at h
      rw [if_pos rfl, Option.some.injEq, Prod.mk.injEq] at h
      obtain ⟨rfl, rfl⟩ := h
      exact ⟨hmounted, .inl ⟨rfl, rfl, rfl⟩⟩
    | some k =>
      have hk := ((entryNamed_some hd.aligned).mp hnamed).1
      unfold HasEntry at hk
      rw [hnamed] at h
      dsimp only at h
      rw [if_neg (by omega), tick_mounted hmounted] at h
      dsimp only at h
      by_cases hlast : oiFtype (unlinked g s.data d k i) (inodeAddr i) ≠ FTYPE_SYMLINK ∧
          oiNlink (unlinked g s.data d k i) (inodeAddr i) = 0
      · have hlast' := hlast
        unfold unlinked at hlast'
        rw [if_pos hlast'] at h
        cases hrun : changeSize fuel (unlinked g s.data d k i) (inodeAddr i) 0 with
        | none =>
          have hrun' := hrun
          unfold unlinked at hrun'
          rw [hrun'] at h
          cases h
        | some r =>
          have hrun' := hrun
          unfold unlinked at hrun'
          rw [hrun', Option.some.injEq, Prod.mk.injEq] at h
          obtain ⟨rfl, rfl⟩ := h
          exact ⟨hmounted, .inr ⟨k, hi, hnamed, by rw [if_pos hlast]; exact hrun⟩⟩
      · have hlast' := hlast
        unfold unlinked at hlast'
        rw [if_neg hlast', Option.some.injEq, Prod.mk.injEq] at h
        obtain ⟨rfl, rfl⟩ := h
        exact ⟨hmounted, .inr ⟨k, hi, hnamed, by rw [if_neg hlast]; exact ⟨rfl, rfl⟩⟩⟩

end Unlink

end CS111.Ospfs
