import CS111.Ospfs.FileRuns

/-!
# What the names of a directory lead to

An entry matches one name, the string in its `od_name`. When a blank entry is filled, the other names
lead where they led before.
-/

namespace CS111.Ospfs

open Memory

set_option autoImplicit false

variable {g : Geometry} {m m' m₁ m₂ : Bytes} {d i k l od od' : Nat} {name other : Name}

/-- The inode number that a name leads to. -/
def resolve (m : Bytes) (dirOi : Nat) (name : Name) : Option Nat :=
  (findDirentry m dirOi name).map (odIno m)

section Matching

theorem entryMatches_iff : entryMatches m name od = true ↔
    0 < odIno m od ∧ (∀ k, k < name.length → m (od + 4 + k) ≠ 0) ∧
      m (od + 4 + name.length) = 0 ∧ load m (od + 4) name.length = name := by
  unfold entryMatches nameLengthIs
  simp only [Bool.and_eq_true, decide_eq_true_eq, List.all_eq_true, List.mem_range, bne_iff_ne,
    beq_iff_eq, and_assoc]

theorem odIno_congr (h : ∀ j, j < 4 → m' (od' + j) = m (od + j)) : odIno m' od' = odIno m od := by
  have h0 := h 0 (by omega)
  rw [Nat.add_zero, Nat.add_zero] at h0
  unfold odIno rd32
  rw [h0, h 1 (by omega), h 2 (by omega), h 3 (by omega)]

theorem entryMatches_congr (hlen : name.length ≤ 123)
    (h : ∀ j, j < 128 → m' (od' + j) = m (od + j)) :
    entryMatches m' name od' = entryMatches m name od := by
  have hino : odIno m' od' = odIno m od := odIno_congr fun j hj => h j (by omega)
  have hbyte : ∀ k, k ≤ name.length → m' (od' + 4 + k) = m (od + 4 + k) := by
    intro k hk
    rw [Nat.add_assoc, Nat.add_assoc]
    exact h _ (by omega)
  have hload : load m' (od' + 4) name.length = load m (od + 4) name.length := by
    apply List.map_congr_left
    intro k hk
    exact hbyte k (Nat.le_of_lt (List.mem_range.mp hk))
  rw [Bool.eq_iff_iff, entryMatches_iff, entryMatches_iff, hino, hload, hbyte _ (Nat.le_refl _)]
  have hchars : (∀ k, k < name.length → m' (od' + 4 + k) ≠ 0) ↔
      ∀ k, k < name.length → m (od + 4 + k) ≠ 0 := by
    constructor
    · intro hall k hk
      rw [← hbyte k (by omega)]
      exact hall k hk
    · intro hall k hk
      rw [hbyte k (by omega)]
      exact hall k hk
  rw [hchars]

theorem entryMatches_blank (h : odIno m od = 0) : entryMatches m name od = false := by
  rw [Bool.eq_false_iff, ne_eq, entryMatches_iff, h]
  exact fun hmatch => absurd hmatch.1 (Nat.lt_irrefl 0)

section Written
variable (hino : 0 < odIno m od) (hname : load m (od + 4) name.length = name)
variable (hchars : ∀ c, c ∈ name → c ≠ 0)
include hname hchars

theorem name_byte_ne (hk : k < name.length) : m (od + 4 + k) ≠ 0 := by
  apply hchars
  have hmem : m (od + 4 + k) ∈ load m (od + 4) name.length :=
    List.mem_map.mpr ⟨k, List.mem_range.mpr hk, rfl⟩
  rwa [hname] at hmem

/-- The entry has this name when a NUL follows it. -/
theorem entryMatches_written_iff (hino : 0 < odIno m od) :
    entryMatches m name od = true ↔ m (od + 4 + name.length) = 0 := by
  rw [entryMatches_iff]
  constructor
  · exact fun hmatch => hmatch.2.2.1
  · exact fun hnul => ⟨hino, fun k hk => name_byte_ne hname hchars hk, hnul, hname⟩

/-- It then has no other name. -/
theorem entryMatches_other (hnul : m (od + 4 + name.length) = 0) (hne : other ≠ name) :
    entryMatches m other od = false := by
  rw [Bool.eq_false_iff, ne_eq, entryMatches_iff]
  rintro ⟨_, hother, hend, hload⟩
  have hlen : other.length = name.length := by
    by_contra hne
    rcases Nat.lt_or_gt_of_ne hne with hlt | hgt
    · exact name_byte_ne hname hchars hlt hend
    · exact hother _ hgt hnul
  rw [hlen, hname] at hload
  exact hne hload.symm

end Written

end Matching

theorem resolve_eq (hs : Sound g m) (hd : IsDirectory g m d) : resolve m (inodeAddr d) name =
    (entryNamed g m d name).map fun k => odIno m (direntAt g m d k) := by
  unfold resolve
  rw [findDirentry_eq hs hd, Option.map_map]
  rfl

section Filled

/-- Entry `k` of the directory, which was blank or missing, is the only one with new bytes. -/
structure EntryFilled (g : Geometry) (d k : Nat) (m m' : Bytes) : Prop where
  sound : Sound g m'
  dir : IsDirectory g m' d
  has : ∀ l, HasEntry m' d l ↔ HasEntry m d l ∨ l = k
  blank : HasEntry m d k → odIno m (direntAt g m d k) = 0
  kept : ∀ l j, HasEntry m d l → l ≠ k → j < 128 →
    m' (direntAt g m' d l + j) = m (direntAt g m d l + j)

variable (h : EntryFilled g d k m m') (hs : Sound g m) (hd : IsDirectory g m d)
include h

theorem EntryFilled.matches_kept (hl : HasEntry m d l) (hne : l ≠ k) (hlen : name.length ≤ 123) :
    entryMatches m' name (direntAt g m' d l) = entryMatches m name (direntAt g m d l) :=
  entryMatches_congr hlen fun j hj => h.kept l j hl hne hj

theorem EntryFilled.odIno_kept (hl : HasEntry m d l) (hne : l ≠ k) :
    odIno m' (direntAt g m' d l) = odIno m (direntAt g m d l) :=
  odIno_congr fun j hj => h.kept l j hl hne (by omega)

include hd

theorem EntryFilled.entryNamed_other (hlen : other.length ≤ 123)
    (hnew : entryMatches m' other (direntAt g m' d k) = false) :
    entryNamed g m' d other = entryNamed g m d other := by
  have hold : HasEntry m d k → entryMatches m other (direntAt g m d k) = false :=
    fun hk => entryMatches_blank (h.blank hk)
  ext l
  rw [entryNamed_some h.dir.aligned, entryNamed_some hd.aligned]
  constructor
  · rintro ⟨hl, hmatch, hbefore⟩
    have hne : l ≠ k := by
      rintro rfl
      rw [hnew] at hmatch
      cases hmatch
    have hl' : HasEntry m d l := ((h.has l).mp hl).resolve_right hne
    rw [h.matches_kept hl' hne hlen] at hmatch
    refine ⟨hl', hmatch, fun j hj => ?_⟩
    have hj' : HasEntry m d j := by
      unfold HasEntry at hl' ⊢
      omega
    by_cases hjk : j = k
    · subst hjk
      exact hold hj'
    · rw [← h.matches_kept hj' hjk hlen]
      exact hbefore j hj
  · rintro ⟨hl, hmatch, hbefore⟩
    have hne : l ≠ k := by
      rintro rfl
      rw [hold hl] at hmatch
      cases hmatch
    refine ⟨(h.has l).mpr (.inl hl), by rw [h.matches_kept hl hne hlen]; exact hmatch, fun j hj => ?_⟩
    by_cases hjk : j = k
    · subst hjk
      exact hnew
    · have hj' : HasEntry m d j := by
        unfold HasEntry at hl ⊢
        omega
      rw [h.matches_kept hj' hjk hlen]
      exact hbefore j hj

theorem EntryFilled.entryNamed_new (hlen : name.length ≤ 123)
    (hnone : entryNamed g m d name = none)
    (hnew : entryMatches m' name (direntAt g m' d k) = true) : entryNamed g m' d name = some k := by
  rw [entryNamed_some h.dir.aligned]
  have hk : HasEntry m' d k := (h.has k).mpr (.inr rfl)
  refine ⟨hk, hnew, fun j hj => ?_⟩
  have hj' : HasEntry m' d j := by
    unfold HasEntry at hk ⊢
    omega
  have hjm : HasEntry m d j := ((h.has j).mp hj').resolve_right (by omega)
  rw [h.matches_kept hjm (by omega) hlen]
  exact (entryNamed_none hd.aligned).mp hnone j hjm

include hs

theorem EntryFilled.resolve_other (hlen : other.length ≤ 123)
    (hnew : entryMatches m' other (direntAt g m' d k) = false) :
    resolve m' (inodeAddr d) other = resolve m (inodeAddr d) other := by
  rw [resolve_eq h.sound h.dir, resolve_eq hs hd, h.entryNamed_other hd hlen hnew]
  cases hnamed : entryNamed g m d other with
  | none => rfl
  | some l =>
    obtain ⟨hl, hmatch, _⟩ := (entryNamed_some hd.aligned).mp hnamed
    have hne : l ≠ k := by
      rintro rfl
      rw [entryMatches_blank (h.blank hl)] at hmatch
      cases hmatch
    simp only [Option.map_some, h.odIno_kept hl hne]

theorem EntryFilled.resolve_new (hlen : name.length ≤ 123)
    (hnone : findDirentry m (inodeAddr d) name = none)
    (hnew : entryMatches m' name (direntAt g m' d k) = true) :
    resolve m' (inodeAddr d) name = some (odIno m' (direntAt g m' d k)) := by
  rw [findDirentry_eq hs hd, Option.map_eq_none_iff] at hnone
  rw [resolve_eq h.sound h.dir, h.entryNamed_new hd hlen hnone hnew]
  rfl

end Filled

/-- A blank entry that is then written. -/
theorem Blank.filled (hb : Blank g d k m m₁) (hs : Sound g m') (hd : IsDirectory g m' d)
    (hsize : oiSize m' (inodeAddr d) = oiSize m₁ (inodeAddr d))
    (hentry : ∀ l j, HasEntry m₁ d l → l ≠ k → j < 128 →
      m' (direntAt g m' d l + j) = m₁ (direntAt g m₁ d l + j)) : EntryFilled g d k m m' := by
  have hhas : ∀ l, HasEntry m' d l ↔ HasEntry m₁ d l := by
    intro l
    unfold HasEntry
    rw [hsize]
  constructor
  · exact hs
  · exact hd
  · intro l
    rw [hhas]
    constructor
    · exact hb.new l
    · rintro (hl | rfl)
      · exact hb.grows l hl
      · exact hb.found
  · intro hk
    rw [← hb.blank]
    have hbyte := fun j hj => hb.kept k j hk (show j < 128 from hj)
    have h0 := hbyte 0 (by omega)
    unfold odIno rd32
    rw [Nat.add_zero, Nat.add_zero] at h0
    rw [h0, hbyte 1 (by omega), hbyte 2 (by omega), hbyte 3 (by omega)]
  · intro l j hl hne hj
    rw [hentry l j (hb.grows l hl) hne hj, hb.kept l j hl hj]

/-- The entry is written, and then bytes that are not the directory's. -/
theorem Blank.written (hb : Blank g d k m m₁) (hw : EntryWritten g d k m₁ m₂) (hs : Sound g m')
    (hsame : Same g d m₂ m') : EntryFilled g d k m m' ∧
      direntAt g m' d k = direntAt g m₁ d k ∧
      ∀ j, j < 128 → m' (direntAt g m₁ d k + j) = m₂ (direntAt g m₁ d k + j) := by
  have hs₁ := hb.change.sound
  have hover := hw.overwritten hs₁ hb.dir hb.found
  have hd₂ := hw.isDirectory hs₁ hb.dir hb.found hb.dir
  have hhas : ∀ l, HasEntry m₁ d l → HasEntry m₂ d l := by
    intro l hl
    unfold HasEntry
    rw [hover.size hb.dir.exists_ino]
    exact hl
  refine ⟨?_, hsame.direntAt.trans (hw.direntAt_eq hs₁ hb.dir hb.found), ?_⟩
  · apply hb.filled hs (hsame.isDirectory hd₂)
    · rw [hsame.size, hover.size hb.dir.exists_ino]
    · intro l j hl hne hj
      rw [hsame.entry_bytes hd₂ (hhas l hl) hj]
      exact hw.others hs₁ hb.dir hb.found hl hne hj
  · intro j hj
    have hentry := hsame.entry_bytes hd₂ (hhas k hb.found) hj
    rwa [hsame.direntAt, hw.direntAt_eq hs₁ hb.dir hb.found] at hentry

end CS111.Ospfs
