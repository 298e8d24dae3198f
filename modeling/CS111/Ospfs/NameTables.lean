import CS111.Ospfs.LinkCounts

/-!
# Directories as tables of names

When every entry in use has a name, and no two of a directory have the same, the order of the entries
no longer matters: a name leads to an inode if some entry says so.
-/

namespace CS111.Ospfs

open Memory

set_option autoImplicit false

variable {g : Geometry} {m m' : Bytes} {s s' : State} {d e i j k l od : Nat} {name other : Name}

section Tables

/-- Every entry of directory `d` that is in use has a name, and no two have the same. -/
structure Table (g : Geometry) (m : Bytes) (d : Nat) : Prop where
  named : ∀ k, HasEntry m d k → odIno m (direntAt g m d k) ≠ 0 →
    ∃ name, name.length ≤ 123 ∧ entryMatches m name (direntAt g m d k) = true
  unique : ∀ k l name, name.length ≤ 123 → HasEntry m d k → HasEntry m d l →
    entryMatches m name (direntAt g m d k) = true → entryMatches m name (direntAt g m d l) = true → k = l

/-- Entry `k` of directory `d` has this name and inode number. -/
structure EntryAt (g : Geometry) (m : Bytes) (d k : Nat) (name : Name) (i : Nat) : Prop where
  has : HasEntry m d k
  spelled : entryMatches m name (direntAt g m d k) = true
  ino : odIno m (direntAt g m d k) = i

/-- Some entry has this name and inode number. -/
def Listed (g : Geometry) (m : Bytes) (d : Nat) (name : Name) (i : Nat) : Prop :=
  name.length ≤ 123 ∧ ∃ k, EntryAt g m d k name i

theorem Spells.matches (h : Spells m od i name) (hchars : ∀ c, c ∈ name → c ≠ 0) (hi : 0 < i) :
    entryMatches m name od = true :=
  (entryMatches_written_iff h.text hchars (by rw [h.ino]; exact hi)).mpr h.nul

/-- An entry has one name. -/
theorem entryMatches_unique (h : entryMatches m name od = true) (h' : entryMatches m other od = true) :
    other = name := by
  obtain ⟨_, hchars, hnul, hload⟩ := entryMatches_iff.mp h
  by_contra hne
  rw [entryMatches_other hload (fun c hc => ?_) hnul hne] at h'
  · cases h'
  · rw [← hload] at hc
    obtain ⟨k, hk, rfl⟩ := List.mem_map.mp hc
    exact hchars k (List.mem_range.mp hk)

theorem EntryAt.pos (h : EntryAt g m d k name i) : 0 < i := by
  rw [← h.ino]
  exact (entryMatches_iff.mp h.spelled).1

section Resolve
variable (ht : Table g m d)
include ht

/-- The names in use fit. -/
theorem Table.length_le (h : EntryAt g m d k name i) : name.length ≤ 123 := by
  obtain ⟨name', hlen, hmatch⟩ := ht.named k h.has (by rw [h.ino]; exact Nat.ne_of_gt h.pos)
  rw [← entryMatches_unique h.spelled hmatch]
  exact hlen

theorem Table.resolve_iff (hs : Sound g m) (hd : IsDirectory g m d) :
    resolve m (inodeAddr d) name = some i ↔ Listed g m d name i := by
  rw [resolve_eq hs hd]
  constructor
  · intro h
    obtain ⟨k, hk, hino⟩ := Option.map_eq_some_iff.mp h
    obtain ⟨hhas, hmatch, _⟩ := (entryNamed_some hd.aligned).mp hk
    have hentry : EntryAt g m d k name i := ⟨hhas, hmatch, hino⟩
    exact ⟨ht.length_le hentry, k, hentry⟩
  · rintro ⟨hlen, k, hentry⟩
    have hfirst : entryNamed g m d name = some k := by
      rw [entryNamed_some hd.aligned]
      refine ⟨hentry.has, hentry.spelled, fun l hl => ?_⟩
      rw [Bool.eq_false_iff]
      intro hmatch
      have hhas : HasEntry m d l := by
        have := hentry.has
        unfold HasEntry at this ⊢
        omega
      have := ht.unique l k name hlen hhas hentry.has hmatch hentry.spelled
      omega
    rw [hfirst, Option.map_some, hentry.ino]

end Resolve

end Tables

/-! ## Changes of a directory -/

section Changes

/-- The entries in use of `m'` are entries of `m`. -/
def Keeps (g : Geometry) (d : Nat) (m m' : Bytes) : Prop :=
  ∀ l, HasEntry m' d l → odIno m' (direntAt g m' d l) ≠ 0 →
    HasEntry m d l ∧ ∀ j, j < 128 → m' (direntAt g m' d l + j) = m (direntAt g m d l + j)

theorem Keeps.entry (h : Keeps g d m m') (hlen : name.length ≤ 123) (he : EntryAt g m' d k name i) :
    EntryAt g m d k name i := by
  obtain ⟨hhas, hbyte⟩ := h k he.has (by rw [he.ino]; exact Nat.ne_of_gt he.pos)
  constructor
  · exact hhas
  · rw [← entryMatches_congr hlen hbyte]
    exact he.spelled
  · rw [← odIno_congr fun j hj => hbyte j (by omega)]
    exact he.ino

theorem Keeps.table (h : Keeps g d m m') (ht : Table g m d) : Table g m' d := by
  constructor
  · intro k hk h0
    obtain ⟨hhas, hbyte⟩ := h k hk h0
    rw [odIno_congr fun j hj => hbyte j (by omega)] at h0
    obtain ⟨name, hlen, hmatch⟩ := ht.named k hhas h0
    exact ⟨name, hlen, by rw [entryMatches_congr hlen hbyte]; exact hmatch⟩
  · intro k l name hlen hk hl hmatch hmatch'
    have hfirst := h.entry hlen ⟨hk, hmatch, rfl⟩
    have hsecond := h.entry hlen ⟨hl, hmatch', rfl⟩
    exact ht.unique k l name hlen hfirst.has hsecond.has hfirst.spelled hsecond.spelled

theorem Same.hasEntry_iff (h : Same g d m m') : HasEntry m' d l ↔ HasEntry m d l := by
  unfold HasEntry
  rw [h.size]

/-- A directory that is as it was. -/
theorem Same.keeps (h : Same g d m m') (hd : IsDirectory g m d) : Keeps g d m m' := by
  intro l hl _
  have hl := h.hasEntry_iff.mp hl
  exact ⟨hl, fun j hj => h.entry_bytes hd hl hj⟩

theorem Same.listed_iff (h : Same g d m m') (hd : IsDirectory g m d) :
    Listed g m' d name i ↔ Listed g m d name i := by
  have hd' := h.isDirectory hd
  constructor
  · rintro ⟨hlen, k, he⟩
    exact ⟨hlen, k, (h.keeps hd).entry hlen he⟩
  · rintro ⟨hlen, k, he⟩
    exact ⟨hlen, k, (h.symm.keeps hd').entry hlen he⟩

variable (h : EntryFilled g d k m m')
include h

/-- The entries from before the filled one was in use. -/
theorem EntryFilled.keeps : Keeps g d m' m := by
  intro l hl h0
  have hne : l ≠ k := by
    rintro rfl
    exact h0 (h.blank hl)
  exact ⟨(h.has l).mpr (.inl hl), fun j hj => (h.kept l j hl hne hj).symm⟩

theorem EntryFilled.entry_old (hlen : name.length ≤ 123) (he : EntryAt g m' d l name i) (hne : l ≠ k) :
    EntryAt g m d l name i := by
  have hl : HasEntry m d l := ((h.has l).mp he.has).resolve_right hne
  constructor
  · exact hl
  · rw [← h.matches_kept hl hne hlen]
    exact he.spelled
  · rw [← h.odIno_kept hl hne]
    exact he.ino

/-- The new entry, and the old ones. -/
theorem EntryFilled.listed_iff : Listed g m' d name i ↔
    Listed g m d name i ∨ name.length ≤ 123 ∧ EntryAt g m' d k name i := by
  constructor
  · rintro ⟨hlen, l, he⟩
    by_cases hlk : l = k
    · subst hlk
      exact .inr ⟨hlen, he⟩
    · exact .inl ⟨hlen, l, h.entry_old hlen he hlk⟩
  · rintro (⟨hlen, l, he⟩ | ⟨hlen, he⟩)
    · exact ⟨hlen, l, h.keeps.entry hlen he⟩
    · exact ⟨hlen, k, he⟩

/-- The new entry stays blank, or it has a name that was free. -/
theorem EntryFilled.table (ht : Table g m d)
    (hnew : odIno m' (direntAt g m' d k) ≠ 0 → ∃ name, name.length ≤ 123 ∧
      entryMatches m' name (direntAt g m' d k) = true ∧ ∀ i, ¬ Listed g m d name i) : Table g m' d := by
  have hfree : ∀ l name, name.length ≤ 123 → EntryAt g m' d l name (odIno m' (direntAt g m' d l)) →
      entryMatches m' name (direntAt g m' d k) = true → l = k := by
    intro l name hlen he hmatch
    by_contra hne
    obtain ⟨name', _, hmatch', hnone⟩ := hnew (Nat.ne_of_gt (entryMatches_iff.mp hmatch).1)
    rw [← entryMatches_unique hmatch' hmatch] at hnone
    exact hnone _ ⟨hlen, l, h.entry_old hlen he hne⟩
  constructor
  · intro l hl h0
    by_cases hlk : l = k
    · subst hlk
      obtain ⟨name, hlen, hmatch, _⟩ := hnew h0
      exact ⟨name, hlen, hmatch⟩
    · have hold : HasEntry m d l := ((h.has l).mp hl).resolve_right hlk
      rw [h.odIno_kept hold hlk] at h0
      obtain ⟨name, hlen, hmatch⟩ := ht.named l hold h0
      exact ⟨name, hlen, by rw [h.matches_kept hold hlk hlen]; exact hmatch⟩
  · intro l l' name hlen hl hl' hmatch hmatch'
    by_cases hlk : l = k
    · subst hlk
      exact (hfree l' name hlen ⟨hl', hmatch', rfl⟩ hmatch).symm
    · by_cases hlk' : l' = k
      · subst hlk'
        exact hfree l name hlen ⟨hl, hmatch, rfl⟩ hmatch'
      · have hfirst := h.entry_old hlen ⟨hl, hmatch, rfl⟩ hlk
        have hsecond := h.entry_old hlen ⟨hl', hmatch', rfl⟩ hlk'
        exact ht.unique l l' name hlen hfirst.has hsecond.has hfirst.spelled hsecond.spelled

end Changes

end CS111.Ospfs
