import CS111.Ospfs.BlockMap
import CS111.Ospfs.DirectoryCalls
import CS111.Ospfs.FormatConsistent

/-!
# Block ownership on a mounted volume

Every run of callbacks on a volume that the formatter has written, in which no call makes a file or
directory longer than its direct and indirect blocks allow, or uses an inode whose last link is gone.
-/

namespace CS111.Ospfs

open Memory

set_option autoImplicit false

variable {g : Geometry} {m m' : Bytes} {d e i j k fuel : Nat} {gone gone' : Nat → Prop}
variable {s s' : State} {c : Callback} {name : Name} {ret : Int}

/-! ## The invariant -/

structure Mounted (g : Geometry) (gone : Nat → Prop) (m : Bytes) : Prop where
  sound : Sound g m
  size_le : ∀ i, HasBlocks g m i → oiSize m (inodeAddr i) ≤ maxFileSize
  dir : ∀ d, d < g.ninodes → oiFtype m (inodeAddr d) = FTYPE_DIR → ¬ gone d → IsDirectory g m d

/-- A change of inode `i` that leaves the others alone. -/
theorem Mounted.of_same (h : Mounted g gone m) (hs : Sound g m')
    (hothers : ∀ j, j < g.ninodes → j ≠ i → Same g j m m')
    (hsize : HasBlocks g m' i → oiSize m' (inodeAddr i) ≤ maxFileSize)
    (hdir : i < g.ninodes → oiFtype m' (inodeAddr i) = FTYPE_DIR → ¬ gone' i → IsDirectory g m' i)
    (hgone : ∀ j, j < g.ninodes → j ≠ i → gone j → gone' j) : Mounted g gone' m' where
  sound := hs
  size_le j hj := by
    by_cases hji : j = i
    · subst hji
      exact hsize hj
    · have hsame := hothers j hj.1 hji
      rw [hsame.size]
      exact h.size_le j ⟨hj.1, by rw [← hsame.ftype]; exact hj.2⟩
  dir e he hf hg := by
    by_cases hei : e = i
    · subst hei
      exact hdir he hf hg
    · have hsame := hothers e he hei
      rw [hsame.ftype] at hf
      exact hsame.isDirectory (h.dir e he hf fun hgone' => hg (hgone e he hei hgone'))

theorem Mounted.mono (h : Mounted g gone m) (hgone : ∀ j, j < g.ninodes →
    oiFtype m (inodeAddr j) = FTYPE_DIR → gone j → gone' j) : Mounted g gone' m where
  sound := h.sound
  size_le := h.size_le
  dir e he hf hg := h.dir e he hf fun hgone' => hg (hgone e he hf hgone')

/-- No inode becomes a directory, and only those in `K` get another link count. -/
def DirsKept (g : Geometry) (K : Nat → Prop) (m m' : Bytes) : Prop :=
  ∀ j, j < g.ninodes → oiFtype m' (inodeAddr j) = FTYPE_DIR →
    oiFtype m (inodeAddr j) = FTYPE_DIR ∧
      (oiNlink m' (inodeAddr j) = oiNlink m (inodeAddr j) ∨ K j)

section DirsKept
variable {K : Nat → Prop} {m'' : Bytes}

theorem DirsKept.refl : DirsKept g K m m := fun _ _ hf => ⟨hf, .inl rfl⟩

theorem DirsKept.trans (h : DirsKept g K m m') (h' : DirsKept g K m' m'') : DirsKept g K m m'' := by
  intro j hj hf
  obtain ⟨hf', hn'⟩ := h' j hj hf
  obtain ⟨hf'', hn⟩ := h j hj hf'
  refine ⟨hf'', ?_⟩
  rcases hn' with hn' | hk
  · rcases hn with hn | hk
    · exact .inl (hn'.trans hn)
    · exact .inr hk
  · exact .inr hk

theorem Change.dirsKept (h : Change g i m m') : DirsKept g K m m' := by
  intro j hj hf
  rw [h.ftype hj] at hf
  exact ⟨hf, .inl (h.nlink hj)⟩

theorem Overwritten.dirsKept (h : Overwritten g i m m') : DirsKept g K m m' := by
  intro j hj hf
  rw [h.ftype hj] at hf
  exact ⟨hf, .inl (h.nlink hj)⟩

theorem Remade.dirsKept (h : Remade g i m m') (hs : Sound g m) (hi : i < g.ninodes) :
    DirsKept g K m m' := by
  intro j hj hf
  have hne : j ≠ i := by
    rintro rfl
    rcases h.ftype with hreg | hsym
    · exact absurd (hreg.symm.trans hf) (by decide)
    · exact absurd (hsym.symm.trans hf) (by decide)
  rw [(h.same hs hi hne).ftype] at hf
  exact ⟨hf, .inl (h.toRenewed.nlink hne)⟩

theorem setNlink_dirsKept (hs : Sound g m) (hi : i < g.ninodes) (hK : K i) (v : Nat) :
    DirsKept g K m (setNlink m (inodeAddr i) v) := by
  intro j hj hf
  rw [(setNlink_frame hs hi v).ftype] at hf
  refine ⟨hf, ?_⟩
  by_cases hji : j = i
  · exact .inr (hji ▸ hK)
  · exact .inl (oiNlink_setNlink_ne hji v)

theorem setMode_dirsKept (v : Nat) : DirsKept g K m (setMode m (inodeAddr i) v) := by
  intro j _ hf
  have hword : ∀ k, k < 12 → k % 4 = 0 → rd32 (setMode m (inodeAddr i) v) (inodeAddr j + k) =
      rd32 m (inodeAddr j + k) := fun k hk h4 => rd32_wr32_ne (by unfold inodeAddr; omega)
  have hftype : oiFtype (setMode m (inodeAddr i) v) (inodeAddr j) = oiFtype m (inodeAddr j) :=
    hword 4 (by omega) rfl
  rw [hftype] at hf
  exact ⟨hf, .inl (hword 8 (by omega) rfl)⟩

end DirsKept

section Steps
variable (h : Mounted g gone m)
include h

theorem Mounted.blank (hb : Blank g d k m m') : Mounted g gone m' := by
  have hd := hb.dir
  apply h.of_same (i := d) hb.change.sound
  · intro j hj hne
    by_cases hdm : d < g.ninodes
    · exact hb.change.same h.sound hdm hj hne
    · exact absurd hd.exists_ino hdm
  · intro _
    exact hd.size_le
  · intro _ _ _
    exact hd
  · exact fun _ _ _ hj => hj

theorem Mounted.entryWritten (hd : IsDirectory g m d) (hk : HasEntry m d k)
    (hw : EntryWritten g d k m m') : Mounted g gone m' := by
  have hover := hw.overwritten h.sound hd hk
  have hd' := hw.isDirectory h.sound hd hk hd
  apply h.of_same (i := d) hover.sound
  · exact fun j hj hne => hover.same hj hne
  · exact fun _ => hd'.size_le
  · exact fun _ _ _ => hd'
  · exact fun _ _ _ hj => hj

theorem Mounted.overwritten (ho : Overwritten g i m m') (hi : i < g.ninodes)
    (hf : oiFtype m (inodeAddr i) ≠ FTYPE_DIR) : Mounted g gone m' := by
  apply h.of_same (i := i) ho.sound
  · exact fun j hj hne => ho.same hj hne
  · intro hx
    rw [ho.size hi]
    exact h.size_le i ⟨hi, by rw [← ho.ftype hi]; exact hx.2⟩
  · intro _ hf' _
    rw [ho.ftype hi] at hf'
    exact absurd hf' hf
  · exact fun _ _ _ hj => hj

theorem Mounted.remade (hr : Remade g i m m') (hi : i < g.ninodes)
    (hgone : ∀ j, j < g.ninodes → j ≠ i → gone j → gone' j) : Mounted g gone' m' := by
  apply h.of_same (i := i) (hr.sound h.sound hi)
  · exact fun j _ hne => hr.same h.sound hi hne
  · intro hx
    rw [hr.size hx.2]
    exact Nat.zero_le _
  · intro _ hf _
    rcases hr.ftype with hreg | hsym
    · exact absurd (hreg.symm.trans hf) (by decide)
    · exact absurd (hsym.symm.trans hf) (by decide)
  · exact hgone

theorem Mounted.relinked (hi : i < g.ninodes) (v : Nat) :
    Mounted g gone (setNlink m (inodeAddr i) v) := by
  have hsame := fun j => setNlink_frame h.sound hi (j := j) v
  apply h.of_same (i := i) (setNlink_sound h.sound hi v)
  · exact fun j _ _ => hsame j
  · intro hx
    rw [(hsame i).size]
    exact h.size_le i ⟨hi, by rw [← (hsame i).ftype]; exact hx.2⟩
  · intro _ hf hg
    rw [(hsame i).ftype] at hf
    exact (hsame i).isDirectory (h.dir i hi hf hg)
  · exact fun _ _ _ hj => hj

/-- A new size, of an inode that is no directory in use. -/
theorem Mounted.resize {sz : Nat} (hx : HasBlocks g m i)
    (hsz : WithinIndirect (oiSize m (inodeAddr i)) sz)
    (hf : oiFtype m (inodeAddr i) = FTYPE_DIR → gone' i)
    (hgone : ∀ j, j < g.ninodes → j ≠ i → gone j → gone' j)
    (hrun : changeSize fuel m (inodeAddr i) sz = some (m', ret)) : Mounted g gone' m' := by
  obtain ⟨hc, hle⟩ := changeSize_change h.sound hx (h.size_le i hx) hsz hrun
  apply h.of_same (i := i) hc.sound
  · exact fun j hj hne => hc.same h.sound hx.1 hj hne
  · exact fun _ => hle
  · intro _ hf' hg
    rw [hc.ftype hx.1] at hf'
    exact absurd (hf hf') hg
  · exact hgone

theorem Mounted.chmod (hi : i < g.ninodes) (hf : oiFtype m (inodeAddr i) ≠ FTYPE_DIR) (v : Nat) :
    Mounted g gone (setMode m (inodeAddr i) v) := by
  have hfields : ∀ k, k < 12 → setMode m (inodeAddr i) v (inodeAddr i + k) = m (inodeAddr i + k) :=
    fun k hk => wr32_outside (by omega)
  have hftype : oiFtype (setMode m (inodeAddr i) v) (inodeAddr i) =
      oiFtype m (inodeAddr i) := rd32_congr fun k hk => by
    rw [Nat.add_assoc]
    exact hfields _ (by omega)
  have hsize : oiSize (setMode m (inodeAddr i) v) (inodeAddr i) =
      oiSize m (inodeAddr i) := rd32_congr fun k hk => hfields _ (by omega)
  have hsound : Sound g (setMode m (inodeAddr i) v) := h.sound.setField hi (.inr (.inr rfl)) v
  apply h.of_same (i := i) hsound
  · exact fun j _ hne => setField_same h.sound hi (.inr (.inr rfl)) (.inl hne) v
  · intro hx
    rw [hsize]
    exact h.size_le i ⟨hi, by rw [← hftype]; exact hx.2⟩
  · intro _ hf' _
    rw [hftype] at hf'
    exact absurd hf' hf
  · exact fun _ _ _ hj => hj

end Steps

section Start

theorem IsNode.isDirectory {es : List (Name × Nat)} (hd : d < g.ninodes)
    (h : IsNode g m d (.dir es)) : IsDirectory g m d := by
  obtain ⟨hftype, hsize, hent⟩ := h
  have hfits := hent.fits
  have hle : oiSize m (inodeAddr d) ≤ maxFileSize := by
    unfold maxFileSize
    omega
  have hcount := fileBlocks_of_size hle
  constructor
  · exact hd
  · exact hftype
  · exact hle
  · omega
  · intro k hk
    exact (hent.filled k (by omega)).mpr (by omega)
  · intro x h1 h2
    omega

theorem IsNode.size_le_max {nd : Node} (h : IsNode g m i nd)
    (hf : oiFtype m (inodeAddr i) ≠ FTYPE_SYMLINK) : oiSize m (inodeAddr i) ≤ maxFileSize := by
  cases nd with
  | file content =>
    rw [h.2.1]
    exact h.2.2.fits
  | dir es =>
    have hfits := h.2.2.fits
    have hsize := h.2.1
    unfold maxFileSize
    omega
  | symlink target => exact absurd h.1 hf

/-- An image that the formatter has finished. -/
theorem Format.Image.mounted {A : Nodes} (h : Format.Image g A m) :
    Mounted g (fun _ => False) m := by
  have hlen := h.length_le
  have hunborn : ∀ i k, A.length ≤ i → i < g.ninodes → k + 4 ≤ 64 → rd32 m (inodeAddr i + k) = 0 := by
    intro i k h1 h2 h3
    apply rd32_eq_zero
    intro l hl
    rw [Nat.add_assoc]
    exact h.unborn i _ h1 h2 (by omega)
  constructor
  · exact h.sound
  · intro i hi
    by_cases hlt : i < A.length
    · exact (h.node i _ (List.getElem?_eq_getElem hlt)).size_le_max hi.2
    · have hzero : oiSize m (inodeAddr i) = 0 := hunborn i 0 (by omega) hi.1 (by omega)
      rw [hzero]
      exact Nat.zero_le _
  · intro d hd hf _
    by_cases hlt : d < A.length
    · have hnode := h.node d _ (List.getElem?_eq_getElem hlt)
      generalize A[d] = nd at hnode
      cases nd with
      | file content => exact absurd (hnode.1.symm.trans hf) (by decide)
      | dir es => exact hnode.isDirectory hd
      | symlink target => exact absurd (hnode.1.symm.trans hf) (by decide)
    · have hzero : oiFtype m (inodeAddr d) = 0 := hunborn d 4 (by omega) hd (by omega)
      exact absurd (hzero.symm.trans hf) (by decide)

end Start

end CS111.Ospfs
