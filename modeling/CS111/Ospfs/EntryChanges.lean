import CS111.Ospfs.LinkNames

/-!
# What a call changes of the directories

A call that returns leaves all directories and link counts as they are, or it changes one entry of
one directory and the link count of the inode that this entry names.
-/

namespace CS111.Ospfs

open Memory

set_option autoImplicit false

variable {g : Geometry} {m m' m'' m₁ m₂ : Bytes} {s s' : State} {d e i j k l ino src fuel : Nat}
variable {name other : Name} {ret : Int} {newInode : Bool} {gone : Nat → Prop}

section Quiet

/-- No directory and no link count has changed. -/
structure Quiet (g : Geometry) (m m' : Bytes) : Prop where
  dir : ∀ d, d < g.ninodes → oiFtype m (inodeAddr d) = FTYPE_DIR → Same g d m m'
  ftype : ∀ j, j < g.ninodes → oiFtype m' (inodeAddr j) = oiFtype m (inodeAddr j)
  nlink : ∀ j, j < g.ninodes → oiNlink m' (inodeAddr j) = oiNlink m (inodeAddr j)

theorem Quiet.refl : Quiet g m m := ⟨fun _ _ _ => Same.refl, fun _ _ => rfl, fun _ _ => rfl⟩

/-- Of the inodes and their blocks, only those of `i` have changed, and no type and no link count has. -/
structure OnlyInode (g : Geometry) (i : Nat) (m m' : Bytes) : Prop where
  others : ∀ j, j < g.ninodes → j ≠ i → Same g j m m'
  ftype : ∀ j, j < g.ninodes → oiFtype m' (inodeAddr j) = oiFtype m (inodeAddr j)
  nlink : ∀ j, j < g.ninodes → oiNlink m' (inodeAddr j) = oiNlink m (inodeAddr j)

theorem OnlyInode.refl : OnlyInode g i m m := ⟨fun _ _ _ => Same.refl, fun _ _ => rfl, fun _ _ => rfl⟩

theorem OnlyInode.trans (h : OnlyInode g i m m') (h' : OnlyInode g i m' m'') : OnlyInode g i m m'' where
  others j hj hne := (h.others j hj hne).trans (h'.others j hj hne)
  ftype j hj := by rw [h'.ftype j hj, h.ftype j hj]
  nlink j hj := by rw [h'.nlink j hj, h.nlink j hj]

theorem OnlyInode.quiet (h : OnlyInode g i m m') (hf : oiFtype m (inodeAddr i) ≠ FTYPE_DIR) :
    Quiet g m m' where
  dir d hd hdir := h.others d hd (by rintro rfl; exact hf hdir)
  ftype := h.ftype
  nlink := h.nlink

theorem Change.onlyInode (h : Change g i m m') (hs : Sound g m) (hi : i < g.ninodes) :
    OnlyInode g i m m' where
  others _ hj hne := h.same hs hi hj hne
  ftype _ hj := h.ftype hj
  nlink _ hj := h.nlink hj

theorem Overwritten.onlyInode (h : Overwritten g i m m') : OnlyInode g i m m' where
  others _ hj hne := h.same hj hne
  ftype _ hj := h.ftype hj
  nlink _ hj := h.nlink hj

theorem setMode_onlyInode (hs : Sound g m) (hi : i < g.ninodes) (v : Nat) :
    OnlyInode g i m (setMode m (inodeAddr i) v) := by
  have hword : ∀ j k, k < 12 → k % 4 = 0 → rd32 (setMode m (inodeAddr i) v) (inodeAddr j + k) =
      rd32 m (inodeAddr j + k) := fun j k hk h4 => rd32_wr32_ne (by unfold inodeAddr; omega)
  constructor
  · exact fun j _ hne => setField_same hs hi (.inr (.inr rfl)) (.inl hne) v
  · exact fun j _ => hword j 4 (by omega) rfl
  · exact fun j _ => hword j 8 (by omega) rfl

/-- A new size of a file. -/
theorem changeSize_quiet {sz : Nat} (h : Mounted g gone m) (hx : HasBlocks g m i)
    (hf : oiFtype m (inodeAddr i) ≠ FTYPE_DIR) (hsz : WithinIndirect (oiSize m (inodeAddr i)) sz)
    (hrun : changeSize fuel m (inodeAddr i) sz = some (m', ret)) : Quiet g m m' :=
  ((changeSize_change h.sound hx (h.size_le i hx) hsz hrun).1.onlyInode h.sound hx.1).quiet hf

section Files
variable (h : Ready g s) (hi : i < g.ninodes) (hf : oiFtype s.data (inodeAddr i) = FTYPE_REG)
include h hi hf

/-- `ospfs_write` on a regular file. -/
theorem writeFile_onlyInode {append : Bool} {buffer : Nat → Option UInt8} {count fpos : Nat}
    {r : WriteResult}
    (hroom : ∀ sz, Callback.request s.data (.write i append buffer count fpos) = some (i, sz) →
      WithinIndirect (oiSize s.data (inodeAddr i)) sz)
    (hrun : writeFile fuel s.data (inodeAddr i) append buffer count fpos = some r) :
    OnlyInode g i s.data r.data := by
  have hs := h.mounted.sound
  have hx : HasBlocks g s.data i := ⟨hi, by rw [hf]; decide⟩
  unfold writeFile at hrun
  dsimp only [Callback.request] at hroom
  dsimp only at hrun
  generalize (if append = true then oiSize s.data (inodeAddr i) else fpos) = p at hrun hroom
  by_cases hgrow : p + count > oiSize s.data (inodeAddr i)
  · rw [if_pos hgrow] at hrun hroom
    cases hc : changeSize fuel s.data (inodeAddr i) (u32 (p + count)) with
    | none =>
      rw [hc] at hrun
      cases hrun
    | some r₁ =>
      obtain ⟨m₁, r₁⟩ := r₁
      obtain ⟨hchange, hle⟩ := changeSize_change hs hx (h.mounted.size_le i hx) (hroom _ rfl) hc
      have honly := hchange.onlyInode hs hi
      rw [hc] at hrun
      dsimp only at hrun
      split at hrun
      · rw [← Option.some.inj hrun]
        exact honly
      · rw [← Option.some.inj hrun]
        have hover := writeLoop_overwritten count p buffer count 0 hchange.sound
          (hchange.hasBlocks hx) hle
        exact honly.trans hover.onlyInode
  · rw [if_neg hgrow] at hrun
    rw [← Option.some.inj hrun]
    exact (writeLoop_overwritten count p buffer count 0 hs hx (h.mounted.size_le i hx)).onlyInode

theorem ospfsNotifyChange_onlyInode {attr : Iattr}
    (hroom : ∀ sz, attr.size = some sz → WithinIndirect (oiSize s.data (inodeAddr i)) (u32 sz))
    (hrun : ospfsNotifyChange fuel s i attr = some (s', ret)) : OnlyInode g i s.data s'.data := by
  have hs := h.mounted.sound
  have hdir : oiFtype s.data (inodeAddr i) ≠ FTYPE_DIR := by
    rw [hf]
    decide
  have hx : HasBlocks g s.data i := ⟨hi, by rw [hf]; decide⟩
  have hmode : ∀ m₁, Sound g m₁ → OnlyInode g i m₁ (withMode m₁ (inodeAddr i) attr.mode) := by
    intro m₁ hs₁
    cases attr.mode with
    | none => exact OnlyInode.refl
    | some mode => exact setMode_onlyInode hs₁ hi mode
  unfold ospfsNotifyChange at hrun
  rw [hs.inode hi] at hrun
  dsimp only at hrun
  cases hsize : attr.size with
  | none =>
    rw [hsize] at hrun
    dsimp only at hrun
    rw [Option.some.injEq, Prod.mk.injEq] at hrun
    rw [← hrun.1]
    exact hmode _ hs
  | some sz =>
    rw [hsize] at hrun
    dsimp only at hrun
    rw [if_neg hdir] at hrun
    cases hc : changeSize fuel s.data (inodeAddr i) (u32 sz) with
    | none =>
      rw [hc] at hrun
      cases hrun
    | some r₁ =>
      obtain ⟨m₁, r₁⟩ := r₁
      obtain ⟨hchange, _⟩ := changeSize_change hs hx (h.mounted.size_le i hx) (hroom sz hsize) hc
      have honly := hchange.onlyInode hs hi
      rw [hc] at hrun
      dsimp only at hrun
      split at hrun
      · rw [Option.some.injEq, Prod.mk.injEq] at hrun
        rw [← hrun.1]
        exact honly
      · rw [Option.some.injEq, Prod.mk.injEq] at hrun
        rw [← hrun.1]
        exact honly.trans (hmode _ hchange.sound)

end Files

end Quiet

section OneEntry

/-- Entry `k` of directory `d` has been filled, and the other directories are as they were. -/
structure OneEntry (g : Geometry) (d k : Nat) (m m' : Bytes) : Prop extends
    EntryFilled g d k m m' where
  others : ∀ e, e < g.ninodes → e ≠ d → oiFtype m (inodeAddr e) = FTYPE_DIR → Same g e m m'
  dirs : ∀ j, j < g.ninodes →
    (oiFtype m' (inodeAddr j) = FTYPE_DIR ↔ oiFtype m (inodeAddr j) = FTYPE_DIR)

/-- A blank entry is written, and then bytes that no directory has. -/
theorem Blank.oneEntry (hb : Blank g d k m m₁) (hs : Sound g m) (hd : d < g.ninodes)
    (hw : EntryWritten g d k m₁ m₂) (hs' : Sound g m')
    (hafter : ∀ e, e < g.ninodes → oiFtype m₂ (inodeAddr e) = FTYPE_DIR → Same g e m₂ m')
    (hdirs : ∀ j, j < g.ninodes → oiFtype m' (inodeAddr j) = FTYPE_DIR →
      oiFtype m₂ (inodeAddr j) = FTYPE_DIR) : OneEntry g d k m m' := by
  have hover := hw.overwritten hb.change.sound hb.dir hb.found
  have hftype : ∀ j, j < g.ninodes → oiFtype m₂ (inodeAddr j) = oiFtype m (inodeAddr j) :=
    fun j hj => by rw [hover.ftype hj, hb.change.ftype hj]
  have hdir : oiFtype m₂ (inodeAddr d) = FTYPE_DIR := by rw [hover.ftype hd, hb.dir.ftype]
  refine ⟨(hb.written hw hs' (hafter d hd hdir)).1, ?_, ?_⟩
  · intro e he hne hf
    exact ((hb.change.same hs hd he hne).trans (hover.same he hne)).trans
      (hafter e he (by rw [hftype e he, hf]))
  · intro j hj
    constructor
    · intro hf
      rw [← hftype j hj]
      exact hdirs j hj hf
    · intro hf
      have hf₂ : oiFtype m₂ (inodeAddr j) = FTYPE_DIR := by rw [hftype j hj, hf]
      rw [(hafter j hj hf₂).ftype, hf₂]

end OneEntry

section Insertions

/-- The entry has this inode number, and this name with its NUL. -/
structure Spells (m : Bytes) (od ino : Nat) (name : Name) : Prop where
  ino : odIno m od = ino
  text : load m (od + 4) name.length = name
  nul : m (od + 4 + name.length) = 0

theorem setEntry_ino (h : i < g.ninodes) (hkept : ∀ j, j < 4 → m' (l + j) = setEntry m l i name (l + j)) :
    odIno m' l = i := by
  have hn := g.room
  have hle := g.nblocks_le
  rw [odIno_congr hkept]
  exact odIno_setEntry (by omega)

theorem setEntry_name (hkept : ∀ j, j < name.length →
    m' (l + (4 + j)) = setEntry m l i name (l + (4 + j))) : load m' (l + 4) name.length = name := by
  have hload : load m' (l + 4) name.length = load (setEntry m l i name) (l + 4) name.length := by
    apply load_congr
    intro j hj
    rw [Nat.add_assoc]
    exact hkept j hj
  rw [hload]
  exact load_store_same _ _ _

theorem setEntryTerminated_spells (h : i < g.ninodes) (hlen : name.length ≤ 123)
    (hkept : ∀ j, j < 128 → m' (l + j) = setEntryTerminated m l i name (l + j)) :
    Spells m' l i name := by
  have hentry : ∀ j, j < 4 + name.length → m' (l + j) = setEntry m l i name (l + j) := by
    intro j hj
    rw [hkept j (by omega)]
    exact store_outside (by omega)
  constructor
  · exact setEntry_ino h fun j hj => hentry j (by omega)
  · exact setEntry_name fun j hj => hentry _ (by omega)
  · rw [Nat.add_assoc, hkept _ (by omega), ← Nat.add_assoc]
    unfold setEntryTerminated
    exact store_inside (k := 0) (by decide)

/-- Inode `i` has a new link count, and the others have the old ones. A type that is new is that of a
file or of a symbolic link. -/
structure NewCount (g : Geometry) (i n : Nat) (m m' : Bytes) : Prop where
  exists_ino : i < g.ninodes
  count : oiNlink m' (inodeAddr i) = n
  others : ∀ j, j < g.ninodes → j ≠ i → oiNlink m' (inodeAddr j) = oiNlink m (inodeAddr j)
  types : ∀ j, j < g.ninodes → oiFtype m' (inodeAddr j) = oiFtype m (inodeAddr j) ∨
    oiFtype m' (inodeAddr j) = FTYPE_REG ∨ oiFtype m' (inodeAddr j) = FTYPE_SYMLINK

theorem NewCount.quiet {n : Nat} (h : NewCount g i n m m₁) (hq : Quiet g m₁ m') : NewCount g i n m m' where
  exists_ino := h.exists_ino
  count := by rw [hq.nlink i h.exists_ino, h.count]
  others j hj hne := by rw [hq.nlink j hj, h.others j hj hne]
  types j hj := by
    rw [hq.ftype j hj]
    exact h.types j hj

/-- The link count of `i` is written after something that left the counts alone. -/
theorem setNlink_newCount {n : Nat} (hs : Sound g m₁) (hi : i < g.ninodes) (hn : n < 4294967296)
    (hnlink : ∀ j, j < g.ninodes → oiNlink m₁ (inodeAddr j) = oiNlink m (inodeAddr j))
    (htype : ∀ j, j < g.ninodes → oiFtype m₁ (inodeAddr j) = oiFtype m (inodeAddr j)) :
    NewCount g i n m (setNlink m₁ (inodeAddr i) n) where
  exists_ino := hi
  count := oiNlink_setNlink hn
  others j hj hne := by rw [oiNlink_setNlink_ne hne, hnlink j hj]
  types j hj := .inl (by rw [(setNlink_frame hs hi n).ftype, htype j hj])

/-- What `ospfs_create` and `ospfs_symlink` do, by the value they return: the entry stays blank when
there is no free inode, and stays when there is no memory for the inode. -/
inductive Creates (g : Geometry) (s s' : State) (d : Nat) (name : Name) (findsMemory : Bool) : Int → Prop
  | bound (hd : d < g.ninodes) (hbound : (findDirentry s.data (inodeAddr d) name).isSome = true)
      (hsame : s' = s) : Creates g s s' d name findsMemory (-EEXIST)
  | full {k : Nat} (hnone : findDirentry s.data (inodeAddr d) name = none)
      (hone : OneEntry g d k s.data s'.data) (hblank : odIno s'.data (direntAt g s'.data d k) = 0)
      (hcount : ∀ j, j < g.ninodes → oiNlink s'.data (inodeAddr j) = oiNlink s.data (inodeAddr j))
      (htypes : ∀ j, j < g.ninodes → oiFtype s'.data (inodeAddr j) = oiFtype s.data (inodeAddr j)) :
      Creates g s s' d name findsMemory (-ENOSPC)
  | entered {k i : Nat} {ret : Int} (hnone : findDirentry s.data (inodeAddr d) name = none)
      (hone : OneEntry g d k s.data s'.data)
      (hspells : Spells s'.data (direntAt g s'.data d k) i name) (htwo : 2 ≤ i)
      (hfree : oiNlink s.data (inodeAddr i) = 0) (hcount : NewCount g i 1 s.data s'.data)
      (hmade : oiFtype s'.data (inodeAddr i) = FTYPE_REG ∨ oiFtype s'.data (inodeAddr i) = FTYPE_SYMLINK)
      (hret : ret = 0 ∨ ret = -ENOMEM ∧ findsMemory = false) : Creates g s s' d name findsMemory ret

/-- Only the new inode may have another type. -/
theorem Inserted.ftype_ne {init : Bytes → Nat → Bytes} (hins : Inserted g d k i name init m m₁ m')
    (hname : name.length ≤ 123) (hj : j < g.ninodes) (hne : j ≠ i) :
    oiFtype m' (inodeAddr j) = oiFtype m (inodeAddr j) := by
  have hs₁ := hins.blank.change.sound
  have hover := (setEntryTerminated_written (g := g) (m := m₁) (d := d) (k := k) hname i).overwritten hs₁
    hins.blank.dir hins.blank.found
  obtain ⟨-, hi, -⟩ := findEmptyInode_some hs₁ hins.empty
  rw [(hins.remade.same hover.sound hi hne).ftype, hover.ftype hj, hins.blank.change.ftype hj]

variable (h : Ready g s) (hf : oiFtype s.data (inodeAddr d) = FTYPE_DIR)
include h hf

theorem insertEntry_changes {init : Bytes → Nat → Bytes} (hname : name.length ≤ 123)
    (hroom : ∀ sz, insertRequest s.data (inodeAddr d) name = some sz →
      WithinIndirect (oiSize s.data (inodeAddr d)) sz)
    (hinit : ∀ m i, i < g.ninodes → Remade g i m (init m (inodeAddr i)))
    (hrun : insertEntry fuel s d name newInode init = some (s', ret)) :
    Creates g s s' d name newInode ret := by
  have hs := h.mounted.sound
  have hd := h.isDirectory (insertEntry_exists hs hrun) hf
  obtain ⟨_, hcases⟩ := insertEntry_cases hs hd hname hroom hinit hrun
  rcases hcases with ⟨hbound, rfl, hsame⟩ | ⟨hnone, k, m₁, hblank, hcases⟩
  · exact .bound hd.exists_ino hbound hsame
  have hs₁ := hblank.change.sound
  have hnlink₁ : ∀ j, j < g.ninodes → oiNlink m₁ (inodeAddr j) = oiNlink s.data (inodeAddr j) :=
    fun j hj => hblank.change.nlink hj
  rcases hcases with ⟨_, rfl, rfl⟩ | ⟨i, hins, hret⟩
  · refine .full hnone ?_ hblank.blank hnlink₁ fun j hj => hblank.change.ftype hj
    exact hblank.oneEntry hs hd.exists_ino (fun _ _ => rfl) hs₁ (fun _ _ _ => Same.refl)
      fun _ _ hf => hf
  · obtain ⟨htwo, hi, hfree⟩ := findEmptyInode_some hs₁ hins.empty
    have hwritten := setEntryTerminated_written (g := g) (m := m₁) (d := d) (k := k) hname i
    have hover := hwritten.overwritten hs₁ hblank.dir hblank.found
    have hs' := hins.remade.sound hover.sound hi
    have hfree₀ : oiNlink s.data (inodeAddr i) = 0 := by rw [← hnlink₁ i hi, hfree]
    -- the inode that is taken was no directory
    have hafter : ∀ e, e < g.ninodes →
        oiFtype (setEntryTerminated m₁ (direntAt g m₁ d k) i name) (inodeAddr e) = FTYPE_DIR →
          Same g e (setEntryTerminated m₁ (direntAt g m₁ d k) i name) s'.data := by
      intro e he hdir
      rw [hover.ftype he, hblank.change.ftype he] at hdir
      apply hins.remade.same hover.sound hi
      rintro rfl
      exact h.linked _ he hdir hfree₀
    have hdirs := hins.remade.dirsKept (K := fun _ => True) hover.sound hi
    refine .entered hnone (hblank.oneEntry hs hd.exists_ino hwritten hs' hafter
      fun j hj hf => (hdirs j hj hf).1) ?_ htwo hfree₀ ⟨hi, hins.remade.nlink, ?_, ?_⟩
      hins.remade.ftype hret
    · have hdir : oiFtype (setEntryTerminated m₁ (direntAt g m₁ d k) i name) (inodeAddr d) =
          FTYPE_DIR := by rw [hover.ftype hd.exists_ino, hblank.dir.ftype]
      obtain ⟨_, haddr, hbyte⟩ := hblank.written hwritten hs' (hafter d hd.exists_ino hdir)
      rw [haddr]
      exact setEntryTerminated_spells hi hname hbyte
    · intro j hj hne
      rw [hins.remade.toRenewed.nlink hne, hover.nlink hj, hnlink₁ j hj]
    · intro j hj
      by_cases hji : j = i
      · exact .inr (hji ▸ hins.remade.ftype)
      · exact .inl (hins.ftype_ne hname hj hji)

end Insertions

section Links

theorem Linked.ftype (hl : Linked g d k i name m m₁ m') (hname : name.length ≤ 123) (hj : j < g.ninodes) :
    oiFtype m' (inodeAddr j) = oiFtype m (inodeAddr j) := by
  have hover := (setEntry_written (g := g) (m := m₁) (d := d) (k := k) hname i).overwritten
    hl.blank.change.sound hl.blank.dir hl.blank.found
  rw [hl.data, (setNlink_frame hover.sound hl.exists_ino _).ftype, hover.ftype hj,
    hl.blank.change.ftype hj]

theorem unlinked_ftype (hs : Sound g m) (hd : IsDirectory g m d) (hk : HasEntry m d k) (hi : i < g.ninodes)
    (hj : j < g.ninodes) : oiFtype (unlinked g m d k i) (inodeAddr j) = oiFtype m (inodeAddr j) := by
  have hover := (setOdIno_written (g := g) (m := m) (d := d) (k := k) 0).overwritten hs hd hk
  unfold unlinked
  rw [(setNlink_frame hover.sound hi _).ftype, hover.ftype hj]

variable (h : Ready g s)
include h

/-- The blocks of the inode may be given back at last. -/
theorem Unlinked.quiet (hu : Unlinked g d k i name fuel s.data m' ret) (hd : IsDirectory g s.data d)
    (hf : oiFtype s.data (inodeAddr i) ≠ FTYPE_DIR) : Quiet g (unlinked g s.data d k i) m' := by
  obtain ⟨hi, hfound, hdata⟩ := hu
  have hk := ((entryNamed_some hd.aligned).mp hfound).1
  have hftype := unlinked_ftype h.mounted.sound hd hk hi hi
  split at hdata
  · next hlast =>
    have hmounted : Mounted g (fun _ => False) (unlinked g s.data d k i) :=
      (h.mounted.entryWritten hd hk (setOdIno_written 0)).relinked hi _
    refine changeSize_quiet hmounted ⟨hi, hlast.1⟩ (by rwa [hftype]) ?_ hdata
    unfold WithinIndirect
    omega
  · rw [hdata.1]
    exact Quiet.refl

/-- How `ospfs_link` returns. The search for an entry has no error left to return. -/
theorem ospfsLink_returns (hallowed : (Callback.link src d name).Allowed s.data)
    (hrun : ospfsLink fuel s src d name = some (s', ret)) :
    (123 < name.length ∧ ret = -ENAMETOOLONG ∧ s' = s) ∨
      (name.length ≤ 123 ∧ (findDirentry s.data (inodeAddr d) name).isSome = true ∧
        ret = -EEXIST ∧ s' = s) ∨ ret = 0 := by
  have hs := h.mounted.sound
  have hd := h.isDirectory (ospfsLink_exists hs h.counter hrun) hallowed.served.1
  have hroom : ∀ sz, insertRequest s.data (inodeAddr d) name = some sz →
      WithinIndirect (oiSize s.data (inodeAddr d)) sz :=
    fun sz hsz => hallowed.within d sz (congrArg (Option.map (d, ·)) hsz)
  unfold ospfsLink at hrun
  rw [tick_mounted h.counter] at hrun
  dsimp only at hrun
  rw [hs.inode hd.exists_ino] at hrun
  dsimp only at hrun
  by_cases hlong : name.length > 123
  · rw [if_pos hlong, Option.some.injEq, Prod.mk.injEq] at hrun
    exact .inl ⟨hlong, hrun.2.symm, hrun.1.symm⟩
  rw [if_neg hlong] at hrun
  by_cases hbound : (findDirentry s.data (inodeAddr d) name).isSome = true
  · rw [if_pos hbound, Option.some.injEq, Prod.mk.injEq] at hrun
    exact .inr (.inl ⟨by omega, hbound, hrun.2.symm, hrun.1.symm⟩)
  rw [if_neg hbound] at hrun
  right
  right
  unfold insertRequest at hroom
  rw [if_neg (not_or.mpr ⟨hlong, hbound⟩)] at hroom
  cases hblank : createBlankDirentry fuel s.data (inodeAddr d) with
  | none =>
    rw [hblank] at hrun
    cases hrun
  | some r =>
    obtain ⟨m₁, r⟩ := r
    obtain ⟨k, -, rfl⟩ := createBlankDirentry_spec hs hd hroom hblank
    rw [hblank] at hrun
    dsimp only at hrun
    split at hrun
    · cases hrun
    · rw [Option.some.injEq, Prod.mk.injEq] at hrun
      exact hrun.2.symm

/-- The entry that `ospfs_link` fills may keep the end of an older name. -/
theorem ospfsLink_changes (hallowed : (Callback.link src d name).Allowed s.data)
    (hrun : ospfsLink fuel s src d name = some (s', ret)) :
    (123 < name.length ∧ ret = -ENAMETOOLONG ∧ s' = s) ∨
      (name.length ≤ 123 ∧ (findDirentry s.data (inodeAddr d) name).isSome = true ∧
        ret = -EEXIST ∧ s' = s) ∨
      (name.length ≤ 123 ∧ findDirentry s.data (inodeAddr d) name = none ∧ ret = 0 ∧
        ∃ k, OneEntry g d k s.data s'.data ∧
          odIno s'.data (direntAt g s'.data d k) = src ∧
          load s'.data (direntAt g s'.data d k + 4) name.length = name ∧
          (s'.data (direntAt g s'.data d k + 4 + name.length) = 0 ↔
            EndsInNul s.data (inodeAddr d) name) ∧
          NewCount g src (u32 (oiNlink s.data (inodeAddr src) + 1)) s.data s'.data) := by
  have hs := h.mounted.sound
  have hd := h.isDirectory (ospfsLink_exists hs h.counter hrun) hallowed.served.1
  have hroom : ∀ sz, insertRequest s.data (inodeAddr d) name = some sz →
      WithinIndirect (oiSize s.data (inodeAddr d)) sz :=
    fun sz hsz => hallowed.within d sz (congrArg (Option.map (d, ·)) hsz)
  rcases ospfsLink_returns h hallowed hrun with hlong | hbound | rfl
  · exact .inl hlong
  · exact .inr (.inl hbound)
  obtain ⟨hlen, -, hnone, k, hfilled, hino, htext, hnul⟩ := ospfsLink_filled h hallowed hrun
  obtain ⟨-, hcases⟩ := ospfsLink_cases hs hd h.counter hroom hrun
  obtain ⟨-, -, -, l, m₁, hlinked⟩ := hcases.resolve_left fun hrefused => absurd hrefused.2 (by decide)
  have htype : ∀ j, j < g.ninodes → oiFtype s'.data (inodeAddr j) = oiFtype s.data (inodeAddr j) :=
    fun j hj => hlinked.ftype hlen hj
  obtain ⟨hblank, hsrc, hdata⟩ := hlinked
  have hwritten := setEntry_written (g := g) (m := m₁) (d := d) (k := l) hlen src
  have hover := hwritten.overwritten hblank.change.sound hblank.dir hblank.found
  have hframe : ∀ j, Same g j (setEntry m₁ (direntAt g m₁ d l) src name) s'.data := by
    intro j
    rw [hdata]
    exact setNlink_frame hover.sound hsrc _
  have hnlink : ∀ j, j < g.ninodes →
      oiNlink (setEntry m₁ (direntAt g m₁ d l) src name) (inodeAddr j) =
        oiNlink s.data (inodeAddr j) := fun j hj => by rw [hover.nlink hj, hblank.change.nlink hj]
  have hovertype : ∀ j, j < g.ninodes →
      oiFtype (setEntry m₁ (direntAt g m₁ d l) src name) (inodeAddr j) =
        oiFtype s.data (inodeAddr j) := fun j hj => by rw [hover.ftype hj, hblank.change.ftype hj]
  refine .inr (.inr ⟨hlen, hnone, rfl, k, ⟨hfilled, ?_, ?_⟩, hino, htext, hnul, ?_⟩)
  · intro e he hne _
    exact ((hblank.change.same hs hd.exists_ino he hne).trans (hover.same he hne)).trans (hframe e)
  · intro j hj
    rw [htype j hj]
  · rw [hdata, hnlink src hsrc]
    exact setNlink_newCount hover.sound hsrc (u32_lt _) hnlink hovertype

/-- The entry that `ospfs_unlink` clears. -/
theorem ospfsUnlink_changes (hallowed : (Callback.unlink d ino name).Allowed s.data)
    (hrun : ospfsUnlink fuel s d ino name = some (s', ret)) :
    (findDirentry s.data (inodeAddr d) name = none ∧ ret = -ENOENT ∧ s' = s) ∨
      ∃ k, entryNamed g s.data d name = some k ∧ OneEntry g d k s'.data s.data ∧
        NewCount g ino (usub32 (oiNlink s.data (inodeAddr ino)) 1) s.data s'.data := by
  have hs := h.mounted.sound
  have hd := h.isDirectory (ospfsUnlink_exists hs hrun) hallowed.served.1
  have hino : oiFtype s.data (inodeAddr ino) ≠ FTYPE_DIR := hallowed.onFiles
  obtain ⟨-, hcases⟩ := ospfsUnlink_cases hs hd h.counter hrun
  rcases hcases with ⟨hnone, hret, hsame⟩ | ⟨k, hu⟩
  · refine .inl ⟨?_, hret, hsame⟩
    rw [findDirentry_eq hs hd, hnone]
    rfl
  have hafter := hu.quiet h hd hino
  obtain ⟨hi, hfound, -⟩ := hu
  refine .inr ⟨k, hfound, ?_⟩
  have hk := ((entryNamed_some hd.aligned).mp hfound).1
  have hwritten := setOdIno_written (g := g) (m := s.data) (d := d) (k := k) 0
  have hover := hwritten.overwritten hs hd hk
  have hframe : ∀ j, Same g j (setOdIno s.data (direntAt g s.data d k) 0)
      (unlinked g s.data d k ino) := fun j => setNlink_frame hover.sound hi _
  have hftype : ∀ j, j < g.ninodes → oiFtype (unlinked g s.data d k ino) (inodeAddr j) =
      oiFtype s.data (inodeAddr j) := fun j hj => unlinked_ftype hs hd hk hi hj
  have hcount : NewCount g ino (usub32 (oiNlink s.data (inodeAddr ino)) 1) s.data
      (unlinked g s.data d k ino) := by
    unfold unlinked
    rw [hover.nlink hi]
    exact setNlink_newCount hover.sound hi (usub32_lt _ _) (fun j hj => hover.nlink hj)
      fun j hj => hover.ftype hj
  have hsame : ∀ e, e < g.ninodes → oiFtype s.data (inodeAddr e) = FTYPE_DIR →
      Same g e (setOdIno s.data (direntAt g s.data d k) 0) s'.data := fun e he hf =>
    (hframe e).trans (hafter.dir e he (by rw [hftype e he, hf]))
  have hdsame := hsame d hd.exists_ino hd.ftype
  have hd₂ := hwritten.isDirectory hs hd hk hd
  have hhas : ∀ l, HasEntry s'.data d l ↔ HasEntry s.data d l := by
    intro l
    unfold HasEntry
    rw [hdsame.size, hover.size hd.exists_ino]
  have hhas₂ : ∀ l, HasEntry s.data d l →
      HasEntry (setOdIno s.data (direntAt g s.data d k) 0) d l := by
    intro l hl
    unfold HasEntry
    rw [hover.size hd.exists_ino]
    exact hl
  refine ⟨⟨⟨hs, hd, ?_, ?_, ?_⟩, ?_, ?_⟩, hcount.quiet hafter⟩
  · intro l
    rw [hhas]
    exact ⟨.inl, fun hl => hl.elim id fun heq => heq ▸ hk⟩
  · intro _
    have hbyte := fun j hj => hdsame.entry_bytes hd₂ (hhas₂ k hk) (show j < 128 from hj)
    rw [odIno_congr fun j hj => hbyte j (by omega), hwritten.direntAt_eq hs hd hk]
    exact odIno_setOdIno (by decide)
  · intro l j hl hne hj
    have hl := (hhas l).mp hl
    rw [hdsame.entry_bytes hd₂ (hhas₂ l hl) hj, hwritten.others hs hd hk hl hne hj]
  · intro e he hne hf
    rw [hafter.ftype e he, hftype e he] at hf
    exact ((hover.same he hne).trans (hsame e he hf)).symm
  · intro j hj
    rw [hafter.ftype j hj, hftype j hj]

end Links

section Calls

def returned (r : Option (State × Int)) : Option (State × Option Int) := r.map fun r => (r.1, some r.2)

theorem returned_iff {r : Option (State × Int)} {out : Option Int} :
    returned r = some (s', out) ↔ ∃ ret, out = some ret ∧ r = some (s', ret) := by
  unfold returned
  cases r with
  | none => simp
  | some r =>
    obtain ⟨s₁, ret⟩ := r
    simp only [Option.map_some, Option.some.injEq, Prod.mk.injEq]
    constructor
    · rintro ⟨rfl, rfl⟩
      exact ⟨ret, rfl, rfl, rfl⟩
    · rintro ⟨ret', rfl, rfl, rfl⟩
      exact ⟨rfl, rfl⟩

/-- The state after a callback, and the result of one that enters or removes a name. -/
def Callback.outcome (fuel : Nat) (s : State) (c : Callback) : Option (State × Option Int) :=
  match c with
  | .create dir name mode newInode => returned (ospfsCreate fuel s dir name mode newInode)
  | .symlink dir name symname newInode => returned (ospfsSymlink fuel s dir name symname newInode)
  | .link src dir name => returned (ospfsLink fuel s src dir name)
  | .unlink dir ino name => returned (ospfsUnlink fuel s dir ino name)
  | .write _ _ _ _ _ | .read _ _ _ _ | .notifyChange _ _ | .lookup _ _ _ | .readdir _ _ _ _
  | .followLink _ _ => (c.run fuel s).map (·, none)

/-- The name that a callback enters for a new inode, and its directory. -/
def Callback.creates : Callback → Option (Nat × Name)
  | .create dir name _ _ | .symlink dir name _ _ => some (dir, name)
  | _ => none

/-- Whether `new_inode` finds memory. -/
def Callback.findsMemory : Callback → Bool
  | .create _ _ _ newInode | .symlink _ _ _ newInode => newInode
  | _ => true

/-- The length limits of the names in a callback. -/
def Callback.Long : Callback → Prop
  | .create _ name _ _ | .link _ _ name => 123 < name.length
  | .symlink _ name symname _ => 123 < name.length ∨ 51 < symname.length
  | _ => False

/-- The inode of the file that a callback writes, reads or resizes. -/
def Callback.file : Callback → Option Nat
  | .write ino _ _ _ _ | .read ino _ _ _ | .notifyChange ino _ => some ino
  | _ => none

variable {c : Callback} {out : Option Int} (h : Ready g s)

theorem Callback.outcome_run (hrun : c.outcome fuel s = some (s', out)) : c.run fuel s = some s' := by
  unfold Callback.outcome at hrun
  cases c with
  | create | symlink | link | unlink =>
    obtain ⟨ret, rfl, hcall⟩ := returned_iff.mp hrun
    unfold Callback.run
    dsimp only
    rw [hcall]
    rfl
  | write | read | notifyChange | lookup | readdir | followLink =>
    obtain ⟨r, hr, heq⟩ := Option.map_eq_some_iff.mp hrun
    obtain ⟨rfl, -⟩ := Prod.mk.inj heq
    exact hr

theorem Callback.run_outcome (hrun : c.run fuel s = some s') :
    ∃ out, c.outcome fuel s = some (s', out) := by
  unfold Callback.outcome
  cases c with
  | create | symlink | link | unlink =>
    obtain ⟨⟨s₁, ret⟩, hcall, rfl⟩ := Option.map_eq_some_iff.mp hrun
    exact ⟨some ret, returned_iff.mpr ⟨ret, rfl, hcall⟩⟩
  | write | read | notifyChange | lookup | readdir | followLink =>
    exact ⟨none, by dsimp only; rw [hrun]; rfl⟩

include h

/-- The callbacks on a file leave all other inodes alone. -/
theorem Callback.run_onlyInode (hallowed : c.Allowed s.data) (hc : c.file = some i)
    (hrun : c.run fuel s = some s') : OnlyInode g i s.data s'.data := by
  have hs := h.mounted.sound
  cases c with
  | write ino append buffer count fpos =>
    obtain rfl := Option.some.inj hc
    obtain ⟨⟨s₁, r⟩, hwrite, rfl⟩ := Option.map_eq_some_iff.mp hrun
    unfold ospfsWrite at hwrite
    rw [tick_mounted h.counter] at hwrite
    dsimp only at hwrite
    cases hoi : ospfsInode s.data ino with
    | none =>
      rw [hoi] at hwrite
      cases hwrite
    | some oi =>
      obtain ⟨hi, rfl⟩ := hs.ospfsInode_iff.mp hoi
      rw [hoi] at hwrite
      dsimp only at hwrite
      cases hw : writeFile fuel s.data (inodeAddr ino) append buffer count fpos with
      | none =>
        rw [hw] at hwrite
        cases hwrite
      | some w =>
        rw [hw, Option.some.injEq, Prod.mk.injEq] at hwrite
        rw [← hwrite.1]
        exact writeFile_onlyInode h hi hallowed.served (hallowed.within ino) hw
  | notifyChange ino attr =>
    obtain rfl := Option.some.inj hc
    obtain ⟨⟨s₁, ret⟩, hchange, rfl⟩ := Option.map_eq_some_iff.mp hrun
    have hi : ino < g.ninodes := by
      unfold ospfsNotifyChange at hchange
      cases hoi : ospfsInode s.data ino with
      | none =>
        rw [hoi] at hchange
        cases hchange
      | some oi => exact (hs.ospfsInode_iff.mp hoi).1
    refine ospfsNotifyChange_onlyInode h hi hallowed.served (fun sz hsz => ?_) hchange
    exact hallowed.within ino (u32 sz) (congrArg (Option.map fun size => (ino, u32 size)) hsz)
  | read =>
    obtain ⟨_, _, heq⟩ := Option.map_eq_some_iff.mp hrun
    rw [← heq]
    exact OnlyInode.refl
  | _ => cases hc

/-- The callbacks that neither enter nor remove a name. -/
theorem Callback.outcome_quiet (hallowed : c.Allowed s.data)
    (hrun : c.outcome fuel s = some (s', none)) : Quiet g s.data s'.data := by
  have hcall := Callback.outcome_run hrun
  unfold Callback.outcome at hrun
  cases c with
  | create | symlink | link | unlink =>
    obtain ⟨ret, hnone, -⟩ := returned_iff.mp hrun
    cases hnone
  | write | notifyChange =>
    refine (Callback.run_onlyInode h hallowed rfl hcall).quiet ?_
    rw [show oiFtype s.data (inodeAddr _) = FTYPE_REG from hallowed.served]
    decide
  | read | lookup | readdir =>
    obtain ⟨_, _, heq⟩ := Option.map_eq_some_iff.mp hcall
    rw [← heq]
    exact Quiet.refl
  | followLink ino uid => exact hallowed.served.elim

/-- `ospfs_create` and `ospfs_symlink`. -/
theorem Callback.creates_changes (hallowed : c.Allowed s.data) (hc : c.creates = some (d, name))
    (hrun : c.outcome fuel s = some (s', out)) :
    (c.Long ∧ out = some (-ENAMETOOLONG) ∧ s' = s) ∨
      (¬ c.Long ∧ name.length ≤ 123 ∧
        ∃ ret, out = some ret ∧ Creates g s s' d name c.findsMemory ret) := by
  cases c with
  | create dir name' mode newInode =>
    obtain ⟨rfl, rfl⟩ := Prod.mk.inj (Option.some.inj hc)
    obtain ⟨ret, rfl, hcall⟩ := returned_iff.mp hrun
    unfold ospfsCreate at hcall
    rw [tick_mounted h.counter] at hcall
    dsimp only at hcall
    by_cases hlong : name'.length > 123
    · rw [if_pos hlong, Option.some.injEq, Prod.mk.injEq] at hcall
      obtain ⟨rfl, rfl⟩ := hcall
      exact .inl ⟨hlong, rfl, rfl⟩
    · rw [if_neg hlong] at hcall
      have hchanges := insertEntry_changes h hallowed.served.1 (by omega)
        (fun sz hsz => hallowed.within dir sz (congrArg (Option.map (dir, ·)) hsz))
        (fun m i hi => initRegular_remade mode hi) hcall
      exact .inr ⟨hlong, by omega, ret, rfl, hchanges⟩
  | symlink dir name' symname newInode =>
    obtain ⟨rfl, rfl⟩ := Prod.mk.inj (Option.some.inj hc)
    obtain ⟨ret, rfl, hcall⟩ := returned_iff.mp hrun
    unfold ospfsSymlink at hcall
    rw [tick_mounted h.counter] at hcall
    dsimp only at hcall
    by_cases hlong : name'.length > 123 ∨ symname.length > 51
    · rw [if_pos hlong, Option.some.injEq, Prod.mk.injEq] at hcall
      obtain ⟨rfl, rfl⟩ := hcall
      exact .inl ⟨hlong, rfl, rfl⟩
    · rw [if_neg hlong] at hcall
      have hchanges := insertEntry_changes h hallowed.served.1 (by omega) (fun sz hsz => by
          apply hallowed.within dir sz
          dsimp only [Callback.request]
          rw [if_neg (by omega), hsz]
          rfl)
        (fun m i _ => initSymlink_remade (by omega)) hcall
      exact .inr ⟨hlong, by omega, ret, rfl, hchanges⟩
  | _ => cases hc

end Calls

end CS111.Ospfs
