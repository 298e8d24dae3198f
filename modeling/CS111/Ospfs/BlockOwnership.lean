import CS111.Lib.Run
import CS111.Ospfs.Mounted
import CS111.Ospfs.RoundTrip

/-!
# Block ownership in every run

A run starts from an image that the formatter has finished. `Mount` remembers which inodes have lost
their last link.
-/

namespace CS111.Ospfs

open Memory

set_option autoImplicit false

variable {g : Geometry} {m m' : Bytes} {d i fuel : Nat} {gone gone' : Nat → Prop}
variable {s s' : State} {c : Callback} {name symname : Name} {ret : Int} {K : Nat → Prop}

section Runs

/-- A mounted volume, and the inodes whose last link is gone. -/
structure Mount where
  fs : State
  gone : Nat → Prop

/-- The inode that a callback makes longer, and the size it asks for. -/
def Callback.request (m : Bytes) : Callback → Option (Nat × Nat)
  | .create dir name _ _ => (insertRequest m (inodeAddr dir) name).map (dir, ·)
  | .symlink dir name symname _ =>
    if symname.length > 51 then none else (insertRequest m (inodeAddr dir) name).map (dir, ·)
  | .link _ dir name => (insertRequest m (inodeAddr dir) name).map (dir, ·)
  | .write ino append _ count fpos =>
    let fpos := if append then oiSize m (inodeAddr ino) else fpos
    if fpos + count > oiSize m (inodeAddr ino) then some (ino, u32 (fpos + count)) else none
  | .notifyChange ino attr => attr.size.map fun size => (ino, u32 size)
  | _ => none

/-- The tables `ospfs_reg_inode_ops`, `ospfs_reg_file_ops` and `ospfs_dir_inode_ops` say which
callbacks an inode has. A directory without links is not used again. -/
def Callback.Served (m : Bytes) (gone : Nat → Prop) : Callback → Prop
  | .create dir _ _ _ | .symlink dir _ _ _ | .link _ dir _ | .unlink dir _ _ =>
    oiFtype m (inodeAddr dir) = FTYPE_DIR ∧ ¬ gone dir
  | .write ino _ _ _ _ | .notifyChange ino _ =>
    oiFtype m (inodeAddr ino) = FTYPE_REG
  | .read _ _ _ _ | .lookup _ _ _ | .readdir _ _ _ _ => True
  | .followLink _ _ => False

/-- An inode goes with its last link, until it is taken for a new file. -/
def Callback.goneAfter (m m' : Bytes) (gone : Nat → Prop) : Callback → Nat → Prop
  | .create _ _ _ _, i | .symlink _ _ _ _, i =>
    gone i ∧ ¬ (oiNlink m (inodeAddr i) = 0 ∧ oiNlink m' (inodeAddr i) ≠ 0)
  | .unlink _ ino _, i =>
    gone i ∨ i = ino ∧ oiNlink m (inodeAddr i) ≠ 0 ∧ oiNlink m' (inodeAddr i) = 0
  | _, i => gone i

/-- A call that returns, on an inode that has it, which makes nothing longer than its direct and
indirect blocks allow. -/
structure MountStep (v : Mount) (c : Callback) (v' : Mount) : Prop where
  call : CallbackStep v.fs c v'.fs
  served : c.Served v.fs.data v.gone
  within : ∀ i sz, c.request v.fs.data = some (i, sz) →
    WithinIndirect (oiSize v.fs.data (inodeAddr i)) sz
  gone : v'.gone = c.goneAfter v.fs.data v'.fs.data v.gone

/-- The block pointers of the inodes that have a link. -/
structure BlocksOwned (m : Bytes) : Prop where
  named : ∀ i oi s, ospfsInode m i = some oi → oiFtype m oi ≠ FTYPE_SYMLINK → oiNlink m oi > 0 →
    ptr m oi s ≠ 0 → Allocated m (ptr m oi s)
  once : ∀ i j oi oj s t, ospfsInode m i = some oi → oiFtype m oi ≠ FTYPE_SYMLINK →
    oiNlink m oi > 0 → ospfsInode m j = some oj → oiFtype m oj ≠ FTYPE_SYMLINK → oiNlink m oj > 0 →
    ptr m oi s ≠ 0 → ptr m oi s = ptr m oj t → i = j ∧ s = t
  reserved : ∀ b, b < dataStart m → isFree m b = false

end Runs

theorem Sound.blocksOwned (hs : Sound g m) : BlocksOwned m := by
  have hstart : dataStart m = g.dataStart := by
    unfold dataStart Geometry.dataStart
    rw [hs.firstinob, hs.ninodes]
  constructor
  · intro i oi s hoi hf _ h0
    obtain ⟨hi, rfl⟩ := hs.ospfsInode_iff.mp hoi
    rw [← own_of hi hf] at h0 ⊢
    obtain ⟨h1, h2, h3⟩ := hs.owns.used_of_ne h0
    exact ⟨by rw [hstart]; exact h1, by rw [hs.nblocks]; exact h2, h3⟩
  · intro i j oi oj s t hoi hf _ hoj hfj _ h0 heq
    obtain ⟨hi, rfl⟩ := hs.ospfsInode_iff.mp hoi
    obtain ⟨hj, rfl⟩ := hs.ospfsInode_iff.mp hoj
    rw [← own_of hi hf] at h0 heq
    rw [← own_of hj hfj] at heq
    exact Prod.mk.inj (hs.owns.inj h0 heq)
  · intro b hb
    exact hs.reserved b (by omega)

section Calls

theorem insertEntry_exists {newInode : Bool} {init : Bytes → Nat → Bytes} (hs : Sound g s.data)
    (hrun : insertEntry fuel s d name newInode init = some (s', ret)) : d < g.ninodes := by
  unfold insertEntry at hrun
  cases hoi : ospfsInode s.data d with
  | none =>
    rw [hoi] at hrun
    cases hrun
  | some oi => exact (hs.ospfsInode_iff.mp hoi).1

variable (h : Mounted g gone s.data) (hmounted : s.nwritesToCrash = -1)
include h hmounted

/-- The common part of `ospfs_create` and `ospfs_symlink`. -/
theorem Mounted.insert {newInode : Bool} {init : Bytes → Nat → Bytes}
    (hf : oiFtype s.data (inodeAddr d) = FTYPE_DIR) (hg : ¬ gone d) (hname : name.length ≤ 123)
    (hroom : ∀ sz, insertRequest s.data (inodeAddr d) name = some sz →
      WithinIndirect (oiSize s.data (inodeAddr d)) sz)
    (hinit : ∀ m i, i < g.ninodes → Remade g i m (init m (inodeAddr i)))
    (hrun : insertEntry fuel s d name newInode init = some (s', ret)) :
    s'.nwritesToCrash = -1 ∧ Mounted g (fun i => gone i ∧
      ¬ (oiNlink s.data (inodeAddr i) = 0 ∧ oiNlink s'.data (inodeAddr i) ≠ 0)) s'.data ∧
    DirsKept g K s.data s'.data := by
  have hd := h.dir d (insertEntry_exists h.sound hrun) hf hg
  obtain ⟨hcounter, hcases⟩ := insertEntry_cases h.sound hd hname hroom hinit hrun
  refine ⟨hcounter.trans hmounted, ?_⟩
  rcases hcases with ⟨_, _, rfl⟩ | ⟨_, k, m₁, hblank, hcases⟩
  · exact ⟨h.mono fun j _ _ hj => ⟨hj, fun hnew => hnew.2 hnew.1⟩, DirsKept.refl⟩
  have hnlink₁ : ∀ j, j < g.ninodes → oiNlink m₁ (inodeAddr j) = oiNlink s.data (inodeAddr j) :=
    fun j hj => hblank.change.nlink hj
  have h₁ := h.blank hblank
  rcases hcases with ⟨_, _, hdata⟩ | ⟨i, hins, _⟩
  · rw [hdata]
    refine ⟨h₁.mono fun j hj _ hgone => ⟨hgone, fun hnew => hnew.2 ?_⟩, hblank.change.dirsKept⟩
    rw [hnlink₁ j hj, hnew.1]
  · obtain ⟨_, hi, _⟩ := findEmptyInode_some h₁.sound hins.empty
    have hwritten := setEntryTerminated_written (g := g) (m := m₁) (d := d) (k := k) hname i
    have h₂ := h₁.entryWritten hblank.dir hblank.found hwritten
    have hover := hwritten.overwritten h₁.sound hblank.dir hblank.found
    constructor
    · refine h₂.remade hins.remade hi fun j hj hne hgone => ⟨hgone, fun hnew => hnew.2 ?_⟩
      rw [hins.remade.toRenewed.nlink hne, hover.nlink hj, hnlink₁ j hj, hnew.1]
    · exact (hblank.change.dirsKept.trans hover.dirsKept).trans
        (hins.remade.dirsKept hover.sound hi)

theorem Mounted.link {src : Nat} (hd : IsDirectory g s.data d)
    (hroom : ∀ sz, insertRequest s.data (inodeAddr d) name = some sz →
      WithinIndirect (oiSize s.data (inodeAddr d)) sz)
    (hrun : ospfsLink fuel s src d name = some (s', ret)) (hK : K src) :
    s'.nwritesToCrash = -1 ∧ Mounted g gone s'.data ∧ DirsKept g K s.data s'.data := by
  obtain ⟨hcounter, hcases⟩ := ospfsLink_cases h.sound hd hmounted hroom hrun
  refine ⟨hcounter, ?_⟩
  rcases hcases with ⟨rfl, _⟩ | ⟨_, hname, _, k, m₁, hblank, hsrc, hdata⟩
  · exact ⟨h, DirsKept.refl⟩
  · have h₁ := h.blank hblank
    have hwritten := setEntry_written (g := g) (m := m₁) (d := d) (k := k) hname src
    have hover := hwritten.overwritten h₁.sound hblank.dir hblank.found
    rw [hdata]
    constructor
    · exact (h₁.entryWritten hblank.dir hblank.found hwritten).relinked hsrc _
    · exact (hblank.change.dirsKept.trans hover.dirsKept).trans
        (setNlink_dirsKept hover.sound hsrc hK _)

/-- After the last link of a directory nothing is said about it any more. -/
theorem Mounted.unlink (hd : IsDirectory g s.data d)
    (hrun : ospfsUnlink fuel s d i name = some (s', ret)) (hK : K i) :
    s'.nwritesToCrash = -1 ∧ Mounted g (fun j => gone j ∨
      j = i ∧ oiNlink s.data (inodeAddr j) ≠ 0 ∧ oiNlink s'.data (inodeAddr j) = 0) s'.data ∧
    DirsKept g K s.data s'.data := by
  obtain ⟨hcounter, hcases⟩ := ospfsUnlink_cases h.sound hd hmounted hrun
  refine ⟨hcounter, ?_⟩
  rcases hcases with ⟨_, _, rfl⟩ | ⟨k, hi, hfound, hdata⟩
  · exact ⟨h.mono fun j _ _ hj => .inl hj, DirsKept.refl⟩
  have hk := ((entryNamed_some hd.aligned).mp hfound).1
  have hwritten := setOdIno_written (g := g) (m := s.data) (d := d) (k := k) 0
  have hover := hwritten.overwritten h.sound hd hk
  have h₁ : Mounted g gone (unlinked g s.data d k i) :=
    (h.entryWritten hd hk hwritten).relinked hi _
  have hkept₁ : DirsKept g K s.data (unlinked g s.data d k i) :=
    hover.dirsKept.trans (setNlink_dirsKept hover.sound hi hK _)
  split at hdata
  · next hlast =>
    obtain ⟨hsym, hzero⟩ := hlast
    have hx : HasBlocks g (unlinked g s.data d k i) i := ⟨hi, hsym⟩
    have hwithin : WithinIndirect (oiSize (unlinked g s.data d k i) (inodeAddr i)) 0 := by
      unfold WithinIndirect
      omega
    obtain ⟨hchange, _⟩ := changeSize_change h₁.sound hx (h₁.size_le i hx) hwithin hdata
    have hnlink : oiNlink s'.data (inodeAddr i) = 0 := by rw [hchange.nlink hi, hzero]
    have hbefore : oiNlink s.data (inodeAddr i) ≠ 0 := by
      intro h0
      unfold unlinked at hzero
      rw [hover.nlink hi, h0, oiNlink_setNlink (by decide)] at hzero
      exact absurd hzero (by decide)
    exact ⟨h₁.resize hx hwithin (fun _ => .inr ⟨rfl, hbefore, hnlink⟩)
      (fun j _ _ hj => .inl hj) hdata, hkept₁.trans hchange.dirsKept⟩
  · rw [hdata.1]
    exact ⟨h₁.mono fun j _ _ hj => .inl hj, hkept₁⟩

theorem Mounted.write {append : Bool} {buffer : Nat → Option UInt8} {count fpos : Nat} {r : Nat × Int}
    (hf : oiFtype s.data (inodeAddr i) = FTYPE_REG)
    (hroom : ∀ sz, Callback.request s.data (.write i append buffer count fpos) = some (i, sz) →
      WithinIndirect (oiSize s.data (inodeAddr i)) sz)
    (hrun : ospfsWrite fuel s i append buffer count fpos = some (s', r)) :
    s'.nwritesToCrash = -1 ∧ Mounted g gone s'.data ∧ DirsKept g K s.data s'.data := by
  have hdir : oiFtype s.data (inodeAddr i) ≠ FTYPE_DIR := by
    rw [hf]
    decide
  have hsym : oiFtype s.data (inodeAddr i) ≠ FTYPE_SYMLINK := by
    rw [hf]
    decide
  unfold ospfsWrite at hrun
  rw [tick_mounted hmounted] at hrun
  dsimp only at hrun
  cases hoi : ospfsInode s.data i with
  | none =>
    rw [hoi] at hrun
    cases hrun
  | some oi =>
    obtain ⟨hi, rfl⟩ := h.sound.ospfsInode_iff.mp hoi
    have hx : HasBlocks g s.data i := ⟨hi, hsym⟩
    rw [hoi] at hrun
    dsimp only at hrun
    cases hw : writeFile fuel s.data (inodeAddr i) append buffer count fpos with
    | none =>
      rw [hw] at hrun
      cases hrun
    | some w =>
      rw [hw, Option.some.injEq, Prod.mk.injEq] at hrun
      obtain ⟨rfl, _⟩ := hrun
      refine ⟨hmounted, ?_⟩
      unfold writeFile at hw
      dsimp only [Callback.request] at hroom
      dsimp only at hw ⊢
      generalize (if append = true then oiSize s.data (inodeAddr i) else fpos) = p at hw hroom
      by_cases hgrow : p + count > oiSize s.data (inodeAddr i)
      · rw [if_pos hgrow] at hw hroom
        have hwithin := hroom _ rfl
        cases hc : changeSize fuel s.data (inodeAddr i) (u32 (p + count)) with
        | none =>
          rw [hc] at hw
          cases hw
        | some r₁ =>
          obtain ⟨m₁, r₁⟩ := r₁
          have h₁ := h.resize hx hwithin (fun hf' => absurd hf' hdir)
            (fun _ _ _ hj => hj) hc
          obtain ⟨hchange, hle⟩ := changeSize_change h.sound hx (h.size_le i hx) hwithin hc
          rw [hc] at hw
          dsimp only at hw
          split at hw
          · rw [Option.some.injEq] at hw
            rw [← hw]
            exact ⟨h₁, hchange.dirsKept⟩
          · rw [Option.some.injEq] at hw
            rw [← hw]
            have hover := writeLoop_overwritten count p buffer count 0 hchange.sound
              (hchange.hasBlocks hx) hle
            exact ⟨h₁.overwritten hover hi (by rw [hchange.ftype hi]; exact hdir),
              hchange.dirsKept.trans hover.dirsKept⟩
      · rw [if_neg hgrow, Option.some.injEq] at hw
        rw [← hw]
        have hover := writeLoop_overwritten count p buffer count 0 h.sound hx (h.size_le i hx)
        exact ⟨h.overwritten hover hi hdir, hover.dirsKept⟩

/-- The disk with a new mode, if one is given. -/
def withMode (m : Bytes) (oi : Nat) : Option Nat → Bytes
  | none => m
  | some mode => setMode m oi mode

theorem Mounted.notifyChange {attr : Iattr} (hf : oiFtype s.data (inodeAddr i) = FTYPE_REG)
    (hroom : ∀ sz, attr.size = some sz → WithinIndirect (oiSize s.data (inodeAddr i)) (u32 sz))
    (hrun : ospfsNotifyChange fuel s i attr = some (s', ret)) :
    s'.nwritesToCrash = -1 ∧ Mounted g gone s'.data ∧ DirsKept g K s.data s'.data := by
  have hdir : oiFtype s.data (inodeAddr i) ≠ FTYPE_DIR := by
    rw [hf]
    decide
  have hsym : oiFtype s.data (inodeAddr i) ≠ FTYPE_SYMLINK := by
    rw [hf]
    decide
  unfold ospfsNotifyChange at hrun
  cases hoi : ospfsInode s.data i with
  | none =>
    rw [hoi] at hrun
    cases hrun
  | some oi =>
    obtain ⟨hi, rfl⟩ := h.sound.ospfsInode_iff.mp hoi
    have hx : HasBlocks g s.data i := ⟨hi, hsym⟩
    -- the new mode, which comes last
    have hmode : ∀ m₁, Mounted g gone m₁ → oiFtype m₁ (inodeAddr i) ≠ FTYPE_DIR →
        Mounted g gone (withMode m₁ (inodeAddr i) attr.mode) ∧
          DirsKept g K m₁ (withMode m₁ (inodeAddr i) attr.mode) := by
      intro m₁ h₁ hf₁
      cases attr.mode with
      | none => exact ⟨h₁, DirsKept.refl⟩
      | some mode => exact ⟨h₁.chmod hi hf₁ mode, setMode_dirsKept mode⟩
    rw [hoi] at hrun
    dsimp only at hrun
    cases hsize : attr.size with
    | none =>
      rw [hsize] at hrun
      dsimp only at hrun
      rw [Option.some.injEq, Prod.mk.injEq] at hrun
      obtain ⟨rfl, _⟩ := hrun
      exact ⟨hmounted, hmode _ h hdir⟩
    | some sz =>
      rw [hsize] at hrun
      dsimp only at hrun
      rw [if_neg hdir] at hrun
      cases hc : changeSize fuel s.data (inodeAddr i) (u32 sz) with
      | none =>
        rw [hc] at hrun
        cases hrun
      | some r₁ =>
        obtain ⟨m₁, r₁⟩ := r₁
        have hwithin := hroom sz hsize
        have h₁ := h.resize hx hwithin (fun hf' => absurd hf' hdir) (fun _ _ _ hj => hj) hc
        obtain ⟨hchange, _⟩ := changeSize_change h.sound hx (h.size_le i hx) hwithin hc
        rw [hc] at hrun
        dsimp only at hrun
        split at hrun
        · rw [Option.some.injEq, Prod.mk.injEq] at hrun
          obtain ⟨rfl, _⟩ := hrun
          exact ⟨hmounted, h₁, hchange.dirsKept⟩
        · rw [Option.some.injEq, Prod.mk.injEq] at hrun
          obtain ⟨rfl, _⟩ := hrun
          obtain ⟨h₂, hkept⟩ := hmode _ h₁ (by rw [hchange.ftype hi]; exact hdir)
          exact ⟨hmounted, h₂, hchange.dirsKept.trans hkept⟩

end Calls

section Step

variable {v v' : Mount}

theorem ospfsUnlink_exists {ino : Nat} (hs : Sound g s.data)
    (hrun : ospfsUnlink fuel s d ino name = some (s', ret)) : d < g.ninodes := by
  unfold ospfsUnlink at hrun
  split at hrun
  · next _ _ _ hoi => exact (hs.ospfsInode_iff.mp hoi).1
  · cases hrun

theorem ospfsLink_exists {src : Nat} (hs : Sound g s.data) (hmounted : s.nwritesToCrash = -1)
    (hrun : ospfsLink fuel s src d name = some (s', ret)) : d < g.ninodes := by
  unfold ospfsLink at hrun
  rw [tick_mounted hmounted] at hrun
  dsimp only at hrun
  cases hoi : ospfsInode s.data d with
  | none =>
    rw [hoi] at hrun
    cases hrun
  | some oi => exact (hs.ospfsInode_iff.mp hoi).1

/-- What a mounted volume keeps. -/
structure Mount.Good (g : Geometry) (v : Mount) : Prop where
  mounted : Mounted g v.gone v.fs.data
  counter : v.fs.nwritesToCrash = -1

/-- The inode that a callback gives another link count. -/
def Callback.Relinks : Callback → Nat → Prop
  | .link src _ _, i => i = src
  | .unlink _ ino _, i => i = ino
  | _, _ => False

/-- What a step keeps. -/
theorem MountStep.kept (hstep : MountStep v c v') (h : v.Good g) : v'.fs.nwritesToCrash = -1 ∧
    Mounted g v'.gone v'.fs.data ∧ DirsKept g c.Relinks v.fs.data v'.fs.data := by
  obtain ⟨hm, hcounter⟩ := h
  obtain ⟨⟨fuel, hrun⟩, hserved, hwithin, hgone⟩ := hstep
  rw [hgone]
  cases c with
  | create dir name mode newInode =>
    obtain ⟨⟨s', ret⟩, hrun, rfl⟩ := Option.map_eq_some_iff.mp hrun
    unfold ospfsCreate at hrun
    rw [tick_mounted hcounter] at hrun
    dsimp only at hrun
    by_cases hlong : name.length > 123
    · rw [if_pos hlong, Option.some.injEq, Prod.mk.injEq] at hrun
      rw [← hrun.1]
      exact ⟨hcounter, hm.mono fun j _ _ hj => ⟨hj, fun hnew => hnew.2 hnew.1⟩, DirsKept.refl⟩
    · rw [if_neg hlong] at hrun
      apply hm.insert hcounter hserved.1 hserved.2 (by omega) _ _ hrun
      · intro sz hsz
        exact hwithin dir sz (congrArg (Option.map (dir, ·)) hsz)
      · exact fun m i hi => initRegular_remade mode hi
  | symlink dir name symname newInode =>
    obtain ⟨⟨s', ret⟩, hrun, rfl⟩ := Option.map_eq_some_iff.mp hrun
    unfold ospfsSymlink at hrun
    rw [tick_mounted hcounter] at hrun
    dsimp only at hrun
    by_cases hlong : name.length > 123 ∨ symname.length > 51
    · rw [if_pos hlong, Option.some.injEq, Prod.mk.injEq] at hrun
      rw [← hrun.1]
      exact ⟨hcounter, hm.mono fun j _ _ hj => ⟨hj, fun hnew => hnew.2 hnew.1⟩, DirsKept.refl⟩
    · rw [if_neg hlong] at hrun
      apply hm.insert hcounter hserved.1 hserved.2 (by omega) _ _ hrun
      · intro sz hsz
        apply hwithin dir sz
        dsimp only [Callback.request]
        rw [if_neg (by omega), hsz]
        rfl
      · exact fun m i _ => initSymlink_remade (by omega)
  | link src dir name =>
    obtain ⟨⟨s', ret⟩, hrun, rfl⟩ := Option.map_eq_some_iff.mp hrun
    have hd := hm.dir dir (ospfsLink_exists hm.sound hcounter hrun) hserved.1 hserved.2
    refine hm.link (K := (Callback.link src dir name).Relinks) hcounter hd ?_ hrun rfl
    intro sz hsz
    exact hwithin dir sz (congrArg (Option.map (dir, ·)) hsz)
  | unlink dir ino name =>
    obtain ⟨⟨s', ret⟩, hrun, rfl⟩ := Option.map_eq_some_iff.mp hrun
    have hd := hm.dir dir (ospfsUnlink_exists hm.sound hrun) hserved.1 hserved.2
    exact hm.unlink hcounter hd hrun rfl
  | write ino append buffer count fpos =>
    obtain ⟨⟨s', r⟩, hrun, rfl⟩ := Option.map_eq_some_iff.mp hrun
    exact hm.write hcounter hserved (hwithin ino) hrun
  | read ino count fpos writable =>
    obtain ⟨_, _, heq⟩ := Option.map_eq_some_iff.mp hrun
    rw [← heq]
    exact ⟨hcounter, hm, DirsKept.refl⟩
  | notifyChange ino attr =>
    obtain ⟨⟨s', ret⟩, hrun, rfl⟩ := Option.map_eq_some_iff.mp hrun
    apply hm.notifyChange hcounter hserved _ hrun
    intro sz hsz
    exact hwithin ino (u32 sz) (congrArg (Option.map fun size => (ino, u32 size)) hsz)
  | lookup dir name newInode =>
    obtain ⟨_, _, heq⟩ := Option.map_eq_some_iff.mp hrun
    rw [← heq]
    exact ⟨hcounter, hm, DirsKept.refl⟩
  | readdir dir parent fpos filldir =>
    obtain ⟨_, _, heq⟩ := Option.map_eq_some_iff.mp hrun
    rw [← heq]
    exact ⟨hcounter, hm, DirsKept.refl⟩
  | followLink ino uid => cases hserved

theorem Mount.Good.step (h : v.Good g) (hstep : MountStep v c v') : v'.Good g := by
  obtain ⟨hcounter, hm, _⟩ := hstep.kept h
  exact ⟨hm, hcounter⟩

end Step

/-- Every state of a run on an image of the formatter. -/
theorem run_blocksOwned {md5 : List UInt8 → List UInt8} {args : Format.Arguments} {f : Format} {v : Mount}
    {cs : List Callback} (hf : Format.main md5 args = some f)
    (hrun : Run MountStep ⟨⟨f.data, -1⟩, fun _ => False⟩ cs v) : BlocksOwned v.fs.data := by
  obtain ⟨g, A, _, _, himage⟩ := Format.main_image hf
  have hgood : v.Good g := hrun.invariant (fun h hstep => h.step hstep) ⟨himage.mounted, rfl⟩
  exact hgood.mounted.sound.blocksOwned

section Large

/-- The directory whose entries a callback changes. -/
def Callback.directory : Callback → Option Nat
  | .create dir _ _ _ | .symlink dir _ _ _ | .link _ dir _ | .unlink dir _ _ => some dir
  | _ => none

def Callback.unlinked : Callback → Option Nat
  | .unlink _ ino _ => some ino
  | _ => none

instance (m : Bytes) : ∀ c : Callback, Decidable (c.Served m fun _ => False)
  | .create dir _ _ _ | .symlink dir _ _ _ | .link _ dir _ | .unlink dir _ _ =>
    inferInstanceAs (Decidable (oiFtype m (inodeAddr dir) = FTYPE_DIR ∧ ¬ False))
  | .write ino _ _ _ _ | .notifyChange ino _ =>
    inferInstanceAs (Decidable (oiFtype m (inodeAddr ino) = FTYPE_REG))
  | .read _ _ _ _ | .lookup _ _ _ | .readdir _ _ _ _ => inferInstanceAs (Decidable True)
  | .followLink _ _ => inferInstanceAs (Decidable False)

theorem Callback.Served.of_kept (h : c.Served m fun _ => False)
    (hdir : ∀ d, c.directory = some d → ¬ gone d) : c.Served m gone := by
  cases c with
  | create dir | symlink dir | link _ dir | unlink dir => exact ⟨h.1, hdir dir rfl⟩
  | write | read | notifyChange | lookup | readdir | followLink => exact h

theorem Callback.goneAfter_or (h : c.goneAfter m m' gone i) : gone i ∨ c.unlinked = some i := by
  cases c with
  | create | symlink => exact .inl h.1
  | unlink _ ino _ => exact h.imp_right fun h => congrArg some h.1.symm
  | link | write | read | notifyChange | lookup | readdir | followLink => exact .inl h

/-- A run on a volume, if no inode that it unlinks is a directory that it works in. -/
theorem exists_mountRun {cs : List Callback}
    (hrun : Run (fun s c t => CallbackStep s c t ∧ (c.Served s.data fun _ => False) ∧
      ∀ i sz, c.request s.data = some (i, sz) → WithinIndirect (oiSize s.data (inodeAddr i)) sz) s cs s')
    (hkept : ∀ d ∈ cs.filterMap Callback.directory, d ∉ cs.filterMap Callback.unlinked) :
    ∃ gone, Run MountStep ⟨s, fun _ => False⟩ cs ⟨s', gone⟩ ∧
      ∀ i, gone i → i ∈ cs.filterMap Callback.unlinked := by
  induction hrun with
  | start => exact ⟨_, .start _, fun _ => False.elim⟩
  | @snoc t r as c _ hstep ih =>
    rw [List.filterMap_append, List.filterMap_append] at hkept
    obtain ⟨hcall, hserved, hwithin⟩ := hstep
    obtain ⟨gone, hrun, hgone⟩ := ih fun d hd hu =>
      hkept d (List.mem_append_left _ hd) (List.mem_append_left _ hu)
    have hdir : ∀ d, c.directory = some d → ¬ gone d := fun d hd hg =>
      hkept d (List.mem_append_right _ (List.mem_filterMap.mpr ⟨c, List.mem_singleton.mpr rfl, hd⟩))
        (List.mem_append_left _ (hgone d hg))
    refine ⟨c.goneAfter t.data r.data gone,
      hrun.snoc ⟨hcall, hserved.of_kept hdir, hwithin, rfl⟩, fun i hi => ?_⟩
    rw [List.filterMap_append]
    rcases Callback.goneAfter_or hi with hold | hnew
    · exact List.mem_append_left _ (hgone i hold)
    · exact List.mem_append_right _ (List.mem_filterMap.mpr ⟨c, List.mem_singleton.mpr rfl, hnew⟩)

/-- The new file "c" gets two blocks, "a" gets a second name in the directory "b", "c" is removed, and a
symbolic link takes its inode and its entry. -/
def largeCalls : List Callback :=
  [.create 1 [99] 420 true, .write 4 false (fun k => some (UInt8.ofNat k)) 1500 0, .link 2 3 [100],
    .unlink 1 4 [99], .symlink 1 [101] [97] true]

theorem run_blocksOwned_large : ∃ f v, Format.main (fun _ => []) Format.largeArguments = some f ∧
    Run MountStep ⟨⟨f.data, -1⟩, fun _ => False⟩ largeCalls v ∧ BlocksOwned v.fs.data := by
  obtain ⟨f, hf, hdata⟩ := Format.main_large
  obtain ⟨s, hrun, -⟩ := Run.of_guarded (fun s c => Callback.run 3 s c)
    (fun s c => (c.Served s.data fun _ => False) ∧ ∀ r, r ∈ c.request s.data →
      (r.2 + 1023) / 1024 ≤ max 266 ((oiSize s.data (inodeAddr r.1) + 1023) / 1024))
    (fun _ => True) ⟨Format.largeDisk, -1⟩ largeCalls (by decide +kernel)
  obtain ⟨gone, hrun, -⟩ := exists_mountRun (hrun.mono fun hstep =>
    ⟨⟨3, hstep.1⟩, hstep.2.1, fun i sz hr => hstep.2.2 (i, sz) hr⟩) (by decide)
  rw [← hdata] at hrun
  exact ⟨f, _, hf, hrun, run_blocksOwned hf hrun⟩

end Large

end CS111.Ospfs
