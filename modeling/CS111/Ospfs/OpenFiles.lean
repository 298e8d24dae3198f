import CS111.Ospfs.EntryChanges

/-!
# Open files

An open file is the number of an inode. The inode may lose its last link while the file is open, and a
new file may then be given it. Every other file is safe from what is done through the open one.
-/

namespace CS111.Ospfs

open Memory

set_option autoImplicit false

variable {g : Geometry} {m m' : Bytes} {i j oj x fuel : Nat}

section Reads

theorem writableCount_le (writable : Nat → Bool) (p n : Nat) : writableCount writable p n ≤ n := by
  induction n generalizing p with
  | zero => exact Nat.le_refl 0
  | succ n ih =>
    rw [writableCount]
    split
    · exact Nat.succ_le_succ (ih (p + 1))
    · exact Nat.zero_le _

/-- A block number that is not 0 is that of a data block of the file. -/
theorem blockno_own (hs : Sound g m) (hi : i < g.ninodes)
    (hsize : HasBlocks g m i → oiSize m (inodeAddr i) ≤ maxFileSize)
    (h0 : ospfsInodeBlockno m (inodeAddr i) x ≠ 0) :
    ospfsInodeBlockno m (inodeAddr i) x = own g m (i, dataSlot (x / 1024)) := by
  have hinside : ¬ (x ≥ oiSize m (inodeAddr i) ∨ oiFtype m (inodeAddr i) = FTYPE_SYMLINK) := by
    intro hend
    unfold ospfsInodeBlockno at h0
    exact h0 (if_pos hend)
  have hx : HasBlocks g m i := ⟨hi, fun hf => hinside (.inr hf)⟩
  exact blockno_eq_own hs hx (hsize hx) (by omega)

variable (h : Same g i m m') (hs : Sound g m) (hs' : Sound g m') (hi : i < g.ninodes)
variable (hsize : HasBlocks g m i → oiSize m (inodeAddr i) ≤ maxFileSize)
include h hs hs' hi hsize

theorem Same.blockno (x : Nat) :
    ospfsInodeBlockno m' (inodeAddr i) x = ospfsInodeBlockno m (inodeAddr i) x := by
  by_cases hend : x ≥ oiSize m (inodeAddr i) ∨ oiFtype m (inodeAddr i) = FTYPE_SYMLINK
  · unfold ospfsInodeBlockno
    rw [h.size, h.ftype, if_pos hend, if_pos hend]
  · have hx : HasBlocks g m i := ⟨hi, fun hf => hend (.inr hf)⟩
    have hx' : HasBlocks g m' i := ⟨hi, by rw [h.ftype]; exact hx.2⟩
    rw [blockno_eq_own hs hx (hsize hx) (by omega),
      blockno_eq_own hs' hx' (by rw [h.size]; exact hsize hx) (by rw [h.size]; omega), h.own_eq]

theorem Same.readLoop (count : Nat) (writable : Nat → Bool) (fuel amount p : Nat) (bytes : List UInt8) :
    readLoop m' (inodeAddr i) count writable fuel amount p bytes =
      readLoop m (inodeAddr i) count writable fuel amount p bytes := by
  induction fuel generalizing amount p bytes with
  | zero => rfl
  | succ fuel ih =>
    rw [Ospfs.readLoop, Ospfs.readLoop, h.blockno hs hs' hi hsize]
    by_cases h0 : ospfsInodeBlockno m (inodeAddr i) (u32 p) = 0
    · simp only [if_pos h0]
    have hown := blockno_own hs hi hsize h0
    have hsmall := own_small hs.owns (inUse_dataBlocks g m) (i, dataSlot (u32 p / 1024))
    have hcount := writableCount_le writable amount (min (1024 - p % 1024) (count - amount))
    have hload : load m' (ospfsBlock (ospfsInodeBlockno m (inodeAddr i) (u32 p)) + p % 1024)
          (writableCount writable amount (min (1024 - p % 1024) (count - amount))) =
        load m (ospfsBlock (ospfsInodeBlockno m (inodeAddr i) (u32 p)) + p % 1024)
          (writableCount writable amount (min (1024 - p % 1024) (count - amount))) := by
      apply load_congr
      intro k hk
      rw [hown] at h0 ⊢
      rw [ospfsBlock_of_lt hsmall]
      exact h.blocks _ _ h0 (by omega)
    simp only [hload, ih]

/-- What a read returns lies in the inode and its blocks. -/
theorem Same.ospfsRead (count fpos : Nat) (writable : Nat → Bool) :
    ospfsRead m' i count fpos writable = ospfsRead m i count fpos writable := by
  unfold Ospfs.ospfsRead
  simp only [hs.inode hi, hs'.inode hi, h.size, h.readLoop hs hs' hi hsize]

end Reads

section Bytes

/-- The disk's byte `a` is a byte of file `j`. -/
def InFile (m : Bytes) (j a : Nat) : Prop :=
  ∃ x, ospfsInodeBlockno m (inodeAddr j) x ≠ 0 ∧ ospfsInodeData m (inodeAddr j) x = a

variable (hs : Sound g m) (hj : j < g.ninodes)
variable (hsize : HasBlocks g m j → oiSize m (inodeAddr j) ≤ maxFileSize)
include hs hj hsize

theorem InFile.block {a : Nat} (ha : InFile m j a) :
    ∃ s, s.isIndex = false ∧ own g m (j, s) ≠ 0 ∧ a / 1024 = own g m (j, s) := by
  obtain ⟨x, h0, rfl⟩ := ha
  have hown := blockno_own hs hj hsize h0
  have hsmall := own_small hs.owns (inUse_dataBlocks g m) (j, dataSlot (x / 1024))
  refine ⟨dataSlot (x / 1024), dataSlot_isIndex _, by rwa [← hown], ?_⟩
  unfold ospfsInodeData
  rw [hown, ospfsBlock_of_lt hsmall]
  omega

variable (hout : ∀ a, ¬ InFile m j a → m' a = m a)
include hout

/-- Other bytes in one file leave the volume sound and every other file as it is. -/
theorem Sound.otherBytes : Sound g m' ∧ ∀ i, i < g.ninodes → i ≠ j → Same g i m m' := by
  have hP : ∀ y : Nat × Slot, (y.1 = j ∧ y.2.isIndex = false ∧ own g m y ≠ 0) →
      y.2.isIndex = false ∧ own g m y ≠ 0 := fun _ hy => hy.2
  have hout' : ∀ a, (∀ y : Nat × Slot, y.1 = j ∧ y.2.isIndex = false ∧ own g m y ≠ 0 →
      a / 1024 ≠ own g m y) → m' a = m a := by
    intro a ha
    apply hout
    intro hin
    obtain ⟨s, hidx, h0, heq⟩ := hin.block hs hj hsize
    exact ha (j, s) ⟨rfl, hidx, h0⟩ heq
  refine ⟨hs.writeBlocks hP hout', fun i hi hne => ⟨fun k _ => ?_, fun s => ?_, fun s a h0 ha => ?_⟩⟩
  · have hr := g.inode_region hi
    exact writeBlocks_below hs hP hout' (by omega)
  · rw [own_writeBlocks hs hP hout']
  · exact writeBlocks_other hs hout' (fun hP => hne hP.1) h0 ha

end Bytes

/-! ## Calls on the path and through open files -/

section Calls

/-- The volume and the inode numbers of the open files. -/
structure OpenFiles where
  fs : State
  files : List Nat

/-- A regular file is opened, or a callback is made, on a path or through an open file. -/
inductive OpenCall where
  | opened (ino : Nat)
  | path (c : Callback)
  | through (c : Callback)

def OpenCall.after (fuel : Nat) (s : OpenFiles) : OpenCall → Option OpenFiles
  | .opened ino => some { s with files := ino :: s.files }
  | .path c | .through c => (c.run fuel s.fs).map fun fs => { s with fs := fs }

def Callback.makesSymlink : Callback → Bool
  | .symlink _ _ _ _ => true
  | _ => false

/-- Nothing grows beyond the direct and indirect blocks. -/
def Callback.Within (m : Bytes) (c : Callback) : Prop :=
  ∀ i sz, c.request m = some (i, sz) → WithinIndirect (oiSize m (inodeAddr i)) sz

/-- A path leads to what is on the disk now, an open file to the inode that it had when it was opened. -/
def OpenCall.Permitted (s : OpenFiles) : OpenCall → Prop
  | .opened ino => ∃ oi, ospfsInode s.fs.data ino = some oi ∧ oiFtype s.fs.data oi = FTYPE_REG
  | .path c => c.Allowed s.fs.data ∧ c.makesSymlink = false
  | .through c => (∃ ino, ino ∈ s.files ∧ c.file = some ino) ∧ c.Within s.fs.data

def OpenStep (s : OpenFiles) (c : OpenCall) (s' : OpenFiles) : Prop :=
  (∃ fuel, c.after fuel s = some s') ∧ c.Permitted s

/-- File `j` has kept its size, and reading it returns what it did. -/
structure SameFile (m m' : Bytes) (j : Nat) : Prop where
  size : oiSize m' (inodeAddr j) = oiSize m (inodeAddr j)
  contents : ∀ count fpos writable, ospfsRead m' j count fpos writable = ospfsRead m j count fpos writable

variable {s s' s₀ : State} {c : Callback} {d k : Nat} {name : Name} {ret : Int} {newInode : Bool}

theorem Callback.allowed_of_file (hc : c.file = some i) (hf : oiFtype s.data (inodeAddr i) = FTYPE_REG)
    (hwithin : c.Within s.data) : c.Allowed s.data := by
  cases c with
  | write | notifyChange =>
    obtain rfl := Option.some.inj hc
    exact ⟨hf, trivial, hwithin⟩
  | read => exact ⟨trivial, trivial, hwithin⟩
  | _ => cases hc

section Types
variable (h : Ready g s)
include h

theorem ospfsCreate_regular {mode : Nat} (hallowed : (Callback.create d name mode newInode).Allowed s.data)
    (hrun : ospfsCreate fuel s d name mode newInode = some (s', ret)) (hi : i < g.ninodes)
    (hf : oiFtype s.data (inodeAddr i) = FTYPE_REG) : oiFtype s'.data (inodeAddr i) = FTYPE_REG := by
  have hs := h.mounted.sound
  unfold ospfsCreate at hrun
  rw [tick_mounted h.counter] at hrun
  dsimp only at hrun
  by_cases hlong : name.length > 123
  · rw [if_pos hlong, Option.some.injEq, Prod.mk.injEq] at hrun
    rw [← hrun.1, hf]
  rw [if_neg hlong] at hrun
  have hd := h.isDirectory (insertEntry_exists hs hrun) hallowed.served.1
  obtain ⟨-, ⟨-, -, rfl⟩ | ⟨-, k, m₁, hblank, ⟨-, -, hdata⟩ | ⟨j, hins, -⟩⟩⟩ :=
    insertEntry_cases hs hd (by omega)
      (fun sz hsz => hallowed.within d sz (congrArg (Option.map (d, ·)) hsz))
      (fun m i hi => initRegular_remade mode hi) hrun
  · exact hf
  · rw [hdata, hblank.change.ftype hi, hf]
  · by_cases hij : i = j
    · rw [hij, hins.data]
      exact initRegular_ftype mode
    · rw [hins.ftype_ne (by omega) hi hij, hf]

/-- A regular file stays one, as long as no symbolic link is made. -/
theorem Callback.run_regular (hallowed : c.Allowed s.data) (hsymlink : c.makesSymlink = false)
    (hrun : c.run fuel s = some s') (hi : i < g.ninodes)
    (hf : oiFtype s.data (inodeAddr i) = FTYPE_REG) : oiFtype s'.data (inodeAddr i) = FTYPE_REG := by
  have hs := h.mounted.sound
  cases c with
  | symlink => cases hsymlink
  | followLink => exact hallowed.served.elim
  | write | notifyChange =>
    rw [(Callback.run_onlyInode h hallowed rfl hrun).ftype i hi, hf]
  | read | lookup | readdir =>
    obtain ⟨_, _, rfl⟩ := Option.map_eq_some_iff.mp hrun
    exact hf
  | create dir name mode newInode =>
    obtain ⟨⟨s₁, ret⟩, hcall, rfl⟩ := Option.map_eq_some_iff.mp hrun
    exact ospfsCreate_regular h hallowed hcall hi hf
  | link src dir name =>
    obtain ⟨⟨s₁, ret⟩, hcall, rfl⟩ := Option.map_eq_some_iff.mp hrun
    have hd := h.isDirectory (ospfsLink_exists hs h.counter hcall) hallowed.served.1
    obtain ⟨-, ⟨rfl, -⟩ | ⟨-, hlen, -, k, m₁, hlinked⟩⟩ := ospfsLink_cases hs hd h.counter
      (fun sz hsz => hallowed.within dir sz (congrArg (Option.map (dir, ·)) hsz)) hcall
    · exact hf
    · rw [hlinked.ftype hlen hi, hf]
  | unlink dir ino name =>
    obtain ⟨⟨s₁, ret⟩, hcall, rfl⟩ := Option.map_eq_some_iff.mp hrun
    have hd := h.isDirectory (ospfsUnlink_exists hs hcall) hallowed.served.1
    obtain ⟨-, ⟨-, -, rfl⟩ | ⟨k, hu⟩⟩ := ospfsUnlink_cases hs hd h.counter hcall
    · exact hf
    · have hk := ((entryNamed_some hd.aligned).mp hu.found).1
      rw [(hu.quiet h hd hallowed.onFiles).ftype i hi, unlinked_ftype hs hd hk hu.exists_ino hi, hf]

end Types

/-- The volume is sound and the open files are regular files, with or without links. -/
structure OpenFiles.Good (g : Geometry) (s : OpenFiles) : Prop where
  ready : Ready g s.fs
  regular : ∀ i, i ∈ s.files → i < g.ninodes ∧ oiFtype s.fs.data (inodeAddr i) = FTYPE_REG

section Runs
variable {f f' : OpenFiles} {fc : OpenCall} {fcs : List OpenCall}

theorem OpenFiles.Good.allowed (h : f.Good g) (hopen : ∃ ino, ino ∈ f.files ∧ c.file = some ino)
    (hwithin : c.Within f.fs.data) : c.Allowed f.fs.data ∧ c.makesSymlink = false := by
  obtain ⟨i, hi, hc⟩ := hopen
  refine ⟨Callback.allowed_of_file hc (h.regular i hi).2 hwithin, ?_⟩
  cases c with
  | symlink => cases hc
  | _ => rfl

theorem OpenFiles.Good.call (h : f.Good g) (hallowed : c.Allowed f.fs.data) (hc : c.makesSymlink = false)
    (hrun : c.run fuel f.fs = some s') : OpenFiles.Good g { f with fs := s' } where
  ready := h.ready.step ⟨⟨fuel, hrun⟩, hallowed⟩
  regular i hi := by
    obtain ⟨hlt, hf⟩ := h.regular i hi
    exact ⟨hlt, Callback.run_regular h.ready hallowed hc hrun hlt hf⟩

theorem OpenFiles.Good.step (h : f.Good g) (hstep : OpenStep f fc f') : f'.Good g := by
  obtain ⟨⟨fuel, hafter⟩, hpermitted⟩ := hstep
  cases fc with
  | opened ino =>
    obtain rfl := Option.some.inj hafter
    obtain ⟨oi, hoi, hf⟩ := hpermitted
    obtain ⟨hlt, rfl⟩ := h.ready.mounted.sound.ospfsInode_iff.mp hoi
    refine ⟨h.ready, fun i hi => ?_⟩
    rcases List.mem_cons.mp hi with rfl | hi
    · exact ⟨hlt, hf⟩
    · exact h.regular i hi
  | path c =>
    obtain ⟨s', hrun, rfl⟩ := Option.map_eq_some_iff.mp hafter
    exact h.call hpermitted.1 hpermitted.2 hrun
  | through c =>
    obtain ⟨s', hrun, rfl⟩ := Option.map_eq_some_iff.mp hafter
    obtain ⟨hallowed, hc⟩ := h.allowed hpermitted.1 hpermitted.2
    exact h.call hallowed hc hrun

theorem OpenFiles.Good.run (h0 : Ready g s₀) (hrun : Run OpenStep ⟨s₀, []⟩ fcs f) : f.Good g :=
  hrun.invariant (P := OpenFiles.Good g) (fun h hstep => h.step hstep)
    ⟨h0, fun _ hi => absurd hi List.not_mem_nil⟩

section Other
variable (h : f.Good g) (hopen : i ∈ f.files) (hj : j < g.ninodes) (hne : j ≠ i)
include h hj hne

theorem OpenFiles.Good.keeps (hc : c.file = some i) (hstep : OpenStep f (.through c) f') :
    SameFile f.fs.data f'.fs.data j := by
  obtain ⟨⟨fuel, hafter⟩, hpermitted⟩ := hstep
  obtain ⟨s', hrun, rfl⟩ := Option.map_eq_some_iff.mp hafter
  obtain ⟨hallowed, hsymlink⟩ := h.allowed hpermitted.1 hpermitted.2
  have hsame := (Callback.run_onlyInode h.ready hallowed hc hrun).others j hj hne
  have hsound := (h.call hallowed hsymlink hrun).ready.mounted.sound
  exact ⟨hsame.size, hsame.ospfsRead h.ready.mounted.sound hsound hj (h.ready.mounted.size_le j)⟩

include hopen

theorem OpenFiles.Good.reads (hout : ∀ a, ¬ InFile f.fs.data j a → m' a = f.fs.data a) (count fpos : Nat)
    (writable : Nat → Bool) : ospfsRead m' i count fpos writable = ospfsRead f.fs.data i count fpos writable := by
  have hs := h.ready.mounted.sound
  have hi := (h.regular i hopen).1
  obtain ⟨hs', hothers⟩ := hs.otherBytes hj (h.ready.mounted.size_le j) hout
  exact (hothers i hi fun heq => hne heq.symm).ospfsRead hs hs' hi (h.ready.mounted.size_le i) count fpos
    writable

end Other

/-- In every run, what is done through an open file changes no other inode's file, and what is read through it
does not depend on the bytes there. This holds with and without links. -/
theorem open_files_isolated (h0 : Ready g s₀) (hrun : Run OpenStep ⟨s₀, []⟩ fcs f) (hopen : i ∈ f.files)
    (hj : ospfsInode f.fs.data j = some oj) (hne : j ≠ i) :
    (∀ c f', c.file = some i → OpenStep f (.through c) f' → SameFile f.fs.data f'.fs.data j) ∧
      ∀ m', (∀ a, ¬ InFile f.fs.data j a → m' a = f.fs.data a) → ∀ count fpos writable,
        ospfsRead m' i count fpos writable = ospfsRead f.fs.data i count fpos writable := by
  have h := OpenFiles.Good.run h0 hrun
  obtain ⟨hlt, -⟩ := h.ready.mounted.sound.ospfsInode_iff.mp hj
  exact ⟨fun c f' hc hstep => h.keeps hlt hne hc hstep,
    fun m' hout count fpos writable => h.reads hopen hlt hne hout count fpos writable⟩

end Runs

end Calls

section Large

instance (m : Bytes) (c : Callback) : Decidable (c.Within m) :=
  decidable_of_iff (∀ r, r ∈ c.request m →
      (r.2 + 1023) / 1024 ≤ max 266 ((oiSize m (inodeAddr r.1) + 1023) / 1024))
    ⟨fun h i sz hr => h (i, sz) hr, fun h r hr => h r.1 r.2 hr⟩

instance (s : OpenFiles) : ∀ c : OpenCall, Decidable (c.Permitted s)
  | .opened ino => inferInstanceAs (Decidable (∃ oi, oi ∈ ospfsInode s.fs.data ino ∧
      oiFtype s.fs.data oi = FTYPE_REG))
  | .path c => inferInstanceAs (Decidable (c.Allowed s.fs.data ∧ c.makesSymlink = false))
  | .through c => inferInstanceAs (Decidable ((∃ ino, ino ∈ s.files ∧ c.file = some ino) ∧
      c.Within s.fs.data))

/-- The file "c" is opened and removed. -/
def removedHistory : List OpenCall :=
  [.path (.create 1 [99] 420 true), .opened 4, .path (.unlink 1 4 [99])]

/-- The new file "d" is given the inode of the file removed, and a write through the open file makes it
longer. -/
theorem removed_inode_reused : ∃ f s t u, Format.main (fun _ => []) Format.largeArguments = some f ∧
    Run OpenStep ⟨⟨f.data, -1⟩, []⟩ removedHistory s ∧ 4 ∈ s.files ∧ oiNlink s.fs.data (inodeAddr 4) = 0 ∧
    OpenStep s (.path (.create 1 [100] 420 true)) t ∧
    (findDirentry t.fs.data (inodeAddr 1) [100]).map (odIno t.fs.data) = some 4 ∧
    oiSize t.fs.data (inodeAddr 4) = 0 ∧
    OpenStep t (.through (.write 4 false (fun _ => some 7) 1 0)) u ∧
    oiSize u.fs.data (inodeAddr 4) = 1 := by
  obtain ⟨f, hf, hdata⟩ := Format.main_large
  obtain ⟨s, hguarded, hopen, hnlink, hcreate, t, ht, hname, hempty, hwrite, u, hu, hsize⟩ :=
    Run.of_guarded (fun s c => OpenCall.after 3 s c) (fun s c => OpenCall.Permitted s c)
      (fun s => 4 ∈ s.files ∧ oiNlink s.fs.data (inodeAddr 4) = 0 ∧
        (OpenCall.path (.create 1 [100] 420 true)).Permitted s ∧
        ∃ t, t ∈ (OpenCall.path (.create 1 [100] 420 true)).after 3 s ∧
          (findDirentry t.fs.data (inodeAddr 1) [100]).map (odIno t.fs.data) = some 4 ∧
          oiSize t.fs.data (inodeAddr 4) = 0 ∧
          (OpenCall.through (.write 4 false (fun _ => some 7) 1 0)).Permitted t ∧
          ∃ u, u ∈ (OpenCall.through (.write 4 false (fun _ => some 7) 1 0)).after 3 t ∧
            oiSize u.fs.data (inodeAddr 4) = 1)
      ⟨⟨Format.largeDisk, -1⟩, []⟩ removedHistory (by decide +kernel)
  rw [← hdata] at hguarded
  exact ⟨f, s, t, u, hf, hguarded.mono fun hstep => ⟨⟨3, hstep.1⟩, hstep.2⟩, hopen, hnlink,
    ⟨⟨3, ht⟩, hcreate⟩, hname, hempty, ⟨⟨3, hu⟩, hwrite⟩, hsize⟩

/-- The file "a" is removed, too, and "d" is given its inode. Both files are written. -/
def apartHistory : List OpenCall :=
  [.path (.create 1 [99] 420 true), .opened 4, .path (.unlink 1 2 [97]), .path (.unlink 1 4 [99]),
    .path (.create 1 [100] 420 true), .path (.write 2 false (fun _ => some 5) 3 0),
    .through (.write 4 false (fun _ => some 6) 2 0)]

theorem open_files_isolated_large : ∃ f s t, Format.main (fun _ => []) Format.largeArguments = some f ∧
    Run OpenStep ⟨⟨f.data, -1⟩, []⟩ apartHistory s ∧ oiNlink s.fs.data (inodeAddr 4) = 0 ∧
    OpenStep s (.through (.write 4 false (fun _ => some 7) 1 1500)) t ∧ SameFile s.fs.data t.fs.data 2 ∧
    ospfsRead (fun a => if a = ospfsInodeData s.fs.data (inodeAddr 2) 0 then 9 else s.fs.data a) 4 2 0
      (fun _ => true) = ospfsRead s.fs.data 4 2 0 (fun _ => true) := by
  obtain ⟨f, hf, hdata⟩ := Format.main_large
  obtain ⟨s, hguarded, hopen, hnlink, hoi, hblock, hwrite, hreturns⟩ :=
    Run.of_guarded (fun s c => OpenCall.after 3 s c) (fun s c => OpenCall.Permitted s c)
      (fun s => 4 ∈ s.files ∧ oiNlink s.fs.data (inodeAddr 4) = 0 ∧
        ospfsInode s.fs.data 2 = some (inodeAddr 2) ∧
        ospfsInodeBlockno s.fs.data (inodeAddr 2) 0 ≠ 0 ∧
        (OpenCall.through (.write 4 false (fun _ => some 7) 1 1500)).Permitted s ∧
        ((OpenCall.through (.write 4 false (fun _ => some 7) 1 1500)).after 3 s).isSome = true)
      ⟨⟨Format.largeDisk, -1⟩, []⟩ apartHistory (by decide +kernel)
  rw [← hdata] at hguarded
  obtain ⟨g, A, _, _, himage⟩ := Format.main_image hf
  have hrun : Run OpenStep ⟨⟨f.data, -1⟩, []⟩ apartHistory s :=
    hguarded.mono fun hstep => ⟨⟨3, hstep.1⟩, hstep.2⟩
  obtain ⟨t, ht⟩ := Option.isSome_iff_exists.mp hreturns
  have hstep : OpenStep s (.through (.write 4 false (fun _ => some 7) 1 1500)) t := ⟨⟨3, ht⟩, hwrite⟩
  obtain ⟨hkeeps, hreads⟩ := open_files_isolated himage.ready hrun hopen hoi (by decide)
  refine ⟨f, s, t, hf, hrun, hnlink, hstep, hkeeps _ t rfl hstep, hreads _ (fun a ha => ?_) 2 0 _⟩
  exact if_neg fun heq => ha ⟨0, hblock, heq.symm⟩

end Large

end CS111.Ospfs
