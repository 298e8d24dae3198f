import CS111.Ospfs.Lookup
import CS111.Ospfs.ZeroFill

/-!
# The simulated crash

With `nwrites_to_crash` at 0 the disk should no longer change. `ospfs_notify_change` and
`ospfs_follow_link` do not look at the counter.
-/

namespace CS111.Ospfs

open Memory

set_option autoImplicit false

/-- Not one of the two updates that do not check the counter: an inode change with a new size
or mode, except for the refused resizing of a directory, and the cut of a conditional link. -/
def ChecksCounter (s : State) : Callback → Prop
  | .notifyChange ino attr => (attr.size = none ∧ attr.mode = none) ∨
      (attr.size ≠ none ∧ ∃ oi, ospfsInode s.data ino = some oi ∧ oiFtype s.data oi = FTYPE_DIR)
  | .followLink ino _ => ∀ oi, ospfsInode s.data ino = some oi →
      load s.data (oi + 12) 5 = rootPrefix →
        strchr s.data 58 (oi + 12) (imageEnd s.data - (oi + 12)) = none
  | _ => True

variable {s s' t : State} {c : Callback} {fuel : Nat}

theorem tick_crashed (h : s.nwritesToCrash = 0) : s.tick = none := if_pos h

theorem notifyChange_crashed {ino : Nat} {attr : Iattr} {ret : Int}
    (hq : ChecksCounter s (.notifyChange ino attr))
    (h : ospfsNotifyChange fuel s ino attr = some (s', ret)) : s' = s := by
  unfold ospfsNotifyChange at h
  cases hi : ospfsInode s.data ino with
  | none => rw [hi] at h; exact absurd h (by simp)
  | some oi =>
    rcases hq with ⟨hsize, hmode⟩ | ⟨hsize, oi', hi', hdir⟩
    · simp only [hi, hsize, hmode, Option.some.injEq, Prod.mk.injEq] at h
      exact h.1.symm
    · rw [hi, Option.some.injEq] at hi'
      subst hi'
      cases hsz : attr.size with
      | none => exact absurd hsz hsize
      | some size =>
        simp only [hi, hsz, if_pos hdir, Option.some.injEq, Prod.mk.injEq] at h
        exact h.1.symm

theorem followLink_crashed {ino uid target : Nat} (hq : ChecksCounter s (.followLink ino uid))
    (h : ospfsFollowLink s ino uid = some (s', target)) : s' = s := by
  unfold ospfsFollowLink at h
  cases hi : ospfsInode s.data ino with
  | none => rw [hi] at h; exact absurd h (by simp)
  | some oi =>
    by_cases hroot : load s.data (oi + 12) 5 = rootPrefix
    · have hcolon := hq oi hi hroot
      simp only [hi, if_pos hroot, hcolon] at h
      cases hnul : strchr s.data 0 (oi + 12) (imageEnd s.data - (oi + 12)) with
      | none => rw [hnul] at h; exact absurd h (by simp)
      | some delimiter =>
        simp only [hnul, Option.some.injEq, Prod.mk.injEq] at h
        exact h.1.symm
    · simp only [hi, if_neg hroot, Option.some.injEq, Prod.mk.injEq] at h
      exact h.1.symm

theorem unlink_crashed {dir ino : Nat} {name : Name} {ret : Int} (h0 : s.nwritesToCrash = 0)
    (h : ospfsUnlink fuel s dir ino name = some (s', ret)) : s' = s := by
  unfold ospfsUnlink at h
  cases hi : ospfsInode s.data ino with
  | none => simp only [hi, reduceCtorEq] at h
  | some oi =>
    cases hd : ospfsInode s.data dir with
    | none => simp only [hi, hd, reduceCtorEq] at h
    | some dirOi =>
      simp only [hi, hd, tick_crashed h0] at h
      by_cases hfound : (unlinkSearch s.data dirOi name).1 = oiSize s.data dirOi
      · rw [if_pos hfound, Option.some.injEq, Prod.mk.injEq] at h
        exact h.1.symm
      · rw [if_neg hfound, Option.some.injEq, Prod.mk.injEq] at h
        exact h.1.symm

theorem callback_crashed (h0 : s.nwritesToCrash = 0) (hq : ChecksCounter s c)
    (h : c.run fuel s = some s') : s' = s := by
  have htick := tick_crashed h0
  cases c with
  | create dir name mode newInode =>
    simp only [Callback.run, ospfsCreate, htick, Option.map_some, Option.some.injEq] at h
    exact h.symm
  | symlink dir name symname newInode =>
    simp only [Callback.run, ospfsSymlink, htick, Option.map_some, Option.some.injEq] at h
    exact h.symm
  | link src dir name =>
    simp only [Callback.run, ospfsLink, htick, Option.map_some, Option.some.injEq] at h
    exact h.symm
  | unlink dir ino name =>
    simp only [Callback.run, Option.map_eq_some_iff] at h
    obtain ⟨⟨s₁, ret⟩, hrun, rfl⟩ := h
    exact unlink_crashed h0 hrun
  | write ino append buffer count fpos =>
    simp only [Callback.run, ospfsWrite, htick, Option.map_some, Option.some.injEq] at h
    exact h.symm
  | read ino count fpos writable =>
    simp only [Callback.run, Option.map_eq_some_iff] at h
    obtain ⟨_, _, rfl⟩ := h
    rfl
  | notifyChange ino attr =>
    simp only [Callback.run, Option.map_eq_some_iff] at h
    obtain ⟨⟨s₁, ret⟩, hrun, rfl⟩ := h
    exact notifyChange_crashed hq hrun
  | lookup dir name newInode =>
    simp only [Callback.run, Option.map_eq_some_iff] at h
    obtain ⟨_, _, rfl⟩ := h
    rfl
  | readdir dir parent fpos filldir =>
    simp only [Callback.run, Option.map_eq_some_iff] at h
    obtain ⟨_, _, rfl⟩ := h
    rfl
  | followLink ino uid =>
    simp only [Callback.run, Option.map_eq_some_iff] at h
    obtain ⟨⟨s₁, target⟩, hrun, rfl⟩ := h
    exact followLink_crashed hq hrun

/-- After the crash the disk stays as it is, in every run in which nobody changes the size or
mode of an inode or follows a conditional link for the first time. -/
theorem disk_frozen_after_crash {cs : List Callback} (h0 : s.nwritesToCrash = 0)
    (hrun : Run (fun s c s' => CallbackStep s c s' ∧ ChecksCounter s c) s cs t) :
    t.data = s.data := by
  have hsame : t = s := by
    apply hrun.invariant (P := fun t => t = s)
    · rintro t c r rfl ⟨⟨fuel, hstep⟩, hq⟩
      exact callback_crashed h0 hq hstep
    · rfl
  rw [hsame]

theorem disk_frozen_after_crash_six : ∃ t,
    Run (fun s c s' => CallbackStep s c s' ∧ ChecksCounter s c) ⟨tinyFile, 0⟩
      [.write 2 false (fun _ => some 7) 9 0, .create 1 [97] 0 true, .symlink 1 [98] [97] true,
        .link 2 1 [98], .unlink 1 2 [98], .read 2 10 0 fun _ => true] t ∧ t.data = tinyFile := by
  let step := fun s c s' => CallbackStep s c s' ∧ ChecksCounter s c
  have hwrite : step ⟨tinyFile, 0⟩ (.write 2 false (fun _ => some 7) 9 0) ⟨tinyFile, 0⟩ :=
    ⟨⟨0, rfl⟩, trivial⟩
  have hcreate : step ⟨tinyFile, 0⟩ (.create 1 [97] 0 true) ⟨tinyFile, 0⟩ := ⟨⟨0, rfl⟩, trivial⟩
  have hsymlink : step ⟨tinyFile, 0⟩ (.symlink 1 [98] [97] true) ⟨tinyFile, 0⟩ := ⟨⟨0, rfl⟩, trivial⟩
  have hlink : step ⟨tinyFile, 0⟩ (.link 2 1 [98]) ⟨tinyFile, 0⟩ := ⟨⟨0, rfl⟩, trivial⟩
  have hunlink : step ⟨tinyFile, 0⟩ (.unlink 1 2 [98]) ⟨tinyFile, 0⟩ := ⟨⟨0, rfl⟩, trivial⟩
  have hread : step ⟨tinyFile, 0⟩ (.read 2 10 0 fun _ => true) ⟨tinyFile, 0⟩ := ⟨⟨0, rfl⟩, trivial⟩
  have hrun := ((((Run.single hwrite).snoc hcreate).snoc hsymlink).snoc hlink).snoc hunlink
  exact ⟨_, hrun.snoc hread, disk_frozen_after_crash rfl (hrun.snoc hread)⟩

/-- Truncating a file from 1000 to 100 bytes changes the disk after the crash. -/
theorem disk_changes_after_crash :
    ¬ ∀ (s t : State) (cs : List Callback), s.nwritesToCrash = 0 → Run CallbackStep s cs t →
      t.data = s.data := by
  intro hall
  obtain ⟨hstart, hsize, _⟩ := tinyFile_start 0
  have hblocks : fileBlocks tinyFile 2 = 1 := by rw [fileBlocks, hsize]; rfl
  have hdir : oiFtype tinyFile (inodeAddr 2) ≠ FTYPE_DIR := by
    have hreg : oiFtype tinyFile (inodeAddr 2) = FTYPE_REG := hstart.regular
    rw [hreg]
    decide
  have hinode : ospfsInode tinyFile 2 = some (inodeAddr 2) := hstart.sound.inode hstart.exists_ino
  have hstep : CallbackStep ⟨tinyFile, 0⟩ (.notifyChange 2 ⟨some 100, none, 0, 0⟩)
      ⟨setSize tinyFile (inodeAddr 2) 100, 0⟩ := by
    have hchange : changeSize 1 tinyFile (inodeAddr 2) (u32 100) =
        some (setSize tinyFile (inodeAddr 2) 100, 0) := changeSize_same hblocks.symm
    refine ⟨1, ?_⟩
    simp only [Callback.run, ospfsNotifyChange, hinode, if_neg hdir, hchange, Int.lt_irrefl,
      if_false, Option.map_some]
  have heq := hall _ _ _ rfl (Run.single hstep)
  have hnew : oiSize (setSize tinyFile (inodeAddr 2) 100) (inodeAddr 2) = 100 :=
    oiSize_setSize (by decide)
  have hold : setSize tinyFile (inodeAddr 2) 100 = tinyFile := heq
  rw [hold, hsize] at hnew
  exact absurd hnew (by decide)

end CS111.Ospfs
