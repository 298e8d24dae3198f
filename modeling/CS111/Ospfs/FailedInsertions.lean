import CS111.Ospfs.BlankEntries
import CS111.Ospfs.FileRuns

/-!
# Traces of failed insertions

`ospfs_create` and `ospfs_symlink` look for a free inode after the directory has got its blank entry,
and report that `new_inode` has failed when the file is there. Neither is undone. `ospfs_link` fails
only before it has changed anything.
-/

namespace CS111.Ospfs

open Memory Fuel

set_option autoImplicit false

variable {m m' : Bytes} {dir i oi oj n od src mode : Nat} {name symname : Name} {newInode : Bool}
variable {s s' : State} {ret : Int} {f : Nat → Option (State × Int)} {init : Bytes → Nat → Bytes}

section Definitions

/-- The directory, the inodes and the free map are as before. -/
structure NoTrace (m : Bytes) (dirOi : Nat) (m' : Bytes) : Prop where
  size : oiSize m' dirOi = oiSize m dirOi
  place : entries m' dirOi = entries m dirOi
  bytes : ∀ od j, od ∈ entries m dirOi → j < 128 → m' (od + j) = m (od + j)
  inodes : ∀ i oi k, ospfsInode m i = some oi → k < 64 → m' (oi + k) = m (oi + k)
  free : ∀ b, b < osNblocks m → isFree m' b = isFree m b

/-- A call on a directory that returns a negative value has left no trace. -/
def LeavesNoTrace (s : State) (dirOi : Nat) (f : Nat → Option (State × Int)) : Prop :=
  ∀ fuel r, f fuel = some r → r.2 < 0 → NoTrace s.data dirOi r.1.data

/-- The name is free, and either the directory grows although no inode is free, or an entry and an inode
are there when `new_inode` fails. -/
structure FailsLate (m : Bytes) (dirOi : Nat) (name : Name) (newInode : Bool) : Prop where
  unbound : findDirentry m dirOi name = none
  late : (findEmptyInode m = none ∧ firstBlank m dirOi = none ∧ CanGrow m dirOi) ∨
    ((findEmptyInode m).isSome = true ∧ newInode = false ∧
      ((firstBlank m dirOi).isSome = true ∨ CanGrow m dirOi))

end Definitions

section Results

theorem NoTrace.refl : NoTrace m oi m :=
  ⟨rfl, rfl, fun _ _ _ _ => rfl, fun _ _ _ _ _ => rfl, fun _ _ => rfl⟩

theorem leavesNoTrace_const (ret : Int) : LeavesNoTrace s oi fun _ => some (s, ret) := by
  intro fuel r hr _
  rw [← Option.some.inj hr]
  exact NoTrace.refl

theorem leavesNoTrace_diverges (h : Diverges f) : LeavesNoTrace s oi f := by
  intro fuel r hr
  rw [h fuel] at hr
  cases hr

theorem leavesNoTrace_returns (h : Returns f (s', ret)) :
    LeavesNoTrace s oi f ↔ (ret < 0 → NoTrace s.data oi s'.data) :=
  h.forall_iff (P := fun r : State × Int => r.2 < 0 → NoTrace s.data oi r.1.data)

end Results

section Search

theorem findEmptyInode_found (h : findEmptyInode m = some i) :
    ∃ oj, ospfsInode m i = some oj ∧ oiNlink m oj = 0 := by
  have hfree := List.find?_some h
  cases hj : ospfsInode m i with
  | none =>
    simp only [hj] at hfree
    cases hfree
  | some oj =>
    simp only [hj] at hfree
    exact ⟨oj, rfl, beq_iff_eq.mp hfree⟩

theorem ospfsInode_congr (h : ∀ a, a < freemap → m' a = m a) (i : Nat) :
    ospfsInode m' i = ospfsInode m i := by
  obtain ⟨_, h2, h3⟩ := super_congr fun a _ ha => h a ha
  unfold ospfsInode
  rw [h2, h3]

end Search

section NewEntry
variable (h : DirectoryTree s.data dir oi n) (hentry : NewEntry s.data oi m od)
include hentry

/-- The search for an inode is not affected by the growth of the directory. -/
theorem NewEntry.findEmptyInode_eq : findEmptyInode m = findEmptyInode s.data := by
  have hinode := ospfsInode_congr hentry.low
  obtain ⟨_, hcount, _⟩ := super_congr fun a _ ha => hentry.low a ha
  unfold findEmptyInode
  rw [hcount]
  refine List.find?_congr fun i _ => ?_
  rw [hinode]
  cases hi : ospfsInode s.data i with
  | none => rfl
  | some oj => simp only [hentry.nlink i oj hi]

variable (hname : name.length ≤ 123) (hmade : ∀ m oj, Made oj m (init m oj))
include h hname hmade

/-- The new inode is there, and has a link. -/
theorem NewEntry.inode (hj : ospfsInode s.data i = some oj) (newInode : Bool) :
    oiNlink (init (setEntryTerminated m od i name) oj) oj = 1 ∧
    ospfsMkLinuxInode (init (setEntryTerminated m od i name) oj) i newInode = some newInode := by
  have hm := hmade (setEntryTerminated m od i name) oj
  have hp := h.parts
  have hpj : Parts s.data oj := ⟨hp.free_map, hp.room, hp.small, i, hj⟩
  obtain ⟨hplace, _, _⟩ := hpj.inode_place
  have hmap := hp.free_map
  have hstart := hp.dataStart_pos
  have hinode : ospfsInode (init (setEntryTerminated m od i name) oj) i = some oj := by
    rw [← hj]
    have hapart := hentry.apart
    have hsuper : ∀ a, 1024 ≤ a → a < 2048 →
        init (setEntryTerminated m od i name) oj a = s.data a := fun a h1 h2 => by
      rw [hm.outside a (by omega), ← hentry.low a h2]
      unfold setEntryTerminated setEntry setOdIno
      rw [store_outside (by simp only [List.length_singleton]; omega), store_outside (by omega),
        wr32_outside (by omega)]
    obtain ⟨_, h2, h3⟩ := super_congr hsuper
    unfold ospfsInode
    rw [h2, h3]
  refine ⟨hm.nlink, ?_⟩
  unfold ospfsMkLinuxInode
  rw [hinode]
  cases newInode with
  | false => rfl
  | true =>
    have htype := hm.ftype
    dsimp only
    rw [if_neg (by decide), if_pos (by tauto)]

end NewEntry

section Insert

/-- What `ospfs_create` and `ospfs_symlink` do after the search for a blank entry. -/
def afterBlank (s : State) (name : Name) (newInode : Bool) (init : Bytes → Nat → Bytes) :
    Bytes × Except Int Nat → Option (State × Int)
  | (m, .error e) => some ({ s with data := m }, e)
  | (m, .ok od) =>
    match findEmptyInode m with
    | none => if osNinodes m < 2 then none else some ({ s with data := m }, -ENOSPC)
    | some entryIno =>
      match ospfsInode m entryIno with
      | none => none
      | some oi =>
        let m := init (setEntryTerminated m od entryIno name) oi
        match ospfsMkLinuxInode m entryIno newInode with
        | none => none
        | some false => some ({ s with data := m }, -ENOMEM)
        | some true => some ({ s with data := m }, 0)

variable {f : Nat → Option (Bytes × Except Int Nat)}
variable (h : DirectoryTree s.data dir oi n)
variable (hplain : firstBlank s.data oi = none → GrowsPlainly s.data oi n)
include h

theorem insertEntry_bound (hbound : (findDirentry s.data oi name).isSome = true) (fuel : Nat) :
    insertEntry fuel s dir name newInode init = some (s, -EEXIST) := by
  unfold insertEntry
  rw [h.inode]
  exact if_pos hbound

theorem insertEntry_unbound (hbound : ¬ (findDirentry s.data oi name).isSome = true) (fuel : Nat) :
    insertEntry fuel s dir name newInode init =
      (createBlankDirentry fuel s.data oi).bind (afterBlank s name newInode init) := by
  unfold insertEntry
  rw [h.inode]
  dsimp only
  rw [if_neg hbound]
  cases createBlankDirentry fuel s.data oi with
  | none => rfl
  | some r =>
    obtain ⟨m, r⟩ := r
    cases r <;> rfl

section Outcome
variable (hentry : NewEntry s.data oi m od)
variable (hroom : (firstBlank s.data oi).isSome = true ∨ CanGrow s.data oi)
variable (hunbound : findDirentry s.data oi name = none)
include hentry hroom hunbound

/-- No inode is free: the directory may have grown. -/
theorem NewEntry.full_leaves (hreturns : Returns f (m, .ok od))
    (hfind : findEmptyInode s.data = none) :
    LeavesNoTrace s oi (fun fuel => (f fuel).bind (afterBlank s name newInode init)) ↔
      ¬ FailsLate s.data oi name newInode := by
  have hafter : afterBlank s name newInode init (m, .ok od) =
      some ({ s with data := m }, -ENOSPC) := by
    have hcount := (super_congr fun a _ ha => hentry.low a ha).2.1
    have hroot := h.root
    unfold afterBlank
    simp only [hentry.findEmptyInode_eq, hfind]
    exact if_neg (by omega)
  rw [leavesNoTrace_returns (hreturns.bind hafter)]
  rcases hentry.source with ⟨rfl, hblank⟩ | ⟨hnone, hsize⟩
  · refine iff_of_true (fun _ => NoTrace.refl) fun hlate => ?_
    rcases hlate.late with ⟨_, hnone, _⟩ | ⟨hsome, _, _⟩
    · rw [hnone] at hblank
      cases hblank
    · rw [hfind] at hsome
      cases hsome
  · rw [hnone] at hroom
    have hgrow := hroom.resolve_left (by decide)
    refine iff_of_false (fun htrace => ?_) (not_not.mpr ⟨hunbound, .inl ⟨hfind, hnone, hgrow⟩⟩)
    have hsame := (htrace (by decide)).size
    dsimp only at hsame
    omega

/-- An inode is free: it has been used, also when `new_inode` fails. -/
theorem NewEntry.found_leaves (hreturns : Returns f (m, .ok od)) (hname : name.length ≤ 123)
    (hmade : ∀ m oj, Made oj m (init m oj)) (hfind : findEmptyInode s.data = some i) :
    LeavesNoTrace s oi (fun fuel => (f fuel).bind (afterBlank s name newInode init)) ↔
      ¬ FailsLate s.data oi name newInode := by
  obtain ⟨oj, hj, hfree⟩ := findEmptyInode_found hfind
  obtain ⟨hnlink, hmk⟩ := hentry.inode h hname hmade hj newInode
  have hafter : afterBlank s name newInode init (m, .ok od) =
      some ({ s with data := init (setEntryTerminated m od i name) oj },
        if newInode then 0 else -ENOMEM) := by
    have hj' : ospfsInode m i = some oj := (ospfsInode_congr hentry.low i).trans hj
    unfold afterBlank
    simp only [hentry.findEmptyInode_eq, hfind, hj', hmk]
    cases newInode <;> rfl
  rw [leavesNoTrace_returns (hreturns.bind hafter)]
  cases newInode with
  | true =>
    refine iff_of_true (fun hneg => absurd hneg (Int.lt_irrefl 0)) fun hlate => ?_
    rcases hlate.late with ⟨hnone, _, _⟩ | ⟨_, hmemory, _⟩
    · rw [hfind] at hnone
      cases hnone
    · cases hmemory
  | false =>
    refine iff_of_false (fun htrace => ?_)
      (not_not.mpr ⟨hunbound, .inr ⟨by rw [hfind]; rfl, rfl, hroom⟩⟩)
    have hsame : oiNlink (init (setEntryTerminated m od i name) oj) oj = oiNlink s.data oj :=
      rd32_congr fun k hk => by
        rw [Nat.add_assoc]
        exact (htrace (by decide)).inodes i oj (8 + k) hj (by omega)
    omega

end Outcome

include hplain

/-- What `ospfs_create` and `ospfs_symlink` share. -/
theorem insertEntry_leaves (hname : name.length ≤ 123) (hmade : ∀ m oj, Made oj m (init m oj)) :
    LeavesNoTrace s oi (fun fuel => insertEntry fuel s dir name newInode init) ↔
      ¬ FailsLate s.data oi name newInode := by
  by_cases hbound : (findDirentry s.data oi name).isSome = true
  · rw [funext (insertEntry_bound h hbound)]
    refine iff_of_true (leavesNoTrace_const _) fun hlate => ?_
    rw [hlate.unbound] at hbound
    cases hbound
  have hunbound := Option.not_isSome_iff_eq_none.mp hbound
  rw [funext (insertEntry_unbound h hbound)]
  rcases h.search hplain with ⟨hroom, m, od, hentry, hreturns⟩ | ⟨hfull, hdiverges⟩
  · cases hfind : findEmptyInode s.data with
    | none => exact hentry.full_leaves h hroom hunbound hreturns hfind
    | some i => exact hentry.found_leaves h hroom hunbound hreturns hname hmade hfind
  · refine iff_of_true (leavesNoTrace_diverges hdiverges.bind) fun hlate => hfull ?_
    rcases hlate.late with ⟨_, _, hgrow⟩ | ⟨_, _, hroom⟩
    · exact .inr hgrow
    · exact hroom

theorem ospfsLink_leaves (hmounted : s.nwritesToCrash = -1) :
    LeavesNoTrace s oi fun fuel => ospfsLink fuel s src dir name := by
  intro fuel r hr hneg
  unfold ospfsLink at hr
  rw [tick_mounted hmounted] at hr
  dsimp only at hr
  rw [h.inode] at hr
  dsimp only at hr
  split at hr
  · rw [← Option.some.inj hr]
    exact NoTrace.refl
  split at hr
  · rw [← Option.some.inj hr]
    exact NoTrace.refl
  split at hr
  · cases hr
  · next m₁ e hblank =>
    rcases h.search hplain with ⟨_, m₂, od, _, hreturns⟩ | ⟨_, hdiverges⟩
    · cases hreturns.only fuel _ hblank
    · have hnone : createBlankDirentry fuel s.data oi = none := hdiverges fuel
      rw [hnone] at hblank
      cases hblank
  · split at hr
    · cases hr
    · rw [← Option.some.inj hr] at hneg
      exact absurd hneg (Int.lt_irrefl 0)

end Insert

/-- Which insertions leave no trace when they fail. -/
theorem insertions_leave_no_trace_iff (h : DirectoryTree s.data dir oi n)
    (hplain : firstBlank s.data oi = none → GrowsPlainly s.data oi n)
    (hmounted : s.nwritesToCrash = -1) (src mode : Nat) (name symname : Name) (newInode : Bool) :
    (LeavesNoTrace s oi (fun fuel => ospfsCreate fuel s dir name mode newInode) ↔
      ¬ (name.length ≤ 123 ∧ FailsLate s.data oi name newInode)) ∧
    (LeavesNoTrace s oi (fun fuel => ospfsSymlink fuel s dir name symname newInode) ↔
      ¬ (name.length ≤ 123 ∧ symname.length ≤ 51 ∧ FailsLate s.data oi name newInode)) ∧
    LeavesNoTrace s oi fun fuel => ospfsLink fuel s src dir name := by
  refine ⟨?_, ?_, ospfsLink_leaves h hplain hmounted⟩
  · unfold ospfsCreate
    rw [tick_mounted hmounted]
    dsimp only
    by_cases hlong : name.length > 123
    · simp only [if_pos hlong]
      exact iff_of_true (leavesNoTrace_const _) fun hlate => by omega
    · simp only [if_neg hlong]
      rw [insertEntry_leaves h hplain (by omega) fun m oj => initRegular_made mode,
        and_iff_right (by omega)]
  · unfold ospfsSymlink
    rw [tick_mounted hmounted]
    dsimp only
    by_cases hlong : name.length > 123 ∨ symname.length > 51
    · simp only [if_pos hlong]
      exact iff_of_true (leavesNoTrace_const _) fun hlate => by omega
    · simp only [if_neg hlong]
      rw [insertEntry_leaves h hplain (by omega) fun m oj => initSymlink_made (by omega),
        and_iff_right (by omega), and_iff_right (by omega)]

section Small

/-- The small volume without a blank entry and without a free inode. -/
def crowdedDisk : Bytes :=
  setNlink (setNlink (setSize rootDisk (inodeAddr 1) 128) (inodeAddr 3) 1) (inodeAddr 4) 1

theorem crowdedDisk_sound : Sound rootGeometry crowdedDisk ∧
    own rootGeometry crowdedDisk = own rootGeometry rootDisk := by
  have h1 := rootDisk_sound.setField (i := 1) (by decide) (k := 0) (.inl rfl) 128
  have h2 := h1.setField (i := 3) (by decide) (k := 8) (.inr (.inl rfl)) 1
  refine ⟨h2.setField (i := 4) (by decide) (k := 8) (.inr (.inl rfl)) 1, ?_⟩
  refine (own_setField h2 (by decide) (.inr (.inl rfl)) 1).trans ?_
  refine (own_setField h1 (by decide) (.inr (.inl rfl)) 1).trans ?_
  exact own_setField rootDisk_sound (by decide) (.inl rfl) 128

theorem crowdedDisk_ptr (s : Slot) : ptr crowdedDisk 3136 s = own rootGeometry rootDisk (1, s) := by
  have hftype : oiFtype crowdedDisk (inodeAddr 1) ≠ FTYPE_SYMLINK := by decide +kernel
  rw [← crowdedDisk_sound.2]
  exact (own_of (g := rootGeometry) (i := 1) (by decide) hftype s).symm

theorem crowdedDisk_tree : DirectoryTree crowdedDisk 1 3136 1 := by
  have hused : ∀ s, ptr crowdedDisk 3136 s ≠ 0 ↔ s = .direct 0 := by
    intro s
    rw [crowdedDisk_ptr]
    constructor
    · exact fun h0 => (rootDisk_own h0).2
    · rintro rfl
      rw [rootDisk_block]
      decide
  have hfirst : ∀ s : Slot, s.first < 1 ↔ s = .direct 0 := by
    intro s
    constructor
    · intro hs
      rw [← dataSlot_first (s := s) (by cases s <;> simp only [Slot.first] at hs <;> first | rfl | omega),
        show s.first = 0 by omega]
      rfl
    · rintro rfl
      decide
  constructor
  · decide +kernel
  · constructor
    · constructor
      · decide +kernel
      · decide +kernel
      · decide +kernel
      · exact ⟨1, by decide +kernel⟩
      · have hstart : dataStart crowdedDisk = 4 := by decide +kernel
        rw [hstart]
        decide +kernel
    · decide +kernel
    · decide +kernel
    · decide
    · exact fun s => (hused s).trans (hfirst s).symm
    · intro s h0
      rw [(hused s).mp h0]
      unfold Allocated
      decide +kernel
    · intro s t h0 heq
      rw [(hused s).mp h0, (hused t).mp (heq ▸ h0)]
  · decide +kernel
  · decide +kernel
  · decide +kernel

theorem crowdedDisk_full : findDirentry crowdedDisk 3136 [98] = none ∧
    findEmptyInode crowdedDisk = none ∧ firstBlank crowdedDisk 3136 = none ∧
    CanGrow crowdedDisk 3136 :=
  ⟨by decide +kernel, by decide +kernel, by decide +kernel, .inl (by decide +kernel)⟩

theorem insertions_leave_no_trace_iff_crowded :
    ¬ LeavesNoTrace ⟨crowdedDisk, -1⟩ 3136
      (fun fuel => ospfsCreate fuel ⟨crowdedDisk, -1⟩ 1 [98] 420 true) ∧
    LeavesNoTrace ⟨crowdedDisk, -1⟩ 3136
      (fun fuel => ospfsSymlink fuel ⟨crowdedDisk, -1⟩ 1 [97] [120] true) ∧
    LeavesNoTrace ⟨crowdedDisk, -1⟩ 3136
      (fun fuel => ospfsLink fuel ⟨crowdedDisk, -1⟩ 2 1 [98]) := by
  obtain ⟨hunbound, hinode, hblank, hgrow⟩ := crowdedDisk_full
  have hplain : firstBlank crowdedDisk 3136 = none → GrowsPlainly crowdedDisk 3136 1 := by
    intro _
    constructor
    · decide +kernel
    · intro h266
      exact absurd h266 (by decide)
  have hiff := insertions_leave_no_trace_iff (s := ⟨crowdedDisk, -1⟩) crowdedDisk_tree hplain rfl
    2 420
  refine ⟨fun htrace => ?_, ?_, (hiff [98] [] true).2.2⟩
  · apply (hiff [98] [] true).1.mp htrace
    exact ⟨by decide, hunbound, .inl ⟨hinode, hblank, hgrow⟩⟩
  · apply (hiff [97] [120] true).2.1.mpr
    rintro ⟨_, _, hlate⟩
    have hbound : findDirentry crowdedDisk 3136 [97] = some 4096 := by decide +kernel
    rw [hlate.unbound] at hbound
    cases hbound

/-- A directory grows for a file that is not created, and a file is created by a call that fails. -/
theorem failed_creations_leave_traces :
    Sound rootGeometry crowdedDisk ∧ DirectoryTree crowdedDisk 1 3136 1 ∧
    (∃ m', ospfsCreate 1 ⟨crowdedDisk, -1⟩ 1 [98] 420 true = some (⟨m', -1⟩, -ENOSPC) ∧
      oiSize crowdedDisk 3136 = 128 ∧ oiSize m' 3136 = 256 ∧ ¬ NoTrace crowdedDisk 3136 m') ∧
    (∃ m', ospfsCreate 1 ⟨rootDisk, -1⟩ 1 [98] 420 false = some (⟨m', -1⟩, -ENOMEM) ∧
      findDirentry rootDisk 3136 [98] = none ∧ findDirentry m' 3136 [98] = some 4224 ∧
      oiNlink rootDisk 3264 = 0 ∧ oiNlink m' 3264 = 1 ∧ ¬ NoTrace rootDisk 3136 m') := by
  refine ⟨crowdedDisk_sound.1, crowdedDisk_tree, ?_, ?_⟩
  · have hsize : oiSize crowdedDisk 3136 = 128 := by decide +kernel
    have hrun : (ospfsCreate 1 ⟨crowdedDisk, -1⟩ 1 [98] 420 true).map
        (fun r => (oiSize r.1.data 3136, r.1.nwritesToCrash, r.2)) = some (256, -1, -ENOSPC) := by
      decide +kernel
    obtain ⟨⟨⟨m', _⟩, _⟩, hcall, hr⟩ := Option.map_eq_some_iff.mp hrun
    simp only [Prod.mk.injEq] at hr
    obtain ⟨hnew, rfl, rfl⟩ := hr
    refine ⟨m', hcall, hsize, hnew, fun htrace => ?_⟩
    have hsame := htrace.size
    omega
  · have hlink : oiNlink rootDisk 3264 = 0 := by decide +kernel
    have hrun : (ospfsCreate 1 ⟨rootDisk, -1⟩ 1 [98] 420 false).map
        (fun r => (findDirentry r.1.data 3136 [98], oiNlink r.1.data 3264, r.1.nwritesToCrash, r.2)) =
          some (some 4224, 1, -1, -ENOMEM) := by
      decide +kernel
    obtain ⟨⟨⟨m', _⟩, _⟩, hcall, hr⟩ := Option.map_eq_some_iff.mp hrun
    simp only [Prod.mk.injEq] at hr
    obtain ⟨hfound, hnew, rfl, rfl⟩ := hr
    refine ⟨m', hcall, by decide +kernel, hfound, hlink, hnew, fun htrace => ?_⟩
    have hsame : oiNlink m' 3264 = oiNlink rootDisk 3264 := rd32_congr fun k hk => by
      rw [Nat.add_assoc]
      exact htrace.inodes 3 3264 (8 + k) (by decide +kernel) (by omega)
    omega

end Small

end CS111.Ospfs
