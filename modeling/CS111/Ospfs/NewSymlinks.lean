import CS111.Ospfs.DirectoryNames
import CS111.Ospfs.SymlinkTargets

/-!
# Reading back a new symbolic link

`ospfs_symlink` copies the target without a NUL into an inode that may have been a file before. The
string ends with the target when the inode happens to hold a NUL there.
-/

namespace CS111.Ospfs

open Memory

set_option autoImplicit false

variable {g : Geometry} {m m' : Bytes} {s s' s₀ : State} {cs : List Callback}
variable {dir dirOi ino uid fuel i a left : Nat} {name target text : Name} {newInode : Bool}

/-- The name leads to a link with this target, whoever follows it. -/
def HandsBack (s : State) (dirOi : Nat) (name target : Name) : Prop :=
  ∃ ino, resolve s.data dirOi name = some ino ∧
    ∀ uid, ∃ s' addr, ospfsFollowLink s ino uid = some (s', addr) ∧ linkText s' addr = target

/-- The inode that will be taken holds a NUL behind the place of the target. -/
def NulBehind (m : Bytes) (target : Name) : Prop :=
  ∀ i, findEmptyInode m = some i → m (inodeAddr i + 12 + target.length) = 0

section Strings

theorem cString_nul (hroom : text.length < left) (h : cString m a left = text) :
    m (a + text.length) = 0 := by
  induction text generalizing a left with
  | nil =>
    obtain ⟨left, rfl⟩ : ∃ l, left = l + 1 := ⟨left - 1, by omega⟩
    rw [cString] at h
    by_contra hne
    rw [List.length_nil, Nat.add_zero] at hne
    rw [if_neg hne] at h
    cases h
  | cons c text ih =>
    obtain ⟨left, rfl⟩ : ∃ l, left = l + 1 := ⟨left - 1, by omega⟩
    rw [List.length_cons] at hroom ⊢
    rw [cString] at h
    split at h
    · cases h
    · obtain ⟨_, hrest⟩ := List.cons.inj h
      rw [show a + (text.length + 1) = a + 1 + text.length by omega]
      exact ih (by omega) hrest

theorem cString_load_iff (hload : load m a text.length = text) (hchars : ∀ c, c ∈ text → c ≠ 0)
    (hroom : text.length < left) : cString m a left = text ↔ m (a + text.length) = 0 := by
  constructor
  · exact cString_nul hroom
  · intro hnul
    apply cString_eq _ hchars hnul hroom
    intro k hk
    have hget : (load m a text.length)[k]? = some (m (a + k)) := by
      rw [load, List.getElem?_map, List.getElem?_range hk]
      rfl
    rw [hload, List.getElem?_eq_getElem hk, Option.some.injEq] at hget
    exact hget.symm

theorem load_take {n l : Nat} (h : n ≤ l) : load m a n = (load m a l).take n := by
  unfold load
  rw [← List.map_take, List.take_range, Nat.min_eq_left h]

/-- Five bytes that are not "root?", because the target does not begin like it, or because it ends
before. -/
theorem load_ne_rootPrefix (hload : load m a target.length = target)
    (hplain : target.take 5 ≠ rootPrefix)
    (h : ¬ target <+: rootPrefix ∨ m (a + target.length) = 0) : load m a 5 ≠ rootPrefix := by
  intro heq
  by_cases hlen : 5 ≤ target.length
  · rw [load_take hlen, hload] at heq
    exact hplain heq
  · have hbegins : target <+: rootPrefix := by
      rw [← heq, ← hload, load_take (n := target.length) (l := 5) (by omega)]
      exact List.take_prefix _ _
    have hbyte : some (m (a + target.length)) = rootPrefix[target.length]? := by
      rw [← heq, load, List.getElem?_map, List.getElem?_range (by omega)]
      rfl
    rw [h.resolve_left (not_not_intro hbegins)] at hbyte
    have hnone : ∀ k, k < 5 → some (0 : UInt8) ≠ rootPrefix[k]? := by decide
    exact hnone _ (by omega) hbyte

end Strings

section FollowLink

/-- What is not a conditional link is handed back as it stands. -/
theorem ospfsFollowLink_plain (hino : ospfsInode s.data ino = some i)
    (hplain : load s.data (i + 12) 5 ≠ rootPrefix) :
    ospfsFollowLink s ino uid = some (s, i + 12) := by
  unfold ospfsFollowLink
  simp only [hino, if_neg hplain]

end FollowLink

section Created

theorem findEmptyInode_congr (hs : Sound g m) (hs' : Sound g m')
    (h : ∀ j, j < g.ninodes → oiNlink m' (inodeAddr j) = oiNlink m (inodeAddr j)) :
    findEmptyInode m' = findEmptyInode m := by
  unfold findEmptyInode
  rw [hs.ninodes, hs'.ninodes]
  apply List.find?_congr
  intro j hj
  obtain ⟨l, hl, rfl⟩ := List.mem_map.mp hj
  rw [List.mem_range] at hl
  simp only [hs.inode (show l + 2 < g.ninodes by omega),
    hs'.inode (show l + 2 < g.ninodes by omega), h (l + 2) (by omega)]

theorem initSymlink_target (m : Bytes) (oi : Nat) (target : Name) :
    load (initSymlink m oi target) (oi + 12) target.length = target := load_store_same _ _ _

theorem initSymlink_behind {oi a : Nat} (h : oi + 12 + target.length ≤ a) :
    initSymlink m oi target a = m a := by
  unfold initSymlink setNlink setFtype setSize
  rw [store_outside (by omega), wr32_outside (by omega), wr32_outside (by omega),
    wr32_outside (by omega)]

/-- What a successful `ospfs_symlink` makes of the entry and of the inode that it takes. -/
theorem ospfsSymlink_created (h : Ready g s)
    (hallowed : (Callback.symlink dir name target newInode).Allowed s.data)
    (hcall : ospfsSymlink fuel s dir name target newInode = some (s', 0)) :
    name.length ≤ 123 ∧ target.length ≤ 51 ∧ IsDirectory g s.data dir ∧
      findDirentry s.data (inodeAddr dir) name = none ∧
      ∃ k i, EntryFilled g dir k s.data s'.data ∧ findEmptyInode s.data = some i ∧
        i < g.ninodes ∧ odIno s'.data (direntAt g s'.data dir k) = i ∧
        load s'.data (direntAt g s'.data dir k + 4) name.length = name ∧
        s'.data (direntAt g s'.data dir k + 4 + name.length) = 0 ∧
        load s'.data (inodeAddr i + 12) target.length = target ∧
        s'.data (inodeAddr i + 12 + target.length) = s.data (inodeAddr i + 12 + target.length) := by
  have hs := h.mounted.sound
  unfold ospfsSymlink at hcall
  rw [tick_mounted h.counter] at hcall
  dsimp only at hcall
  by_cases hlong : name.length > 123 ∨ target.length > 51
  · rw [if_pos hlong, Option.some.injEq, Prod.mk.injEq] at hcall
    exact absurd hcall.2 (by decide)
  rw [if_neg hlong] at hcall
  obtain ⟨hname, htarget⟩ := not_or.mp hlong
  have hd := h.isDirectory (insertEntry_exists hs hcall) hallowed.served.1
  have hroom : ∀ sz, insertRequest s.data (inodeAddr dir) name = some sz →
      WithinIndirect (oiSize s.data (inodeAddr dir)) sz := by
    intro sz hsz
    apply hallowed.within dir sz
    have hrequest : (Callback.symlink dir name target newInode).request s.data =
        (insertRequest s.data (inodeAddr dir) name).map (dir, ·) := if_neg htarget
    rw [hrequest, hsz]
    rfl
  have hremade : ∀ m i, i < g.ninodes → Remade g i m (initSymlink m (inodeAddr i) target) :=
    fun m i _ => initSymlink_remade (by omega)
  obtain ⟨_, hcases⟩ := insertEntry_cases hs hd (by omega) hroom hremade hcall
  rcases hcases with ⟨_, hret, _⟩ | ⟨hnone, k, m₁, hblank, hcases⟩
  · exact absurd hret (by decide)
  rcases hcases with ⟨_, hret, _⟩ | ⟨i, hins, _⟩
  · exact absurd hret (by decide)
  have hs₁ := hblank.change.sound
  have hnlink : ∀ j, j < g.ninodes → oiNlink m₁ (inodeAddr j) = oiNlink s.data (inodeAddr j) :=
    fun j hj => hblank.change.nlink hj
  obtain ⟨_, hi, hfree⟩ := findEmptyInode_some hs₁ hins.empty
  have hne : i ≠ dir := by
    rintro rfl
    rw [hnlink _ hi] at hfree
    exact h.linked _ hi hallowed.served.1 hfree
  have hwritten : EntryWritten g dir k m₁ (setEntryTerminated m₁ (direntAt g m₁ dir k) i name) :=
    setEntryTerminated_written (by omega) i
  have hover := hwritten.overwritten hs₁ hblank.dir hblank.found
  obtain ⟨hfilled, haddr, hbyte⟩ := hblank.written hwritten (hins.remade.sound hover.sound hi)
    (hins.remade.same hover.sound hi hne.symm)
  refine ⟨by omega, by omega, hd, hnone, k, i, hfilled, ?_, hi, ?_, ?_, ?_, ?_, ?_⟩
  · rw [← findEmptyInode_congr hs hs₁ hnlink]
    exact hins.empty
  · have hn := g.room
    have hle := g.nblocks_le
    rw [haddr, odIno_congr fun j hj => hbyte j (by omega)]
    exact odIno_setEntryTerminated (by omega)
  · rw [haddr]
    have hload : load s'.data (direntAt g m₁ dir k + 4) name.length =
        load (setEntry m₁ (direntAt g m₁ dir k) i name) (direntAt g m₁ dir k + 4) name.length := by
      apply load_congr
      intro j hj
      rw [Nat.add_assoc, hbyte _ (by omega), ← Nat.add_assoc]
      exact store_outside (by omega)
    rw [hload]
    exact load_store_same _ _ _
  · rw [haddr, Nat.add_assoc, hbyte _ (by omega), ← Nat.add_assoc]
    exact store_inside (k := 0) (by decide)
  · rw [hins.data]
    exact initSymlink_target _ _ _
  · rw [hins.data, initSymlink_behind (Nat.le_refl _), Nat.add_assoc,
      hover.inodes i _ hi (by omega)]
    exact hblank.change.inode_bytes hi (by omega) (.inl hne)

end Created

/-- After a run in which no directory outgrows its indirect block. A target that begins "root?", as far as it
goes, may be followed as a conditional link. -/
theorem symlink_hands_back (h0 : Ready g s₀) (hrun : Run AllowedStep s₀ cs s)
    (hallowed : (Callback.symlink dir name target newInode).Allowed s.data)
    (hchars : ∀ c, c ∈ name → c ≠ 0) (htarget : ∀ c, c ∈ target → c ≠ 0)
    (hplain : target.take 5 ≠ rootPrefix) (hoi : ospfsInode s.data dir = some dirOi)
    (hcall : ospfsSymlink fuel s dir name target newInode = some (s', 0)) :
    (NulBehind s.data target → HandsBack s' dirOi name target) ∧
      (¬ target <+: rootPrefix → HandsBack s' dirOi name target → NulBehind s.data target) := by
  have h := h0.run hrun
  have hs := h.mounted.sound
  obtain ⟨_, rfl⟩ := hs.ospfsInode_iff.mp hoi
  obtain ⟨hlen, hlen', hd, hnone, k, i, hfilled, hempty, hi, hino, hname, hnul, hload, hbehind⟩ :=
    ospfsSymlink_created h hallowed hcall
  have hs' := hfilled.sound
  obtain ⟨h2, _⟩ := findEmptyInode_some hs hempty
  have hmatch := (entryMatches_written_iff hname hchars (by omega)).mpr hnul
  have hresolve := hfilled.resolve_new hs hd hlen hnone hmatch
  rw [hino] at hresolve
  have hroom : target.length < imageEnd s'.data - (inodeAddr i + 12) := by
    have hregion := g.inode_region hi
    have hroom := g.room
    unfold Geometry.dataStart at hregion
    unfold imageEnd
    rw [hs'.nblocks]
    omega
  have hfollow : ∀ uid, ¬ target <+: rootPrefix ∨ s'.data (inodeAddr i + 12 + target.length) = 0 →
      ospfsFollowLink s' i uid = some (s', inodeAddr i + 12) :=
    fun uid hends => ospfsFollowLink_plain (hs'.inode hi) (load_ne_rootPrefix hload hplain hends)
  constructor
  · intro hnulb
    have hend : s'.data (inodeAddr i + 12 + target.length) = 0 := by
      rw [hbehind]
      exact hnulb i hempty
    exact ⟨i, hresolve, fun uid => ⟨s', _, hfollow uid (.inr hend),
      (cString_load_iff hload htarget hroom).mpr hend⟩⟩
  · rintro hother ⟨ino, hino', hback⟩ j hj
    obtain rfl := Option.some.inj (hempty.symm.trans hj)
    obtain rfl := Option.some.inj (hresolve.symm.trans hino')
    obtain ⟨t, addr, hcall', htext⟩ := hback 0
    rw [hfollow 0 (.inl hother), Option.some.injEq, Prod.mk.injEq] at hcall'
    obtain ⟨rfl, rfl⟩ := hcall'
    rw [← hbehind]
    exact (cString_load_iff hload htarget hroom).mp htext

section Small

/-- The file "bcd" takes inode 3, and goes again. -/
def modeHistory : List Callback := [.create 1 [98, 99, 100] 33188 true, .unlink 1 3 [98, 99, 100]]

/-- The second byte of the old mode follows the target "x". -/
theorem recycled_inode_keeps_mode : ∃ s s', Run AllowedStep ⟨rootDisk, -1⟩ modeHistory s ∧
    (Callback.symlink 1 [108] [120] true).Allowed s.data ∧
    ospfsSymlink 4 s 1 [108] [120] true = some (s', 0) ∧
    ¬ HandsBack s' (inodeAddr 1) [108] [120] := by
  obtain ⟨s, s', hrun, hallowed, hcall, hresolve, htext⟩ := small_run_then modeHistory
    (c := .symlink 1 [108] [120] true) (f := fun s => ospfsSymlink 4 s 1 [108] [120] true)
    (P := fun _ s' => resolve s'.data (inodeAddr 1) [108] = some 3 ∧
      (ospfsFollowLink s' 3 0).map (fun r => linkText r.1 r.2) = some [120, 129])
    (by decide +kernel)
  refine ⟨s, s', hrun, hallowed, hcall, ?_⟩
  rintro ⟨ino, hino, hback⟩
  obtain rfl := Option.some.inj (hresolve.symm.trans hino)
  obtain ⟨t, addr, hfollow, hlink⟩ := hback 0
  rw [hfollow, Option.map_some, hlink] at htext
  exact absurd htext (by decide)

/-- The mode ends in two NULs, behind which the longer target ends in the first block pointer. -/
theorem symlink_hands_back_small : ∃ s s', Run AllowedStep ⟨rootDisk, -1⟩ modeHistory s ∧
    ospfsSymlink 4 s 1 [108] [47, 116, 109, 112, 47, 98] true = some (s', 0) ∧
    HandsBack s' (inodeAddr 1) [108] [47, 116, 109, 112, 47, 98] := by
  obtain ⟨s, s', hrun, hallowed, hcall, hempty, hnul⟩ := small_run_then modeHistory
    (c := .symlink 1 [108] [47, 116, 109, 112, 47, 98] true)
    (f := fun s => ospfsSymlink 4 s 1 [108] [47, 116, 109, 112, 47, 98] true)
    (P := fun s _ => findEmptyInode s.data = some 3 ∧ s.data (inodeAddr 3 + 12 + 6) = 0)
    (by decide +kernel)
  have hoi : ospfsInode s.data 1 = some (inodeAddr 1) :=
    (rootDisk_ready.run hrun).mounted.sound.inode (by decide)
  refine ⟨s, s', hrun, hcall, ?_⟩
  apply (symlink_hands_back rootDisk_ready hrun hallowed (by simp) (by simp) (by decide) hoi
    hcall).1
  intro i hi
  obtain rfl := Option.some.inj (hempty.symm.trans hi)
  exact hnul

end Small

end CS111.Ospfs
