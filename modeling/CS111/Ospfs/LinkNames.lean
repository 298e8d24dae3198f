import CS111.Ospfs.DirectoryNames

/-!
# The name that `ospfs_link` enters

`ospfs_link` copies the name without a NUL. The entry has this name when the entry it took held a NUL
at that place.
-/

namespace CS111.Ospfs

open Memory

set_option autoImplicit false

variable {g : Geometry} {s s' s₀ : State} {cs : List Callback} {src dir fuel dirOi : Nat}
variable {name : Name}

/-- The name leads to the inode, and every other name leads where it led before. -/
structure LinkNamed (m m' : Bytes) (dirOi src : Nat) (name : Name) : Prop where
  named : ∃ od, findDirentry m' dirOi name = some od ∧ odIno m' od = src
  others : ∀ other, other ≠ name → other.length ≤ 123 →
    resolve m' dirOi other = resolve m dirOi other

/-- If a blank entry is taken, a NUL follows the place of the name in it. -/
def EndsInNul (m : Bytes) (dirOi : Nat) (name : Name) : Prop :=
  ∀ od, firstBlank m dirOi = some od → m (od + 4 + name.length) = 0

/-- What a successful `ospfs_link` makes of the entry it takes. -/
theorem ospfsLink_filled (h : Ready g s) (hallowed : (Callback.link src dir name).Allowed s.data)
    (hlink : ospfsLink fuel s src dir name = some (s', 0)) :
    name.length ≤ 123 ∧ IsDirectory g s.data dir ∧
      findDirentry s.data (inodeAddr dir) name = none ∧ ∃ k, EntryFilled g dir k s.data s'.data ∧
        odIno s'.data (direntAt g s'.data dir k) = src ∧
        load s'.data (direntAt g s'.data dir k + 4) name.length = name ∧
        (s'.data (direntAt g s'.data dir k + 4 + name.length) = 0 ↔
          EndsInNul s.data (inodeAddr dir) name) := by
  have hs := h.mounted.sound
  have hd := h.isDirectory (ospfsLink_exists hs h.counter hlink) hallowed.served.1
  obtain ⟨_, hcases⟩ := ospfsLink_cases hs hd h.counter
    (fun sz hsz => hallowed.within dir sz (congrArg (Option.map (dir, ·)) hsz)) hlink
  rcases hcases with ⟨_, hneg⟩ | ⟨_, hlen, hnone, k, m₁, hblank, hsrc, hdata⟩
  · exact absurd hneg (by decide)
  refine ⟨hlen, hd, hnone, k, ?_⟩
  have hwritten := setEntry_written (g := g) (m := m₁) (d := dir) (k := k) hlen src
  have hover := hwritten.overwritten hblank.change.sound hblank.dir hblank.found
  have hsame : Same g dir (setEntry m₁ (direntAt g m₁ dir k) src name) s'.data := by
    rw [hdata]
    exact setNlink_frame hover.sound hsrc _
  have hsound : Sound g s'.data := by
    rw [hdata]
    exact setNlink_sound hover.sound hsrc _
  obtain ⟨hfilled, haddr, hbyte⟩ := hblank.written hwritten hsound hsame
  rw [haddr]
  refine ⟨hfilled, ?_, ?_, ?_⟩
  · have hn := g.room
    have hle := g.nblocks_le
    rw [odIno_congr fun j hj => hbyte j (by omega)]
    exact odIno_setEntry (by omega)
  · have hload : load s'.data (direntAt g m₁ dir k + 4) name.length =
        load (setEntry m₁ (direntAt g m₁ dir k) src name) (direntAt g m₁ dir k + 4) name.length := by
      apply load_congr
      intro j hj
      rw [Nat.add_assoc]
      exact hbyte _ (by omega)
    rw [hload]
    exact load_store_same _ _ _
  · have htail : s'.data (direntAt g m₁ dir k + 4 + name.length) =
        m₁ (direntAt g m₁ dir k + 4 + name.length) := by
      rw [Nat.add_assoc, hbyte _ (by omega), ← Nat.add_assoc]
      unfold setEntry setOdIno
      rw [store_outside (by omega)]
      exact wr32_outside (by omega)
    rw [htail]
    unfold EndsInNul
    rcases hblank.source with ⟨rfl, hfirst⟩ | ⟨hfirst, hzero⟩
    · rw [hfirst]
      constructor
      · rintro hnul od hod
        rw [← Option.some.inj hod]
        exact hnul
      · exact fun hall => hall _ rfl
    · rw [hfirst, Nat.add_assoc, hzero _ (by omega)]
      exact ⟨fun _ od hod => absurd hod (by simp), fun _ => rfl⟩

/-- After a run in which no directory outgrows its indirect block. -/
theorem link_named_iff (h0 : Ready g s₀) (hrun : Run AllowedStep s₀ cs s)
    (hallowed : (Callback.link src dir name).Allowed s.data) (hchars : ∀ c, c ∈ name → c ≠ 0)
    (hoi : ospfsInode s.data dir = some dirOi)
    (hlink : ospfsLink fuel s src dir name = some (s', 0)) :
    LinkNamed s.data s'.data dirOi src name ↔ 0 < src ∧ EndsInNul s.data dirOi name := by
  have h := h0.run hrun
  have hs := h.mounted.sound
  obtain ⟨_, rfl⟩ := hs.ospfsInode_iff.mp hoi
  obtain ⟨hlen, hd, hnone, k, hfilled, hino, hname, hnul⟩ := ospfsLink_filled h hallowed hlink
  constructor
  · intro hnamed
    obtain ⟨od, hfind, hod⟩ := hnamed.named
    have hpos : 0 < src := by
      have hmatch := List.find?_some hfind
      rw [entryMatches_iff, hod] at hmatch
      exact hmatch.1
    refine ⟨hpos, ?_⟩
    rw [← hnul, ← entryMatches_written_iff hname hchars (by omega)]
    by_contra hno
    rw [findDirentry_eq hs hd, Option.map_eq_none_iff] at hnone
    rw [findDirentry_eq hfilled.sound hfilled.dir, hfilled.entryNamed_other hd hlen
      (Bool.eq_false_iff.mpr hno), hnone] at hfind
    cases hfind
  · rintro ⟨hpos, hends⟩
    have hend := hnul.mpr hends
    have hmatch := (entryMatches_written_iff hname hchars (by omega)).mpr hend
    constructor
    · have hnew := hfilled.resolve_new hs hd hlen hnone hmatch
      obtain ⟨od, hod, heq⟩ := Option.map_eq_some_iff.mp hnew
      exact ⟨od, hod, heq.trans hino⟩
    · intro other hne hother
      exact hfilled.resolve_other hs hd hother (entryMatches_other hname hchars hend hne)

section Small

/-- The file "bcd" comes and goes. -/
def smallHistory : List Callback := [.create 1 [98, 99, 100] 420 true, .unlink 1 3 [98, 99, 100]]

/-- The entry of "bcd" is taken for the name "x". -/
theorem recycled_entry_keeps_tail : ∃ s s', Run AllowedStep ⟨rootDisk, -1⟩ smallHistory s ∧
    (Callback.link 2 1 [120]).Allowed s.data ∧ ospfsLink 4 s 2 1 [120] = some (s', 0) ∧
    ¬ LinkNamed s.data s'.data (inodeAddr 1) 2 [120] := by
  obtain ⟨s, s', hrun, hallowed, hlink, hnone⟩ := small_run_then smallHistory
    (c := .link 2 1 [120]) (f := fun s => ospfsLink 4 s 2 1 [120])
    (P := fun _ s' => findDirentry s'.data (inodeAddr 1) [120] = none) (by decide +kernel)
  refine ⟨s, s', hrun, hallowed, hlink, fun hnamed => ?_⟩
  obtain ⟨od, hod, _⟩ := hnamed.named
  rw [hnone] at hod
  cases hod

/-- It is taken for a name of the same length. -/
theorem link_named_iff_same_length : ∃ s s', Run AllowedStep ⟨rootDisk, -1⟩ smallHistory s ∧
    ospfsLink 4 s 2 1 [120, 121, 122] = some (s', 0) ∧
    LinkNamed s.data s'.data (inodeAddr 1) 2 [120, 121, 122] := by
  obtain ⟨s, s', hrun, hallowed, hlink, hnul⟩ := small_run_then smallHistory
    (c := .link 2 1 [120, 121, 122]) (f := fun s => ospfsLink 4 s 2 1 [120, 121, 122])
    (P := fun s _ => (firstBlank s.data (inodeAddr 1)).all (fun od => s.data (od + 4 + 3) == 0)
      = true) (by decide +kernel)
  have hoi : ospfsInode s.data 1 = some (inodeAddr 1) :=
    (rootDisk_ready.run hrun).mounted.sound.inode (by decide)
  refine ⟨s, s', hrun, hlink, ?_⟩
  apply (link_named_iff rootDisk_ready hrun hallowed (by simp) hoi hlink).mpr
  refine ⟨by decide, fun od hod => ?_⟩
  rw [hod] at hnul
  exact eq_of_beq hnul

end Small

end CS111.Ospfs
