import CS111.Ospfs.BlockOwnership
import CS111.Ospfs.BoundedReads

/-!
# Overwriting in place

A write to positions that a file already has. The blocks of all files, and their index blocks, are
different blocks behind the inodes, so nothing but the bytes of the file changes.
-/

namespace CS111.Ospfs

open Memory

set_option autoImplicit false

variable {m m' : Bytes} {ino oi i j oj a x y count p : Nat} {s t : Slot}

section WellFormed

/-- A file or directory with a link. -/
structure LiveFile (m : Bytes) (ino oi : Nat) : Prop where
  inode : ospfsInode m ino = some oi
  ftype : oiFtype m oi ≠ FTYPE_SYMLINK
  nlink : oiNlink m oi > 0

/-- Blocks are owned, and all files are complete and not longer than `OSPFS_MAXFILESIZE`. -/
structure WellFormed (m : Bytes) : Prop where
  free_map : 2 + (osNblocks m + 8191) / 8192 ≤ osFirstinob m
  room : dataStart m ≤ osNblocks m
  small : osNblocks m < 4194304
  owned : BlocksOwned m
  size : ∀ i oi, LiveFile m i oi → oiSize m oi ≤ maxFileSize
  complete : ∀ i oi x, LiveFile m i oi → x < oiSize m oi → ptr m oi (dataSlot (x / 1024)) ≠ 0

variable (hw : WellFormed m) (hfile : LiveFile m ino oi)
include hw hfile

theorem WellFormed.parts : Parts m oi := ⟨hw.free_map, hw.room, hw.small, ino, hfile.inode⟩

theorem WellFormed.block (h0 : ptr m oi s ≠ 0) :
    dataStart m ≤ ptr m oi s ∧ ptr m oi s < osNblocks m := by
  obtain ⟨h1, h2, _⟩ := hw.owned.named ino oi s hfile.inode hfile.ftype hfile.nlink h0
  exact ⟨h1, h2⟩

theorem WellFormed.blockno (hx : x < oiSize m oi) :
    ospfsInodeBlockno m oi x = ptr m oi (dataSlot (x / 1024)) :=
  blockno_eq_slot hfile.ftype hx (hw.size ino oi hfile) (hw.complete ino oi x hfile hx)

theorem WellFormed.backed : Backed m oi := by
  intro x hx
  rw [hw.blockno hfile hx]
  exact hw.complete ino oi x hfile hx

theorem WellFormed.data_eq (hx : x < oiSize m oi) :
    ospfsInodeData m oi x = 1024 * ptr m oi (dataSlot (x / 1024)) + x % 1024 := by
  have hsmall := hw.small
  have hblock := hw.block hfile (hw.complete ino oi x hfile hx)
  unfold ospfsInodeData
  rw [hw.blockno hfile hx, ospfsBlock_of_lt (by omega)]

/-- Different positions lie at different addresses. -/
theorem WellFormed.data_inj (hx : x < oiSize m oi) (hy : y < oiSize m oi)
    (h : ospfsInodeData m oi x = ospfsInodeData m oi y) : x = y := by
  rw [hw.data_eq hfile hx, hw.data_eq hfile hy] at h
  have hsize := hw.size ino oi hfile
  have hsame : ptr m oi (dataSlot (x / 1024)) = ptr m oi (dataSlot (y / 1024)) := by omega
  have hslot := (hw.owned.once ino ino oi oi _ _ hfile.inode hfile.ftype hfile.nlink hfile.inode
    hfile.ftype hfile.nlink (hw.complete ino oi x hfile hx) hsame).2
  have hblock : x / 1024 = y / 1024 := by
    unfold maxFileSize at hsize
    exact dataSlot_inj (by omega) (by omega) hslot
  omega

end WellFormed

section Inside

/-- Nothing but bytes of the file is different. -/
def InsideFile (oi : Nat) (m m' : Bytes) : Prop :=
  ∀ a, (∀ x, x < oiSize m oi → ospfsInodeData m oi x ≠ a) → m' a = m a

variable (hw : WellFormed m) (hfile : LiveFile m ino oi) (hin : InsideFile oi m m')
include hw hfile hin

theorem InsideFile.low (ha : a < 1024 * dataStart m) : m' a = m a := by
  apply hin
  intro x hx
  have hblock := hw.block hfile (hw.complete ino oi x hfile hx)
  rw [hw.data_eq hfile hx]
  omega

/-- The blocks of other files, and all index blocks. -/
theorem InsideFile.block (hother : LiveFile m j oj) (h0 : ptr m oj s ≠ 0)
    (hne : j ≠ ino ∨ s.isIndex = true) (ha : a / 1024 = ptr m oj s) : m' a = m a := by
  apply hin
  intro x hx heq
  rw [hw.data_eq hfile hx] at heq
  have hdata := dataSlot_isIndex (x / 1024)
  have hsame : ptr m oj s = ptr m oi (dataSlot (x / 1024)) := by omega
  obtain ⟨hj, hs⟩ := hw.owned.once j ino oj oi _ _ hother.inode hother.ftype hother.nlink hfile.inode
    hfile.ftype hfile.nlink h0 hsame
  rcases hne with hne | hindex
  · exact hne hj
  · rw [hs, hdata] at hindex
    cases hindex

variable (hother : LiveFile m j oj)
include hother

theorem InsideFile.inode {k : Nat} (hk : k < 64) : m' (oj + k) = m (oj + k) := by
  have hplace := (hw.parts hother).inode_place
  exact hin.low hw hfile (by omega)

theorem InsideFile.size : oiSize m' oj = oiSize m oj :=
  rd32_congr fun k hk => hin.inode hw hfile hother (by omega)

theorem InsideFile.ftype : oiFtype m' oj = oiFtype m oj :=
  rd32_congr fun k hk => by
    rw [Nat.add_assoc]
    exact hin.inode hw hfile hother (by omega)

theorem InsideFile.ptr (s : Slot) : ptr m' oj s = ptr m oj s := by
  have hsmall := hw.small
  have hpos := (hw.parts hother).dataStart_pos
  have hroom := hw.room
  revert s
  apply ptr_congr
  · intro s
    by_cases h0 : CS111.Ospfs.ptr m oj s = 0
    · omega
    · have hblock := hw.block hother h0
      omega
  · intro a h1 h2
    have hinode := hin.inode hw hfile hother (k := a - oj) (by omega)
    rw [Nat.add_sub_cancel' (by omega)] at hinode
    exact hinode
  · intro s a hs h0 ha
    exact hin.block hw hfile hother h0 (.inr hs) ha

/-- Every position of every file stays where it was. -/
theorem InsideFile.blockno (x : Nat) : ospfsInodeBlockno m' oj x = ospfsInodeBlockno m oj x := by
  by_cases hx : x < oiSize m oj
  · have hptr := hin.ptr hw hfile hother (dataSlot (x / 1024))
    have hsize := hin.size hw hfile hother
    have h0 := hw.complete j oj x hother hx
    rw [hw.blockno hother hx, ← hptr]
    apply blockno_eq_slot
    · rw [hin.ftype hw hfile hother]
      exact hother.ftype
    · rw [hsize]
      exact hx
    · rw [hsize]
      exact hw.size j oj hother
    · rw [hptr]
      exact h0
  · have hsize := hin.size hw hfile hother
    rw [blockno_past (by omega), blockno_past (by omega)]

theorem InsideFile.data (x : Nat) : ospfsInodeData m' oj x = ospfsInodeData m oj x := by
  unfold ospfsInodeData
  rw [hin.blockno hw hfile hother]

end Inside

section Write

theorem readableBytes_eq {buffer : Nat → Option UInt8} {bytes : List UInt8} {n : Nat}
    (h : ∀ k, k < bytes.length → buffer k = bytes[k]?) (hle : p + n ≤ bytes.length) :
    readableBytes buffer p n = (bytes.drop p).take n := by
  induction n generalizing p with
  | zero => rw [readableBytes, List.take_zero]
  | succ n ih =>
    have hp : p < bytes.length := by omega
    rw [readableBytes, h p hp, List.getElem?_eq_getElem hp, List.drop_eq_getElem_cons hp,
      List.take_succ_cons, ih (by omega)]

theorem scatter_inside {bytes : List UInt8} (hin : InsideFile oi m m')
    (hend : p + bytes.length ≤ oiSize m oi) :
    InsideFile oi m (scatter (ospfsInodeData m oi) m' p bytes) := by
  intro a ha
  rw [scatter_outside fun k hk => ha (p + k) (by omega)]
  exact hin a ha

variable (hw : WellFormed m) (hfile : LiveFile m ino oi)
include hw hfile

/-- The bytes are stored one after the other. -/
theorem writeLoop_scatter {buffer : Nat → Option UInt8} {bytes : List UInt8} {fuel amount : Nat}
    (hbuf : ∀ k, k < bytes.length → buffer k = bytes[k]?) (hin : InsideFile oi m m')
    (hle : amount ≤ bytes.length) (hfuel : bytes.length - amount ≤ fuel)
    (hend : p + (bytes.length - amount) ≤ oiSize m oi) :
    writeLoop oi bytes.length buffer fuel m' amount p =
      ⟨scatter (ospfsInodeData m oi) m' p (bytes.drop amount), p + (bytes.length - amount),
        bytes.length⟩ := by
  induction fuel generalizing m' amount p with
  | zero =>
    have heq : amount = bytes.length := by omega
    subst heq
    rw [List.drop_length, Nat.sub_self]
    rfl
  | succ fuel ih =>
    rw [writeLoop]
    by_cases hlt : amount < bytes.length
    · have hsize : oiSize m oi < 4294967296 := rd32_lt _ _
      have hp32 : u32 p = p := u32_of_lt (by omega)
      have hb := hw.backed hfile p (by omega)
      have hn := Nat.min_le_left (1024 - p % 1024) (bytes.length - amount)
      have hn' := Nat.min_le_right (1024 - p % 1024) (bytes.length - amount)
      have hpos : 0 < min (1024 - p % 1024) (bytes.length - amount) := by omega
      rw [if_pos hlt, hp32]
      simp only [hin.blockno hw hfile hfile p, if_neg hb]
      generalize min (1024 - p % 1024) (bytes.length - amount) = n at hn hn' hpos
      have hgot : readableBytes buffer amount n = (bytes.drop amount).take n :=
        readableBytes_eq hbuf (by omega)
      have hlen : ((bytes.drop amount).take n).length = n := by
        rw [List.length_take, List.length_drop]
        omega
      have hstore : store m' (ospfsBlock (ospfsInodeBlockno m oi p) + p % 1024)
          ((bytes.drop amount).take n) =
            scatter (ospfsInodeData m oi) m' p ((bytes.drop amount).take n) := by
        apply (scatter_store _).symm
        rw [hlen]
        exact ospfsInodeData_add (by omega) (by omega)
      have hrest : scatter (ospfsInodeData m oi)
          (scatter (ospfsInodeData m oi) m' p ((bytes.drop amount).take n)) (p + n)
            (bytes.drop (amount + n)) =
              scatter (ospfsInodeData m oi) m' p (bytes.drop amount) := by
        have happend := scatter_append (ospfsInodeData m oi) m' p ((bytes.drop amount).take n)
          ((bytes.drop amount).drop n)
        rw [List.take_append_drop, hlen, List.drop_drop] at happend
        exact happend.symm
      have hforward : p + n + (bytes.length - (amount + n)) = p + (bytes.length - amount) := by
        omega
      simp only [copyFromUser, hgot, hlen, Nat.sub_self, List.replicate_zero, List.append_nil, hstore,
        ne_eq, not_true_eq_false, if_false]
      rw [ih (scatter_inside hin (by rw [hlen]; omega)) (by omega) (by omega) (by omega), hrest,
        hforward]
    · have heq : amount = bytes.length := by omega
      subst heq
      rw [if_neg hlt, List.drop_length, Nat.sub_self]
      rfl

end Write

/-- What a write leaves that does not reach past the end of the file. -/
structure Overwrites (m m' : Bytes) (ino oi fpos : Nat) (bytes : List UInt8) : Prop where
  read_back : ospfsRead m' ino bytes.length fpos (fun _ => true) =
    some ⟨bytes, fpos + bytes.length, bytes.length⟩
  rest : ∀ x, x < oiSize m oi → x < fpos ∨ fpos + bytes.length ≤ x →
    contentAt m' oi x = contentAt m oi x
  others : ∀ j oj x, LiveFile m j oj → j ≠ ino → x < oiSize m oj →
    contentAt m' oj x = contentAt m oj x
  low : ∀ a, a < 1024 * dataStart m → m' a = m a
  frame : ∀ a, (∀ k, k < bytes.length → ospfsInodeData m oi (fpos + k) ≠ a) → m' a = m a

theorem scatter_overwrites {bytes : List UInt8} (hw : WellFormed m) (hfile : LiveFile m ino oi)
    (hend : p + bytes.length ≤ oiSize m oi) :
    Overwrites m (scatter (ospfsInodeData m oi) m p bytes) ino oi p bytes := by
  have hin : InsideFile oi m (scatter (ospfsInodeData m oi) m p bytes) :=
    scatter_inside (fun _ _ => rfl) hend
  have hmap : ospfsInodeData (scatter (ospfsInodeData m oi) m p bytes) oi = ospfsInodeData m oi :=
    funext (hin.data hw hfile hfile)
  have hsize := hin.size hw hfile hfile
  constructor
  · have hlow : ∀ a, 1024 ≤ a → a < 2048 →
        scatter (ospfsInodeData m oi) m p bytes a = m a := fun a _ ha => by
      have hpos := (hw.parts hfile).dataStart_pos
      exact hin.low hw hfile (by omega)
    have hoi : ospfsInode (scatter (ospfsInodeData m oi) m p bytes) ino = some oi := by
      obtain ⟨_, h2, h3⟩ := super_congr hlow
      have hino := hfile.inode
      unfold ospfsInode at hino ⊢
      rw [h2, h3]
      exact hino
    have hbacked : Backed (scatter (ospfsInodeData m oi) m p bytes) oi := by
      intro x hx
      rw [hin.blockno hw hfile hfile]
      exact hw.backed hfile x (by omega)
    have hcount : min bytes.length (oiSize m oi - p) = bytes.length := by omega
    rw [ospfsRead_within hoi hbacked (by omega), hsize, hmap, hcount, gather_scatter]
    intro j k hj hk heq
    have hjk := hw.data_inj hfile (by omega) (by omega) heq
    omega
  · intro x hx hout
    unfold contentAt
    rw [hmap, scatter_outside]
    intro k hk heq
    have hxk := hw.data_inj hfile (by omega) hx heq
    omega
  · intro j oj x hother hne hx
    unfold contentAt
    rw [hin.data hw hfile hother]
    have hblock := hw.complete j oj x hother hx
    apply hin.block hw hfile hother hblock (.inl hne)
    rw [hw.data_eq hother hx]
    omega
  · intro a ha
    exact hin.low hw hfile ha
  · intro a ha
    exact scatter_outside ha

theorem overwrite_in_place {s : State} {buffer : Nat → Option UInt8} {bytes : List UInt8}
    (fuel : Nat) (hw : WellFormed s.data) (hfile : LiveFile s.data ino oi)
    (hcounter : s.nwritesToCrash = -1) (hend : p + bytes.length ≤ oiSize s.data oi)
    (hbuf : ∀ k, k < bytes.length → buffer k = bytes[k]?) :
    ∃ m', ospfsWrite fuel s ino false buffer bytes.length p =
        some ((⟨m', -1⟩ : State), p + bytes.length, (bytes.length : Int)) ∧
      Overwrites s.data m' ino oi p bytes := by
  refine ⟨_, ?_, scatter_overwrites hw hfile hend⟩
  have hloop : writeLoop oi bytes.length buffer bytes.length s.data 0 p =
      ⟨scatter (ospfsInodeData s.data oi) s.data p bytes, p + bytes.length, bytes.length⟩ :=
    writeLoop_scatter hw hfile hbuf (fun _ _ => rfl) (Nat.zero_le _) (Nat.le_refl _) hend
  have hwrite : writeFile fuel s.data oi false buffer bytes.length p =
      some (writeLoop oi bytes.length buffer bytes.length s.data 0 p) :=
    if_neg (Nat.not_lt.mpr hend)
  unfold ospfsWrite
  rw [tick_mounted hcounter]
  dsimp only
  rw [hfile.inode]
  dsimp only
  rw [hwrite, hloop, hcounter]

section LiveFile

/-- The big file, with a link. -/
def linkedFile : Bytes := setNlink bigFile 3200 1

theorem linkedFile_same {a : Nat} (h : a < 3208 ∨ 3212 ≤ a) : linkedFile a = bigFile a :=
  wr32_outside h

theorem linkedFile_ptr (s : Slot) : ptr linkedFile 3200 s = ptr bigFile 3200 s := by
  revert s
  apply ptr_congr
  · intro s
    rw [bigFile_ptr]
    split
    · split
      · decide
      · split <;> omega
    · decide
  · intro a h1 _
    exact linkedFile_same (.inr (by omega))
  · intro s a _ h0 ha
    have hblock := bigFile_tree.allocated s h0
    rw [Allocated, bigFile_dataStart] at hblock
    exact linkedFile_same (.inr (by omega))

theorem linkedFile_live : LiveFile linkedFile 2 3200 := by
  constructor
  · decide +kernel
  · decide +kernel
  · decide +kernel

/-- The only file. -/
theorem linkedFile_only (h : LiveFile linkedFile ino oi) : ino = 2 ∧ oi = 3200 := by
  have hcount : osNinodes linkedFile = 16 := by decide +kernel
  have hfirst : osFirstinob linkedFile = 3 := by decide +kernel
  have hdead : ∀ i, i < 16 → i ≠ 2 → oiNlink linkedFile (3072 + 64 * i) = 0 := by decide +kernel
  have hinode := h.inode
  have hnlink := h.nlink
  unfold ospfsInode at hinode
  rw [hcount, hfirst] at hinode
  split at hinode
  · cases hinode
  · have hoi : 3072 + 64 * ino = oi := Option.some.inj hinode
    subst hoi
    by_cases h2 : ino = 2
    · subst h2
      exact ⟨rfl, rfl⟩
    · rw [hdead ino (by omega) h2] at hnlink
      exact absurd hnlink (Nat.lt_irrefl 0)

theorem linkedFile_wellFormed : WellFormed linkedFile := by
  have hsuper : osNblocks linkedFile = 300 ∧ osFirstinob linkedFile = 3 ∧
      dataStart linkedFile = 4 := by decide +kernel
  obtain ⟨hblocks, hfirst, hstart⟩ := hsuper
  have hsize : oiSize linkedFile 3200 = 272384 := by decide +kernel
  have hfree : ∀ b, b < 300 → isFree linkedFile b = isFree bigFile b := by
    intro b hb
    exact isFree_congr (by omega) fun a _ ha => linkedFile_same (.inl (by omega))
  constructor
  · rw [hblocks, hfirst]
  · rw [hblocks, hstart]
    decide
  · rw [hblocks]
    decide
  · constructor
    · intro i oi s hi hf hn h0
      obtain ⟨rfl, rfl⟩ := linkedFile_only ⟨hi, hf, hn⟩
      rw [linkedFile_ptr] at h0 ⊢
      obtain ⟨h1, h2, h3⟩ := bigFile_tree.allocated s h0
      rw [bigFile_dataStart] at h1
      rw [bigFile_super.1] at h2
      exact ⟨by rw [hstart]; exact h1, by rw [hblocks]; exact h2, (hfree _ h2).trans h3⟩
    · intro i j oi oj s t hi hf hn hj hfj hnj h0 heq
      obtain ⟨rfl, rfl⟩ := linkedFile_only ⟨hi, hf, hn⟩
      obtain ⟨rfl, rfl⟩ := linkedFile_only ⟨hj, hfj, hnj⟩
      rw [linkedFile_ptr] at h0
      rw [linkedFile_ptr, linkedFile_ptr] at heq
      exact ⟨rfl, bigFile_tree.distinct s t h0 heq⟩
    · intro b hb
      rw [hstart] at hb
      rw [hfree b (by omega), bigFile_free b (by omega)]
      exact decide_eq_false (by omega)
  · intro i oi h
    obtain ⟨rfl, rfl⟩ := linkedFile_only h
    rw [hsize]
    decide
  · intro i oi x h hx
    obtain ⟨rfl, rfl⟩ := linkedFile_only h
    rw [hsize] at hx
    rw [linkedFile_ptr]
    exact bigFile_tree.data_ne (by omega)

/-- Three bytes over the end of block 9, the last direct one. -/
theorem overwrite_in_place_linkedFile : ∃ m', ospfsWrite 0 ⟨linkedFile, -1⟩ 2 false
    (fun k => [1, 2, 3][k]?) 3 10239 = some ((⟨m', -1⟩ : State), 10242, 3) ∧
      Overwrites linkedFile m' 2 3200 10239 [1, 2, 3] := by
  have hsize : oiSize linkedFile 3200 = 272384 := by decide +kernel
  have hlength : ([1, 2, 3] : List UInt8).length = 3 := rfl
  have hbuf : ∀ k, k < ([1, 2, 3] : List UInt8).length →
      (fun k => ([1, 2, 3] : List UInt8)[k]?) k = [1, 2, 3][k]? := fun _ _ => rfl
  have hwrite := overwrite_in_place (s := ⟨linkedFile, -1⟩) (p := 10239) 0 linkedFile_wellFormed
    linkedFile_live rfl (by rw [hsize, hlength]; decide) hbuf
  simp only [hlength, Nat.reduceAdd, Nat.cast_ofNat] at hwrite
  exact hwrite

end LiveFile

end CS111.Ospfs
