import CS111.Lib.Scattered
import CS111.Ospfs.FileBytes
import CS111.Ospfs.FileTrees

/-!
# Reads are bounded by the file

`ospfs_read` cuts the request at the end of the file. The difference is unsigned: for a position past
the end it is huge, and the first block that is looked up is missing.
-/

namespace CS111.Ospfs

open Memory

set_option autoImplicit false

variable {m m' : Bytes} {ino oi n count p x y : Nat}

section Blocks

/-- Every position in the file has a block. -/
def Backed (m : Bytes) (oi : Nat) : Prop :=
  ∀ x, x < oiSize m oi → ospfsInodeBlockno m oi x ≠ 0

/-- The block that is looked up depends on the block number only. -/
theorem blockno_congr (hx : x < oiSize m oi) (hy : y < oiSize m oi) (h : x / 1024 = y / 1024) :
    ospfsInodeBlockno m oi x = ospfsInodeBlockno m oi y := by
  have hguard : (x ≥ oiSize m oi ∨ oiFtype m oi = FTYPE_SYMLINK) ↔
      (y ≥ oiSize m oi ∨ oiFtype m oi = FTYPE_SYMLINK) :=
    or_congr_left (iff_of_false (by omega) (by omega))
  unfold ospfsInodeBlockno
  simp only [hguard, h]

theorem blockno_past (h : oiSize m oi ≤ x) : ospfsInodeBlockno m oi x = 0 := by
  have hguard : x ≥ oiSize m oi ∨ oiFtype m oi = FTYPE_SYMLINK := .inl h
  unfold ospfsInodeBlockno
  simp only [if_pos hguard]

/-- The positions of one block lie at consecutive addresses. -/
theorem ospfsInodeData_add (h : p % 1024 + n ≤ 1024) (hend : p + n ≤ oiSize m oi) :
    ∀ k, k < n → ospfsInodeData m oi (p + k) =
      ospfsBlock (ospfsInodeBlockno m oi p) + p % 1024 + k := by
  intro k hk
  have hblock : ospfsInodeBlockno m oi (p + k) = ospfsInodeBlockno m oi p :=
    blockno_congr (by omega) (by omega) (by omega)
  have hmod : (p + k) % 1024 = p % 1024 + k := by omega
  unfold ospfsInodeData
  rw [hblock, hmod, Nat.add_assoc]

/-- The byte of a file at a position. -/
def contentAt (m : Bytes) (oi x : Nat) : UInt8 := m (ospfsInodeData m oi x)

theorem blockno_eq_slot (hf : oiFtype m oi ≠ FTYPE_SYMLINK) (hlt : x < oiSize m oi)
    (hsize : oiSize m oi ≤ maxFileSize) (h0 : ptr m oi (dataSlot (x / 1024)) ≠ 0) :
    ospfsInodeBlockno m oi x = ptr m oi (dataSlot (x / 1024)) := by
  unfold maxFileSize at hsize
  apply blockno_eq_ptr hf hlt (by omega)
  intro p j hp _
  exact (if_neg fun hp0 => h0 (ptr_below_zero hp hp0)).symm

theorem FileTree.backed (h : FileTree m oi n) (hn : 0 < n) : Backed m oi := by
  intro x hx
  have hsize := h.size hn
  have hk : x / 1024 < n := by omega
  have hdiv : 1024 * (x / 1024) / 1024 = x / 1024 := by omega
  rw [blockno_congr hx (by omega) hdiv.symm]
  change blockOf m oi (x / 1024) ≠ 0
  rw [h.blockOf_eq hk]
  exact h.data_ne hk

end Blocks

section Read

theorem readLoop_gather {fuel amount : Nat} {bytes : List UInt8} (h : Backed m oi)
    (hle : amount ≤ count) (hfuel : count - amount ≤ fuel)
    (hend : p + (count - amount) ≤ oiSize m oi) :
    readLoop m oi count (fun _ => true) fuel amount p bytes =
      ⟨bytes ++ gather m (ospfsInodeData m oi) p (count - amount), p + (count - amount), count⟩ := by
  induction fuel generalizing amount p bytes with
  | zero =>
    have heq : amount = count := by omega
    subst heq
    rw [Nat.sub_self, gather_zero, List.append_nil]
    rfl
  | succ fuel ih =>
    rw [readLoop]
    by_cases hlt : amount < count
    · have hsize : oiSize m oi < 4294967296 := rd32_lt _ _
      have hp32 : u32 p = p := u32_of_lt (by omega)
      have hb := h p (by omega)
      have hn := Nat.min_le_left (1024 - p % 1024) (count - amount)
      have hn' := Nat.min_le_right (1024 - p % 1024) (count - amount)
      have hpos : 0 < min (1024 - p % 1024) (count - amount) := by omega
      rw [if_pos hlt, hp32]
      simp only [if_neg hb, writableCount_all]
      generalize min (1024 - p % 1024) (count - amount) = n at hn hn' hpos
      have hchunk : load m (ospfsBlock (ospfsInodeBlockno m oi p) + p % 1024) n =
          gather m (ospfsInodeData m oi) p n :=
        (gather_load (ospfsInodeData_add (by omega) (by omega))).symm
      have hrest : n + (count - (amount + n)) = count - amount := by omega
      have hforward : p + n + (count - (amount + n)) = p + (count - amount) := by omega
      rw [hchunk, gather_length, if_neg (Nat.lt_irrefl n), ih (by omega) (by omega) (by omega),
        List.append_assoc, ← gather_add, hrest, hforward]
    · have heq : amount = count := by omega
      subst heq
      rw [if_neg hlt, Nat.sub_self, gather_zero, List.append_nil]
      rfl

theorem ospfsRead_within (hoi : ospfsInode m ino = some oi) (h : Backed m oi)
    (hp : p ≤ oiSize m oi) : ospfsRead m ino count p (fun _ => true) =
      some ⟨gather m (ospfsInodeData m oi) p (min count (oiSize m oi - p)),
        p + min count (oiSize m oi - p), (min count (oiSize m oi - p) : Nat)⟩ := by
  have hsize : oiSize m oi < 4294967296 := rd32_lt _ _
  have hcount : readCount (oiSize m oi) count p = min count (oiSize m oi - p) := by
    unfold readCount
    split <;> omega
  unfold ospfsRead
  rw [hoi]
  simp only [hcount]
  rw [readLoop_gather h (Nat.zero_le _) (by omega) (by omega)]
  rfl

/-- Past the end of the file. -/
theorem ospfsRead_past {writable : Nat → Bool} (hoi : ospfsInode m ino = some oi)
    (hp : oiSize m oi < p) (hlt : p < 4294967296) :
    ospfsRead m ino count p writable = some ⟨[], p, - EIO⟩ := by
  have hcount : 0 < readCount (oiSize m oi) count p := by
    unfold readCount
    rw [if_pos (by omega)]
    omega
  unfold ospfsRead
  rw [hoi]
  dsimp only
  generalize readCount (oiSize m oi) count p = k at hcount
  cases k with
  | zero => exact absurd hcount (Nat.lt_irrefl 0)
  | succ k =>
    rw [readLoop, if_pos hcount, u32_of_lt hlt]
    simp only [if_pos (blockno_past hp.le)]

end Read

/-- The read delivers the bytes of the file from the position on, and no error. -/
def ReadsWithin (m : Bytes) (ino oi count fpos : Nat) : Prop :=
  ospfsRead m ino count fpos (fun _ => true) =
    some ⟨gather m (ospfsInodeData m oi) fpos (min count (oiSize m oi - fpos)),
      fpos + min count (oiSize m oi - fpos), (min count (oiSize m oi - fpos) : Nat)⟩

/-- A file position is below 2 ^ 31 with `generic_file_llseek`, as `ospfs` sets no `s_maxbytes`. -/
theorem reads_within_iff {fpos : Nat} (hoi : ospfsInode m ino = some oi) (h : Backed m oi)
    (hpos : fpos < 2147483648) : ReadsWithin m ino oi count fpos ↔ fpos ≤ oiSize m oi := by
  constructor
  · intro hread
    by_contra hlt
    unfold ReadsWithin at hread
    rw [ospfsRead_past hoi (by omega) (by omega), Option.some.injEq, ReadResult.mk.injEq] at hread
    have herr := hread.2.2
    have hneg := neg_EIO
    omega
  · intro hle
    exact ospfsRead_within hoi h hle

theorem bigFile_inode : ospfsInode bigFile 2 = some 3200 := by
  obtain ⟨-, hcount, hfirst⟩ := bigFile_super
  rw [ospfsInode, hcount, hfirst]
  rfl

theorem reads_within_iff_bigFile : ReadsWithin bigFile 2 3200 100 272380 := by
  apply (reads_within_iff bigFile_inode (bigFile_tree.backed (by decide)) (by decide)).mpr
  rw [bigFile_size]
  decide

/-- A file of 272384 bytes is read one byte behind its end. -/
theorem read_past_end : ospfsInode bigFile 2 = some 3200 ∧ oiSize bigFile 3200 = 272384 ∧
    ospfsRead bigFile 2 1 272385 (fun _ => true) = some ⟨[], 272385, - EIO⟩ ∧
    ¬ ReadsWithin bigFile 2 3200 1 272385 := by
  have hread : ospfsRead bigFile 2 1 272385 (fun _ => true) = some ⟨[], 272385, - EIO⟩ :=
    ospfsRead_past bigFile_inode (by rw [bigFile_size]; decide) (by decide)
  refine ⟨bigFile_inode, bigFile_size, hread, fun h => ?_⟩
  unfold ReadsWithin at h
  rw [hread, Option.some.injEq, ReadResult.mk.injEq] at h
  have herr := h.2.2
  have hneg := neg_EIO
  omega

end CS111.Ospfs
