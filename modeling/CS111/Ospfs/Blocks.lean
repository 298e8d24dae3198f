import CS111.Ospfs.Disk

/-!
# Allocating blocks and changing the size of a file

`oi` is the address of an inode. `change_size` tries again for ever when the disk is full, so
its loops take fuel, and `none` says that the fuel did not suffice.
-/

namespace CS111.Ospfs

open Memory

set_option autoImplicit false

section FreeMap

def allocateFrom (m : Bytes) : Nat → Nat → Bytes × Nat
  | _, 0 => (m, 0)
  | i, left + 1 =>
    if bitvectorTest m freemap i then (bitvectorClear m freemap i, i)
    else allocateFrom m (i + 1) left

def allocateBlock (m : Bytes) : Bytes × Nat := allocateFrom m 0 (osNblocks m)

def freeBlock (m : Bytes) (blockno : Nat) : Bytes :=
  if blockno ≤ u32 (osFirstinob m + osNinodes m / 16) then m
  else bitvectorSet m freemap blockno

theorem freeBlock_zero {m : Bytes} : freeBlock m 0 = m := if_pos (Nat.zero_le _)

end FreeMap

section Indices

def indir2Index (b : Nat) : Int := if b ≥ 266 then 0 else -1

def indirIndex (b : Nat) : Int :=
  if b < 10 then -1 else if b < 266 then 0 else ((b - 266) / 256 : Nat)

def directIndex (b : Nat) : Nat := if b < 10 then b else (b - 10) % 256

end Indices

section AddBlock

def addDirect (m : Bytes) (oi n : Nat) : Bytes × Int :=
  let new := allocateBlock m
  if new.2 = 0 then (new.1, -ENOSPC)
  else (setDirect (clearBlock new.1 new.2) oi n new.2, 0)

/-- The data block below the indirect block; `allocated` is `allocated[0]`. -/
def addEntry (m : Bytes) (oi n allocated : Nat) : Bytes × Int :=
  let new := allocateBlock m
  if new.2 = 0 then
    let m := freeBlock new.1 allocated
    (if allocated ≠ 0 then setIndirect m oi 0 else m, -ENOSPC)
  else
    let m := clearBlock new.1 new.2
    (setBlockWord m (oiIndirect m oi) (directIndex n) new.2, 0)

def addIndirect (m : Bytes) (oi n : Nat) : Bytes × Int :=
  if oiIndirect m oi = 0 then
    let new := allocateBlock m
    if new.2 = 0 then (new.1, -ENOSPC)
    else addEntry (setIndirect (clearBlock new.1 new.2) oi new.2) oi n new.2
  else addEntry m oi n 0

/-- The data block below the doubly indirect block. -/
def addLeaf (m : Bytes) (oi n indirect2 allocated0 allocated1 : Nat) : Bytes × Int :=
  let k := (indirIndex n).toNat
  let new := allocateBlock m
  if new.2 = 0 then
    let m := freeBlock new.1 allocated0
    let m := if allocated0 ≠ 0 then setBlockWord m indirect2 k 0 else m
    let m := freeBlock m allocated1
    (if allocated1 ≠ 0 then setIndirect2 m oi 0 else m, -ENOSPC)
  else
    let m := clearBlock new.1 new.2
    (setBlockWord m (blockWord m indirect2 k) (directIndex n) new.2, 0)

/-- The index block below the doubly indirect block. -/
def addEntry2 (m : Bytes) (oi n allocated1 : Nat) : Bytes × Int :=
  let k := (indirIndex n).toNat
  let indirect2 := oiIndirect2 m oi
  if blockWord m indirect2 k = 0 then
    let new := allocateBlock m
    if new.2 = 0 then
      let m := freeBlock new.1 allocated1
      (if allocated1 ≠ 0 then setIndirect2 m oi 0 else m, -ENOSPC)
    else
      addLeaf (setBlockWord (clearBlock new.1 new.2) indirect2 k new.2) oi n indirect2 new.2
        allocated1
  else addLeaf m oi n indirect2 0 allocated1

def addIndirect2 (m : Bytes) (oi n : Nat) : Bytes × Int :=
  if oiIndirect2 m oi = 0 then
    let new := allocateBlock m
    if new.2 = 0 then (new.1, -ENOSPC)
    else addEntry2 (setIndirect2 (clearBlock new.1 new.2) oi new.2) oi n new.2
  else addEntry2 m oi n 0

/-- The choice of the branch for file block `n`. The first 256 blocks below the doubly indirect
block also have `indir_index` 0, and are stored by the branch for the indirect block. -/
def addBlockAt (m : Bytes) (oi n : Nat) : Bytes × Int :=
  if indirIndex n = -1 then addDirect m oi n
  else if indirIndex n = 0 then addIndirect m oi n
  else if indir2Index n = 0 then addIndirect2 m oi n
  else (m, -ENOSPC)

def addBlock (m : Bytes) (oi : Nat) : Bytes × Int :=
  let r := addBlockAt m oi (size2nblocks (oiSize m oi))
  if r.2 < 0 then r else (setSize r.1 oi (u32 (oiSize r.1 oi + 1024)), 0)

end AddBlock

section RemoveBlock

def removeDirect (m : Bytes) (oi last : Nat) : Bytes × Int :=
  if oiDirect m oi last = 0 then (m, - EIO)
  else (setDirect (freeBlock m (oiDirect m oi last)) oi last 0, 0)

def removeEntry (m : Bytes) (oi last : Nat) : Bytes × Int :=
  let indirect := oiIndirect m oi
  let index := directIndex last
  if indirect = 0 then (m, - EIO)
  else if blockWord m indirect index = 0 then (m, - EIO)
  else
    let m := setBlockWord (freeBlock m (blockWord m indirect index)) indirect index 0
    (if index = 0 then setIndirect (freeBlock m (oiIndirect m oi)) oi 0 else m, 0)

/-- The last block of a leaf index block also gives back `oi_indirect`, and not the leaf. -/
def removeLeaf (m : Bytes) (oi last : Nat) : Bytes × Int :=
  let indirect2 := oiIndirect2 m oi
  let k := (indirIndex last).toNat
  let index := directIndex last
  if indirect2 = 0 then (m, - EIO)
  else
    let indirect := blockWord m indirect2 k
    if indirect = 0 then (m, - EIO)
    else if blockWord m indirect index = 0 then (m, - EIO)
    else
      let m := setBlockWord (freeBlock m (blockWord m indirect index)) indirect index 0
      if index = 0 then
        let m := setIndirect (freeBlock m (oiIndirect m oi)) oi 0
        (if k = 0 then setIndirect2 (freeBlock m (oiIndirect2 m oi)) oi 0 else m, 0)
      else (m, 0)

def removeBlockAt (m : Bytes) (oi last : Nat) : Bytes × Int :=
  if last < 10 then removeDirect m oi last
  else if last < 266 then removeEntry m oi last
  else if last < 65802 then removeLeaf m oi last
  else (m, - EIO)

def removeBlock (m : Bytes) (oi : Nat) : Bytes × Int :=
  let n := size2nblocks (oiSize m oi)
  if n = 0 then (m, 0)
  else
    let r := removeBlockAt m oi (usub32 n 1)
    if r.2 < 0 then r else (setSize r.1 oi (usub32 (oiSize r.1 oi) 1024), 0)

end RemoveBlock

section ChangeSize

/-- `while (ospfs_size2nblocks(oi->oi_size) > target)`, up to an error of `remove_block`. -/
def removeBlocks (oi target : Nat) : Nat → Bytes → Option (Bytes × Int)
  | 0, _ => none
  | fuel + 1, m =>
    if size2nblocks (oiSize m oi) > target then
      let r := removeBlock m oi
      if r.2 < 0 then some r else removeBlocks oi target fuel r.1
    else some (m, 0)

/-- The growing loop. After `-ENOSPC` the file is shrunk back, and the loop goes on. -/
def addBlocks (oi oldSize newSize : Nat) : Nat → Bytes → Option (Bytes × Int)
  | 0, _ => none
  | fuel + 1, m =>
    if size2nblocks (oiSize m oi) < size2nblocks newSize then
      let r := addBlock m oi
      if r.2 = - EIO then some r
      else if r.2 = -ENOSPC then
        match removeBlocks oi (size2nblocks oldSize) fuel r.1 with
        | none => none
        | some s => if s.2 < 0 then some s else addBlocks oi oldSize newSize fuel s.1
      else addBlocks oi oldSize newSize fuel r.1
    else some (m, 0)

def changeSize (fuel : Nat) (m : Bytes) (oi newSize : Nat) : Option (Bytes × Int) :=
  match addBlocks oi (oiSize m oi) newSize fuel m with
  | none => none
  | some r =>
    if r.2 < 0 then some r
    else
      match removeBlocks oi (size2nblocks newSize) fuel r.1 with
      | none => none
      | some s => if s.2 < 0 then some s else some (setSize s.1 oi newSize, 0)

variable {oi target oldSize newSize fuel : Nat} {m : Bytes} {r : Bytes × Int}
  {P : Bytes → Bytes × Int → Prop}

/-- What holds round by round of the shrinking loop holds of its runs. -/
theorem removeBlocks_run
    (stop : ∀ m, size2nblocks (oiSize m oi) ≤ target → P m (m, 0))
    (fail : ∀ m, target < size2nblocks (oiSize m oi) → (removeBlock m oi).2 < 0 →
      P m (removeBlock m oi))
    (next : ∀ m r, target < size2nblocks (oiSize m oi) → ¬ (removeBlock m oi).2 < 0 →
      P (removeBlock m oi).1 r → P m r)
    (hrun : removeBlocks oi target fuel m = some r) : P m r := by
  induction fuel generalizing m with
  | zero => cases hrun
  | succ fuel ih =>
    rw [removeBlocks] at hrun
    by_cases hlt : target < size2nblocks (oiSize m oi)
    · rw [if_pos hlt] at hrun
      dsimp only at hrun
      by_cases hneg : (removeBlock m oi).2 < 0
      · rw [if_pos hneg] at hrun
        cases hrun
        exact fail m hlt hneg
      · rw [if_neg hneg] at hrun
        exact next m r hlt hneg (ih hrun)
    · rw [if_neg hlt] at hrun
      cases hrun
      exact stop m (Nat.not_lt.mp hlt)

/-- What holds round by round of the growing loop holds of its runs. -/
theorem addBlocks_run
    (stop : ∀ m, size2nblocks newSize ≤ size2nblocks (oiSize m oi) → P m (m, 0))
    (fail : ∀ m, size2nblocks (oiSize m oi) < size2nblocks newSize → (addBlock m oi).2 = - EIO →
      P m (addBlock m oi))
    (stuck : ∀ m s fuel, size2nblocks (oiSize m oi) < size2nblocks newSize →
      (addBlock m oi).2 = -ENOSPC →
      removeBlocks oi (size2nblocks oldSize) fuel (addBlock m oi).1 = some s → s.2 < 0 → P m s)
    (again : ∀ m s r fuel, size2nblocks (oiSize m oi) < size2nblocks newSize →
      (addBlock m oi).2 = -ENOSPC →
      removeBlocks oi (size2nblocks oldSize) fuel (addBlock m oi).1 = some s → ¬ s.2 < 0 →
      P s.1 r → P m r)
    (next : ∀ m r, size2nblocks (oiSize m oi) < size2nblocks newSize → (addBlock m oi).2 ≠ - EIO →
      (addBlock m oi).2 ≠ -ENOSPC → P (addBlock m oi).1 r → P m r)
    (hrun : addBlocks oi oldSize newSize fuel m = some r) : P m r := by
  induction fuel generalizing m with
  | zero => cases hrun
  | succ fuel ih =>
    rw [addBlocks] at hrun
    by_cases hlt : size2nblocks (oiSize m oi) < size2nblocks newSize
    · rw [if_pos hlt] at hrun
      dsimp only at hrun
      by_cases hio : (addBlock m oi).2 = - EIO
      · rw [if_pos hio] at hrun
        cases hrun
        exact fail m hlt hio
      rw [if_neg hio] at hrun
      by_cases hfull : (addBlock m oi).2 = -ENOSPC
      · rw [if_pos hfull] at hrun
        cases hremoved : removeBlocks oi (size2nblocks oldSize) fuel (addBlock m oi).1 with
        | none =>
          rw [hremoved] at hrun
          cases hrun
        | some s =>
          rw [hremoved] at hrun
          dsimp only at hrun
          by_cases hneg : s.2 < 0
          · rw [if_pos hneg] at hrun
            cases hrun
            exact stuck m r fuel hlt hfull hremoved hneg
          · rw [if_neg hneg] at hrun
            exact again m s r fuel hlt hfull hremoved hneg (ih hrun)
      · rw [if_neg hfull] at hrun
        exact next m r hlt hio hfull (ih hrun)
    · rw [if_neg hlt] at hrun
      cases hrun
      exact stop m (Nat.not_lt.mp hlt)

end ChangeSize

end CS111.Ospfs
