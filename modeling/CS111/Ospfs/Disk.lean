import CS111.Lib.Words

/-!
# The OSPFS disk

`ospfs_data` is a byte memory that starts at address 0, and a pointer into it is an address.
`OSPFS_BLKSIZE` is 1024, `OSPFS_INODESIZE` 64, `OSPFS_NDIRECT` 10, `OSPFS_NINDIRECT` 256,
`OSPFS_DIRENTRY_SIZE` 128, `OSPFS_MAXNAMELEN` 123, `OSPFS_MAXSYMLINKLEN` 51.
-/

namespace CS111.Ospfs

open Memory

set_option autoImplicit false

def EPERM : Int := 1
def ENOENT : Int := 2
def EIO : Int := 5
def ENOMEM : Int := 12
def EFAULT : Int := 14
def EEXIST : Int := 17
def ENOSPC : Int := 28
def ENAMETOOLONG : Int := 36

theorem neg_EIO : - EIO < 0 := by decide

def FTYPE_REG : Nat := 0
def FTYPE_DIR : Nat := 1
def FTYPE_SYMLINK : Nat := 2

/-- `OSPFS_FREEMAP_BLK` times `OSPFS_BLKSIZE`. -/
def freemap : Nat := 2048

def size2nblocks (size : Nat) : Nat := u32 (size + 1023) / 1024

def ospfsBlock (blockno : Nat) : Nat := u32 (blockno * 1024)

/-- Word `j` of a block, as in `((uint32_t *) ospfs_block(blockno))[j]`. -/
def blockWord (m : Bytes) (blockno j : Nat) : Nat := rd32 m (ospfsBlock blockno + 4 * j)

def setBlockWord (m : Bytes) (blockno j v : Nat) : Bytes := wr32 m (ospfsBlock blockno + 4 * j) v

def clearBlock (m : Bytes) (blockno : Nat) : Bytes := fill m (ospfsBlock blockno) 1024 0

section Superblock
variable (m : Bytes)

def osNblocks : Nat := rd32 m 1028
def osNinodes : Nat := rd32 m 1032
def osFirstinob : Nat := rd32 m 1036

/-- `none` is the null pointer. -/
def ospfsInode (ino : Nat) : Option Nat :=
  if ino ≥ osNinodes m then none else some (ospfsBlock (osFirstinob m) + 64 * ino)

end Superblock

section Inodes
variable (m : Bytes) (oi : Nat)

def oiSize : Nat := rd32 m oi
def oiFtype : Nat := rd32 m (oi + 4)
def oiNlink : Nat := rd32 m (oi + 8)
def oiDirect (k : Nat) : Nat := rd32 m (oi + 16 + 4 * k)
def oiIndirect : Nat := rd32 m (oi + 56)
def oiIndirect2 : Nat := rd32 m (oi + 60)

def setSize (v : Nat) : Bytes := wr32 m oi v
def setFtype (v : Nat) : Bytes := wr32 m (oi + 4) v
def setNlink (v : Nat) : Bytes := wr32 m (oi + 8) v
def setMode (v : Nat) : Bytes := wr32 m (oi + 12) v
def setDirect (k v : Nat) : Bytes := wr32 m (oi + 16 + 4 * k) v
def setIndirect (v : Nat) : Bytes := wr32 m (oi + 56) v
def setIndirect2 (v : Nat) : Bytes := wr32 m (oi + 60) v

/-- A null index block is not checked for: the code then reads the boot block. -/
def ospfsInodeBlockno (offset : Nat) : Nat :=
  let blockno := offset / 1024
  if offset ≥ oiSize m oi ∨ oiFtype m oi = FTYPE_SYMLINK then 0
  else if blockno ≥ 266 then
    let blockoff := blockno - 266
    blockWord m (blockWord m (oiIndirect2 m oi) (blockoff / 256)) (blockoff % 256)
  else if blockno ≥ 10 then blockWord m (oiIndirect m oi) (blockno - 10)
  else oiDirect m oi blockno

def ospfsInodeData (offset : Nat) : Nat :=
  ospfsBlock (ospfsInodeBlockno m oi offset) + offset % 1024

end Inodes

/-- The module's state: the disk, and the number of disk updates left before the simulated
crash, negative when there is none. -/
structure State where
  data : Bytes
  nwritesToCrash : Int

/-- `none` when the crash has happened: the callback then returns without doing anything. -/
def State.tick (s : State) : Option State :=
  if s.nwritesToCrash = 0 then none
  else if s.nwritesToCrash > 0 then some { s with nwritesToCrash := s.nwritesToCrash - 1 }
  else some s

end CS111.Ospfs
