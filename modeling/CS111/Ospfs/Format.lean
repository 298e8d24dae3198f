import CS111.Ospfs.Directory

/-!
# The formatter

`ospfsformat.c`. The image is the file with the blocks of the cache written back: on a
little-endian host `swizzle` changes nothing, so `getblk` shows what was stored last. `none` is an
`abort`, a failing `assert`, or a fault (a null pointer, or a `strcpy` past the end of its field);
that the cache is full of busy blocks is not modelled, nor are host files that cannot be read.
-/

namespace CS111.Ospfs

open Memory

set_option autoImplicit false

def OSPFS_MAGIC : Nat := 19988910

/-- `osp_ino`, `host_ino` (cut to 32 bits) and `md5_digest`. -/
structure Hardlink where
  ospIno : Nat
  hostIno : Nat
  digest : List UInt8
  deriving Repr, DecidableEq

/-- The globals. -/
structure Format where
  nblocks : Nat
  ninodes : Nat
  linkContents : Bool
  data : Bytes
  nextb : Nat
  nextinode : Nat
  hardlinks : List Hardlink

/-- What `readdir` and `lstat` show of a host directory: its entries one after the other. A
`hostIno` is 0 for a file with one link; `other` is a special file, or one that `lstat` fails for. -/
inductive Host where
  | nil
  | file (name : Name) (hostIno mode : Nat) (content : List UInt8) (rest : Host)
  | dir (name : Name) (mode : Nat) (sub rest : Host)
  | symlink (name : Name) (hostIno : Nat) (target : Name) (rest : Host)
  | other (name : Name) (rest : Host)
  deriving Repr, DecidableEq

namespace Format

def nbitblock (f : Format) : Nat := (f.nblocks + 8191) / 8192

def firstinob (f : Format) : Nat := 2 + f.nbitblock

section Blocks

def getblk (f : Format) (bno : Nat) (clr : Bool) : Option Format :=
  if bno ≥ f.nblocks then none
  else some (if clr then { f with data := clearBlock f.data bno } else f)

/-- `getblk(nextb++, 1, …)`. -/
def newblk (f : Format) : Option (Format × Nat) := do
  let g ← f.getblk f.nextb true
  some ({ g with nextb := f.nextb + 1 }, f.nextb)

/-- The indirect block for `storeblk`. -/
def indirectBlock (f : Format) (oi : Nat) : Option (Format × Nat) :=
  if oiIndirect f.data oi = 0 then do
    let (f, bindir) ← f.newblk
    some ({ f with data := setIndirect f.data oi bindir }, bindir)
  else do
    let f ← f.getblk (oiIndirect f.data oi) false
    some (f, oiIndirect f.data oi)

def indirect2Block (f : Format) (oi : Nat) : Option (Format × Nat) :=
  if oiIndirect2 f.data oi = 0 then do
    let (f, bindir2) ← f.newblk
    some ({ f with data := setIndirect2 f.data oi bindir2 }, bindir2)
  else do
    let f ← f.getblk (oiIndirect2 f.data oi) false
    some (f, oiIndirect2 f.data oi)

/-- The index block below the doubly indirect block. -/
def leafBlock (f : Format) (bindir2 k : Nat) : Option (Format × Nat) :=
  if blockWord f.data bindir2 k = 0 then do
    let (f, bindir) ← f.newblk
    some ({ f with data := setBlockWord f.data bindir2 k bindir }, bindir)
  else do
    let f ← f.getblk (blockWord f.data bindir2 k) false
    some (f, blockWord f.data bindir2 k)

def storeblk (f : Format) (oi bno nblk : Nat) : Option Format :=
  if nblk < 10 then some { f with data := setDirect f.data oi nblk bno }
  else if nblk < 266 then do
    let (f, bindir) ← f.indirectBlock oi
    some { f with data := setBlockWord f.data bindir (nblk - 10) bno }
  else if nblk < 65802 then do
    let (f, bindir2) ← f.indirect2Block oi
    let (f, bindir) ← f.leafBlock bindir2 ((nblk - 266) / 256)
    some { f with data := setBlockWord f.data bindir ((nblk - 266) % 256) bno }
  else none

end Blocks

section Inodes

def inodeAt (f : Format) (ino : Nat) : Nat := ospfsBlock (f.firstinob + ino / 16) + 64 * (ino % 16)

/-- The inode at a given number, in its block. -/
def inode (f : Format) (ino : Nat) : Option (Format × Nat) := do
  let f ← f.getblk (f.firstinob + ino / 16) false
  some (f, f.inodeAt ino)

/-- The result is the number and the address of the inode. -/
def allocinode (f : Format) : Option (Format × Nat × Nat) :=
  if f.nextinode = f.ninodes then none
  else do
    let ino := f.nextinode
    let (f, oi) ← { f with nextinode := f.nextinode + 1 }.inode ino
    some (f, ino, oi)

end Inodes

section Directories

/-- `nblk + 1` in the code: the number of blocks of a directory. -/
def dirBlocks (f : Format) (dirOi : Nat) : Nat := u32 (oiSize f.data dirOi + 1023) / 1024

/-- The directory's last block, file block `nblk`. -/
def lastDirBlock (f : Format) (dirOi nblk : Nat) : Option Nat :=
  if nblk ≥ 266 then do
    let bindir2 := oiIndirect2 f.data dirOi
    let f ← f.getblk bindir2 false
    let bindir := blockWord f.data bindir2 ((nblk - 266) / 256)
    let f ← f.getblk bindir false
    let dirb := blockWord f.data bindir ((nblk - 266) % 256)
    let _ ← f.getblk dirb false
    some dirb
  else if nblk ≥ 10 then do
    let bindir := oiIndirect f.data dirOi
    let f ← f.getblk bindir false
    let dirb := blockWord f.data bindir (nblk - 10)
    let _ ← f.getblk dirb false
    some dirb
  else do
    let dirb := oiDirect f.data dirOi nblk
    let _ ← f.getblk dirb false
    some dirb

def blockEntries (dirb : Nat) : List Nat := (List.range 8).map fun k => ospfsBlock dirb + 128 * k

/-- `new_dirb`: the directory gets a block, and its first entry is the blank one. -/
def newDirBlock (f : Format) (dirOi : Nat) : Option (Format × Nat) := do
  let nblk := f.dirBlocks dirOi
  let (f, dirb) ← f.newblk
  let f := { f with data := (blockEntries dirb).foldl (fun m od => setOdIno m od 0) f.data }
  let f ← f.storeblk dirOi dirb nblk
  let f := { f with data := setSize f.data dirOi (u32 (oiSize f.data dirOi + 1024)) }
  if (nblk + 1) * 1024 = oiSize f.data dirOi then some (f, ospfsBlock dirb) else none

/-- The address of the blank entry; `none` also for the null pointer that is returned for a name
of more than 123 bytes, since all callers store through it. -/
def allocdirentry (f : Format) (dirOi : Nat) (name : Name) : Option (Format × Nat) :=
  if name.length > 123 then none
  else do
    let (f, od) ←
      if f.dirBlocks dirOi = 0 then f.newDirBlock dirOi
      else do
        let dirb ← f.lastDirBlock dirOi (f.dirBlocks dirOi - 1)
        match (blockEntries dirb).find? (fun od => odIno f.data od == 0) with
        | some od => some (f, od)
        | none => f.newDirBlock dirOi
    some ({ f with data := store f.data (od + 4) (name ++ [0]) }, od)

end Directories

section Files

/-- 0 when there is no mapping. -/
def getHardlink (f : Format) (hostIno : Nat) (digest : Option (List UInt8)) : Nat :=
  match f.hardlinks.find? (fun cur => (hostIno ≠ 0 ∧ cur.hostIno = hostIno) ∨
      (f.linkContents ∧ some cur.digest = digest)) with
  | some cur => cur.ospIno
  | none => 0

def addHardlink (f : Format) (hostIno ospIno : Nat) (digest : Option (List UInt8)) : Format :=
  let stored := if f.linkContents then digest.getD (List.replicate 16 0) else List.replicate 16 0
  { f with hardlinks := ⟨ospIno, u32 hostIno, stored⟩ :: f.hardlinks }

/-- The loop that copies a host file, and the size it leaves. Every round but the last reads 1024
bytes, so fuel `content.length / 1024 + 1` is enough. -/
def writeBlocks (oi : Nat) : Nat → Format → Nat → List UInt8 → Option (Format × Nat)
  | 0, _, _, _ => none
  | fuel + 1, f, nblk, content => do
    let f ← f.getblk f.nextb true
    let chunk := content.take 1024
    if chunk.length = 0 then some (f, nblk * 1024)
    else
      let b := f.nextb
      let f := { f with data := store f.data (ospfsBlock b) chunk, nextb := b + 1 }
      let f ← f.storeblk oi b nblk
      if chunk.length < 1024 then some (f, nblk * 1024 + chunk.length)
      else writeBlocks oi fuel f (nblk + 1) (content.drop 1024)

/-- Another name for an inode that is there already. -/
def linkEntry (f : Format) (od ino : Nat) : Option Format := do
  let f := { f with data := setOdIno f.data od ino }
  let (f, oi) ← f.inode ino
  some { f with data := setNlink f.data oi (u32 (oiNlink f.data oi + 1)) }

/-- A new inode for the entry at `od`; the result has the inode's address. -/
def newEntry (f : Format) (od hostIno : Nat) (digest : Option (List UInt8)) (remember : Bool) :
    Option (Format × Nat) := do
  let (f, ino, oi) ← f.allocinode
  let f := { f with data := setNlink (setOdIno f.data od ino) oi 1 }
  some (if remember then f.addHardlink hostIno ino digest else f, oi)

def copyFile (f : Format) (oi mode : Nat) (content : List UInt8) : Option Format := do
  let f := { f with data := setMode (setFtype f.data oi FTYPE_REG) oi mode }
  let (f, size) ← writeBlocks oi (content.length / 1024 + 1) f 0 content
  some { f with data := setSize f.data oi (u32 size) }

/-- The field `oi_symlink` has 52 bytes. -/
def copyTarget (f : Format) (oi : Nat) (target : Name) : Option Format :=
  if target.length > 51 then none
  else
    let m := store (setFtype f.data oi FTYPE_SYMLINK) (oi + 12) (target ++ [0])
    some { f with data := setSize m oi target.length }

/-- `name` is what follows the last slash of the path. -/
def writefile (md5 : List UInt8 → List UInt8) (f : Format) (dirOi : Nat) (name : Name)
    (hostIno mode : Nat) (content : List UInt8) : Option Format := do
  let (f, od) ← f.allocdirentry dirOi name
  let digest := if f.linkContents then some (md5 content) else none
  let hardlinkIno := if hostIno ≠ 0 ∨ f.linkContents then f.getHardlink hostIno digest else 0
  if hardlinkIno = 0 then
    let (f, oi) ← f.newEntry od hostIno digest (hostIno ≠ 0 ∨ f.linkContents)
    f.copyFile oi mode content
  else f.linkEntry od hardlinkIno

def addsymlink (f : Format) (dirOi : Nat) (name target : Name) (hostIno : Nat) : Option Format := do
  let (f, od) ← f.allocdirentry dirOi name
  let hardlinkIno := if hostIno ≠ 0 then f.getHardlink hostIno none else 0
  if hardlinkIno = 0 then
    let (f, oi) ← f.newEntry od hostIno none (hostIno ≠ 0)
    f.copyTarget oi target
  else f.linkEntry od hardlinkIno

/-- A link whose target does not fit is ignored. -/
def writesymlink (f : Format) (dirOi : Nat) (name : Name) (hostIno : Nat) (target : Name) :
    Option Format :=
  if target.length > 51 then some f else f.addsymlink dirOi name target hostIno

/-- What a directory below the root begins with. -/
def makeDirectory (f : Format) (parentOi : Nat) (name : Name) (mode : Nat) :
    Option (Format × Nat) := do
  let (f, od) ← f.allocdirentry parentOi name
  let (f, ino, oi) ← f.allocinode
  let m := setOdIno f.data od ino
  let m := setNlink m parentOi (u32 (oiNlink m parentOi + 1))
  let m := setFtype m oi FTYPE_DIR
  let m := setSize m oi 0
  let m := setNlink m oi 1
  some ({ f with data := setMode m oi mode }, oi)

/-- ".", "..", "CVS", ".svn" and ".git". -/
def skippedNames : List Name :=
  [[46], [46, 46], [67, 86, 83], [46, 115, 118, 110], [46, 103, 105, 116]]

instance (name : Name) : Decidable (name ∈ skippedNames) :=
  List.instDecidableMemOfLawfulBEq name skippedNames

/-- The loop of `writedirectory`. -/
def writedirectory (md5 : List UInt8 → List UInt8) (f : Format) (dirOi : Nat) : Host → Option Format
  | .nil => some f
  | .file name hostIno mode content rest => do
    let f ← f.writefile md5 dirOi name hostIno mode content
    writedirectory md5 f dirOi rest
  | .dir name mode sub rest =>
    if name ∈ skippedNames then writedirectory md5 f dirOi rest
    else do
      let (f, oi) ← f.makeDirectory dirOi name mode
      let f ← writedirectory md5 f oi sub
      writedirectory md5 f dirOi rest
  | .symlink name hostIno target rest => do
    let f ← f.writesymlink dirOi name hostIno target
    writedirectory md5 f dirOi rest
  | .other _ rest => writedirectory md5 f dirOi rest

end Files

section Main

/-- The disk with the bitmap full of ones and empty inode blocks. -/
def opendisk (nblocks ninodes : Nat) (linkContents : Bool) : Option Format :=
  let f : Format := ⟨nblocks, ninodes, linkContents, fun _ => 0, 0, 0, []⟩
  let bitmap := (List.range f.nbitblock).foldlM (fun f i => do
    let f ← f.getblk (2 + i) false
    some { f with data := fill f.data (ospfsBlock (2 + i)) 1024 255 }) f
  let ninodeblock := (ninodes + 15) / 16
  do
    let f ← bitmap
    let f ← (List.range ninodeblock).foldlM (fun f i => f.getblk (2 + f.nbitblock + i) true) f
    some { f with nextb := 2 + f.nbitblock + ninodeblock, nextinode := 0 }

def clearBit (f : Format) (i : Nat) : Format := { f with data := bitvectorClear f.data freemap i }

/-- The superblock is stored last. -/
def finishfs (f : Format) : Option Format := do
  let f := (List.range f.nextb).foldl clearBit f
  let f :=
    if f.nblocks ≠ f.nbitblock * 8192 then
      ((List.range 8192).filter (f.nblocks % 8192 ≤ ·)).foldl clearBit f
    else f
  let f ← f.getblk 1 true
  let m := wr32 f.data 1024 OSPFS_MAGIC
  let m := wr32 (wr32 (wr32 m 1028 f.nblocks) 1032 f.ninodes) 1036 f.firstinob
  some { f with data := m }

/-- Inode 0 is taken out of use, and inode 1 becomes the root directory. -/
def makeRoot (f : Format) : Option (Format × Nat) := do
  let (f, _, oi) ← f.allocinode
  let f := { f with data := setNlink f.data oi 1 }
  let (f, _, rootOi) ← f.allocinode
  let m := setFtype f.data rootOi FTYPE_DIR
  let m := setNlink m rootOi 1
  some ({ f with data := setMode m rootOi 511 }, rootOi)

/-- The files to copy: `-r DIR`, or a list of paths with the names behind their last slashes. -/
inductive Files where
  | tree (host : Host)
  | list (files : List (Name × List UInt8))
  deriving Repr, DecidableEq

/-- The command line. `links` has the destination and the source of each `-l`, the last first. -/
structure Arguments where
  nblocks : Nat
  ninodes : Nat
  linkContents : Bool
  files : Files
  links : List (Name × Name)
  deriving Repr, DecidableEq

def Arguments.accepted (args : Arguments) : Bool :=
  2 ≤ args.nblocks ∧ args.nblocks ≤ 8192 ∧ 2 ≤ args.ninodes ∧
    args.ninodes < args.nblocks - 2 - args.nblocks / 8192

def copyFiles (md5 : List UInt8 → List UInt8) (f : Format) (rootOi : Nat) : Files → Option Format
  | .tree host => f.writedirectory md5 rootOi host
  | .list files => files.foldlM (fun f file => f.writefile md5 rootOi file.1 0 438 file.2) f

/-- The state at the end, when there is no usage error or abort. -/
def main (md5 : List UInt8 → List UInt8) (args : Arguments) : Option Format :=
  if args.accepted then do
    let f ← opendisk args.nblocks args.ninodes args.linkContents
    let (f, rootOi) ← f.makeRoot
    let f ← f.copyFiles md5 rootOi args.files
    let f ← args.links.foldlM (fun f link => f.addsymlink rootOi link.1 link.2 0) f
    f.finishfs
  else none

end Main

end Format

end CS111.Ospfs
