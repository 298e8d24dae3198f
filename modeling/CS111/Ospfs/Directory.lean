import CS111.Ospfs.Files

/-!
# Directory operations

A name is the list of its bytes, without the final NUL. A callback gets the inode numbers the
kernel keeps in its dentries; `newInode` says whether `new_inode` finds memory.
-/

namespace CS111.Ospfs

open Memory

set_option autoImplicit false

abbrev Name := List UInt8

section Entries

def odIno (m : Bytes) (od : Nat) : Nat := rd32 m od

def setOdIno (m : Bytes) (od v : Nat) : Bytes := wr32 m od v

/-- `strlen(od->od_name) == len`. -/
def nameLengthIs (m : Bytes) (od len : Nat) : Bool :=
  (List.range len).all (fun k => m (od + 4 + k) != 0) && m (od + 4 + len) == 0

def entryMatches (m : Bytes) (name : Name) (od : Nat) : Bool :=
  decide (odIno m od > 0) && nameLengthIs m od name.length && (load m (od + 4) name.length == name)

/-- The offsets `0`, `OSPFS_DIRENTRY_SIZE`, … below `size`. -/
def entryOffsets (size : Nat) : List Nat := (List.range ((size + 127) / 128)).map (128 * ·)

/-- The addresses of the entries of a directory, in the order in which the loops meet them. -/
def entries (m : Bytes) (dirOi : Nat) : List Nat :=
  (entryOffsets (oiSize m dirOi)).map (ospfsInodeData m dirOi)

def findDirentry (m : Bytes) (dirOi : Nat) (name : Name) : Option Nat :=
  (entries m dirOi).find? (entryMatches m name)

/-- The result is the disk with the address of a blank entry, or an error. -/
def createBlankDirentry (fuel : Nat) (m : Bytes) (dirOi : Nat) : Option (Bytes × Except Int Nat) :=
  match (entries m dirOi).find? (fun od => odIno m od == 0) with
  | some od => some (m, .ok od)
  | none =>
    let oldSize := oiSize m dirOi
    match changeSize fuel m dirOi (u32 (oldSize + 128)) with
    | none => none
    | some r =>
      if r.2 < 0 then some (r.1, .error r.2) else some (r.1, .ok (ospfsInodeData r.1 dirOi oldSize))

end Entries

section Unlink

/-- Where the search loop of `ospfs_unlink` stops: `entry_off`, and the entry looked at last. -/
def unlinkSearch (m : Bytes) (dirOi : Nat) (name : Name) : Nat × Option Nat :=
  let offsets := entryOffsets (oiSize m dirOi)
  match offsets.find? (fun off => entryMatches m name (ospfsInodeData m dirOi off)) with
  | some off => (off, some (ospfsInodeData m dirOi off))
  | none => (128 * offsets.length, offsets.getLast?.map (ospfsInodeData m dirOi))

/-- `dir` is `dentry->d_parent->d_inode->i_ino` and `ino` is `dentry->d_inode->i_ino`. -/
def ospfsUnlink (fuel : Nat) (s : State) (dir ino : Nat) (name : Name) : Option (State × Int) :=
  match ospfsInode s.data ino, ospfsInode s.data dir with
  | some oi, some dirOi =>
    let found := unlinkSearch s.data dirOi name
    if found.1 = oiSize s.data dirOi then some (s, -ENOENT)
    else
      match s.tick with
      | none => some (s, 0)
      | some s =>
        match found.2 with
        | none => none
        | some od =>
          let m := setOdIno s.data od 0
          let m := setNlink m oi (usub32 (oiNlink m oi) 1)
          if oiFtype m oi ≠ FTYPE_SYMLINK ∧ oiNlink m oi = 0 then
            match changeSize fuel m oi 0 with
            | none => none
            | some r => some ({ s with data := r.1 }, r.2)
          else some ({ s with data := m }, 0)
  | _, _ => none

end Unlink

section Insert

/-- `memcpy` of the name, with the final NUL that only `ospfs_link` leaves out. -/
def setEntry (m : Bytes) (od ino : Nat) (name : Name) : Bytes :=
  store (setOdIno m od ino) (od + 4) name

def setEntryTerminated (m : Bytes) (od ino : Nat) (name : Name) : Bytes :=
  store (setEntry m od ino name) (od + 4 + name.length) [0]

def ospfsLink (fuel : Nat) (s : State) (src dir : Nat) (name : Name) : Option (State × Int) :=
  match s.tick with
  | none => some (s, 0)
  | some s =>
    match ospfsInode s.data dir with
    | none => none
    | some dirOi =>
      if name.length > 123 then some (s, -ENAMETOOLONG)
      else if (findDirentry s.data dirOi name).isSome then some (s, -EEXIST)
      else
        match createBlankDirentry fuel s.data dirOi with
        | none => none
        | some (m, .error e) => some ({ s with data := m }, e)
        | some (m, .ok od) =>
          let m := setEntry m od src name
          match ospfsInode m src with
          | none => none
          | some oi => some ({ s with data := setNlink m oi (u32 (oiNlink m oi + 1)) }, 0)

/-- The search for a free inode, from 2 on. -/
def findEmptyInode (m : Bytes) : Option Nat :=
  ((List.range (osNinodes m - 2)).map (· + 2)).find? fun ino =>
    match ospfsInode m ino with
    | none => false
    | some oi => oiNlink m oi == 0

/-- `ospfs_mk_linux_inode`: 0 or 1 for a null pointer or not, `none` for its `panic`. -/
def ospfsMkLinuxInode (m : Bytes) (ino : Nat) (newInode : Bool) : Option Bool :=
  match ospfsInode m ino with
  | none => some false
  | some oi =>
    if !newInode then some false
    else if oiFtype m oi = FTYPE_REG ∨ oiFtype m oi = FTYPE_DIR ∨ oiFtype m oi = FTYPE_SYMLINK then
      some true
    else none

def initRegular (m : Bytes) (oi mode : Nat) : Bytes :=
  let m := setSize m oi 0
  let m := setFtype m oi FTYPE_REG
  let m := setNlink m oi 1
  let m := setMode m oi mode
  let m := fill m (oi + 16) 40 0
  let m := setIndirect m oi 0
  setIndirect2 m oi 0

/-- The terminating NUL of the target is not copied. -/
def initSymlink (m : Bytes) (oi : Nat) (symname : Name) : Bytes :=
  let m := setSize m oi symname.length
  let m := setFtype m oi FTYPE_SYMLINK
  let m := setNlink m oi 1
  store m (oi + 12) symname

/-- What `ospfs_create` and `ospfs_symlink` share after the check of the name's length. -/
def insertEntry (fuel : Nat) (s : State) (dir : Nat) (name : Name) (newInode : Bool)
    (init : Bytes → Nat → Bytes) : Option (State × Int) :=
  match ospfsInode s.data dir with
  | none => none
  | some dirOi =>
    if (findDirentry s.data dirOi name).isSome then some (s, -EEXIST)
    else
      match createBlankDirentry fuel s.data dirOi with
      | none => none
      | some (m, .error e) => some ({ s with data := m }, e)
      | some (m, .ok od) =>
        match findEmptyInode m with
        | none => if osNinodes m < 2 then none else some ({ s with data := m }, -ENOSPC)
        | some entryIno =>
          match ospfsInode m entryIno with
          | none => none
          | some oi =>
            let m := init (setEntryTerminated m od entryIno name) oi
            match ospfsMkLinuxInode m entryIno newInode with
            | none => none
            | some false => some ({ s with data := m }, -ENOMEM)
            | some true => some ({ s with data := m }, 0)

def ospfsCreate (fuel : Nat) (s : State) (dir : Nat) (name : Name) (mode : Nat) (newInode : Bool) :
    Option (State × Int) :=
  match s.tick with
  | none => some (s, 0)
  | some s =>
    if name.length > 123 then some (s, -ENAMETOOLONG)
    else insertEntry fuel s dir name newInode (fun m oi => initRegular m oi mode)

def ospfsSymlink (fuel : Nat) (s : State) (dir : Nat) (name symname : Name) (newInode : Bool) :
    Option (State × Int) :=
  match s.tick with
  | none => some (s, 0)
  | some s =>
    if name.length > 123 ∨ symname.length > 51 then some (s, -ENAMETOOLONG)
    else insertEntry fuel s dir name newInode (fun m oi => initSymlink m oi symname)

end Insert

end CS111.Ospfs
