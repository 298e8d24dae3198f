import CS111.Ospfs.Directory

/-!
# Lookup, directory listing and symbolic links

The callbacks that only look at the disk, and `ospfs_follow_link`, which cuts a conditional
link's target in place. `filldir` is a function of the entries it has accepted in this call and
of the one it is offered. At the end all callbacks are put together, with the steps that they take.
-/

namespace CS111.Ospfs

open Memory

set_option autoImplicit false

def EINVAL : Int := 22

section Strings

/-- The bytes from `a` up to a NUL, and not past the end of `ospfs_data`. -/
def cString (m : Bytes) : Nat → Nat → List UInt8
  | _, 0 => []
  | a, left + 1 => if m a = 0 then [] else m a :: cString m (a + 1) left

/-- `strchr`, which also finds the final NUL. -/
def strchr (m : Bytes) (c : UInt8) : Nat → Nat → Option Nat
  | _, 0 => none
  | a, left + 1 =>
    if m a = c then some a else if m a = 0 then none else strchr m c (a + 1) left

def imageEnd (m : Bytes) : Nat := osNblocks m * 1024

def odName (m : Bytes) (od : Nat) : Name := cString m (od + 4) (imageEnd m - (od + 4))

end Strings

section Lookup

/-- The inode number attached to the dentry, if the name is found. -/
def ospfsDirLookup (m : Bytes) (dir : Nat) (name : Name) (newInode : Bool) :
    Option (Except Int (Option Nat)) :=
  match ospfsInode m dir with
  | none => none
  | some dirOi =>
    if name.length > 123 then some (.error (-ENAMETOOLONG))
    else
      match findDirentry m dirOi name with
      | none => some (.ok none)
      | some od =>
        match ospfsMkLinuxInode m (odIno m od) newInode with
        | none => none
        | some false => some (.error (-EINVAL))
        | some true => some (.ok (some (odIno m od)))

end Lookup

section Readdir

inductive DType where
  | reg | dir | lnk
  deriving Repr, DecidableEq

structure DirEntry where
  name : Name
  fpos : Nat
  ino : Nat
  dtype : DType
  deriving Repr, DecidableEq

/-- The cases of the `switch` on `entry_oi->oi_ftype`. -/
def entryType (ftype : Nat) : Option DType :=
  if ftype = FTYPE_REG then some .reg
  else if ftype = FTYPE_DIR then some .dir
  else if ftype = FTYPE_SYMLINK then some .lnk
  else none

structure ReaddirResult where
  ret : Int
  fpos : Nat
  accepted : List DirEntry
  deriving Repr, DecidableEq

/-- The loop over the actual entries. `f_pos` goes on also when `filldir` refused the entry. -/
def readdirLoop (m : Bytes) (dirOi : Nat) (filldir : List DirEntry → DirEntry → Bool) :
    Nat → Nat → Bool → List DirEntry → Option ReaddirResult
  | 0, _, _, _ => none
  | fuel + 1, fpos, okSoFar, accepted =>
    if okSoFar ∧ fpos ≥ 2 then
      let off := u32 ((fpos - 2) * 128)
      if off ≥ oiSize m dirOi then some ⟨1, fpos, accepted⟩
      else
        let od := ospfsInodeData m dirOi off
        if odIno m od = 0 then readdirLoop m dirOi filldir fuel (u32 (fpos + 1)) true accepted
        else
          match ospfsInode m (odIno m od) with
          | none => none
          | some entryOi =>
            match entryType (oiFtype m entryOi) with
            | none => readdirLoop m dirOi filldir fuel (u32 (fpos + 1)) true accepted
            | some dtype =>
              let e : DirEntry := ⟨odName m od, fpos, odIno m od, dtype⟩
              if filldir accepted e then
                readdirLoop m dirOi filldir fuel (u32 (fpos + 1)) true (accepted ++ [e])
              else readdirLoop m dirOi filldir fuel (u32 (fpos + 1)) false accepted
    else some ⟨0, fpos, accepted⟩

def dotEntry (dir : Nat) : DirEntry := ⟨[46], 0, dir, .dir⟩

def dotDotEntry (parent : Nat) : DirEntry := ⟨[46, 46], 1, parent, .dir⟩

/-- `dir` and `parent` are the inode numbers of the directory and of its parent. -/
def ospfsDirReaddir (fuel : Nat) (m : Bytes) (dir parent fpos : Nat)
    (filldir : List DirEntry → DirEntry → Bool) : Option ReaddirResult :=
  match ospfsInode m dir with
  | none => some ⟨-ENOENT, fpos, []⟩
  | some dirOi =>
    let dot (st : Nat × Bool × List DirEntry) (pos : Nat) (e : DirEntry) :=
      if st.2.1 ∧ st.1 = pos then
        if filldir st.2.2 e then (pos + 1, true, st.2.2 ++ [e]) else (pos, false, st.2.2)
      else st
    let st := dot (dot (u32 fpos, true, []) 0 (dotEntry dir)) 1 (dotDotEntry parent)
    readdirLoop m dirOi filldir fuel st.1 st.2.1 st.2.2

end Readdir

section FollowLink

/-- `"root?"`. -/
def rootPrefix : List UInt8 := [114, 111, 111, 116, 63]

/-- The address given to `nd_set_link`, with the disk after a `:` has been overwritten. -/
def ospfsFollowLink (s : State) (ino uid : Nat) : Option (State × Nat) :=
  match ospfsInode s.data ino with
  | none => none
  | some oi =>
    let symlink := oi + 12
    if load s.data symlink 5 = rootPrefix then
      match strchr s.data 58 symlink (imageEnd s.data - symlink) with
      | some delimiter =>
        let m := store s.data delimiter [0]
        some ({ s with data := m }, if uid = 0 then symlink + 5 else delimiter + 1)
      | none =>
        match strchr s.data 0 symlink (imageEnd s.data - symlink) with
        | none => none
        | some delimiter => some (s, if uid = 0 then symlink + 5 else delimiter + 1)
    else some (s, symlink)

end FollowLink

section Callbacks

/-- Every callback that the kernel can make on a mounted volume, other than `ospfs_ioctl`, with the
arguments it reads. -/
inductive Callback where
  | create (dir : Nat) (name : Name) (mode : Nat) (newInode : Bool)
  | symlink (dir : Nat) (name symname : Name) (newInode : Bool)
  | link (src dir : Nat) (name : Name)
  | unlink (dir ino : Nat) (name : Name)
  | write (ino : Nat) (append : Bool) (buffer : Nat → Option UInt8) (count fpos : Nat)
  | read (ino count fpos : Nat) (writable : Nat → Bool)
  | notifyChange (ino : Nat) (attr : Iattr)
  | lookup (dir : Nat) (name : Name) (newInode : Bool)
  | readdir (dir parent fpos : Nat) (filldir : List DirEntry → DirEntry → Bool)
  | followLink (ino uid : Nat)

/-- The state after a callback; the results for the caller are those of the functions named. -/
def Callback.run (fuel : Nat) (s : State) : Callback → Option State
  | .create dir name mode newInode => (ospfsCreate fuel s dir name mode newInode).map (·.1)
  | .symlink dir name symname newInode => (ospfsSymlink fuel s dir name symname newInode).map (·.1)
  | .link src dir name => (ospfsLink fuel s src dir name).map (·.1)
  | .unlink dir ino name => (ospfsUnlink fuel s dir ino name).map (·.1)
  | .write ino append buffer count fpos =>
    (ospfsWrite fuel s ino append buffer count fpos).map (·.1)
  | .read ino count fpos writable => (ospfsRead s.data ino count fpos writable).map fun _ => s
  | .notifyChange ino attr => (ospfsNotifyChange fuel s ino attr).map (·.1)
  | .lookup dir name newInode => (ospfsDirLookup s.data dir name newInode).map fun _ => s
  | .readdir dir parent fpos filldir =>
    (ospfsDirReaddir fuel s.data dir parent fpos filldir).map fun _ => s
  | .followLink ino uid => (ospfsFollowLink s ino uid).map (·.1)

/-- A call that returns. -/
def CallbackStep (s : State) (c : Callback) (s' : State) : Prop := ∃ fuel, c.run fuel s = some s'

end Callbacks

end CS111.Ospfs
