import CS111.Ospfs.Blocks

/-!
# Reading, writing and resizing files

A user buffer is a function from offsets: `none` is a byte that cannot be read. File positions
are not negative, and `size_t` has 32 bits.
-/

namespace CS111.Ospfs

open Memory

set_option autoImplicit false

section UserMemory

/-- The bytes at `pos`, `pos + 1`, … up to the first one that cannot be read. -/
def readableBytes (buffer : Nat → Option UInt8) : Nat → Nat → List UInt8
  | _, 0 => []
  | pos, n + 1 =>
    match buffer pos with
    | none => []
    | some byte => byte :: readableBytes buffer (pos + 1) n

/-- `copy_from_user` also returns how many bytes it did not copy; their places are cleared. -/
def copyFromUser (m : Bytes) (dst : Nat) (buffer : Nat → Option UInt8) (pos n : Nat) : Bytes × Nat :=
  let got := readableBytes buffer pos n
  (store m dst (got ++ List.replicate (n - got.length) 0), n - got.length)

/-- How many of `n` bytes at `pos` can be written before the first that cannot. -/
def writableCount (writable : Nat → Bool) : Nat → Nat → Nat
  | _, 0 => 0
  | pos, n + 1 => if writable pos then writableCount writable (pos + 1) n + 1 else 0

end UserMemory

section Read

/-- What `ospfs_read` copied to user space, the new file position and the return value. -/
structure ReadResult where
  bytes : List UInt8
  fpos : Nat
  ret : Int
  deriving Repr, DecidableEq

/-- Every round copies at least one byte, so fuel `count` is enough. -/
def readLoop (m : Bytes) (oi count : Nat) (writable : Nat → Bool) :
    Nat → Nat → Nat → List UInt8 → ReadResult
  | 0, amount, fpos, bytes => ⟨bytes, fpos, amount⟩
  | fuel + 1, amount, fpos, bytes =>
    if amount < count then
      let blockno := ospfsInodeBlockno m oi (u32 fpos)
      if blockno = 0 then ⟨bytes, fpos, - EIO⟩
      else
        let blockOffset := fpos % 1024
        let n := min (1024 - blockOffset) (count - amount)
        let data := load m (ospfsBlock blockno + blockOffset) (writableCount writable amount n)
        if data.length < n then ⟨bytes ++ data, fpos, -EFAULT⟩
        else readLoop m oi count writable fuel (amount + n) (fpos + n) (bytes ++ data)
    else ⟨bytes, fpos, amount⟩

/-- Past the end of the file the difference `oi->oi_size - *f_pos` is negative, and becomes a
huge `size_t`. -/
def readCount (size count fpos : Nat) : Nat :=
  if fpos + count > size then ((size : Int) - fpos) % 4294967296 |>.toNat else count

def ospfsRead (m : Bytes) (ino count fpos : Nat) (writable : Nat → Bool) : Option ReadResult :=
  match ospfsInode m ino with
  | none => none
  | some oi =>
    let count := readCount (oiSize m oi) count fpos
    some (readLoop m oi count writable count 0 fpos [])

end Read

section Write

/-- The disk after `ospfs_write`, the new file position and the return value. -/
structure WriteResult where
  data : Bytes
  fpos : Nat
  ret : Int

def writeLoop (oi count : Nat) (buffer : Nat → Option UInt8) :
    Nat → Bytes → Nat → Nat → WriteResult
  | 0, m, amount, fpos => ⟨m, fpos, amount⟩
  | fuel + 1, m, amount, fpos =>
    if amount < count then
      let blockno := ospfsInodeBlockno m oi (u32 fpos)
      if blockno = 0 then ⟨m, fpos, - EIO⟩
      else
        let blockOffset := fpos % 1024
        let n := min (1024 - blockOffset) (count - amount)
        let r := copyFromUser m (ospfsBlock blockno + blockOffset) buffer amount n
        if r.2 ≠ 0 then ⟨r.1, fpos, -EFAULT⟩
        else writeLoop oi count buffer fuel r.1 (amount + n) (fpos + n)
    else ⟨m, fpos, amount⟩

/-- `ospfs_write` after the crash counter; `append` is the flag `O_APPEND`. A failing
`change_size` makes it return 0. -/
def writeFile (fuel : Nat) (m : Bytes) (oi : Nat) (append : Bool) (buffer : Nat → Option UInt8)
    (count fpos : Nat) : Option WriteResult :=
  let fpos := if append then oiSize m oi else fpos
  if fpos + count > oiSize m oi then
    match changeSize fuel m oi (u32 (fpos + count)) with
    | none => none
    | some r =>
      if r.2 < 0 then some ⟨r.1, fpos, 0⟩ else some (writeLoop oi count buffer count r.1 0 fpos)
  else some (writeLoop oi count buffer count m 0 fpos)

def ospfsWrite (fuel : Nat) (s : State) (ino : Nat) (append : Bool) (buffer : Nat → Option UInt8)
    (count fpos : Nat) : Option (State × Nat × Int) :=
  match s.tick with
  | none => some (s, fpos, count)
  | some s =>
    match ospfsInode s.data ino with
    | none => none
    | some oi =>
      match writeFile fuel s.data oi append buffer count fpos with
      | none => none
      | some r => some ({ s with data := r.data }, r.fpos, r.ret)

end Write

section NotifyChange

/-- `struct iattr`: the fields marked valid in `ia_valid`, and what `inode_change_ok` and
`inode_setattr`, which do not touch the disk, return for it. -/
structure Iattr where
  size : Option Nat
  mode : Option Nat
  changeOk : Int
  setattr : Int
  deriving Repr, DecidableEq

def ospfsNotifyChange (fuel : Nat) (s : State) (ino : Nat) (attr : Iattr) : Option (State × Int) :=
  match ospfsInode s.data ino with
  | none => none
  | some oi =>
    let finish (m : Bytes) : State × Int :=
      let m := match attr.mode with
        | none => m
        | some mode => setMode m oi mode
      ({ s with data := m }, if attr.changeOk < 0 then attr.changeOk else attr.setattr)
    match attr.size with
    | none => some (finish s.data)
    | some size =>
      if oiFtype s.data oi = FTYPE_DIR then some (s, -EPERM)
      else
        match changeSize fuel s.data oi (u32 size) with
        | none => none
        | some r => if r.2 < 0 then some ({ s with data := r.1 }, r.2) else some (finish r.1)

end NotifyChange

end CS111.Ospfs
