import CS111.Boot.LibMemory

/-!
# The boot loader and the program loader

`bootmain` reads an ELF file from the disk behind the boot sector, `program_loader` copies one that lies in
the memory of the kernel. A loop that may run for ever takes fuel.
-/

namespace CS111.Boot

set_option autoImplicit false

open Mpos (memcpy)

abbrev Mem := UInt32 → UInt8

section Elf

def rd16 (m : Mem) (a : UInt32) : UInt32 := (m a).toUInt32 + ((m (a + 1)).toUInt32 <<< 8)

def rd32 (m : Mem) (a : UInt32) : UInt32 :=
  (m a).toUInt32 + ((m (a + 1)).toUInt32 <<< 8) + ((m (a + 2)).toUInt32 <<< 16) +
    ((m (a + 3)).toUInt32 <<< 24)

def elfMagic : UInt32 := 0x464C457F

def elfProgLoad : UInt32 := 1

/-- The fields of `struct Elf` that are read. -/
structure Elf where
  magic : UInt32
  entry : UInt32
  phoff : UInt32
  phnum : UInt32
  deriving Repr, DecidableEq

def elfAt (m : Mem) (a : UInt32) : Elf where
  magic := rd32 m a
  entry := rd32 m (a + 24)
  phoff := rd32 m (a + 28)
  phnum := rd16 m (a + 44)

/-- The fields of `struct Proghdr` that are read. -/
structure Proghdr where
  type : UInt32
  offset : UInt32
  va : UInt32
  filesz : UInt32
  memsz : UInt32
  deriving Repr, DecidableEq

def proghdrAt (m : Mem) (a : UInt32) : Proghdr where
  type := rd32 m a
  offset := rd32 m (a + 4)
  va := rd32 m (a + 8)
  filesz := rd32 m (a + 16)
  memsz := rd32 m (a + 20)

/-- The loop `for (; ph < eph; ph++)`. -/
def forSegments (body : Mem → Proghdr → Option Mem) : Nat → Mem → UInt32 → UInt32 → Option Mem
  | 0, _, _, _ => none
  | fuel + 1, m, ph, eph =>
    if ph < eph then do
      let m ← body m (proghdrAt m ph)
      forSegments body fuel m (ph + 32) eph
    else some m

/-- The loop that clears the bss segment. -/
def clear (m : Mem) (end_va memsz : UInt32) : Mem :=
  if end_va < memsz then clear (Function.update m end_va 0) (end_va + 1) memsz else m
termination_by memsz.toNat - end_va.toNat
decreasing_by
  next h =>
  have hlt := UInt32.lt_iff_toNat_lt.mp h
  have hbound := memsz.toNat_lt
  rw [UInt32.toNat_add, show (1 : UInt32).toNat = 1 from rfl]
  omega

end Elf

section Bootmain

/-- The bytes that go to the ports 0x1F3 to 0x1F6. -/
def ports (sect : UInt32) : List UInt8 :=
  [sect.toUInt8, (sect >>> 8).toUInt8, (sect >>> 16).toUInt8, ((sect >>> 24) ||| 0xE0).toUInt8]

/-- The sector that the disk takes them for; the high half of the last byte does not belong to it. -/
def lbaOf (ports : List UInt8) : Nat :=
  (ports.getD 0 0).toNat + 256 * (ports.getD 1 0).toNat + 65536 * (ports.getD 2 0).toNat +
    16777216 * ((ports.getD 3 0).toNat % 16)

def readsect (image : List UInt8) (m : Mem) (dst sect : UInt32) : Mem := fun a =>
  if (a - dst).toNat < 512 then image.getD (512 * lbaOf (ports sect) + (a - dst).toNat) 0 else m a

/-- The loop that reads sectors. -/
def readSectors (image : List UInt8) : Nat → Mem → UInt32 → UInt32 → UInt32 → Option Mem
  | 0, _, _, _, _ => none
  | fuel + 1, m, va, end_va, sect =>
    if va < end_va then
      readSectors image fuel (readsect image m va sect) (va + 512) end_va (sect + 1)
    else some m

def readseg (image : List UInt8) (fuel : Nat) (m : Mem) (va filesz memsz sect : UInt32) : Option Mem := do
  let end_va := va + filesz
  let memsz := memsz + va
  let m ← readSectors image fuel m (va &&& ~~~511) end_va sect
  some (clear m end_va memsz)

inductive Outcome where
  | returns (m : Mem)
  | jumps (entry : UInt32) (m : Mem)

/-- `ELFHDR`. -/
def elfhdr : UInt32 := 0x10000

def bootmain (image : List UInt8) (fuel : Nat) (m : Mem) : Option Outcome := do
  let m ← readseg image fuel m elfhdr 4096 4096 1
  if (elfAt m elfhdr).magic ≠ elfMagic then some (.returns m)
  else do
    let ph := elfhdr + (elfAt m elfhdr).phoff
    let eph := ph + 32 * (elfAt m elfhdr).phnum
    let m ← forSegments (fun m p => readseg image fuel m p.va p.filesz p.memsz (1 + p.offset / 512))
      fuel m ph eph
    some (.jumps (elfAt m elfhdr).entry m)

end Bootmain

section ProgramLoader

def copyseg (m : Mem) (dst src filesz memsz : UInt32) : Mem :=
  let va := dst
  let end_va := va + filesz
  let memsz := memsz + va
  let va := va &&& ~~~4095
  clear (memcpy m va src (end_va - va)) end_va memsz

inductive LoadResult where
  | panics
  | program (entry_point : UInt32) (m : Mem)

/-- `ramimages` are the addresses where the images begin. -/
def programLoader (ramimages : List UInt32) (program_id : Int) (fuel : Nat) (m : Mem) :
    Option LoadResult :=
  if program_id < 0 ∨ (ramimages.length : Int) ≤ program_id then some .panics
  else do
    let elf_header := ramimages.getD program_id.toNat 0
    if (elfAt m elf_header).magic ≠ elfMagic then some .panics
    else do
      let ph := elf_header + (elfAt m elf_header).phoff
      let eph := ph + 32 * (elfAt m elf_header).phnum
      let m ← forSegments (fun m p =>
        some (if p.type = elfProgLoad then copyseg m p.va (elf_header + p.offset) p.filesz p.memsz else m))
        fuel m ph eph
      some (.program (elfAt m elf_header).entry m)

end ProgramLoader

end CS111.Boot
