import Mathlib.Data.List.FinRange
import CS111.Lib.WriteBack
import CS111.Ospfs.Pointers

/-!
# The block cache of the formatter

`ospfsformat.c`, on a little-endian host. A `struct Block *` is the number of its slot in `cache`.
Seeks, reads and writes of the disk file succeed; `none` is an `abort` or the failing `assert`. The
counter `t` of `getblk` is an `int` that wraps around, and is kept as the 32 bits that `used` gets.
-/

namespace CS111.Ospfs

open Memory

set_option autoImplicit false

def BLOCK_SUPER : Nat := 0
def BLOCK_DIR : Nat := 1
def BLOCK_FILE : Nat := 2
def BLOCK_BITS : Nat := 3
def BLOCK_INODES : Nat := 4

/-- The bytes of the union `u` are those below 1024. -/
structure Block where
  bno : Nat
  type : Nat
  busy : Nat
  used : Nat
  u : Bytes

section Swizzle

/-- The bytes of a word that the host reads, lowest first. -/
def swizzle (u : Bytes) (x : Nat) : Bytes := wr32 u x (rd32 u x)

def swizzleinode (u : Bytes) (inode : Nat) : Bytes :=
  if rd32 u (inode + 8) = 0 then u
  else ([0, 4, 12, 8] ++ (List.range 10).map (fun i => 16 + 4 * i) ++ [56, 60]).foldl
    (fun u field => swizzle u (inode + field)) u

def swizzledirentry (u : Bytes) (direntry : Nat) : Bytes :=
  if u (direntry + 4) = 0 then u else swizzle u direntry

def swizzleblock (b : Block) : Block :=
  { b with u :=
      if b.type = BLOCK_SUPER then [0, 4, 8, 12].foldl swizzle b.u
      else if b.type = BLOCK_DIR then (List.range 8).foldl (fun u i => swizzledirentry u (128 * i)) b.u
      else if b.type = BLOCK_BITS then (List.range 256).foldl (fun u i => swizzle u (4 * i)) b.u
      else if b.type = BLOCK_INODES then (List.range 16).foldl (fun u i => swizzleinode u (64 * i)) b.u
      else b.u }

theorem foldl_same {α β : Type} {f : β → α → β} (h : ∀ u x, f u x = u) (l : List α) (u : β) :
    l.foldl f u = u := by
  induction l with
  | nil => rfl
  | cons x l ih => rw [List.foldl_cons, h, ih]

theorem swizzle_same (u : Bytes) (x : Nat) : swizzle u x = u := by
  funext a
  unfold swizzle
  by_cases h : x ≤ a ∧ a < x + 4
  · obtain ⟨k, rfl⟩ := Nat.exists_eq_add_of_le h.1
    exact wr32_rd32 u u x (by omega)
  · exact wr32_outside (by omega)

theorem swizzleinode_same (u : Bytes) (inode : Nat) : swizzleinode u inode = u := by
  unfold swizzleinode
  split
  · rfl
  · exact foldl_same (fun u field => swizzle_same u _) _ u

theorem swizzledirentry_same (u : Bytes) (direntry : Nat) : swizzledirentry u direntry = u := by
  unfold swizzledirentry
  split
  · rfl
  · exact swizzle_same u direntry

/-- On a little-endian host the bytes of a block stay as they are. -/
@[simp] theorem swizzleblock_same (b : Block) : swizzleblock b = b := by
  unfold swizzleblock
  rw [foldl_same swizzle_same, foldl_same fun u i => swizzledirentry_same u _,
    foldl_same fun u i => swizzle_same u _, foldl_same fun u i => swizzleinode_same u _]
  simp only [ite_self]

end Swizzle

structure BlockCache where
  cache : Fin 16 → Block
  t : Nat
  disk : Bytes

/-- What the scan of `getblk` finds: the slot of the block, or the free slot that was used least. -/
inductive Scan where
  | hit (i : Fin 16)
  | miss (least : Option (Fin 16))
  deriving Repr, DecidableEq

namespace BlockCache
variable (s : BlockCache)

def setBlock (i : Fin 16) (b : Block) : BlockCache :=
  { s with cache := Function.update s.cache i b }

def writeBlock (disk u : Bytes) (a : Nat) : Bytes :=
  fun i => if a ≤ i ∧ i < a + 1024 then u (i - a) else disk i

def readBlock (disk u : Bytes) (a : Nat) : Bytes := fun k => if k < 1024 then disk (a + k) else u k

def flushb (i : Fin 16) : BlockCache :=
  let b := swizzleblock (s.cache i)
  { s.setBlock i (swizzleblock b) with disk := writeBlock s.disk b.u (ospfsBlock b.bno) }

def usedLess (i : Fin 16) : Option (Fin 16) → Bool
  | none => true
  | some least => decide ((s.cache i).used < (s.cache least).used)

def scan (bno : Nat) : List (Fin 16) → Option (Fin 16) → Scan
  | [], least => .miss least
  | i :: rest, least =>
    if (s.cache i).bno = bno then .hit i
    else if (s.cache i).busy = 0 ∧ s.usedLess i least then scan bno rest (some i)
    else scan bno rest least

def flushUsed (i : Fin 16) : BlockCache := if (s.cache i).used ≠ 0 then s.flushb i else s

/-- The block `cache[least]` gets when the scan has not found `bno`. -/
def readIn (least : Fin 16) (bno : Nat) (clr : Bool) (type : Nat) : BlockCache :=
  let s := s.flushUsed least
  let b := { s.cache least with
    u := readBlock s.disk (s.cache least).u (ospfsBlock bno)
    bno := bno }
  let b := if clr then b else swizzleblock b
  s.setBlock least { b with busy := 0, type := type }

/-- A block after the label `out`. -/
def taken (b : Block) (clr : Bool) (used type : Nat) : Block :=
  { b with
    u := if clr then fill b.u 0 1024 0 else b.u
    used := used
    busy := u32 (b.busy + 1)
    type := type }

/-- The part of `getblk` behind the label `out`. -/
def out (i : Fin 16) (clr : Bool) (type : Nat) : Option (BlockCache × Fin 16) :=
  let t := u32 (s.t + 1)
  let b := taken (s.cache i) clr t type
  if (s.cache i).type = type ∨ b.busy = 1 then some ({ s.setBlock i b with t := t }, i) else none

def getblk (nblocks bno : Nat) (clr : Bool) (type : Nat) : Option (BlockCache × Fin 16) :=
  if bno ≥ nblocks then none
  else
    match s.scan bno (List.finRange 16) none with
    | .hit i => s.out i clr type
    | .miss none => none
    | .miss (some least) => (s.readIn least bno clr type).out least clr type

def putblk (i : Fin 16) : BlockCache :=
  s.setBlock i { s.cache i with busy := usub32 (s.cache i).busy 1 }

def flushdisk : BlockCache := (List.finRange 16).foldl flushUsed s

/-- A byte stored through the pointer that `getblk` returned. -/
def modify (i : Fin 16) (k : Nat) (byte : UInt8) : BlockCache :=
  s.setBlock i { s.cache i with u := Function.update (s.cache i).u k byte }

/-- The cache and the disk file when `opendisk` begins. -/
def start (disk : Bytes) : BlockCache := ⟨fun _ => ⟨0, 0, 0, 0, fun _ => 0⟩, 1, disk⟩

end BlockCache

/-! ## As a write-back cache -/

abbrev Page := Fin 1024 → UInt8

def page (u : Bytes) (a : Nat) : Page := fun k => u (a + k)

def memoryPages (m : Bytes) (bno : Nat) : Page := page m (1024 * bno)

theorem memoryPages_injective : Function.Injective memoryPages := by
  intro m m' h
  funext a
  have hk := congrFun (congrFun h (a / 1024)) ⟨a % 1024, Nat.mod_lt a (by decide)⟩
  have ha : 1024 * (a / 1024) + a % 1024 = a := Nat.div_add_mod a 1024
  simp only [memoryPages, page, ha] at hk
  exact hk

theorem memoryPages_update {m m' : Bytes} {bno : Nat} {x : Page}
    (hin : page m' (1024 * bno) = x) (hout : ∀ a, a / 1024 ≠ bno → m' a = m a) :
    memoryPages m' = Function.update (memoryPages m) bno x := by
  funext k
  by_cases hk : k = bno
  · rw [hk, Function.update_self]
    exact hin
  · rw [Function.update_of_ne hk]
    funext j
    exact hout _ (by omega)

namespace BlockCache
variable {s : BlockCache} {i j : Fin 16} {b : Block} {bno nblocks type : Nat} {clr : Bool}

/-- A slot counts when its block has been used. -/
def pages (s : BlockCache) : WriteBack (Fin 16) Nat Page where
  slot i := if (s.cache i).used = 0 then none else some ((s.cache i).bno, page (s.cache i).u 0)
  store := memoryPages s.disk

theorem pages_store (s : BlockCache) : s.pages.store = memoryPages s.disk := rfl

theorem pages_slot (h : (s.cache i).used ≠ 0) :
    s.pages.slot i = some ((s.cache i).bno, page (s.cache i).u 0) := if_neg h

theorem slot_eq_some {x : Page} (h : s.pages.slot i = some (bno, x)) :
    (s.cache i).used ≠ 0 ∧ (s.cache i).bno = bno ∧ page (s.cache i).u 0 = x := by
  by_cases hu : (s.cache i).used = 0
  · simp only [pages, if_pos hu] at h
    cases h
  · rw [pages_slot hu] at h
    simp only [Option.some.injEq, Prod.mk.injEq] at h
    exact ⟨hu, h⟩

@[simp] theorem setBlock_self : (s.setBlock i b).cache i = b := by
  unfold setBlock
  exact Function.update_self i b s.cache

theorem setBlock_ne (h : j ≠ i) : (s.setBlock i b).cache j = s.cache j := by
  unfold setBlock
  exact Function.update_of_ne h b s.cache

theorem pages_setBlock (h : b.used ≠ 0) :
    (s.setBlock i b).pages = s.pages.put i (some (b.bno, page b.u 0)) := by
  have hslot : (s.setBlock i b).pages.slot = (s.pages.put i (some (b.bno, page b.u 0))).slot := by
    funext j
    by_cases hj : j = i
    · subst hj
      rw [WriteBack.put_self]
      simp only [pages, setBlock_self, if_neg h]
    · rw [WriteBack.put_ne _ _ hj]
      simp only [pages, setBlock_ne hj]
  exact congrArg (fun slot => WriteBack.mk slot s.pages.store) hslot

theorem flushb_eq (s : BlockCache) (i : Fin 16) : s.flushb i =
    { s with disk := writeBlock s.disk (s.cache i).u (ospfsBlock (s.cache i).bno) } := by
  simp only [flushb, swizzleblock_same, setBlock, Function.update_eq_self]

theorem flushUsed_cache (s : BlockCache) (i : Fin 16) : (s.flushUsed i).cache = s.cache := by
  unfold flushUsed
  split
  · rw [flushb_eq]
  · rfl

theorem flushUsed_t (s : BlockCache) (i : Fin 16) : (s.flushUsed i).t = s.t := by
  unfold flushUsed
  split
  · rw [flushb_eq]
  · rfl

theorem memoryPages_writeBlock (disk u : Bytes) (h : bno < 4194304) :
    memoryPages (writeBlock disk u (ospfsBlock bno)) =
      Function.update (memoryPages disk) bno (page u 0) := by
  rw [ospfsBlock_of_lt h]
  apply memoryPages_update
  · funext k
    have hk : 1024 * bno + k - 1024 * bno = 0 + k := by omega
    show (if _ then _ else _) = _
    rw [if_pos (by omega), hk]
    rfl
  · intro a ha
    exact if_neg (by omega)

theorem pages_flushUsed (h : (s.cache i).bno < 4194304) :
    (s.flushUsed i).pages = s.pages.flush i := by
  unfold flushUsed
  by_cases hu : (s.cache i).used = 0
  · rw [if_neg (not_not_intro hu), WriteBack.flush, show s.pages.slot i = none from if_pos hu]
  · rw [if_pos hu, flushb_eq, WriteBack.flush, pages_slot hu]
    exact congrArg (WriteBack.mk s.pages.slot) (memoryPages_writeBlock s.disk _ h)

section Scan
variable {rest : List (Fin 16)} {least : Option (Fin 16)}

theorem scan_hit (h : s.scan bno rest least = .hit i) : (s.cache i).bno = bno := by
  induction rest generalizing least with
  | nil => cases h
  | cons k rest ih =>
    rw [scan] at h
    split at h
    · next hk =>
      cases h
      exact hk
    · split at h
      · exact ih h
      · exact ih h

theorem scan_miss (hleast : ∀ k, least = some k → (s.cache k).busy = 0)
    (h : s.scan bno rest least = .miss (some i)) :
    (s.cache i).busy = 0 ∧ ∀ k, k ∈ rest → (s.cache k).bno ≠ bno := by
  induction rest generalizing least with
  | nil =>
    rw [scan, Scan.miss.injEq] at h
    exact ⟨hleast i h, fun k hk => absurd hk List.not_mem_nil⟩
  | cons k rest ih =>
    rw [scan] at h
    split at h
    · cases h
    · next hk =>
      have hboth : (s.cache i).busy = 0 ∧ ∀ k, k ∈ rest → (s.cache k).bno ≠ bno := by
        split at h
        · next hfree =>
          refine ih (fun k' hk' => ?_) h
          cases hk'
          exact hfree.1
        · exact ih hleast h
      refine ⟨hboth.1, fun k' hk' => ?_⟩
      rcases List.mem_cons.mp hk' with rfl | hmem
      · exact hk
      · exact hboth.2 k' hmem

end Scan

end BlockCache

end CS111.Ospfs
