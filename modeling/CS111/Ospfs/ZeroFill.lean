import Mathlib.Tactic.IntervalCases
import CS111.Lib.Run
import CS111.Ospfs.FileBytes

/-!
# What a growing file exposes

A run of writes and size changes on one file, and what a reader finds at the offsets that nothing has
been stored at since the size was last at or below them.
-/

namespace CS111.Ospfs

open Memory

set_option autoImplicit false

inductive FileOp where
  | write (append : Bool) (buffer : Nat → Option UInt8) (count fpos : Nat)
  | resize (attr : Iattr)

/-- The volume, and the offsets without a store since the size was last at or below them. -/
structure Tracked where
  fs : State
  unwritten : Nat → Prop

def Tracked.size (t : Tracked) (ino : Nat) : Nat := oiSize t.fs.data (inodeAddr ino)

def track (s : State) (ino : Nat) : Tracked := ⟨s, fun x => oiSize s.data (inodeAddr ino) ≤ x⟩

/-- Where a write begins: `O_APPEND` moves the position, unless the crash has happened. -/
def writeStart (s : State) (ino : Nat) (append : Bool) (fpos : Nat) : Nat :=
  if append = true ∧ s.nwritesToCrash ≠ 0 then oiSize s.data (inodeAddr ino) else fpos

/-- The size for which an operation calls `change_size`. -/
def sizeRequest (s : State) (ino : Nat) : FileOp → Option Nat
  | .write append _ count fpos =>
    let start := writeStart s ino append fpos
    if s.nwritesToCrash ≠ 0 ∧ start + count > oiSize s.data (inodeAddr ino) then
      some (u32 (start + count))
    else none
  | .resize attr => attr.size.map u32

/-- One operation that returns, with all copies from user space succeeding. -/
inductive FileStep (ino : Nat) : Tracked → FileOp → Tracked → Prop
  | write {t : Tracked} {fs' : State} {append : Bool} {buffer : Nat → Option UInt8}
      {count fpos fpos' fuel : Nat} {ret : Int} (hcopy : ∀ k, k < count → (buffer k).isSome)
      (hcount : count < 4294967296)
      (hret : ospfsWrite fuel t.fs ino append buffer count fpos = some (fs', fpos', ret)) :
      FileStep ino t (.write append buffer count fpos)
        ⟨fs', fun x => oiSize fs'.data (inodeAddr ino) ≤ x ∨
          t.unwritten x ∧ ¬ StoredAt (writeStart t.fs ino append fpos) fpos' x⟩
  | resize {t : Tracked} {fs' : State} {attr : Iattr} {fuel : Nat} {ret : Int}
      (hret : ospfsNotifyChange fuel t.fs ino attr = some (fs', ret)) :
      FileStep ino t (.resize attr)
        ⟨fs', fun x => oiSize fs'.data (inodeAddr ino) ≤ x ∨ t.unwritten x⟩

/-- The file stays within `OSPFS_NDIRECT + OSPFS_NINDIRECT` blocks. -/
def StaysSmall (ino : Nat) (t : Tracked) (op : FileOp) : Prop :=
  ∀ sz, sizeRequest t.fs ino op = some sz → sz ≤ 272384

def SmallStep (ino : Nat) (t : Tracked) (op : FileOp) (t' : Tracked) : Prop :=
  FileStep ino t op t' ∧ StaysSmall ino t op

/-- A regular file of a sound volume, with no block missing and nothing but zeros in its last
block after its end. -/
structure FileStart (g : Geometry) (ino : Nat) (s : State) : Prop where
  sound : Sound g s.data
  exists_ino : ino < g.ninodes
  regular : oiFtype s.data (inodeAddr ino) = FTYPE_REG
  small : oiSize s.data (inodeAddr ino) ≤ 272384
  complete : Complete g s.data ino
  tail : ∀ x, oiSize s.data (inodeAddr ino) ≤ x → x / 1024 < fileBlocks s.data ino →
    fileByte g s.data ino x = 0

/-- `ospfs_read` returns 0 for every byte of the file that was not stored. -/
def ReadsZero (ino : Nat) (t : Tracked) : Prop :=
  ∀ x p count, x < t.size ino → t.unwritten x → p ≤ x → x < p + count →
    ∃ r, ospfsRead t.fs.data ino count p (fun _ => true) = some r ∧ r.bytes[x - p]? = some 0

/-- No request ends the file inside a block that holds a nonzero byte between the new end and
the old one. -/
def CutsZeros (g : Geometry) (ino : Nat) (t : Tracked) (op : FileOp) : Prop :=
  ∀ sz, sizeRequest t.fs ino op = some sz → sz % 1024 ≠ 0 →
    ∀ x, sz ≤ x → x < t.size ino → x / 1024 = sz / 1024 → fileByte g t.fs.data ino x = 0

variable {g : Geometry} {ino fuel : Nat} {t t' : Tracked} {s : State} {op : FileOp} {m m' : Bytes}

/-- What every step with `CutsZeros` keeps. -/
structure ZeroFilled (g : Geometry) (ino : Nat) (m : Bytes) (unwritten : Nat → Prop) : Prop where
  sound : Sound g m
  exists_ino : ino < g.ninodes
  regular : oiFtype m (inodeAddr ino) = FTYPE_REG
  small : oiSize m (inodeAddr ino) ≤ 272384
  complete : Complete g m ino
  past : ∀ x, oiSize m (inodeAddr ino) ≤ x → unwritten x
  zero : ∀ x, x / 1024 < fileBlocks m ino → unwritten x → fileByte g m ino x = 0

theorem FileStart.zeroFilled (h : FileStart g ino s) :
    ZeroFilled g ino s.data (track s ino).unwritten := by
  constructor
  · exact h.sound
  · exact h.exists_ino
  · exact h.regular
  · exact h.small
  · exact h.complete
  · exact fun x hx => hx
  · exact fun x hb hx => h.tail x hx hb

namespace ZeroFilled
variable {unwritten : Nat → Prop} (h : ZeroFilled g ino m unwritten)
include h

theorem hasBlocks : HasBlocks g m ino := ⟨h.exists_ino, by rw [h.regular]; decide⟩

theorem size_le : oiSize m (inodeAddr ino) ≤ maxFileSize := by
  have := h.small
  unfold maxFileSize
  omega

theorem blocks_eq : fileBlocks m ino = (oiSize m (inodeAddr ino) + 1023) / 1024 :=
  fileBlocks_of_size h.size_le

theorem changeSize {sz : Nat} {r : Int} (hsz : sz ≤ 272384)
    (hcut : sz % 1024 ≠ 0 → ∀ x, sz ≤ x → x < oiSize m (inodeAddr ino) → x / 1024 = sz / 1024 →
      fileByte g m ino x = 0)
    (hret : changeSize fuel m (inodeAddr ino) sz = some (m', r)) :
    r = 0 ∧ oiSize m' (inodeAddr ino) = sz ∧
      ZeroFilled g ino m' (fun x => sz ≤ x ∨ unwritten x) := by
  have hsmall := h.small
  have hblocks := h.blocks_eq
  have hnew : size2nblocks sz = (sz + 1023) / 1024 := size2nblocks_of_lt (by omega)
  obtain ⟨hr, hch⟩ := changeSize_complete h.sound h.hasBlocks (by omega) h.complete
    (by omega) (by omega) hret
  have hblocks' : fileBlocks m' ino = size2nblocks sz := by rw [fileBlocks, hch.size]
  refine ⟨hr, hch.size, ?_⟩
  constructor
  · exact hch.change.sound
  · exact h.exists_ino
  · rw [hch.change.ftype h.exists_ino, h.regular]
  · rw [hch.size]
    exact hsz
  · exact hch.complete h.complete
  · intro x hx
    rw [hch.size] at hx
    exact .inl hx
  · intro x hb hun
    rw [hblocks'] at hb
    by_cases hold : x / 1024 < fileBlocks m ino
    · -- a block that both sizes cover
      have hkept : FirstSlots (min (fileBlocks m ino) (size2nblocks sz)) (dataSlot (x / 1024)) :=
        ⟨x / 1024, by omega, rfl⟩
      have hown := hch.keep.own_eq _ hkept (dataSlot_isIndex _)
      have hne := h.complete _ hold
      have hbyte : fileByte g m' ino x = fileByte g m ino x := by
        unfold fileByte
        rw [hown]
        exact hch.keep.data _ hkept (dataSlot_isIndex _) hne _ (by omega)
      rw [hbyte]
      by_cases hw : unwritten x
      · exact h.zero x hold hw
      · have hlt : x < oiSize m (inodeAddr ino) := by
          by_contra hge
          exact hw (h.past x (by omega))
        have hge : sz ≤ x := hun.resolve_right hw
        exact hcut (by omega) x hge hlt (by omega)
    · obtain ⟨_, hz⟩ := hch.fresh (x / 1024) (by omega) hb
      exact hz _ (by omega)

theorem setMode (mode : Nat) : ZeroFilled g ino (setMode m (inodeAddr ino) mode) unwritten := by
  have hlt := h.exists_ino
  have hr := g.inode_region hlt
  have hfield : ∀ a, a < inodeAddr ino + 12 ∨ inodeAddr ino + 16 ≤ a →
      Ospfs.setMode m (inodeAddr ino) mode a = m a := fun a ha => wr32_outside (by omega)
  have hown : own g (Ospfs.setMode m (inodeAddr ino) mode) = own g m :=
    own_setField h.sound hlt (.inr (.inr rfl)) mode
  have hsize : oiSize (Ospfs.setMode m (inodeAddr ino) mode) (inodeAddr ino) =
      oiSize m (inodeAddr ino) := rd32_congr fun k hk => hfield _ (by omega)
  have hblocks : fileBlocks (Ospfs.setMode m (inodeAddr ino) mode) ino = fileBlocks m ino := by
    rw [fileBlocks, hsize, fileBlocks]
  constructor
  · exact h.sound.setField hlt (.inr (.inr rfl)) mode
  · exact hlt
  · rw [← h.regular]
    exact rd32_congr fun k hk => hfield _ (by omega)
  · rw [hsize]
    exact h.small
  · intro k hk
    rw [hown]
    exact h.complete k (hblocks ▸ hk)
  · intro x hx
    exact h.past x (hsize ▸ hx)
  · intro x hb hun
    rw [hblocks] at hb
    have hne := h.complete _ hb
    have hbd := own_bounds h.sound.owns (inUse_dataBlocks g m) hne
    rw [← h.zero x hb hun]
    unfold fileByte
    rw [hown]
    exact hfield _ (by omega)

/-- A write whose stores lie below the end of the file. -/
theorem written {p left : Nat} {r : WriteResult} (hw : Written g ino m p left r)
    (hinside : ∀ x, StoredAt p r.fpos x → x < oiSize m (inodeAddr ino)) :
    ZeroFilled g ino r.data (fun x => oiSize r.data (inodeAddr ino) ≤ x ∨
      unwritten x ∧ ¬ StoredAt p r.fpos x) := by
  have hlt := h.exists_ino
  have hsize : oiSize r.data (inodeAddr ino) = oiSize m (inodeAddr ino) :=
    rd32_congr fun k hk => hw.inodes ino k hlt (by omega)
  have hblocks : fileBlocks r.data ino = fileBlocks m ino := by rw [fileBlocks, hsize, fileBlocks]
  constructor
  · exact hw.sound
  · exact hlt
  · rw [← h.regular]
    apply rd32_congr
    intro k hk
    rw [Nat.add_assoc]
    exact hw.inodes ino _ hlt (by omega)
  · rw [hsize]
    exact h.small
  · intro k hk
    rw [hw.own_eq]
    exact h.complete k (hblocks ▸ hk)
  · exact fun x hx => .inl hx
  · intro x hb hun
    rw [hblocks] at hb
    have hst : ¬ StoredAt p r.fpos x := by
      rcases hun with hge | ⟨_, hst⟩
      · intro hst
        have := hinside x hst
        omega
      · exact hst
    rw [hw.bytes x hb hst]
    apply h.zero x hb
    rcases hun with hge | ⟨hun, _⟩
    · exact h.past x (hsize ▸ hge)
    · exact hun

end ZeroFilled

theorem zeroFilled_resize {unwritten : Nat → Prop} {attr : Iattr} {fs' : State} {ret : Int}
    (h : ZeroFilled g ino s.data unwritten) (hsmall : ∀ sz, attr.size.map u32 = some sz → sz ≤ 272384)
    (hcut : ∀ sz, attr.size.map u32 = some sz → sz % 1024 ≠ 0 → ∀ x, sz ≤ x →
      x < oiSize s.data (inodeAddr ino) → x / 1024 = sz / 1024 → fileByte g s.data ino x = 0)
    (hret : ospfsNotifyChange fuel s ino attr = some (fs', ret)) :
    ZeroFilled g ino fs'.data (fun x => oiSize fs'.data (inodeAddr ino) ≤ x ∨ unwritten x) := by
  have weaken : ∀ {m : Bytes} {u : Nat → Prop}, ZeroFilled g ino m u →
      (∀ x, oiSize m (inodeAddr ino) ≤ x ∨ unwritten x → u x) →
      ZeroFilled g ino m (fun x => oiSize m (inodeAddr ino) ≤ x ∨ unwritten x) := fun hz hu =>
    ⟨hz.sound, hz.exists_ino, hz.regular, hz.small, hz.complete, fun x hx => .inl hx,
      fun x hb hx => hz.zero x hb (hu x hx)⟩
  have finish : ∀ {m m' : Bytes} {u : Nat → Prop}, ZeroFilled g ino m u →
      (attr.mode = none → m' = m) →
      (∀ mode, attr.mode = some mode → m' = setMode m (inodeAddr ino) mode) →
      ZeroFilled g ino m' u := by
    intro m m' u hz hnone hsome
    cases hmode : attr.mode with
    | none => exact hnone hmode ▸ hz
    | some mode => exact hsome mode hmode ▸ hz.setMode mode
  unfold ospfsNotifyChange at hret
  rw [h.sound.inode h.exists_ino] at hret
  cases hsize : attr.size with
  | none =>
    simp only [hsize, Option.some.injEq, Prod.mk.injEq] at hret
    obtain ⟨hfs, -⟩ := hret
    have hz : ZeroFilled g ino fs'.data unwritten := by
      apply finish h
      · intro hmode
        simp only [← hfs, hmode]
      · intro mode hmode
        simp only [← hfs, hmode]
    exact weaken hz fun x hx => hx.elim (hz.past x) id
  | some size =>
    have hdir : oiFtype s.data (inodeAddr ino) ≠ FTYPE_DIR := by
      rw [h.regular]
      decide
    have hreq : attr.size.map u32 = some (u32 size) := by rw [hsize]; rfl
    simp only [hsize, if_neg hdir] at hret
    cases hch : changeSize fuel s.data (inodeAddr ino) (u32 size) with
    | none => rw [hch] at hret; exact absurd hret (by simp)
    | some r =>
      obtain ⟨m₁, r⟩ := r
      obtain ⟨rfl, hsz, hz⟩ := h.changeSize (hsmall _ hreq) (hcut _ hreq) hch
      simp only [hch, Int.lt_irrefl, if_false, Option.some.injEq, Prod.mk.injEq] at hret
      obtain ⟨hfs, -⟩ := hret
      have hz' : ZeroFilled g ino fs'.data (fun x => u32 size ≤ x ∨ unwritten x) := by
        apply finish hz
        · intro hmode
          simp only [← hfs, hmode]
        · intro mode hmode
          simp only [← hfs, hmode]
      apply weaken hz'
      intro x hx
      exact hx.elim (hz'.past x) .inr

theorem zeroFilled_write {unwritten : Nat → Prop} {append : Bool} {buffer : Nat → Option UInt8}
    {count fpos fpos' : Nat} {fs' : State} {ret : Int} (h : ZeroFilled g ino s.data unwritten)
    (hcopy : ∀ k, k < count → (buffer k).isSome) (hcount : count < 4294967296)
    (hsmall : ∀ sz, sizeRequest s ino (.write append buffer count fpos) = some sz → sz ≤ 272384)
    (hcut : ∀ sz, sizeRequest s ino (.write append buffer count fpos) = some sz → sz % 1024 ≠ 0 →
      ∀ x, sz ≤ x → x < oiSize s.data (inodeAddr ino) → x / 1024 = sz / 1024 →
        fileByte g s.data ino x = 0)
    (hret : ospfsWrite fuel s ino append buffer count fpos = some (fs', fpos', ret)) :
    ZeroFilled g ino fs'.data (fun x => oiSize fs'.data (inodeAddr ino) ≤ x ∨
      unwritten x ∧ ¬ StoredAt (writeStart s ino append fpos) fpos' x) := by
  unfold ospfsWrite at hret
  by_cases h0 : s.nwritesToCrash = 0
  · -- the crash has happened: nothing is stored, and the position stays
    have htick : s.tick = none := if_pos h0
    simp only [htick, Option.some.injEq, Prod.mk.injEq] at hret
    obtain ⟨rfl, rfl, -⟩ := hret
    have hstart : writeStart s ino append fpos = fpos := if_neg fun hc => hc.2 h0
    constructor
    · exact h.sound
    · exact h.exists_ino
    · exact h.regular
    · exact h.small
    · exact h.complete
    · exact fun x hx => .inl hx
    · exact fun x hb hx => h.zero x hb (hx.elim (h.past x) And.left)
  obtain ⟨s', htick, hdata⟩ : ∃ s', s.tick = some s' ∧ s'.data = s.data := by
    unfold State.tick
    rw [if_neg h0]
    split
    · exact ⟨_, rfl, rfl⟩
    · exact ⟨_, rfl, rfl⟩
  have hstart : writeStart s ino append fpos =
      (if append then oiSize s.data (inodeAddr ino) else fpos) := by
    unfold writeStart
    by_cases ha : append = true
    · rw [if_pos ⟨ha, h0⟩, if_pos ha]
    · rw [if_neg (fun hc => ha hc.1), if_neg ha]
  simp only [htick, hdata, h.sound.inode h.exists_ino] at hret
  cases hwf : writeFile fuel s.data (inodeAddr ino) append buffer count fpos with
  | none => rw [hwf] at hret; exact absurd hret (by simp)
  | some r =>
    simp only [hwf, Option.some.injEq, Prod.mk.injEq] at hret
    obtain ⟨rfl, rfl, -⟩ := hret
    unfold writeFile at hwf
    simp only [sizeRequest] at hsmall hcut
    rw [← hstart] at hwf
    generalize writeStart s ino append fpos = p at hwf hsmall hcut
    by_cases hgrow : p + count > oiSize s.data (inodeAddr ino)
    · simp only [if_pos hgrow] at hwf
      simp only [ne_eq, h0, not_false_eq_true, hgrow, and_self, if_true, Option.some.injEq,
        forall_eq'] at hsmall hcut
      cases hch : changeSize fuel s.data (inodeAddr ino) (u32 (p + count)) with
      | none => rw [hch] at hwf; exact absurd hwf (by simp)
      | some r₁ =>
        obtain ⟨m₁, r₁⟩ := r₁
        obtain ⟨rfl, hsz, hz⟩ := h.changeSize hsmall hcut hch
        simp only [hch, Int.lt_irrefl, if_false, Option.some.injEq] at hwf
        have hw := writeLoop_written (p := p) count 0 hz.sound hz.hasBlocks
          hz.complete hz.size_le hcopy
        rw [hwf, Nat.sub_zero] at hw
        have hinside : ∀ x, StoredAt p r.fpos x → x < oiSize m₁ (inodeAddr ino) := by
          rintro x ⟨k, hk, rfl⟩
          have hb := hw.bound
          have hf := hw.first (by omega)
          rw [hsz] at hf ⊢
          unfold u32 at *
          omega
        have hz' := hz.written hw hinside
        have hsize' : oiSize r.data (inodeAddr ino) = u32 (p + count) := by
          rw [← hsz]
          exact rd32_congr fun k hk => hw.inodes ino k h.exists_ino (by omega)
        constructor
        · exact hz'.sound
        · exact hz'.exists_ino
        · exact hz'.regular
        · exact hz'.small
        · exact hz'.complete
        · exact fun x hx => .inl hx
        · intro x hb hx
          apply hz'.zero x hb
          rcases hx with hx | ⟨h1, h2⟩
          · exact .inl hx
          · exact .inr ⟨.inr h1, h2⟩
    · simp only [if_neg hgrow, Option.some.injEq] at hwf
      have hw := writeLoop_written (p := p) count 0 h.sound h.hasBlocks
        h.complete h.size_le hcopy
      rw [hwf, Nat.sub_zero] at hw
      apply h.written hw
      rintro x ⟨k, hk, rfl⟩
      have hb := hw.bound
      have hsm := h.small
      unfold u32
      omega

theorem zeroFilled_step (h : ZeroFilled g ino t.fs.data t.unwritten) (hstep : SmallStep ino t op t')
    (hcut : CutsZeros g ino t op) : ZeroFilled g ino t'.fs.data t'.unwritten := by
  obtain ⟨hstep, hsmall⟩ := hstep
  cases hstep with
  | write hcopy hcount hret => exact zeroFilled_write h hcopy hcount hsmall hcut hret
  | resize hret => exact zeroFilled_resize h hsmall hcut hret

theorem ZeroFilled.readsZero (h : ZeroFilled g ino t.fs.data t.unwritten) : ReadsZero ino t := by
  intro x p count hx hun hp hcount
  have hblocks := h.blocks_eq
  unfold Tracked.size at hx
  refine ⟨_, ospfsRead_eq h.sound h.hasBlocks h.complete h.size_le (by omega), ?_⟩
  rw [fileBytes_getElem? (by omega), show p + (x - p) = x by omega, h.zero x (by omega) hun]

/-- In a run in which no request cuts off a nonzero byte inside a block that stays, everything
that was not stored reads as zero. -/
theorem growing_exposes_zeros {ops : List FileOp} (hstart : FileStart g ino s)
    (hrun : Run (fun t op t' => SmallStep ino t op t' ∧ CutsZeros g ino t op) (track s ino) ops t) :
    ReadsZero ino t := by
  apply ZeroFilled.readsZero (g := g)
  exact hrun.invariant (P := fun t => ZeroFilled g ino t.fs.data t.unwritten)
    (fun h hstep => zeroFilled_step h hstep.1 hstep.2) hstart.zeroFilled

section Example

theorem changeSize_same {i newSize : Nat} (h : size2nblocks newSize = fileBlocks m i) :
    changeSize 1 m (inodeAddr i) newSize = some (setSize m (inodeAddr i) newSize, 0) := by
  have hadd : addBlocks (inodeAddr i) (oiSize m (inodeAddr i)) newSize 1 m = some (m, 0) := by
    rw [addBlocks]
    exact if_neg (by rw [h, fileBlocks]; omega)
  have hrem : removeBlocks (inodeAddr i) (size2nblocks newSize) 1 m = some (m, 0) := by
    rw [removeBlocks]
    exact if_neg (by rw [h, fileBlocks]; omega)
  simp only [changeSize, hadd, hrem, Int.lt_irrefl, if_false]

def tinyGeometry : Geometry := ⟨5, 3, by decide, by decide, by decide⟩

/-- Five blocks, three inodes; block 4 is free. -/
def tinyDisk : Bytes := wr32 (wr32 (wr32 (wr32 (fun _ => 0) 1028 5) 1032 3) 1036 3) 2048 16

theorem tinyDisk_high {a : Nat} (h : 2052 ≤ a) : tinyDisk a = 0 := by
  unfold tinyDisk
  repeat rw [wr32_outside (by omega)]

theorem tinyDisk_sound : Sound tinyGeometry tinyDisk := by
  have hword : rd32 tinyDisk 2048 = 16 := rd32_wr32_of_lt _ _ (by decide)
  apply Sound.blank
  · unfold osNblocks tinyDisk
    rw [rd32_wr32_ne (by decide), rd32_wr32_ne (by decide), rd32_wr32_ne (by decide)]
    exact rd32_wr32_of_lt _ _ (by decide)
  · unfold osNinodes tinyDisk
    rw [rd32_wr32_ne (by decide), rd32_wr32_ne (by decide)]
    exact rd32_wr32_of_lt _ _ (by decide)
  · unfold osFirstinob tinyDisk
    rw [rd32_wr32_ne (by decide)]
    exact rd32_wr32_of_lt _ _ (by decide)
  · intro a ha
    unfold tinyDisk
    repeat rw [wr32_outside (by omega)]
  · intro b hb
    have hb4 : b < 4 := hb
    unfold isFree
    rw [bitvectorTest_eq, freemap, show b / 32 = 0 by omega, hword]
    interval_cases b <;> rfl
  · intro i k hi _
    exact tinyDisk_high (by unfold inodeAddr; omega)

theorem tinyDisk_fresh : Fresh tinyGeometry tinyDisk 4 := by
  have hword : rd32 tinyDisk 2048 = 16 := rd32_wr32_of_lt _ _ (by decide)
  refine ⟨by decide, by decide, ?_⟩
  unfold isFree
  rw [bitvectorTest_eq]
  change (rd32 tinyDisk 2048).testBit 4 = true
  rw [hword]
  rfl

/-- Inode 2 gets block 4 and 1000 bytes, all zero but for an `A` at offset 500. -/
def tinyFile : Bytes :=
  store (setSize (linkBlock tinyDisk (2, dataSlot 0) 4) (inodeAddr 2) 1000) 4596 [65]

theorem tinyFile_start (n : Int) : FileStart tinyGeometry 2 ⟨tinyFile, n⟩ ∧
    oiSize tinyFile (inodeAddr 2) = 1000 ∧
    ∀ x, x < 1024 → fileByte tinyGeometry tinyFile 2 x = if x = 500 then 65 else 0 := by
  have hx : HasBlocks tinyGeometry tinyDisk 2 := by
    refine ⟨by decide, ?_⟩
    have h0 : oiFtype tinyDisk (inodeAddr 2) = 0 :=
      rd32_eq_zero fun k _ => tinyDisk_high (by unfold inodeAddr; omega)
    rw [h0]
    decide
  have hp : ∀ p, (dataSlot 0).parent = some p → own tinyGeometry tinyDisk (2, p) ≠ 0 :=
    root_parent rfl
  have hc := linkBlock_change tinyDisk_sound tinyDisk_fresh (x := (2, dataSlot 0)) hx hp
  have hlink : own tinyGeometry (linkBlock tinyDisk (2, dataSlot 0) 4) (2, dataSlot 0) = 4 := by
    rw [own_linkBlock tinyDisk_sound tinyDisk_fresh (x := (2, dataSlot 0)) hx hp, if_pos rfl]
  have hzero := linkBlock_zero tinyDisk_sound tinyDisk_fresh (x := (2, dataSlot 0)) hx hp
  have hset := setSize_change hc.sound hx.1 1000
  have hkeep := setSize_keep hc.sound hx.1 (K := fun _ => True) 1000
  have hown := (hkeep.own_eq (dataSlot 0) trivial (dataSlot_isIndex 0)).trans hlink
  have hsize := @oiSize_setSize (linkBlock tinyDisk (2, dataSlot 0) 4) 1000 (inodeAddr 2) (by decide)
  have hout : ∀ a, a / 1024 ≠ own tinyGeometry (setSize (linkBlock tinyDisk (2, dataSlot 0) 4)
      (inodeAddr 2) 1000) (2, dataSlot 0) → tinyFile a =
        setSize (linkBlock tinyDisk (2, dataSlot 0) 4) (inodeAddr 2) 1000 a := by
    intro a ha
    rw [hown] at ha
    exact store_outside (by simp only [List.length_singleton]; omega)
  have hne : own tinyGeometry (setSize (linkBlock tinyDisk (2, dataSlot 0) 4) (inodeAddr 2) 1000)
      (2, dataSlot 0) ≠ 0 := by rw [hown]; decide
  have hown' := own_writeBlock hset.sound (y := (2, dataSlot 0)) (dataSlot_isIndex 0) hne hout
  have hinode : ∀ k, k < 64 → tinyFile (inodeAddr 2 + k) =
      setSize (linkBlock tinyDisk (2, dataSlot 0) 4) (inodeAddr 2) 1000 (inodeAddr 2 + k) :=
    fun k hk => writeBlock_inode hset.sound (y := (2, dataSlot 0)) hne hout (by decide) hk
  have hsize' : oiSize tinyFile (inodeAddr 2) = 1000 := by
    rw [← hsize]
    exact rd32_congr fun k hk => hinode k (by omega)
  have hblocks : fileBlocks tinyFile 2 = 1 := by rw [fileBlocks, hsize']; rfl
  have hbyte : ∀ x, x < 1024 → fileByte tinyGeometry tinyFile 2 x = if x = 500 then 65 else 0 := by
    intro x hx
    unfold fileByte
    rw [show x / 1024 = 0 by omega, show x % 1024 = x by omega, hown', hown]
    by_cases h500 : x = 500
    · rw [h500, if_pos rfl]
      exact store_inside (a := 4596) (k := 0) (by simp)
    · rw [if_neg h500]
      have h3 : tinyFile (1024 * 4 + x) =
          setSize (linkBlock tinyDisk (2, dataSlot 0) 4) (inodeAddr 2) 1000 (1024 * 4 + x) :=
        store_outside (by simp only [List.length_singleton]; omega)
      have h4 := hkeep.data (dataSlot 0) trivial (dataSlot_isIndex 0) (by rw [hlink]; decide)
        (1024 * 4 + x) (by rw [hlink]; omega)
      rw [h3, h4]
      exact hzero _ (by omega)
  refine ⟨?_, hsize', hbyte⟩
  constructor
  · exact hset.sound.writeBlock (y := (2, dataSlot 0)) (dataSlot_isIndex 0) hne hout
  · decide
  · have hft : oiFtype tinyFile (inodeAddr 2) = oiFtype tinyDisk (inodeAddr 2) := by
      rw [← hc.ftype (by decide), ← hset.ftype (by decide)]
      apply rd32_congr
      intro k hk
      rw [Nat.add_assoc]
      exact hinode _ (by omega)
    rw [hft]
    exact rd32_eq_zero fun k _ => tinyDisk_high (by unfold inodeAddr; omega)
  · rw [hsize']
    decide
  · intro k hk
    rw [hblocks] at hk
    rw [show k = 0 by omega, hown', hown]
    decide
  · intro x h1 h2
    rw [hsize'] at h1
    rw [hblocks] at h2
    rw [hbyte x (by omega), if_neg (by omega)]

def shrinkTo (size : Nat) : FileOp := .resize ⟨some size, none, 0, 0⟩

/-- A size change inside one block. -/
theorem resize_step {newSize : Nat} (hs : Sound g t.fs.data) (hi : ino < g.ninodes)
    (hreg : oiFtype t.fs.data (inodeAddr ino) = FTYPE_REG) (hlt : newSize < 4294967296)
    (hsame : size2nblocks newSize = fileBlocks t.fs.data ino) :
    FileStep ino t (shrinkTo newSize)
      ⟨{ t.fs with data := setSize t.fs.data (inodeAddr ino) newSize },
        fun x => oiSize (setSize t.fs.data (inodeAddr ino) newSize) (inodeAddr ino) ≤ x ∨
          t.unwritten x⟩ := by
  have hdir : oiFtype t.fs.data (inodeAddr ino) ≠ FTYPE_DIR := by
    rw [hreg]
    decide
  apply @FileStep.resize _ t { t.fs with data := setSize t.fs.data (inodeAddr ino) newSize } _ 1 0
  simp only [ospfsNotifyChange, hs.inode hi, if_neg hdir, u32_of_lt hlt, changeSize_same hsame,
    Int.lt_irrefl, if_false]

/-- The file cut to `newSize` bytes and extended to 1000 bytes again. -/
def regrown (newSize : Nat) : Tracked :=
  let m := setSize tinyFile (inodeAddr 2) newSize
  let m' := setSize m (inodeAddr 2) 1000
  ⟨⟨m', -1⟩, fun x => oiSize m' (inodeAddr 2) ≤ x ∨
    oiSize m (inodeAddr 2) ≤ x ∨ oiSize tinyFile (inodeAddr 2) ≤ x⟩

theorem regrown_steps (newSize : Nat) (h1 : 0 < newSize) (h2 : newSize ≤ 1000) :
    ∃ t, SmallStep 2 (track ⟨tinyFile, -1⟩ 2) (shrinkTo newSize) t ∧
      SmallStep 2 t (shrinkTo 1000) (regrown newSize) ∧ t.size 2 = newSize := by
  obtain ⟨hstart, hsize, _⟩ := tinyFile_start (-1)
  have hblocks : fileBlocks tinyFile 2 = 1 := by rw [fileBlocks, hsize]; rfl
  have hset := setSize_change hstart.sound hstart.exists_ino newSize
  have hcount : size2nblocks newSize = 1 := by
    rw [size2nblocks_of_lt (by omega)]
    omega
  have hreq : ∀ {sz : Nat} {s : State}, sz ≤ 1000 → ∀ sz',
      sizeRequest s 2 (shrinkTo sz) = some sz' → sz' ≤ 272384 := by
    intro sz s hle sz' h
    simp only [sizeRequest, shrinkTo, Option.map_some, Option.some.injEq] at h
    rw [← h, u32_of_lt (by omega)]
    omega
  have first := resize_step (t := track ⟨tinyFile, -1⟩ 2) hstart.sound hstart.exists_ino
    hstart.regular (by omega) (hcount.trans hblocks.symm)
  refine ⟨_, ⟨first, hreq h2⟩, ⟨?_, hreq (Nat.le_refl _)⟩, oiSize_setSize (by omega)⟩
  apply resize_step (t := ⟨⟨setSize tinyFile (inodeAddr 2) newSize, -1⟩, _⟩) hset.sound
    hstart.exists_ino
  · rw [hset.ftype hstart.exists_ino]
    exact hstart.regular
  · decide
  · rw [fileBlocks, oiSize_setSize (by omega), hcount]
    rfl

/-- A request that does not shrink the file cuts nothing off. -/
theorem cutsZeros_of_le {size : Nat} (hlt : size < 4294967296) (h : t.size ino ≤ size) :
    CutsZeros g ino t (shrinkTo size) := by
  intro sz hsz _ x h1 h2
  simp only [sizeRequest, shrinkTo, Option.map_some, Option.some.injEq, u32_of_lt hlt] at hsz
  omega

end Example

theorem growing_exposes_zeros_cut_at_600 :
    ∃ ops, Run (fun t op t' => SmallStep 2 t op t' ∧ CutsZeros tinyGeometry 2 t op)
      (track ⟨tinyFile, -1⟩ 2) ops (regrown 600) ∧ ReadsZero 2 (regrown 600) := by
  obtain ⟨hstart, hsize, hbyte⟩ := tinyFile_start (-1)
  obtain ⟨t, h1, h2, hcut⟩ := regrown_steps 600 (by decide) (by decide)
  have hcut1 : CutsZeros tinyGeometry 2 (track ⟨tinyFile, -1⟩ 2) (shrinkTo 600) := by
    intro sz hsz _ x h3 h4 _
    have hsz' : sz = 600 := by
      simp only [sizeRequest, shrinkTo, Option.map_some, Option.some.injEq] at hsz
      exact hsz.symm
    have h5 : x < 1000 := hsize ▸ h4
    exact (hbyte x (by omega)).trans (if_neg (by omega))
  have hcut2 : CutsZeros tinyGeometry 2 t (shrinkTo 1000) :=
    cutsZeros_of_le (by decide) (by rw [hcut]; decide)
  have hrun := Run.snoc (Run.single (r := fun t op t' => SmallStep 2 t op t' ∧
    CutsZeros tinyGeometry 2 t op) ⟨h1, hcut1⟩) ⟨h2, hcut2⟩
  exact ⟨_, hrun, growing_exposes_zeros hstart hrun⟩

/-- Cut to 100 bytes and extended again, the file shows its old byte at offset 500. -/
theorem old_byte_reappears :
    ¬ ∀ (g : Geometry) (ino : Nat) (s : State) (ops : List FileOp) (t : Tracked),
      FileStart g ino s → Run (SmallStep ino) (track s ino) ops t → ReadsZero ino t := by
  intro hall
  have hdiv : ∀ b : Nat, (1024 * b + 500) / 1024 = b := fun b => by omega
  obtain ⟨hstart, hsize, hbyte⟩ := tinyFile_start (-1)
  obtain ⟨t, h1, h2, _⟩ := regrown_steps 100 (by decide) (by decide)
  have hzero := hall tinyGeometry 2 _ _ _ hstart (Run.snoc (Run.single h1) h2)
  have hset := setSize_change hstart.sound hstart.exists_ino 100
  have hset' := setSize_change hset.sound hstart.exists_ino 1000
  have hkeep := (setSize_keep hstart.sound hstart.exists_ino (K := fun _ => True) 100).trans
    (setSize_keep hset.sound hstart.exists_ino 1000)
  have hsize' : (regrown 100).size 2 = 1000 := oiSize_setSize (by decide)
  have hcut : oiSize (setSize tinyFile (inodeAddr 2) 100) (inodeAddr 2) = 100 :=
    oiSize_setSize (by decide)
  have hblocks : fileBlocks tinyFile 2 = 1 := by rw [fileBlocks, hsize]; rfl
  have hown' : own tinyGeometry (regrown 100).fs.data (2, dataSlot 0) =
      own tinyGeometry tinyFile (2, dataSlot 0) :=
    hkeep.own_eq (dataSlot 0) trivial (dataSlot_isIndex 0)
  have hne : own tinyGeometry tinyFile (2, dataSlot 0) ≠ 0 := hstart.complete 0 (by
    change 0 < fileBlocks tinyFile 2
    omega)
  have hdata : ∀ a, a / 1024 = own tinyGeometry tinyFile (2, dataSlot 0) →
      (regrown 100).fs.data a = tinyFile a :=
    hkeep.data (dataSlot 0) trivial (dataSlot_isIndex 0) hne
  obtain ⟨r, hr, hr0⟩ := hzero 500 500 1 (by rw [hsize']; decide)
    (.inr (.inl (by rw [hcut]; decide))) (Nat.le_refl _) (by decide)
  have hx : HasBlocks tinyGeometry (regrown 100).fs.data 2 := by
    refine ⟨hstart.exists_ino, ?_⟩
    have hft : oiFtype (regrown 100).fs.data (inodeAddr 2) = oiFtype tinyFile (inodeAddr 2) :=
      (hset'.ftype hstart.exists_ino).trans (hset.ftype hstart.exists_ino)
    rw [hft, hstart.regular]
    decide
  have hcomp : Complete tinyGeometry (regrown 100).fs.data 2 := by
    intro k hk
    have hk1 : fileBlocks (regrown 100).fs.data 2 = 1 := by
      unfold fileBlocks
      exact congrArg size2nblocks hsize'
    rw [show k = 0 by omega]
    rw [hown']
    exact hne
  have hsz : oiSize (regrown 100).fs.data (inodeAddr 2) = 1000 := hsize'
  have hsound : Sound tinyGeometry (regrown 100).fs.data := hset'.sound
  have hread : ospfsRead (regrown 100).fs.data 2 1 500 (fun _ => true) = some _ :=
    ospfsRead_eq hsound hx hcomp (by rw [hsz]; unfold maxFileSize; omega) (by rw [hsz]; omega)
  rw [hread, Option.some.injEq] at hr
  subst hr
  have hmin : min 1 (oiSize (regrown 100).fs.data (inodeAddr 2) - 500) = 1 := by
    rw [hsz]
    rfl
  rw [hmin, fileBytes_getElem? (by decide), Option.some.injEq] at hr0
  have hold : fileByte tinyGeometry (regrown 100).fs.data 2 500 = 65 := by
    rw [← (hbyte 500 (by decide)).trans (if_pos rfl)]
    unfold fileByte
    rw [show 500 / 1024 = 0 from rfl, show 500 % 1024 = 500 from rfl, hown']
    exact hdata _ (hdiv _)
  rw [hold] at hr0
  exact absurd hr0 (by decide)

end CS111.Ospfs
