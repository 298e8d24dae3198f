import CS111.Boot.BootDisk
import CS111.Boot.Loader

/-!
# What the loaders put into the memory

A segment is read in whole sectors, from the one its first byte lies in. So its bytes come to their
addresses when its offset in the file and its address agree modulo the size of a sector.
-/

namespace CS111.Boot

set_option autoImplicit false
set_option maxRecDepth 4096

open Mpos (memcpy memcpy_outside)

variable {image file : List UInt8} {m m' : Mem} {a base va filesz memsz sect : UInt32} {n k fuel : Nat}

section Arithmetic

theorem and_mask (x : Nat) {j : Nat} (hj : j ≤ 32) (hx : x < 4294967296) :
    x &&& (4294967295 - (2 ^ j - 1)) = x / 2 ^ j * 2 ^ j := by
  have hmask : 4294967295 - (2 ^ j - 1) = (2 ^ (32 - j) - 1) <<< j := by
    have hsplit : 2 ^ (32 - j) * 2 ^ j = 4294967296 := by
      rw [← Nat.pow_add, Nat.sub_add_cancel hj]
    have := Nat.two_pow_pos j
    rw [Nat.shiftLeft_eq, Nat.sub_mul, hsplit]
    omega
  rw [hmask, ← Nat.shiftRight_eq_div_pow, ← Nat.shiftLeft_eq]
  apply Nat.eq_of_testBit_eq
  intro i
  rw [Nat.testBit_and, Nat.testBit_shiftLeft, Nat.testBit_shiftLeft, Nat.testBit_two_pow_sub_one,
    Nat.testBit_shiftRight]
  by_cases hi : j ≤ i
  · rw [Nat.add_sub_cancel' hi]
    by_cases hhigh : i < 32
    · have hin : i - j < 32 - j := by omega
      simp [hi, hin]
    · have hzero : x.testBit i = false :=
        Nat.testBit_lt_two_pow (Nat.lt_of_lt_of_le hx
          (Nat.pow_le_pow_right Nat.two_pos (Nat.not_lt.mp hhigh)))
      simp [hzero]
  · simp [hi]

theorem sector_toNat (va : UInt32) : (va &&& ~~~511).toNat = va.toNat / 512 * 512 :=
  and_mask va.toNat (j := 9) (by decide) va.toNat_lt

theorem page_toNat (va : UInt32) : (va &&& ~~~4095).toNat = va.toNat / 4096 * 4096 :=
  and_mask va.toNat (j := 12) (by decide) va.toNat_lt

theorem clear_eq (m : Mem) (a e : UInt32) :
    clear m a e = fun x => if a.toNat ≤ x.toNat ∧ x.toNat < e.toNat then 0 else m x := by
  fun_induction clear m a e with
  | case1 m a h ih =>
    have hlt := UInt32.lt_iff_toNat_lt.mp h
    have hbound := e.toNat_lt
    have hnext : (a + 1).toNat = a.toNat + 1 := by
      rw [UInt32.toNat_add, show (1 : UInt32).toNat = 1 from rfl]
      omega
    rw [ih, hnext]
    funext x
    by_cases hx : x = a
    · rw [hx, if_neg (by omega), if_pos ⟨Nat.le_refl _, hlt⟩, Function.update_self]
    · have hne : x.toNat ≠ a.toNat := fun heq => hx (UInt32.toNat_inj.mp heq)
      rw [Function.update_of_ne hx]
      by_cases hin : a.toNat ≤ x.toNat ∧ x.toNat < e.toNat
      · rw [if_pos (by omega), if_pos hin]
      · rw [if_neg (by omega), if_neg hin]
  | case2 m a h =>
    rw [UInt32.lt_iff_toNat_lt] at h
    funext x
    rw [if_neg (by omega)]

end Arithmetic

section Sectors

/-- `k` sectors of the disk, from an address on. -/
def spread (image : List UInt8) (m : Mem) (va sect k : Nat) : Mem := fun x =>
  if va ≤ x.toNat ∧ x.toNat < va + 512 * k then image.getD (512 * sect + (x.toNat - va)) 0 else m x

theorem lbaOf_ports (h : sect.toNat < 268435456) : lbaOf (ports sect) = sect.toNat := by
  have hor : ∀ x : UInt32, (x ||| 0xE0).toUInt8.toNat % 16 = x.toNat % 16 := by
    intro x
    have hmask : ∀ y : Nat, y % 16 = y &&& 15 := fun y => (Nat.and_two_pow_sub_one_eq_mod y 4).symm
    rw [UInt32.toNat_toUInt8, UInt32.toNat_or, Nat.mod_mod_of_dvd _ (by decide), hmask, hmask,
      Nat.and_or_distrib_right]
    exact Nat.or_zero _
  have hlast := hor (sect >>> 24)
  unfold lbaOf ports
  simp only [List.getD_cons_zero, List.getD_cons_succ, hlast]
  simp only [UInt32.toNat_toUInt8, UInt32.toNat_shiftRight, Nat.shiftRight_eq_div_pow, UInt32.reduceToNat,
    Nat.reduceMod, Nat.reducePow]
  omega

theorem readsect_eq (hva : va.toNat + 512 ≤ 4294967296) (hsect : sect.toNat < 268435456) :
    readsect image m va sect = spread image m va.toNat sect.toNat 1 := by
  funext x
  have hx := x.toNat_lt
  have hsub : (x - va).toNat = (4294967296 - va.toNat + x.toNat) % 4294967296 := UInt32.toNat_sub x va
  unfold readsect spread
  rw [lbaOf_ports hsect]
  by_cases hin : va.toNat ≤ x.toNat ∧ x.toNat < va.toNat + 512 * 1
  · have hdiff : (x - va).toNat = x.toNat - va.toNat := by omega
    rw [if_pos (by omega), if_pos hin, hdiff]
  · rw [if_neg (by omega), if_neg hin]

theorem spread_inside {va sect k : Nat} {x : UInt32} (hlow : va ≤ x.toNat)
    (hhigh : x.toNat < va + 512 * k) :
    spread image m va sect k x = image.getD (512 * sect + (x.toNat - va)) 0 := if_pos ⟨hlow, hhigh⟩

theorem spread_outside {va sect k : Nat} {x : UInt32} (h : x.toNat < va ∨ va + 512 * k ≤ x.toNat) :
    spread image m va sect k x = m x := by
  apply if_neg
  rintro ⟨hlow, hhigh⟩
  omega

theorem spread_spread (image : List UInt8) (m : Mem) (va sect k : Nat) :
    spread image (spread image m va sect 1) (va + 512) (sect + 1) k = spread image m va sect (k + 1) := by
  funext x
  rcases Nat.lt_or_ge x.toNat va with hbefore | hlow
  · rw [spread_outside (.inl (by omega)), spread_outside (.inl hbefore), spread_outside (.inl hbefore)]
  · rcases Nat.lt_or_ge x.toNat (va + 512) with hfirst | hlater
    · rw [spread_outside (.inl hfirst), spread_inside hlow (by omega), spread_inside hlow (by omega)]
    · rcases Nat.lt_or_ge x.toNat (va + 512 + 512 * k) with hinside | hbehind
      · have hpos : 512 * (sect + 1) + (x.toNat - (va + 512)) = 512 * sect + (x.toNat - va) := by omega
        rw [spread_inside hlater hinside, spread_inside hlow (by omega), hpos]
      · rw [spread_outside (.inr hbehind), spread_outside (.inr (by omega)), spread_outside (.inr (by omega))]

theorem readSectors_eq {end_va : UInt32} (hk : k < fuel)
    (hbound : va.toNat + 512 * k < 4294967296) (hsect : sect.toNat + k ≤ 268435456)
    (hlow : end_va.toNat ≤ va.toNat + 512 * k) (hhigh : va.toNat + 512 * k < end_va.toNat + 512) :
    readSectors image fuel m va end_va sect = some (spread image m va.toNat sect.toNat k) := by
  induction k generalizing fuel m va sect with
  | zero =>
    cases fuel with
    | zero => exact absurd hk (Nat.not_lt_zero 0)
    | succ fuel =>
      have hsame : spread image m va.toNat sect.toNat 0 = m := by
        funext x
        exact if_neg (by omega)
      rw [readSectors, if_neg (by rw [UInt32.lt_iff_toNat_lt]; omega), hsame]
  | succ k ih =>
    cases fuel with
    | zero => exact absurd hk (Nat.not_lt_zero _)
    | succ fuel =>
      have hva : (va + 512).toNat = va.toNat + 512 := by
        rw [UInt32.toNat_add, show (512 : UInt32).toNat = 512 from rfl]
        omega
      have hnext : (sect + 1).toNat = sect.toNat + 1 := by
        rw [UInt32.toNat_add, show (1 : UInt32).toNat = 1 from rfl]
        omega
      rw [readSectors, if_pos (by rw [UInt32.lt_iff_toNat_lt]; omega), readsect_eq (by omega) (by omega),
        ih (by omega) (by omega) (by omega) (by omega) (by omega), hva, hnext, spread_spread]

/-- What `readseg` does with the memory. -/
def segmentAt (image : List UInt8) (va filesz memsz sect : Nat) (m : Mem) : Mem := fun x =>
  if va + filesz ≤ x.toNat ∧ x.toNat < va + memsz then 0
  else if va / 512 * 512 ≤ x.toNat ∧ x.toNat < (va + filesz + 511) / 512 * 512 then
    image.getD (512 * sect + (x.toNat - va / 512 * 512)) 0
  else m x

theorem segmentAt_outside {va filesz memsz sect : Nat} {x : UInt32} (hlow : x.toNat < va / 512 * 512 ∨
    (va + filesz + 511) / 512 * 512 ≤ x.toNat) (hhigh : x.toNat < va / 512 * 512 ∨ va + memsz ≤ x.toNat) :
    segmentAt image va filesz memsz sect m x = m x := by
  unfold segmentAt
  rw [if_neg (by omega), if_neg (by omega)]

theorem readseg_eq (hfuel : 8388608 < fuel)
    (hfile : (va.toNat + filesz.toNat + 511) / 512 * 512 < 4294967296)
    (hmem : va.toNat + memsz.toNat < 4294967296) (hsect : sect.toNat + 8388608 ≤ 268435456) :
    readseg image fuel m va filesz memsz sect =
      some (segmentAt image va.toNat filesz.toNat memsz.toNat sect.toNat m) := by
  have hend : (va + filesz).toNat = va.toNat + filesz.toNat := by
    rw [UInt32.toNat_add]
    omega
  have hmemsz : (memsz + va).toNat = va.toNat + memsz.toNat := by
    rw [UInt32.toNat_add]
    omega
  have hread : readSectors image fuel m (va &&& ~~~511) (va + filesz) sect =
      some (spread image m (va &&& ~~~511).toNat sect.toNat
        ((va.toNat + filesz.toNat + 511) / 512 - va.toNat / 512)) :=
    readSectors_eq (by omega) (by rw [sector_toNat]; omega) (by omega)
      (by rw [sector_toNat]; omega) (by rw [sector_toNat]; omega)
  unfold readseg
  simp only
  rw [hread, sector_toNat]
  show some (clear _ _ _) = _
  rw [clear_eq, hend, hmemsz]
  congr 1
  funext x
  have hk : va.toNat / 512 * 512 + 512 * ((va.toNat + filesz.toNat + 511) / 512 - va.toNat / 512) =
      (va.toNat + filesz.toNat + 511) / 512 * 512 := by omega
  unfold spread segmentAt
  rw [hk]

end Sectors

section Files

/-- A file as the memory that has it at address 0. -/
def memOf (file : List UInt8) : Mem := fun a => file.getD a.toNat 0

/-- The first `n` bytes of the file are in the memory. -/
def HoldsFile (m : Mem) (base : UInt32) (file : List UInt8) (n : Nat) : Prop :=
  ∀ i : UInt32, i.toNat < n → m (base + i) = memOf file i

def segments (file : List UInt8) : List Proghdr :=
  (List.range (elfAt (memOf file) 0).phnum.toNat).map fun k =>
    proghdrAt (memOf file) ((elfAt (memOf file) 0).phoff + 32 * UInt32.ofNat k)

theorem HoldsFile.shift (h : HoldsFile m base file n) (a i : UInt32) (hi : (a + i).toNat < n) :
    m (base + a + i) = memOf file (a + i) := by
  rw [UInt32.add_assoc]
  exact h _ hi

theorem add_toNat (a : UInt32) (i : Nat) (h : a.toNat + i < 4294967296) :
    (a + UInt32.ofNat i).toNat = a.toNat + i := by
  rw [UInt32.toNat_add, UInt32.toNat_ofNat']
  omega

theorem rd16_holds (h : HoldsFile m base file n) (ha : a.toNat + 2 ≤ n) (hn : n ≤ 4294967296) :
    rd16 m (base + a) = rd16 (memOf file) a := by
  have hone : (a + 1).toNat = a.toNat + 1 := add_toNat a 1 (by omega)
  unfold rd16
  rw [h a (by omega), h.shift a 1 (by omega)]

theorem rd32_holds (h : HoldsFile m base file n) (ha : a.toNat + 4 ≤ n) (hn : n ≤ 4294967296) :
    rd32 m (base + a) = rd32 (memOf file) a := by
  have hone : (a + 1).toNat = a.toNat + 1 := add_toNat a 1 (by omega)
  have htwo : (a + 2).toNat = a.toNat + 2 := add_toNat a 2 (by omega)
  have hthree : (a + 3).toNat = a.toNat + 3 := add_toNat a 3 (by omega)
  unfold rd32
  rw [h a (by omega), h.shift a 1 (by omega), h.shift a 2 (by omega), h.shift a 3 (by omega)]

theorem elfAt_holds (h : HoldsFile m base file n) (hn : 46 ≤ n) (hn' : n ≤ 4294967296) :
    elfAt m base = elfAt (memOf file) 0 := by
  have hmagic := rd32_holds (a := 0) h (Nat.le_trans (by decide) hn) hn'
  have hentry := rd32_holds (a := 24) h (Nat.le_trans (by decide) hn) hn'
  have hphoff := rd32_holds (a := 28) h (Nat.le_trans (by decide) hn) hn'
  have hphnum := rd16_holds (a := 44) h (Nat.le_trans (by decide) hn) hn'
  rw [UInt32.add_zero] at hmagic
  unfold elfAt
  rw [hmagic, hentry, hphoff, hphnum]
  rfl

theorem proghdrAt_holds (h : HoldsFile m base file n) (ha : a.toNat + 32 ≤ n) (hn : n ≤ 4294967296) :
    proghdrAt m (base + a) = proghdrAt (memOf file) a := by
  have hfield : ∀ i : UInt32, i.toNat ≤ 28 → rd32 m (base + a + i) = rd32 (memOf file) (a + i) := by
    intro i hi
    have hsum : (a + i).toNat = a.toNat + i.toNat := by
      rw [UInt32.toNat_add]
      omega
    rw [UInt32.add_assoc]
    exact rd32_holds h (by omega) hn
  unfold proghdrAt
  rw [rd32_holds h (by omega) hn, hfield 4 (by decide), hfield 8 (by decide), hfield 16 (by decide),
    hfield 20 (by decide)]

end Files

section Segments

variable {body : Mem → Proghdr → Option Mem} {effect : Proghdr → Mem → Mem} {Keep : Mem → Prop}
  {low high : Proghdr → Nat} {Content : Proghdr → Mem → Prop} {segs : List Proghdr} {ph eph : UInt32}

/-- The loop over the program headers. `Keep` says that they are where they were. -/
theorem forSegments_eq (effect : Proghdr → Mem → Mem) (Keep : Mem → Prop) (hfuel : segs.length < fuel)
    (hend : eph.toNat = ph.toNat + 32 * segs.length)
    (hread : ∀ m, Keep m → ∀ k (hk : k < segs.length), proghdrAt m (ph + 32 * UInt32.ofNat k) = segs[k])
    (hbody : ∀ s ∈ segs, ∀ m, Keep m → body m s = some (effect s m) ∧ Keep (effect s m)) (hm : Keep m) :
    forSegments body fuel m ph eph = some (segs.foldl (fun m s => effect s m) m) := by
  have hbound := eph.toNat_lt
  induction segs generalizing fuel m ph with
  | nil =>
    cases fuel with
    | zero => exact absurd hfuel (Nat.not_lt_zero 0)
    | succ fuel =>
      rw [List.length_nil] at hend
      rw [forSegments, if_neg (by rw [UInt32.lt_iff_toNat_lt]; omega), List.foldl_nil]
  | cons s segs ih =>
    cases fuel with
    | zero => exact absurd hfuel (Nat.not_lt_zero _)
    | succ fuel =>
      rw [List.length_cons] at hend hfuel
      have hfirst : proghdrAt m ph = s := by
        have hzero := hread m hm 0 (Nat.succ_pos _)
        rwa [show ph + 32 * UInt32.ofNat 0 = ph from UInt32.add_zero ph] at hzero
      obtain ⟨hs, hkeep⟩ := hbody s List.mem_cons_self m hm
      have hph : (ph + 32).toNat = ph.toNat + 32 := add_toNat ph 32 (by omega)
      rw [forSegments, if_pos (by rw [UInt32.lt_iff_toNat_lt]; omega), hfirst, hs, List.foldl_cons]
      apply ih (Nat.lt_of_succ_lt_succ hfuel) (by omega)
      · intro m hm k hk
        have hnext := hread m hm (k + 1) (Nat.succ_lt_succ hk)
        have hstep : ph + 32 * UInt32.ofNat (k + 1) = ph + 32 + 32 * UInt32.ofNat k := by
          rw [UInt32.ofNat_add]
          grind
        rwa [hstep, List.getElem_cons_succ] at hnext
      · exact fun s hs => hbody s (List.mem_cons_of_mem _ hs)
      · exact hkeep

/-- What is known of the effect of one segment: its content, and that nothing else changes. -/
structure Puts (effect : Proghdr → Mem → Mem) (Keep : Mem → Prop) (low high : Proghdr → Nat)
    (Content : Proghdr → Mem → Prop) (s : Proghdr) : Prop where
  content : ∀ m, Keep m → Content s (effect s m)
  elsewhere : ∀ m (a : UInt32), a.toNat < low s ∨ high s ≤ a.toNat → effect s m a = m a
  stays : ∀ m m', Content s m → (∀ a : UInt32, low s ≤ a.toNat → a.toNat < high s → m' a = m a) →
    Content s m'
  keeps : ∀ m, Keep m → Keep (effect s m)

theorem foldl_elsewhere (hputs : ∀ s ∈ segs, Puts effect Keep low high Content s) {a : UInt32}
    (ha : ∀ s ∈ segs, a.toNat < low s ∨ high s ≤ a.toNat) (m : Mem) :
    segs.foldl (fun m s => effect s m) m a = m a := by
  induction segs generalizing m with
  | nil => rfl
  | cons s segs ih =>
    rw [List.foldl_cons, ih (fun s hs => hputs s (List.mem_cons_of_mem _ hs))
      (fun s hs => ha s (List.mem_cons_of_mem _ hs))]
    exact (hputs s List.mem_cons_self).elsewhere m a (ha s List.mem_cons_self)

theorem foldl_keeps (hputs : ∀ s ∈ segs, Puts effect Keep low high Content s) (hm : Keep m) :
    Keep (segs.foldl (fun m s => effect s m) m) := by
  induction segs generalizing m with
  | nil => exact hm
  | cons s segs ih =>
    exact ih (fun s hs => hputs s (List.mem_cons_of_mem _ hs))
      ((hputs s List.mem_cons_self).keeps m hm)

/-- Segments that lie apart do not disturb each other. -/
theorem foldl_contents (hputs : ∀ s ∈ segs, Puts effect Keep low high Content s)
    (hapart : segs.Pairwise fun s t => high s ≤ low t ∨ high t ≤ low s) (hm : Keep m) {s : Proghdr}
    (hs : s ∈ segs) : Content s (segs.foldl (fun m s => effect s m) m) := by
  induction segs generalizing m with
  | nil => cases hs
  | cons t segs ih =>
    obtain ⟨hfirst, hrest⟩ := List.pairwise_cons.mp hapart
    have hputs' : ∀ s ∈ segs, Puts effect Keep low high Content s :=
      fun s hs => hputs s (List.mem_cons_of_mem _ hs)
    have ht := hputs t List.mem_cons_self
    rcases List.mem_cons.mp hs with rfl | hs
    · apply ht.stays _ _ (ht.content m hm)
      intro a hlow hhigh
      apply foldl_elsewhere hputs'
      intro u hu
      have := hfirst u hu
      omega
    · exact ih hputs' hrest (ht.keeps m hm) hs

end Segments

/-- The segment is in the memory, taken from the file `skew` bytes behind its offset. -/
structure Contains (file : List UInt8) (skew : Nat) (s : Proghdr) (m : Mem) : Prop where
  bytes : ∀ i, i < s.filesz.toNat →
    m (s.va + UInt32.ofNat i) = file.getD (s.offset.toNat + skew + i) 0
  bss : ∀ i, s.filesz.toNat ≤ i → i < s.memsz.toNat → m (s.va + UInt32.ofNat i) = 0

section Boot

/-- The memory that `readseg` may change, in whole sectors. -/
def Proghdr.low (s : Proghdr) : Nat := s.va.toNat / 512 * 512

def Proghdr.high (s : Proghdr) : Nat :=
  max ((s.va.toNat + s.filesz.toNat + 511) / 512 * 512) (s.va.toNat + s.memsz.toNat)

/-- What is asked of the file of a kernel. The program headers are in its first page, which is kept at
`ELFHDR`. -/
structure Bootable (file : List UInt8) : Prop where
  magic : (elfAt (memOf file) 0).magic = elfMagic
  header : 46 ≤ file.length
  headers : (elfAt (memOf file) 0).phoff.toNat + 32 * (elfAt (memOf file) 0).phnum.toNat ≤
    min 4096 file.length
  inside : ∀ s ∈ segments file, s.offset.toNat + s.filesz.toNat ≤ file.length
  aligned : ∀ s ∈ segments file, s.offset.toNat % 512 = s.va.toNat % 512
  fits : ∀ s ∈ segments file, s.high < 4294967296
  apart : (segments file).Pairwise fun s t => s.high ≤ t.low ∨ t.high ≤ s.low
  scratch : ∀ s ∈ segments file, s.high ≤ 0x10000 ∨ 0x11000 ≤ s.low

variable {kernel : List UInt8} {s : Proghdr}

theorem getD_of_prefix {l l' : List UInt8} (h : l <+: l') {i : Nat} (hi : i < l.length) :
    l'.getD i 0 = l.getD i 0 := by
  obtain ⟨rest, rfl⟩ := h
  rw [List.getD_eq_getElem?_getD, List.getD_eq_getElem?_getD, List.getElem?_append_left hi]

/-- The image has the file behind its first sector. -/
theorem image_getD (h : kernel <+: image.drop 512) {i : Nat} (hi : i < kernel.length) :
    image.getD (512 + i) 0 = kernel.getD i 0 := by
  rw [← getD_of_prefix h hi, List.getD_eq_getElem?_getD, List.getD_eq_getElem?_getD, List.getElem?_drop]

/-- The first page of the file, at `ELFHDR`. -/
def KeepsPage (kernel : List UInt8) (m : Mem) : Prop :=
  HoldsFile m elfhdr kernel (min 4096 kernel.length)

theorem first_page (h : kernel <+: image.drop 512) (m : Mem) :
    KeepsPage kernel (segmentAt image 0x10000 4096 4096 1 m) := by
  intro i hi
  have haddr : (elfhdr + i).toNat = 0x10000 + i.toNat := by
    rw [UInt32.toNat_add, show elfhdr.toNat = 0x10000 from rfl]
    omega
  have hoffset : 512 * 1 + (0x10000 + i.toNat - 0x10000 / 512 * 512) = 512 + i.toNat := by omega
  unfold segmentAt
  rw [haddr, if_neg (by omega), if_pos (by omega), hoffset]
  exact image_getD h (by omega)

def bootEffect (image : List UInt8) (s : Proghdr) (m : Mem) : Mem :=
  segmentAt image s.va.toNat s.filesz.toNat s.memsz.toNat (1 + s.offset.toNat / 512) m

theorem boot_elsewhere {a : UInt32} (ha : a.toNat < s.low ∨ s.high ≤ a.toNat) :
    bootEffect image s m a = m a := by
  unfold Proghdr.low Proghdr.high at ha
  exact segmentAt_outside (by omega) (by omega)

theorem boot_puts (hkernel : Bootable kernel) (hs : s ∈ segments kernel)
    (himage : kernel <+: image.drop 512) :
    Puts (bootEffect image) (KeepsPage kernel) Proghdr.low Proghdr.high (Contains kernel 0) s := by
  have hfits := hkernel.fits s hs
  have hinside := hkernel.inside s hs
  have haligned := hkernel.aligned s hs
  have hscratch := hkernel.scratch s hs
  have haddr : ∀ i, i < s.filesz.toNat ∨ i < s.memsz.toNat →
      (s.va + UInt32.ofNat i).toNat = s.va.toNat + i := by
    intro i hi
    unfold Proghdr.high at hfits
    exact add_toNat s.va i (by omega)
  have hrange : ∀ i, i < s.filesz.toNat ∨ i < s.memsz.toNat → s.low ≤ (s.va + UInt32.ofNat i).toNat ∧
      (s.va + UInt32.ofNat i).toNat < s.high := by
    intro i hi
    rw [haddr i hi]
    unfold Proghdr.low Proghdr.high
    omega
  constructor
  · intro m _
    constructor
    · intro i hi
      have hoffset : 512 * (1 + s.offset.toNat / 512) + (s.va.toNat + i - s.va.toNat / 512 * 512) =
          512 + (s.offset.toNat + 0 + i) := by omega
      unfold bootEffect segmentAt
      rw [haddr i (.inl hi), if_neg (by omega), if_pos (by omega), hoffset]
      exact image_getD himage (by omega)
    · intro i hlow hhigh
      unfold bootEffect segmentAt
      rw [haddr i (.inr hhigh), if_pos (by omega)]
  · exact fun m a ha => boot_elsewhere ha
  · intro m m' h hsame
    constructor
    · intro i hi
      rw [hsame _ (hrange i (.inl hi)).1 (hrange i (.inl hi)).2]
      exact h.bytes i hi
    · intro i hlow hhigh
      rw [hsame _ (hrange i (.inr hhigh)).1 (hrange i (.inr hhigh)).2]
      exact h.bss i hlow hhigh
  · intro m hm i hi
    have helf : (elfhdr + i).toNat = 0x10000 + i.toNat := by
      rw [UInt32.toNat_add, show elfhdr.toNat = 0x10000 from rfl]
      omega
    rw [boot_elsewhere (by omega)]
    exact hm i hi

theorem boot_readseg (hkernel : Bootable kernel) (hs : s ∈ segments kernel) (hfuel : 8388608 < fuel)
    (m : Mem) :
    readseg image fuel m s.va s.filesz s.memsz (1 + s.offset / 512) = some (bootEffect image s m) := by
  have hfits := hkernel.fits s hs
  have hoffset := s.offset.toNat_lt
  have hsect : (1 + s.offset / 512).toNat = 1 + s.offset.toNat / 512 := by
    rw [UInt32.toNat_add, UInt32.toNat_div, show (1 : UInt32).toNat = 1 from rfl,
      show (512 : UInt32).toNat = 512 from rfl]
    omega
  unfold Proghdr.high at hfits
  rw [readseg_eq hfuel (by omega) (by omega) (by omega), hsect]
  rfl

theorem eph_toNat {phoff phnum : UInt32} (h : base.toNat + phoff.toNat + 32 * phnum.toNat < 4294967296) :
    (base + phoff + 32 * phnum).toNat = (base + phoff).toNat + 32 * phnum.toNat := by
  simp only [UInt32.toNat_add, UInt32.toNat_mul, UInt32.reduceToNat]
  omega

theorem length_segments (file : List UInt8) :
    (segments file).length = (elfAt (memOf file) 0).phnum.toNat := by
  rw [segments, List.length_map, List.length_range]

theorem segments_read {n : Nat} (h : HoldsFile m base file n) (hn : base.toNat + n ≤ 4294967296)
    (hheaders : (elfAt (memOf file) 0).phoff.toNat + 32 * (elfAt (memOf file) 0).phnum.toNat ≤ n)
    {k : Nat} (hk : k < (segments file).length) :
    proghdrAt m (base + (elfAt (memOf file) 0).phoff + 32 * UInt32.ofNat k) = (segments file)[k] := by
  unfold segments at hk
  rw [List.length_map, List.length_range] at hk
  have haddr : ((elfAt (memOf file) 0).phoff + 32 * UInt32.ofNat k).toNat =
      (elfAt (memOf file) 0).phoff.toNat + 32 * k := by
    rw [UInt32.toNat_add, UInt32.toNat_mul, UInt32.toNat_ofNat', show (32 : UInt32).toNat = 32 from rfl]
    omega
  simp only [segments, List.getElem_map, List.getElem_range]
  rw [UInt32.add_assoc]
  exact proghdrAt_holds h (by omega) (by omega)

theorem boot_disk {boot : List UInt8} {args : List Arg} {writes : List Write}
    (h : mkbootdisk boot (.file kernel :: args) writes = some image) : kernel <+: image.drop 512 := by
  obtain ⟨hboot, hforward, himage⟩ := mkbootdisk_iff.mp ⟨writes, h⟩
  have hprefix : kernel <+: (imageOf boot ([] ++ .file kernel :: args)).drop
      (512 * sectorAfter 1 []) := file_prefix hboot hforward
  rwa [himage]

/-- The three steps of `bootmain`. -/
theorem bootmain_eq {m₁ m₂ : Mem} (hread : readseg image fuel m elfhdr 4096 4096 1 = some m₁)
    (hmagic : (elfAt m₁ elfhdr).magic = elfMagic)
    (hloop : forSegments (fun m p => readseg image fuel m p.va p.filesz p.memsz (1 + p.offset / 512)) fuel m₁
      (elfhdr + (elfAt m₁ elfhdr).phoff)
      (elfhdr + (elfAt m₁ elfhdr).phoff + 32 * (elfAt m₁ elfhdr).phnum) = some m₂) :
    bootmain image fuel m = some (.jumps (elfAt m₂ elfhdr).entry m₂) := by
  unfold bootmain
  rw [hread, Option.bind_eq_bind, Option.bind_some, if_neg (not_not.mpr hmagic)]
  simp only
  rw [hloop, Option.bind_some]

/-- A disk that was made with a kernel as its first file boots it: enough fuel comes to the jump, every
segment is in its place, and apart from the segments and the page at `ELFHDR` the memory is as it was. -/
theorem kernel_boots {boot : List UInt8} {args : List Arg} {writes : List Write}
    (hdisk : mkbootdisk boot (.file kernel :: args) writes = some image) (hkernel : Bootable kernel)
    (m : Mem) :
    ∃ m', (∀ fuel, 8388608 < fuel →
        bootmain image fuel m = some (.jumps (elfAt (memOf kernel) 0).entry m')) ∧
      (∀ s ∈ segments kernel, Contains kernel 0 s m') ∧
      ∀ a : UInt32, a.toNat < 0x10000 ∨ 0x11000 ≤ a.toNat →
        (∀ s ∈ segments kernel, a.toNat < s.low ∨ s.high ≤ a.toNat) → m' a = m a := by
  have himage := boot_disk hdisk
  have hpage := first_page himage m
  have hheader := hkernel.header
  have hheaders := hkernel.headers
  have hputs : ∀ s ∈ segments kernel,
      Puts (bootEffect image) (KeepsPage kernel) Proghdr.low Proghdr.high (Contains kernel 0) s :=
    fun s hs => boot_puts hkernel hs himage
  have helf : ∀ m, KeepsPage kernel m → elfAt m elfhdr = elfAt (memOf kernel) 0 := fun m hm =>
    elfAt_holds hm (by omega) (by omega)
  have hbase : elfhdr.toNat = 0x10000 := rfl
  refine ⟨(segments kernel).foldl (fun m s => bootEffect image s m)
    (segmentAt image 0x10000 4096 4096 1 m), ?_, ?_, ?_⟩
  · intro fuel hfuel
    have hread : readseg image fuel m elfhdr 4096 4096 1 = some (segmentAt image 0x10000 4096 4096 1 m) :=
      readseg_eq hfuel (by decide) (by decide) (by decide)
    have hloop : forSegments
        (fun m p => readseg image fuel m p.va p.filesz p.memsz (1 + p.offset / 512)) fuel
        (segmentAt image 0x10000 4096 4096 1 m) (elfhdr + (elfAt (memOf kernel) 0).phoff)
        (elfhdr + (elfAt (memOf kernel) 0).phoff + 32 * (elfAt (memOf kernel) 0).phnum) =
          some ((segments kernel).foldl (fun m s => bootEffect image s m)
            (segmentAt image 0x10000 4096 4096 1 m)) :=
      forSegments_eq (bootEffect image) (KeepsPage kernel)
        (by rw [length_segments]; omega) (by rw [length_segments]; exact eph_toNat (by omega))
        (fun m hm k hk => segments_read hm (by omega) hheaders hk)
        (fun s hs m hm => ⟨boot_readseg hkernel hs hfuel m, (hputs s hs).keeps m hm⟩) hpage
    rw [← helf _ hpage] at hloop
    rw [bootmain_eq hread (by rw [helf _ hpage]; exact hkernel.magic) hloop,
      helf _ (foldl_keeps hputs hpage)]
  · exact fun s hs => foldl_contents hputs hkernel.apart hpage hs
  · intro a hscratch ha
    rw [foldl_elsewhere hputs ha]
    exact segmentAt_outside (by omega) (by omega)

/-- A file with one segment of two bytes and two zeros. -/
def smallElf (va : List UInt8) : List UInt8 :=
  [0x7F, 0x45, 0x4C, 0x46] ++ zeros 12 ++ [2, 0, 3, 0, 1, 0, 0, 0] ++ va ++ [52, 0, 0, 0] ++ zeros 8 ++
    [52, 0, 32, 0, 1, 0] ++ zeros 6 ++ [1, 0, 0, 0, 84, 0, 0, 0] ++ va ++ zeros 4 ++
    [2, 0, 0, 0, 4, 0, 0, 0] ++ zeros 8 ++ [7, 9]

theorem kernel_boots_small : ∃ writes image, mkbootdisk [] [.file (smallElf [84, 0, 16, 0])] writes = some image ∧
    ∃ m', (∀ fuel, 8388608 < fuel → bootmain image fuel UInt32.toUInt8 =
        some (.jumps (elfAt (memOf (smallElf [84, 0, 16, 0])) 0).entry m')) ∧
      (∀ s ∈ segments (smallElf [84, 0, 16, 0]), Contains (smallElf [84, 0, 16, 0]) 0 s m') ∧
      ∀ a : UInt32, a.toNat < 0x10000 ∨ 0x11000 ≤ a.toNat →
        (∀ s ∈ segments (smallElf [84, 0, 16, 0]), a.toNat < s.low ∨ s.high ≤ a.toNat) →
          m' a = a.toUInt8 := by
  have hboot : ([] : List UInt8).length ≤ 510 := Nat.zero_le 510
  have hargs : Forward 1 [.file (smallElf [84, 0, 16, 0])] := trivial
  obtain ⟨writes, h⟩ := exists_disk hboot hargs
  exact ⟨writes, _, h, kernel_boots h ⟨by decide +kernel, by decide +kernel, by decide +kernel,
    by decide +kernel, by decide +kernel, by decide +kernel, by decide +kernel, by decide +kernel⟩
    UInt32.toUInt8⟩

end Boot

section Program

/-- The memory that `copyseg` may change, from the beginning of a page. -/
def Proghdr.firstByte (s : Proghdr) : Nat :=
  if s.type = elfProgLoad then s.va.toNat / 4096 * 4096 else 0

def Proghdr.endByte (s : Proghdr) : Nat :=
  if s.type = elfProgLoad then s.va.toNat + max s.filesz.toNat s.memsz.toNat else 0

/-- What is asked of the image of a program that lies at `base`. -/
structure Loadable (file : List UInt8) (base : UInt32) : Prop where
  magic : (elfAt (memOf file) 0).magic = elfMagic
  header : 46 ≤ file.length
  headers : (elfAt (memOf file) 0).phoff.toNat + 32 * (elfAt (memOf file) 0).phnum.toNat ≤ file.length
  inMemory : base.toNat + file.length < 4294967296
  inside : ∀ s ∈ segments file, s.type = elfProgLoad →
    s.offset.toNat + s.va.toNat % 4096 + s.filesz.toNat ≤ file.length
  fits : ∀ s ∈ segments file, s.endByte < 4294967296
  apart : (segments file).Pairwise fun s t => s.endByte ≤ t.firstByte ∨ t.endByte ≤ s.firstByte
  image : ∀ s ∈ segments file, s.endByte ≤ base.toNat ∨ base.toNat + file.length ≤ s.firstByte

variable {s : Proghdr} {src : UInt32}

/-- The bytes of a segment go to the beginning of its page, the first one first. -/
theorem copyseg_eq (m : Mem) (src : UInt32) (hfile : va.toNat + filesz.toNat < 4294967296)
    (hmem : va.toNat + memsz.toNat < 4294967296)
    (hsrc : src.toNat + (va.toNat % 4096 + filesz.toNat) ≤ 4294967296)
    (h : va.toNat / 4096 * 4096 ≤ src.toNat ∨
      src.toNat + (va.toNat % 4096 + filesz.toNat) ≤ va.toNat / 4096 * 4096) :
    (∀ i, i < filesz.toNat →
      copyseg m va src filesz memsz (va + UInt32.ofNat i) = m (src + UInt32.ofNat (va.toNat % 4096 + i))) ∧
    (∀ i, filesz.toNat ≤ i → i < memsz.toNat → copyseg m va src filesz memsz (va + UInt32.ofNat i) = 0) ∧
    ∀ a : UInt32, a.toNat < va.toNat / 4096 * 4096 ∨ va.toNat + max filesz.toNat memsz.toNat ≤ a.toNat →
      copyseg m va src filesz memsz a = m a := by
  have hend : (va + filesz).toNat = va.toNat + filesz.toNat := by
    rw [UInt32.toNat_add]
    omega
  have hmemsz : (memsz + va).toNat = va.toNat + memsz.toNat := by
    rw [UInt32.toNat_add]
    omega
  have hpage := page_toNat va
  have hn : (va + filesz - (va &&& ~~~4095)).toNat = va.toNat % 4096 + filesz.toNat := by
    rw [UInt32.toNat_sub, hend, hpage]
    omega
  have hadd : ∀ i, i < max filesz.toNat memsz.toNat → (va + UInt32.ofNat i).toNat = va.toNat + i :=
    fun i hi => add_toNat va i (by omega)
  unfold copyseg
  simp only [clear_eq, hend, hmemsz]
  refine ⟨?_, ?_, ?_⟩
  · intro i hi
    have hcell : va + UInt32.ofNat i = (va &&& ~~~4095) + UInt32.ofNat (va.toNat % 4096 + i) := by
      apply UInt32.toNat_inj.mp
      rw [hadd i (by omega), add_toNat _ _ (by rw [hpage]; omega), hpage]
      omega
    rw [hadd i (by omega), if_neg (by omega), hcell]
    exact memcpy_inside (by rw [hn]; exact hsrc) (by rw [hn, hpage]; omega) (by rw [hn, hpage]; exact h)
      (by rw [hn]; omega)
  · intro i hlow hhigh
    rw [hadd i (by omega), if_pos (by omega)]
  · intro a ha
    rw [if_neg (by omega)]
    apply memcpy_outside
    intro i hi heq
    rw [hn] at hi
    rw [heq, add_toNat _ _ (by rw [hpage]; omega), hpage] at ha
    omega

def programEffect (base : UInt32) (s : Proghdr) (m : Mem) : Mem :=
  if s.type = elfProgLoad then copyseg m s.va (base + s.offset) s.filesz s.memsz else m

theorem program_skips (hs : s.type ≠ elfProgLoad) :
    Puts (programEffect base) (fun m => HoldsFile m base file file.length) Proghdr.firstByte
      Proghdr.endByte (fun s m => s.type = elfProgLoad → Contains file (s.va.toNat % 4096) s m) s := by
  have hsame : ∀ m, programEffect base s m = m := fun m => if_neg hs
  constructor
  · exact fun m _ h => absurd h hs
  · exact fun m a _ => congrFun (hsame m) a
  · exact fun m m' _ _ h => absurd h hs
  · intro m hm
    rw [hsame]
    exact hm

theorem program_puts (hfile : Loadable file base) (hs : s ∈ segments file) :
    Puts (programEffect base) (fun m => HoldsFile m base file file.length) Proghdr.firstByte
      Proghdr.endByte (fun s m => s.type = elfProgLoad → Contains file (s.va.toNat % 4096) s m) s := by
  by_cases hload : s.type = elfProgLoad
  · have hinside := hfile.inside s hs hload
    have hfits := hfile.fits s hs
    have himage := hfile.image s hs
    have hmemory := hfile.inMemory
    have hfirst : s.firstByte = s.va.toNat / 4096 * 4096 := if_pos hload
    have hend : s.endByte = s.va.toNat + max s.filesz.toNat s.memsz.toNat := if_pos hload
    rw [hend] at hfits
    rw [hend, hfirst] at himage
    have hsrc : (base + s.offset).toNat = base.toNat + s.offset.toNat := by
      rw [UInt32.toNat_add]
      omega
    have heffect : ∀ m, programEffect base s m = copyseg m s.va (base + s.offset) s.filesz s.memsz :=
      fun m => if_pos hload
    have hfilesz : s.va.toNat + s.filesz.toNat < 4294967296 := by omega
    have hmemsz : s.va.toNat + s.memsz.toNat < 4294967296 := by omega
    have hcopy := fun m => copyseg_eq m (base + s.offset) hfilesz hmemsz (by omega) (by omega)
    have haddr : ∀ i, i < max s.filesz.toNat s.memsz.toNat →
        s.firstByte ≤ (s.va + UInt32.ofNat i).toNat ∧ (s.va + UInt32.ofNat i).toNat < s.endByte := by
      intro i hi
      rw [add_toNat s.va i (by omega), hfirst, hend]
      omega
    constructor
    · intro m hm _
      rw [heffect]
      constructor
      · intro i hi
        have hoffset : (s.offset + UInt32.ofNat (s.va.toNat % 4096 + i)).toNat =
            s.offset.toNat + s.va.toNat % 4096 + i := by
          rw [add_toNat _ _ (by omega), Nat.add_assoc]
        rw [(hcopy m).1 i hi, UInt32.add_assoc, hm _ (by omega), memOf, hoffset]
      · exact (hcopy m).2.1
    · intro m a ha
      rw [heffect]
      rw [hfirst, hend] at ha
      exact (hcopy m).2.2 a ha
    · intro m m' h hsame _
      constructor
      · intro i hi
        have hin := haddr i (by omega)
        rw [hsame _ hin.1 hin.2]
        exact (h hload).bytes i hi
      · intro i hlow hhigh
        have hin := haddr i (by omega)
        rw [hsame _ hin.1 hin.2]
        exact (h hload).bss i hlow hhigh
    · intro m hm i hi
      have hcell : (base + i).toNat = base.toNat + i.toNat := by
        rw [UInt32.toNat_add]
        omega
      rw [heffect, (hcopy m).2.2 _ (by omega)]
      exact hm i hi
  · exact program_skips hload

/-- The steps of `program_loader` with a program that there is. -/
theorem programLoader_eq {ramimages : List UInt32} {program_id : Nat} (hid : program_id < ramimages.length)
    (hbase : ramimages.getD program_id 0 = base) (hmagic : (elfAt m base).magic = elfMagic)
    (hloop : forSegments (fun m p =>
      some (if p.type = elfProgLoad then copyseg m p.va (base + p.offset) p.filesz p.memsz else m)) fuel m
        (base + (elfAt m base).phoff) (base + (elfAt m base).phoff + 32 * (elfAt m base).phnum) = some m') :
    programLoader ramimages program_id fuel m = some (.program (elfAt m' base).entry m') := by
  have hrange : ¬ ((program_id : Int) < 0 ∨ (ramimages.length : Int) ≤ program_id) := by omega
  unfold programLoader
  rw [if_neg hrange, Int.toNat_natCast, hbase, if_neg (not_not.mpr hmagic)]
  simp only
  rw [hloop, Option.bind_eq_bind, Option.bind_some]

/-- Every byte of a loaded segment comes from the image, but from as far behind the offset of the segment as
its address is from the beginning of a page: only segments at the beginning of one are as they should be. -/
theorem program_loads {ramimages : List UInt32} {program_id : Nat} (hid : program_id < ramimages.length)
    (hfile : Loadable file (ramimages.getD program_id 0))
    (hm : HoldsFile m (ramimages.getD program_id 0) file file.length) :
    ∃ m', (∀ fuel, (segments file).length < fuel → programLoader ramimages program_id fuel m =
        some (.program (elfAt (memOf file) 0).entry m')) ∧
      (∀ s ∈ segments file, s.type = elfProgLoad → Contains file (s.va.toNat % 4096) s m') ∧
      ∀ a : UInt32, (∀ s ∈ segments file, a.toNat < s.firstByte ∨ s.endByte ≤ a.toNat) → m' a = m a := by
  generalize hbase : ramimages.getD program_id 0 = base at hfile hm
  have hmemory := hfile.inMemory
  have hheader := hfile.header
  have hheaders := hfile.headers
  have hputs := fun s hs => program_puts (s := s) hfile hs
  have helf : ∀ m, HoldsFile m base file file.length → elfAt m base = elfAt (memOf file) 0 := fun m hm =>
    elfAt_holds hm hheader (by omega)
  refine ⟨(segments file).foldl (fun m s => programEffect base s m) m, ?_, ?_, ?_⟩
  · intro fuel hfuel
    have hloop : forSegments (fun m p =>
        some (if p.type = elfProgLoad then copyseg m p.va (base + p.offset) p.filesz p.memsz else m))
        fuel m (base + (elfAt (memOf file) 0).phoff)
        (base + (elfAt (memOf file) 0).phoff + 32 * (elfAt (memOf file) 0).phnum) =
          some ((segments file).foldl (fun m s => programEffect base s m) m) :=
      forSegments_eq (programEffect base) (fun m => HoldsFile m base file file.length)
        hfuel (by rw [length_segments]; exact eph_toNat (by omega))
        (fun m hm k hk => segments_read hm (by omega) hheaders hk)
        (fun s hs m hm => ⟨rfl, (hputs s hs).keeps m hm⟩) hm
    rw [← helf m hm] at hloop
    rw [programLoader_eq hid hbase (by rw [helf m hm]; exact hfile.magic) hloop,
      helf _ (foldl_keeps hputs hm)]
  · exact fun s hs => foldl_contents hputs hfile.apart hm hs
  · exact fun a ha => foldl_elsewhere hputs ha m

theorem program_loads_small : ∃ m', (∀ fuel, (segments (smallElf [0, 0, 32, 0])).length < fuel →
      programLoader [0x300000] (0 : Nat) fuel (fun a => memOf (smallElf [0, 0, 32, 0]) (a - 0x300000)) =
        some (.program (elfAt (memOf (smallElf [0, 0, 32, 0])) 0).entry m')) ∧
    (∀ s ∈ segments (smallElf [0, 0, 32, 0]), s.type = elfProgLoad →
      Contains (smallElf [0, 0, 32, 0]) (s.va.toNat % 4096) s m') ∧
    ∀ a : UInt32, (∀ s ∈ segments (smallElf [0, 0, 32, 0]), a.toNat < s.firstByte ∨ s.endByte ≤ a.toNat) →
      m' a = memOf (smallElf [0, 0, 32, 0]) (a - 0x300000) :=
  program_loads (by decide) ⟨by decide +kernel, by decide +kernel, by decide +kernel, by decide +kernel,
    by decide +kernel, by decide +kernel, by decide +kernel, by decide +kernel⟩
    (fun i _ => congrArg (memOf (smallElf [0, 0, 32, 0])) (by
      show 0x300000 + i - 0x300000 = i
      grind))

end Program

end CS111.Boot
