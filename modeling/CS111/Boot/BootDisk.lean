import Mathlib.Data.List.Basic

/-!
# Making a boot disk

`mkbootdisk.c`. The standard output takes as much of the data as it likes at every call of `write`.
-/

namespace CS111.Boot

set_option autoImplicit false

/-- What a call of `write` does. -/
inductive Write where
  | wrote (w : Nat)
  | interrupted
  | failed
  deriving Repr, DecidableEq

/-- An argument, `@X` or the name of a file with these bytes. -/
inductive Arg where
  | skipTo (sector : Nat)
  | file (bytes : List UInt8)
  deriving Repr, DecidableEq

/-- What is on the disk, and what the next calls of `write` will do. -/
structure Output where
  disk : List UInt8
  writes : List Write
  deriving Repr, DecidableEq

section Writing

def diskwriteLoop : List Write → List UInt8 → List UInt8 → Option Output
  | writes, disk, [] => some ⟨disk, writes⟩
  | [], _, _ :: _ => none
  | .failed :: _, _, _ :: _ => none
  | .interrupted :: writes, disk, byte :: data => diskwriteLoop writes disk (byte :: data)
  | .wrote w :: writes, disk, byte :: data =>
    if w = 0 then none
    else diskwriteLoop writes (disk ++ (byte :: data).take w) ((byte :: data).drop w)

/-- The test of `maxoff` never fails, for it is always 0. -/
def diskwrite (o : Output) (data : List UInt8) : Option Output := diskwriteLoop o.writes o.disk data

def zeros (n : Nat) : List UInt8 := List.replicate n 0

/-- `n` rounds of a loop that writes a sector of zeros. -/
def zeroSectors : Nat → Output → Option Output
  | 0, o => some o
  | n + 1, o => do
    let o ← diskwrite o (zeros 512)
    zeroSectors n o

/-- The loop over the pieces of a file. -/
def copyFile (o : Output) (bytes : List UInt8) : Option Output :=
  if 0 < bytes.length then do
    let o ← diskwrite o (bytes.take 4096)
    copyFile o (bytes.drop 4096)
  else some o
termination_by bytes.length
decreasing_by
  rw [List.length_drop]
  omega

end Writing

section Main

def bootSector (o : Output) (bytes : List UInt8) : Option Output :=
  let buf := bytes.take 4096
  if 510 < buf.length then none else diskwrite o (buf ++ zeros (510 - buf.length) ++ [0x55, 0xAA])

/-- A round of the loop over the arguments, with `nsectors`. -/
def addArg : Output × Nat → Arg → Option (Output × Nat)
  | (o, nsectors), .skipTo skipto_sector =>
    if skipto_sector < nsectors then none
    else do
      let o ← zeroSectors (skipto_sector - nsectors) o
      some (o, skipto_sector)
  | (o, nsectors), .file bytes => do
    let pos := bytes.length
    let o ← copyFile o bytes
    if pos % 512 ≠ 0 then
      let o ← diskwrite o (zeros (512 - pos % 512))
      some (o, nsectors + (pos + (512 - pos % 512)) / 512)
    else some (o, nsectors + pos / 512)

def mkbootdisk (boot : List UInt8) (args : List Arg) (writes : List Write) : Option (List UInt8) := do
  let o ← bootSector ⟨[], writes⟩ boot
  let (o, nsectors) ← args.foldlM addArg (o, 1)
  let o ← zeroSectors (1024 - nsectors) o
  some o.disk

end Main

/-! ## What is on the disk -/

variable {o o' : Output} {data bytes image boot : List UInt8} {args : List Arg} {writes : List Write}
  {n n' : Nat}

section Layout

/-- The sectors of a file. -/
def filled (bytes : List UInt8) : List UInt8 := bytes ++ zeros ((512 - bytes.length % 512) % 512)

def Arg.next (n : Nat) : Arg → Nat
  | .skipTo k => k
  | .file bytes => n + (filled bytes).length / 512

def Arg.content (n : Nat) : Arg → List UInt8
  | .skipTo k => zeros (512 * (k - n))
  | .file bytes => filled bytes

/-- No argument goes back. -/
def Forward : Nat → List Arg → Prop
  | _, [] => True
  | n, .skipTo k :: args => n ≤ k ∧ Forward k args
  | n, .file bytes :: args => Forward ((Arg.file bytes).next n) args

/-- The sector behind some arguments. -/
def sectorAfter (n : Nat) (args : List Arg) : Nat := args.foldl Arg.next n

def layout : Nat → List Arg → List UInt8
  | _, [] => []
  | n, arg :: args => arg.content n ++ layout (arg.next n) args

/-- The boot sector, the arguments, and zeros up to 1024 sectors. -/
def imageOf (boot : List UInt8) (args : List Arg) : List UInt8 :=
  boot ++ zeros (510 - boot.length) ++ [0x55, 0xAA] ++ layout 1 args ++
    zeros (512 * (1024 - sectorAfter 1 args))

@[simp] theorem length_zeros (n : Nat) : (zeros n).length = n := List.length_replicate

theorem zeros_add (a b : Nat) : zeros (a + b) = zeros a ++ zeros b := List.replicate_add ..

theorem length_filled (bytes : List UInt8) : (filled bytes).length % 512 = 0 := by
  rw [filled, List.length_append, length_zeros]
  omega

theorem length_content {arg : Arg} (h : Forward n [arg]) :
    (arg.content n).length = 512 * (arg.next n - n) ∧ n ≤ arg.next n := by
  cases arg with
  | skipTo k => exact ⟨length_zeros _, h.1⟩
  | file bytes =>
    have hdvd := length_filled bytes
    rw [Arg.content, Arg.next]
    omega

theorem forward_append {before after : List Arg} :
    Forward n (before ++ after) ↔ Forward n before ∧ Forward (sectorAfter n before) after := by
  induction before generalizing n with
  | nil => exact ⟨fun h => ⟨trivial, h⟩, And.right⟩
  | cons arg before ih =>
    cases arg with
    | skipTo k =>
      show (n ≤ k ∧ Forward k (before ++ after)) ↔ _
      rw [ih, ← and_assoc]
      rfl
    | file bytes => exact ih

theorem forward_cons {arg : Arg} : Forward n (arg :: args) ↔ Forward n [arg] ∧ Forward (arg.next n) args :=
  show Forward n ([arg] ++ args) ↔ _ from forward_append

theorem length_layout (h : Forward n args) :
    (layout n args).length = 512 * (sectorAfter n args - n) ∧ n ≤ sectorAfter n args := by
  induction args generalizing n with
  | nil => exact ⟨by rw [layout, sectorAfter, List.foldl_nil, Nat.sub_self]; rfl, Nat.le_refl n⟩
  | cons arg args ih =>
    obtain ⟨hfirst, hrest⟩ := forward_cons.mp h
    have hlen := length_content hfirst
    have hmore := ih hrest
    have hafter : sectorAfter n (arg :: args) = sectorAfter (arg.next n) args := rfl
    rw [layout, List.length_append, hafter]
    omega

theorem layout_append (before after : List Arg) :
    layout n (before ++ after) = layout n before ++ layout (sectorAfter n before) after := by
  induction before generalizing n with
  | nil => rfl
  | cons arg before ih =>
    rw [List.cons_append, layout, layout, ih, List.append_assoc]
    rfl

end Layout

section Runs

variable {f g : Output → Option Output} {data' : List UInt8}

/-- The output gets these bytes, whatever the writes do, and some writes let it come to an end. -/
structure Writes (f : Output → Option Output) (data : List UInt8) : Prop where
  only : ∀ o o', f o = some o' → o'.disk = o.disk ++ data
  ends : ∃ writes, ∀ disk rest, f ⟨disk, writes ++ rest⟩ = some ⟨disk ++ data, rest⟩

theorem writes_nothing : Writes some [] := by
  constructor
  · intro o o' h
    rw [← Option.some.inj h, List.append_nil]
  · exact ⟨[], fun disk rest => by rw [List.append_nil, List.nil_append]⟩

theorem Writes.bind (hf : Writes f data) (hg : Writes g data') :
    Writes (fun o => (f o).bind g) (data ++ data') := by
  constructor
  · intro o o' h
    obtain ⟨o₁, h₁, h₂⟩ := Option.bind_eq_some_iff.mp h
    rw [hg.only o₁ o' h₂, hf.only o o₁ h₁, List.append_assoc]
  · obtain ⟨writes, hends⟩ := hf.ends
    obtain ⟨writes', hends'⟩ := hg.ends
    refine ⟨writes ++ writes', fun disk rest => ?_⟩
    rw [List.append_assoc, hends, Option.bind_some, hends', List.append_assoc]

theorem diskwriteLoop_only (h : diskwriteLoop writes image data = some o') : o'.disk = image ++ data := by
  fun_induction diskwriteLoop writes image data with
  | case1 writes disk => rw [← Option.some.inj h, List.append_nil]
  | case2 => cases h
  | case3 => cases h
  | case4 writes disk byte data ih => exact ih h
  | case5 => cases h
  | case6 w writes disk byte data hw ih =>
    rw [ih h, List.append_assoc, List.take_append_drop]

theorem diskwrite_writes (data : List UInt8) : Writes (fun o => diskwrite o data) data := by
  constructor
  · intro o o' h
    exact diskwriteLoop_only h
  · cases data with
    | nil =>
      refine ⟨[], fun disk rest => ?_⟩
      rw [List.append_nil]
      unfold diskwrite diskwriteLoop
      rfl
    | cons byte data =>
      refine ⟨[.wrote (data.length + 1)], fun disk rest => ?_⟩
      have hall : diskwriteLoop rest (disk ++ (byte :: data)) [] = some ⟨disk ++ byte :: data, rest⟩ := by
        unfold diskwriteLoop
        rfl
      show diskwriteLoop (.wrote (data.length + 1) :: rest) disk (byte :: data) = _
      rw [diskwriteLoop, if_neg (Nat.succ_ne_zero _), List.take_of_length_le (Nat.le_of_eq List.length_cons),
        List.drop_of_length_le (Nat.le_of_eq List.length_cons), hall]

theorem zeroSectors_writes (n : Nat) : Writes (zeroSectors n) (zeros (512 * n)) := by
  induction n with
  | zero => exact writes_nothing
  | succ n ih =>
    have hfirst : zeros (512 * (n + 1)) = zeros 512 ++ zeros (512 * n) := by
      rw [← zeros_add, Nat.mul_succ, Nat.add_comm]
    rw [hfirst]
    exact (diskwrite_writes (zeros 512)).bind ih

theorem copyFile_writes (bytes : List UInt8) : Writes (fun o => copyFile o bytes) bytes := by
  by_cases h : 0 < bytes.length
  · have hrest := copyFile_writes (bytes.drop 4096)
    have hstep : (fun o => copyFile o bytes) =
        fun o => (diskwrite o (bytes.take 4096)).bind fun o => copyFile o (bytes.drop 4096) := by
      funext o
      rw [copyFile, if_pos h]
      rfl
    have hall := (diskwrite_writes (bytes.take 4096)).bind hrest
    rwa [List.take_append_drop, ← hstep] at hall
  · have hnil : bytes = [] := List.eq_nil_of_length_eq_zero (Nat.eq_zero_of_not_pos h)
    have hnone : (fun o => copyFile o []) = some := by
      funext o
      rw [copyFile]
      rfl
    rw [hnil, hnone]
    exact writes_nothing
termination_by bytes.length
decreasing_by
  rw [List.length_drop]
  omega

/-- What an argument does with the output, when it does not go back. -/
def Arg.put (n : Nat) (arg : Arg) (o : Output) : Option Output := (addArg (o, n) arg).map Prod.fst

theorem addArg_eq {arg : Arg} (h : Forward n [arg]) (o : Output) :
    addArg (o, n) arg = (arg.put n o).bind fun o => some (o, arg.next n) := by
  have hnext : ∀ (r : Option Output) (k : Nat), r.bind (fun o => some (o, k)) =
      ((r.bind fun o => some (o, k)).map Prod.fst).bind fun o => some (o, k) := by
    intro r k
    cases r <;> rfl
  cases arg with
  | skipTo k =>
    have hadd : addArg (o, n) (.skipTo k) = (zeroSectors (k - n) o).bind fun o => some (o, k) :=
      if_neg (Nat.not_lt.mpr h.1)
    rw [Arg.put, hadd]
    exact hnext _ k
  | file bytes =>
    have hlen : (filled bytes).length = bytes.length + (512 - bytes.length % 512) % 512 := by
      rw [filled, List.length_append, length_zeros]
    have hadd : addArg (o, n) (.file bytes) = ((copyFile o bytes).bind fun o =>
        if bytes.length % 512 ≠ 0 then diskwrite o (zeros (512 - bytes.length % 512)) else some o).bind
          fun o => some (o, (Arg.file bytes).next n) := by
      show (copyFile o bytes).bind _ = _
      rw [Option.bind_assoc, Arg.next, hlen]
      congr 1
      funext o
      split
      · next hrest =>
        rw [Nat.mod_eq_of_lt (show 512 - bytes.length % 512 < 512 by omega)]
        rfl
      · next hwhole =>
        rw [Decidable.not_not.mp hwhole, Option.bind_some]
        rfl
    rw [Arg.put, hadd]
    exact hnext _ _

theorem put_writes {arg : Arg} (h : Forward n [arg]) : Writes (arg.put n) (arg.content n) := by
  have hmap : ∀ (r : Option Output) (k : Nat), (r.bind fun o => some (o, k)).map Prod.fst = r := by
    intro r k
    cases r <;> rfl
  cases arg with
  | skipTo k =>
    have hput : (Arg.skipTo k).put n = zeroSectors (k - n) := by
      funext o
      show (if k < n then none else (zeroSectors (k - n) o).bind fun o => some (o, k)).map Prod.fst = _
      rw [if_neg (Nat.not_lt.mpr h.1), hmap]
    rw [hput]
    exact zeroSectors_writes (k - n)
  | file bytes =>
    have hrest : Writes (fun o =>
        if bytes.length % 512 ≠ 0 then diskwrite o (zeros (512 - bytes.length % 512)) else some o)
          (zeros ((512 - bytes.length % 512) % 512)) := by
      split
      · next hrest =>
        rw [Nat.mod_eq_of_lt (show 512 - bytes.length % 512 < 512 by omega)]
        exact diskwrite_writes _
      · next hwhole =>
        rw [Decidable.not_not.mp hwhole]
        exact writes_nothing
    have hput : (Arg.file bytes).put n = fun o => (copyFile o bytes).bind fun o =>
        if bytes.length % 512 ≠ 0 then diskwrite o (zeros (512 - bytes.length % 512)) else some o := by
      funext o
      show ((copyFile o bytes).bind _).map Prod.fst = _
      rw [Option.map_bind]
      congr 1
      funext o
      show (if _ then (diskwrite o _).bind _ else _).map Prod.fst = _
      split
      · exact hmap _ _
      · rfl
    rw [hput]
    exact (copyFile_writes bytes).bind hrest

theorem addArg_back {arg : Arg} (h : ¬ Forward n [arg]) (o : Output) : addArg (o, n) arg = none := by
  cases arg with
  | skipTo k => exact if_pos (Nat.lt_of_not_le fun hle => h ⟨hle, trivial⟩)
  | file bytes => exact absurd trivial h

/-- The arguments with the number of the sector behind them. -/
theorem foldlM_addArg (args : List Arg) (n : Nat) :
    (Forward n args → ∃ put, Writes put (layout n args) ∧
      ∀ o, args.foldlM addArg (o, n) = (put o).bind fun o => some (o, sectorAfter n args)) ∧
    (¬ Forward n args → ∀ o, args.foldlM addArg (o, n) = none) := by
  induction args generalizing n with
  | nil =>
    refine ⟨fun _ => ⟨some, writes_nothing, fun o => rfl⟩, fun h => absurd trivial h⟩
  | cons arg args ih =>
    constructor
    · intro h
      obtain ⟨hfirst, hrest⟩ := forward_cons.mp h
      obtain ⟨put, hput, hfold⟩ := (ih (arg.next n)).1 hrest
      refine ⟨_, (put_writes hfirst).bind hput, fun o => ?_⟩
      rw [List.foldlM_cons, addArg_eq hfirst]
      show ((arg.put n o).bind _).bind _ = _
      rw [Option.bind_assoc, Option.bind_assoc]
      congr 1
      funext o
      exact hfold o
    · intro h o
      rw [List.foldlM_cons]
      by_cases hfirst : Forward n [arg]
      · have hrest : ¬ Forward (arg.next n) args := fun hrest => h (forward_cons.mpr ⟨hfirst, hrest⟩)
        rw [addArg_eq hfirst]
        show ((arg.put n o).bind _).bind _ = _
        rw [Option.bind_assoc, Option.bind_eq_none_iff]
        intro o _
        exact (ih (arg.next n)).2 hrest o
      · rw [addArg_back hfirst]
        rfl

theorem bootSector_writes (h : boot.length ≤ 510) :
    Writes (fun o => bootSector o boot) (boot ++ zeros (510 - boot.length) ++ [0x55, 0xAA]) := by
  have hread : boot.take 4096 = boot := List.take_of_length_le (by omega)
  have hsector : (fun o => bootSector o boot) =
      fun o => diskwrite o (boot ++ zeros (510 - boot.length) ++ [0x55, 0xAA]) := by
    funext o
    unfold bootSector
    simp only [hread]
    rw [if_neg (Nat.not_lt.mpr h)]
  rw [hsector]
  exact diskwrite_writes _

theorem bootSector_large (h : 510 < boot.length) (o : Output) : bootSector o boot = none := by
  unfold bootSector
  simp only [List.length_take]
  exact if_pos (by omega)

/-- However the writes go, the disk is the image of the arguments; and there is one unless the boot sector
is too large or an argument goes back. -/
theorem mkbootdisk_iff :
    (∃ writes, mkbootdisk boot args writes = some image) ↔
      boot.length ≤ 510 ∧ Forward 1 args ∧ image = imageOf boot args := by
  by_cases hboot : boot.length ≤ 510
  · by_cases hforward : Forward 1 args
    · obtain ⟨put, hput, hfold⟩ := (foldlM_addArg args 1).1 hforward
      have hall := ((bootSector_writes hboot).bind hput).bind
        (zeroSectors_writes (1024 - sectorAfter 1 args))
      have hmain : ∀ writes, mkbootdisk boot args writes =
          ((((bootSector ⟨[], writes⟩ boot).bind put).bind
            (zeroSectors (1024 - sectorAfter 1 args))).map Output.disk) := by
        intro writes
        show (bootSector ⟨[], writes⟩ boot).bind _ = _
        rw [Option.bind_assoc, Option.map_bind]
        congr 1
        funext o
        show (args.foldlM addArg (o, 1)).bind _ = _
        rw [hfold, Option.bind_assoc, Function.comp_apply, Option.map_bind]
        congr 1
        funext o
        exact (Option.map_eq_bind).symm
      constructor
      · rintro ⟨writes, h⟩
        rw [hmain] at h
        obtain ⟨o, ho, himage⟩ := Option.map_eq_some_iff.mp h
        refine ⟨hboot, hforward, ?_⟩
        rw [← himage, hall.only _ o ho]
        rfl
      · rintro ⟨-, -, himage⟩
        obtain ⟨writes, hends⟩ := hall.ends
        refine ⟨writes ++ [], ?_⟩
        rw [hmain, hends, himage]
        rfl
    · have hnone : ∀ writes, mkbootdisk boot args writes = none := by
        intro writes
        show (bootSector ⟨[], writes⟩ boot).bind _ = none
        rw [Option.bind_eq_none_iff]
        intro o _
        show (args.foldlM addArg (o, 1)).bind _ = none
        rw [(foldlM_addArg args 1).2 hforward]
        rfl
      constructor
      · rintro ⟨writes, h⟩
        rw [hnone] at h
        cases h
      · rintro ⟨-, h, -⟩
        exact absurd h hforward
  · constructor
    · rintro ⟨writes, h⟩
      unfold mkbootdisk at h
      rw [bootSector_large (Nat.lt_of_not_le hboot)] at h
      cases h
    · rintro ⟨h, -⟩
      exact absurd h hboot

theorem exists_disk (hboot : boot.length ≤ 510) (hargs : Forward 1 args) :
    ∃ writes, mkbootdisk boot args writes = some (imageOf boot args) :=
  mkbootdisk_iff.mpr ⟨hboot, hargs, rfl⟩

end Runs

section Image

theorem length_boot (h : boot.length ≤ 510) :
    (boot ++ zeros (510 - boot.length) ++ [0x55, 0xAA]).length = 512 := by
  rw [List.length_append, List.length_append, length_zeros]
  show boot.length + (510 - boot.length) + 2 = 512
  omega

/-- A file begins with the sector that the arguments before it leave. -/
theorem file_prefix {before after : List Arg} (hboot : boot.length ≤ 510)
    (h : Forward 1 (before ++ .file bytes :: after)) :
    bytes <+: (imageOf boot (before ++ .file bytes :: after)).drop (512 * sectorAfter 1 before) := by
  obtain ⟨hbefore, -⟩ := forward_append.mp h
  have hlen := length_layout hbefore
  have hfront : (boot ++ zeros (510 - boot.length) ++ [0x55, 0xAA] ++ layout 1 before).length =
      512 * sectorAfter 1 before := by
    rw [List.length_append, length_boot hboot]
    omega
  rw [imageOf, layout_append, ← List.append_assoc _ (layout 1 before), List.append_assoc,
    ← hfront, List.drop_left]
  show bytes <+: filled bytes ++ _ ++ _
  rw [filled, List.append_assoc, List.append_assoc]
  exact List.prefix_append _ _

/-- The disk does not depend on how the writes go: it is filled up to 1024 sectors at least, the boot sector
carries its signature, and every file is in the sectors behind the arguments before it. -/
theorem disk_layout (h : mkbootdisk boot args writes = some image) :
    (∀ writes' image', mkbootdisk boot args writes' = some image' → image' = image) ∧
      image.length = 512 * max 1024 (sectorAfter 1 args) ∧
      (boot <+: image ∧ (image.drop 510).take 2 = [0x55, 0xAA]) ∧
      ∀ before bytes after, args = before ++ .file bytes :: after →
        bytes <+: image.drop (512 * sectorAfter 1 before) := by
  obtain ⟨hboot, hforward, rfl⟩ := mkbootdisk_iff.mp ⟨writes, h⟩
  refine ⟨?_, ?_, ⟨?_, ?_⟩, ?_⟩
  · intro writes' image' h'
    exact (mkbootdisk_iff.mp ⟨writes', h'⟩).2.2
  · have hlen := length_layout hforward
    rw [imageOf, List.length_append, List.length_append, length_boot hboot, length_zeros]
    omega
  · rw [imageOf]
    simp only [List.append_assoc]
    exact List.prefix_append _ _
  · have hcode : (boot ++ zeros (510 - boot.length)).length = 510 := by
      rw [List.length_append, length_zeros]
      omega
    rw [imageOf, List.append_assoc, List.append_assoc (boot ++ _), List.drop_left' hcode]
    rfl
  · intro before bytes after hargs
    rw [hargs] at hforward ⊢
    exact file_prefix hboot hforward

theorem disk_layout_small : ∃ writes image, mkbootdisk [0xEB, 0xFE] [.skipTo 3, .file [7]] writes = some image ∧
    (∀ writes' image', mkbootdisk [0xEB, 0xFE] [.skipTo 3, .file [7]] writes' = some image' →
        image' = image) ∧
      image.length = 512 * max 1024 (sectorAfter 1 [.skipTo 3, .file [7]]) ∧
      ([0xEB, 0xFE] <+: image ∧ (image.drop 510).take 2 = [0x55, 0xAA]) ∧
      ∀ before bytes after, [.skipTo 3, .file [7]] = before ++ .file bytes :: after →
        bytes <+: image.drop (512 * sectorAfter 1 before) := by
  have hboot : ([0xEB, 0xFE] : List UInt8).length ≤ 510 := by decide
  have hargs : Forward 1 [.skipTo 3, .file [7]] := ⟨by decide, trivial⟩
  obtain ⟨writes, h⟩ := exists_disk hboot hargs
  exact ⟨writes, _, h, disk_layout h⟩

end Image

end CS111.Boot
