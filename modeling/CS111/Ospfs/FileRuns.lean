import CS111.Ospfs.BlockOwnership

/-!
# Runs that link and unlink no directory

The kernel refuses to link or unlink a directory, so every directory keeps its links and stays a
directory.
-/

namespace CS111.Ospfs

open Memory

set_option autoImplicit false

variable {g : Geometry} {s s' s₀ : State} {c : Callback} {cs : List Callback} {d : Nat}

/-- What the kernel asks of an inode before it calls `link` or `unlink`. -/
def Callback.OnFiles (m : Bytes) : Callback → Prop
  | .link src _ _ => oiFtype m (inodeAddr src) ≠ FTYPE_DIR
  | .unlink _ ino _ => oiFtype m (inodeAddr ino) ≠ FTYPE_DIR
  | _ => True

/-- A callback on an inode that has it, within the direct and indirect blocks. -/
structure Callback.Allowed (m : Bytes) (c : Callback) : Prop where
  served : c.Served m fun _ => False
  onFiles : c.OnFiles m
  within : ∀ i sz, c.request m = some (i, sz) → WithinIndirect (oiSize m (inodeAddr i)) sz

instance (m : Bytes) : ∀ c : Callback, Decidable (c.OnFiles m)
  | .link src _ _ => inferInstanceAs (Decidable (oiFtype m (inodeAddr src) ≠ FTYPE_DIR))
  | .unlink _ ino _ => inferInstanceAs (Decidable (oiFtype m (inodeAddr ino) ≠ FTYPE_DIR))
  | .create _ _ _ _ | .symlink _ _ _ _ | .write _ _ _ _ _ | .read _ _ _ _ | .notifyChange _ _
  | .lookup _ _ _ | .readdir _ _ _ _ | .followLink _ _ => inferInstanceAs (Decidable True)

instance (m : Bytes) (c : Callback) : Decidable (c.Allowed m) :=
  decidable_of_iff ((c.Served m fun _ => False) ∧ c.OnFiles m ∧ ∀ r, r ∈ c.request m →
      (r.2 + 1023) / 1024 ≤ max 266 ((oiSize m (inodeAddr r.1) + 1023) / 1024))
    ⟨fun h => ⟨h.1, h.2.1, fun i sz hr => h.2.2 (i, sz) hr⟩,
      fun h => ⟨h.served, h.onFiles, fun r hr => h.within r.1 r.2 hr⟩⟩

def AllowedStep (s : State) (c : Callback) (s' : State) : Prop :=
  CallbackStep s c s' ∧ c.Allowed s.data

structure Ready (g : Geometry) (s : State) : Prop where
  mounted : Mounted g (fun _ => False) s.data
  counter : s.nwritesToCrash = -1
  linked : ∀ d, d < g.ninodes → oiFtype s.data (inodeAddr d) = FTYPE_DIR →
    oiNlink s.data (inodeAddr d) ≠ 0

theorem Ready.isDirectory (h : Ready g s) (hd : d < g.ninodes)
    (hf : oiFtype s.data (inodeAddr d) = FTYPE_DIR) : IsDirectory g s.data d :=
  h.mounted.dir d hd hf fun hgone => hgone

theorem Callback.OnFiles.not_relinks (h : c.OnFiles s.data)
    (hf : oiFtype s.data (inodeAddr d) = FTYPE_DIR) : ¬ c.Relinks d := by
  intro hd
  cases c with
  | link src dir name =>
    subst hd
    exact h hf
  | unlink dir ino name =>
    subst hd
    exact h hf
  | _ => exact hd

theorem Ready.step (h : Ready g s) (hstep : AllowedStep s c s') : Ready g s' := by
  obtain ⟨hcall, hallowed⟩ := hstep
  have hmount : MountStep ⟨s, fun _ => False⟩ c
      ⟨s', c.goneAfter s.data s'.data fun _ => False⟩ := by
    constructor
    · exact hcall
    · exact hallowed.served
    · exact hallowed.within
    · rfl
  obtain ⟨hcounter, hmounted, hkept⟩ := hmount.kept ⟨h.mounted, h.counter⟩
  constructor
  · apply hmounted.mono
    intro d hd hf hgone
    obtain ⟨hf, _⟩ := hkept d hd hf
    have hrelinks := hallowed.onFiles.not_relinks hf
    cases c with
    | create dir name mode newInode => exact hgone.1
    | symlink dir name symname newInode => exact hgone.1
    | unlink dir ino name => exact hgone.elim id fun hino => hrelinks hino.1
    | _ => exact hgone
  · exact hcounter
  · intro d hd hf
    obtain ⟨hf, hnlink | hrelinks⟩ := hkept d hd hf
    · rw [hnlink]
      exact h.linked d hd hf
    · exact absurd hrelinks (hallowed.onFiles.not_relinks hf)

theorem Ready.run (h : Ready g s₀) (hrun : Run AllowedStep s₀ cs s) : Ready g s :=
  hrun.invariant (fun h hstep => h.step hstep) h

/-- An image that the formatter has finished. -/
theorem Format.Image.ready {m : Bytes} {A : Nodes} (h : Format.Image g A m) : Ready g ⟨m, -1⟩ := by
  constructor
  · exact h.mounted
  · rfl
  · intro d hd hf
    by_cases hlt : d < A.length
    · have hnode := h.node d _ (List.getElem?_eq_getElem hlt)
      have hlinks := h.nlink d hlt
      cases hnd : A[d] with
      | file content =>
        rw [hnd] at hnode
        exact absurd (hnode.1.symm.trans hf) (by decide)
      | symlink target =>
        rw [hnd] at hnode
        exact absurd (hnode.1.symm.trans hf) (by decide)
      | dir es =>
        rw [Nodes.links_of_dir (List.getElem?_eq_getElem hlt |>.trans (congrArg some hnd))] at hlinks
        dsimp only
        omega
    · have hzero : oiFtype m (inodeAddr d) = 0 := by
        apply rd32_eq_zero
        intro k hk
        rw [Nat.add_assoc]
        exact h.unborn d _ (by omega) hd (by omega)
      exact absurd (hzero.symm.trans hf) (by decide)

section Small

def rootGeometry : Geometry := ⟨6, 5, by decide, by decide, by decide⟩

/-- Six blocks, of which 5 is free, and five inodes. The root directory, inode 1, has room for two
entries in block 4: the name "a" for the empty file of inode 2, and a blank one. -/
def rootDisk : Bytes := fun a =>
  if a = 1028 then 6 else if a = 1032 then 5 else if a = 1036 then 3 else if a = 2048 then 32
  else if a = 3137 then 1 else if a = 3140 then 1 else if a = 3144 then 1 else if a = 3152 then 4
  else if a = 3208 then 1 else if a = 4096 then 2 else if a = 4100 then 97 else 0

theorem rootDisk_zero {a : Nat} (h : 4101 ≤ a) : rootDisk a = 0 := by
  unfold rootDisk
  repeat rw [if_neg (by omega)]

theorem rootDisk_own {i : Nat} {s : Slot} (h0 : own rootGeometry rootDisk (i, s) ≠ 0) :
    i = 1 ∧ s = .direct 0 := by
  obtain ⟨hi, hf⟩ := own_ne_zero h0
  have hlt : i < 5 := hi
  rw [own_of hi hf] at h0
  have hother : ∀ i, i < 5 → i ≠ 1 → ∀ k, k < 64 → 16 ≤ k → rootDisk (inodeAddr i + k) = 0 := by
    decide +kernel
  have hroot : ∀ n, n < 16 → 4 < n → rd32 rootDisk (inodeAddr 1 + 4 * n) = 0 := by decide +kernel
  have hi1 : i = 1 := by
    by_contra hne
    exact h0 (ptr_eq_zero (fun k h1 h2 => hother i hlt hne k h2 h1) s)
  subst hi1
  refine ⟨rfl, ?_⟩
  have hindirect : ptr rootDisk (inodeAddr 1) .indirect = 0 := hroot 14 (by decide) (by decide)
  have hindirect2 : ptr rootDisk (inodeAddr 1) .indirect2 = 0 := hroot 15 (by decide) (by decide)
  cases s with
  | direct k =>
    by_contra hne
    have hk : 4 < 4 + k.val := by
      by_contra hk
      exact hne (congrArg Slot.direct (Fin.ext (show k.val = 0 by omega)))
    have hword := hroot (4 + k) (by omega) hk
    rw [show inodeAddr 1 + 4 * (4 + k.val) = inodeAddr 1 + 16 + 4 * k by omega] at hword
    exact h0 hword
  | indirect => exact absurd hindirect h0
  | indirect2 => exact absurd hindirect2 h0
  | entry j => exact absurd (ptr_below_zero (.inl rfl) hindirect) h0
  | entry2 k => exact absurd (ptr_below_zero (.inl rfl) hindirect2) h0
  | leaf k j => exact absurd (ptr_below_zero (.inr rfl) hindirect2) h0

theorem rootDisk_block : own rootGeometry rootDisk (1, .direct 0) = 4 := by decide +kernel

theorem rootDisk_sound : Sound rootGeometry rootDisk := by
  constructor
  · decide +kernel
  · decide +kernel
  · decide +kernel
  · decide +kernel
  · decide +kernel
  · constructor
    · rintro ⟨i, s⟩ h0
      obtain ⟨rfl, rfl⟩ := rootDisk_own h0
      rw [rootDisk_block]
      exact ⟨by decide, by decide, by decide +kernel⟩
    · rintro ⟨i, s⟩ ⟨j, t⟩ h0 heq
      obtain ⟨rfl, rfl⟩ := rootDisk_own h0
      obtain ⟨rfl, rfl⟩ := rootDisk_own (heq ▸ h0)
      rfl

theorem rootDisk_ready : Ready rootGeometry ⟨rootDisk, -1⟩ := by
  have hdir : ∀ d, d < 5 → oiFtype rootDisk (inodeAddr d) = FTYPE_DIR → d = 1 := by decide +kernel
  have hsize : ∀ i, i < 5 → oiSize rootDisk (inodeAddr i) ≤ 256 := by decide +kernel
  have hroot : oiSize rootDisk (inodeAddr 1) = 256 := by decide +kernel
  have hcount : fileBlocks rootDisk 1 = 1 := by rw [fileBlocks, hroot]; rfl
  constructor
  · constructor
    · exact rootDisk_sound
    · intro i hi
      exact le_trans (hsize i hi.1) (by decide)
    · intro d hd hf _
      obtain rfl := hdir d hd hf
      constructor
      · exact hd
      · exact hf
      · rw [hroot]
        decide
      · rw [hroot]
      · intro k hk
        rw [hcount] at hk
        rw [show k = 0 by omega, dataSlot_direct (by decide)]
        exact (congrArg (· ≠ 0) rootDisk_block).mpr (by decide)
      · intro x h1 h2
        rw [hcount] at h2
        rw [hroot] at h1
        unfold fileByte
        rw [show x / 1024 = 0 by omega, dataSlot_direct (by decide)]
        have hblock : own rootGeometry rootDisk (1, .direct ⟨0, by decide⟩) = 4 := rootDisk_block
        rw [hblock]
        exact rootDisk_zero (by omega)
  · rfl
  · intro d hd hf
    obtain rfl := hdir d hd hf
    decide +kernel

/-- One call with enough fuel for the small volume. -/
def smallNext (s : State) (c : Callback) : Option State := c.run 4 s

theorem allowed_of_small (h : Run (fun s c t => smallNext s c = some t ∧ c.Allowed s.data) s cs s') :
    Run AllowedStep s cs s' :=
  h.mono fun hstep => ⟨⟨4, hstep.1⟩, hstep.2⟩

/-- A run on the small volume, and one call after it, by evaluation. -/
theorem small_run_then (cs : List Callback) {f : State → Option (State × Int)} {P : State → State → Prop}
    [∀ s s', Decidable (P s s')]
    (h : (runGuarded smallNext (fun s c => c.Allowed s.data) ⟨rootDisk, -1⟩ cs).any
      (fun s => decide (c.Allowed s.data ∧
        (f s).any (fun r => decide (r.2 = 0 ∧ P s r.1)) = true)) = true) :
    ∃ s s', Run AllowedStep ⟨rootDisk, -1⟩ cs s ∧ c.Allowed s.data ∧ f s = some (s', 0) ∧ P s s' := by
  obtain ⟨s, hrun, hallowed, hcall⟩ := Run.of_guarded _ _ _ _ _ h
  cases hf : f s with
  | none =>
    rw [hf] at hcall
    cases hcall
  | some r =>
    obtain ⟨s', ret⟩ := r
    rw [hf] at hcall
    obtain ⟨hret, hP⟩ := of_decide_eq_true hcall
    dsimp only at hret hP
    exact ⟨s, s', allowed_of_small hrun, hallowed, by rw [hf, hret], hP⟩

end Small

end CS111.Ospfs
