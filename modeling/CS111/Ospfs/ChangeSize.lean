import CS111.Ospfs.Resize

/-!
# Changing the size of a file

The loops of `change_size`: what every call that returns preserves, and what a call on a file
without missing blocks does to the file.
-/

namespace CS111.Ospfs

open Memory

set_option autoImplicit false

variable {g : Geometry} {m m' m₀ : Bytes} {i fuel target newSize : Nat} {r : Int}

section AnyFile

/-- What a loop of `change_size` guarantees when it ends. -/
structure Resized (g : Geometry) (i : Nat) (m m' : Bytes) (r : Int) : Prop where
  change : Change g i m m'
  bound : fileBlocks m' i ≤ max (fileBlocks m i) 266
  result : r = 0 ∨ r = - EIO ∧ fileBlocks m' i ≠ 0

theorem Resized.same (hs : Sound g m) (hr : r = 0 ∨ r = - EIO ∧ fileBlocks m i ≠ 0) :
    Resized g i m m r := ⟨Change.refl hs i, by omega, hr⟩

theorem Resized.of_change {m₁ : Bytes} (hc : Change g i m m₁)
    (hb : fileBlocks m₁ i ≤ max (fileBlocks m i) 266) (h : Resized g i m₁ m' r) :
    Resized g i m m' r := by
  constructor
  · exact hc.trans h.change
  · have := h.bound
    omega
  · exact h.result

theorem removeBlocks_resized (hs : Sound g m) (hx : HasBlocks g m i)
    (hn : fileBlocks m i ≤ 65802)
    (h : removeBlocks (inodeAddr i) target fuel m = some (m', r)) :
    Resized g i m m' r ∧ (r = 0 → fileBlocks m' i ≤ target) := by
  refine removeBlocks_run (P := fun m r => Sound g m → HasBlocks g m i → fileBlocks m i ≤ 65802 →
    Resized g i m r.1 r.2 ∧ (r.2 = 0 → fileBlocks r.1 i ≤ target)) ?_ ?_ ?_ h hs hx hn
  · intro m hle hs _ _
    exact ⟨.same hs (.inl rfl), fun _ => hle⟩
  · intro m hgt hneg hs hx hn
    change target < fileBlocks m i at hgt
    rcases removeBlock_spec hs hx (by omega) hn with ⟨heq, _⟩ | ⟨m₁, heq, _, _, _⟩
    · rw [heq]
      exact ⟨.same hs (.inr ⟨rfl, by omega⟩), fun (hr : - EIO = 0) => absurd hr (by decide)⟩
    · rw [heq] at hneg
      exact absurd hneg (Int.lt_irrefl 0)
  · intro m r hgt hok hrest hs hx hn
    change target < fileBlocks m i at hgt
    rcases removeBlock_spec hs hx (by omega) hn with ⟨heq, _⟩ | ⟨m₁, heq, hc, hcount, _⟩
    · rw [heq] at hok
      exact absurd neg_EIO hok
    · rw [heq] at hrest
      dsimp only at hrest
      obtain ⟨hres, htarget⟩ := hrest hc.sound (hc.hasBlocks hx) (by omega)
      exact ⟨hres.of_change hc (by omega), htarget⟩

theorem addBlocks_stop {oldSize : Nat} (hge : size2nblocks newSize ≤ fileBlocks m i)
    (h : addBlocks (inodeAddr i) oldSize newSize fuel m = some (m', r)) : m' = m ∧ r = 0 := by
  cases fuel with
  | zero => exact absurd h (by simp [addBlocks])
  | succ fuel =>
    rw [addBlocks] at h
    change (if fileBlocks m i < size2nblocks newSize then _ else _) = _ at h
    rw [if_neg (by omega), Option.some.injEq, Prod.mk.injEq] at h
    exact ⟨h.1.symm, h.2.symm⟩

theorem addBlocks_resized {oldSize : Nat} (hs : Sound g m) (hx : HasBlocks g m i)
    (hnew : size2nblocks newSize ≤ 266)
    (h : addBlocks (inodeAddr i) oldSize newSize fuel m = some (m', r)) :
    Resized g i m m' r := by
  have hback : ∀ m s fuel, fileBlocks m i < size2nblocks newSize →
      (addBlock m (inodeAddr i)).2 = -ENOSPC →
      removeBlocks (inodeAddr i) (size2nblocks oldSize) fuel (addBlock m (inodeAddr i)).1 = some s →
      Sound g m → HasBlocks g m i → Resized g i m s.1 s.2 := by
    intro m s fuel hlt hfull hremoved hs hx
    rcases addBlock_spec hs hx (by omega) with ⟨m₁, heq, hun⟩ | ⟨m₁, heq, _⟩
    · rw [heq] at hremoved
      have hcount := hun.fields.fileBlocks hx.1
      obtain ⟨hres, _⟩ := removeBlocks_resized hun.change.sound (hun.change.hasBlocks hx) (by omega)
        hremoved
      exact hres.of_change hun.change (by omega)
    · rw [heq] at hfull
      exact absurd hfull (show (0 : Int) ≠ -ENOSPC by decide)
  refine addBlocks_run (P := fun m r => Sound g m → HasBlocks g m i → Resized g i m r.1 r.2)
    ?_ ?_ ?_ ?_ ?_ h hs hx
  · exact fun m _ hs _ => .same hs (.inl rfl)
  · intro m hlt hio hs hx
    change fileBlocks m i < _ at hlt
    rcases addBlock_spec hs hx (by omega) with ⟨m₁, heq, _⟩ | ⟨m₁, heq, _⟩
    · rw [heq] at hio
      exact absurd hio (show -ENOSPC ≠ - EIO by decide)
    · rw [heq] at hio
      exact absurd hio (show (0 : Int) ≠ - EIO by decide)
  · exact fun m s fuel hlt hfull hremoved _ hs hx => hback m s fuel hlt hfull hremoved hs hx
  · intro m s r fuel hlt hfull hremoved _ hrest hs hx
    change fileBlocks m i < _ at hlt
    have hres := hback m s fuel hlt hfull hremoved hs hx
    have hb := hres.bound
    exact (hrest hres.change.sound (hres.change.hasBlocks hx)).of_change hres.change (by omega)
  · intro m r hlt _ hfull hrest hs hx
    change fileBlocks m i < _ at hlt
    rcases addBlock_spec hs hx (by omega) with ⟨m₁, heq, _⟩ | ⟨m₁, heq, hgr⟩
    · rw [heq] at hfull
      exact absurd rfl hfull
    · rw [heq] at hrest
      have hcount := hgr.count
      exact (hrest hgr.change.sound (hgr.change.hasBlocks hx)).of_change hgr.change (by omega)

/-- The largest size that the block pointers of an inode cover. -/
def maxFileSize : Nat := 67381248

theorem fileBlocks_of_size (h : oiSize m (inodeAddr i) ≤ maxFileSize) :
    fileBlocks m i = (oiSize m (inodeAddr i) + 1023) / 1024 := by
  unfold maxFileSize at h
  exact size2nblocks_of_lt (by omega)

theorem fileBlocks_le (h : oiSize m (inodeAddr i) ≤ maxFileSize) : fileBlocks m i ≤ 65802 := by
  rw [fileBlocks_of_size h]
  unfold maxFileSize at h
  omega

/-- A block count that has not wrapped around bounds the size. -/
theorem size_le_of_fileBlocks (h0 : fileBlocks m i ≠ 0) (hn : fileBlocks m i ≤ 65802) :
    oiSize m (inodeAddr i) ≤ maxFileSize := by
  have hlt := rd32_lt m (inodeAddr i)
  unfold fileBlocks size2nblocks u32 at h0 hn
  unfold maxFileSize
  unfold oiSize at *
  omega

/-- A size that does not make the file grow past its direct and indirect blocks. -/
def WithinIndirect (oldSize newSize : Nat) : Prop :=
  (newSize + 1023) / 1024 ≤ max 266 ((oldSize + 1023) / 1024)

theorem changeSize_change (hs : Sound g m) (hx : HasBlocks g m i)
    (hold : oiSize m (inodeAddr i) ≤ maxFileSize)
    (hnew : WithinIndirect (oiSize m (inodeAddr i)) newSize)
    (h : changeSize fuel m (inodeAddr i) newSize = some (m', r)) :
    Change g i m m' ∧ oiSize m' (inodeAddr i) ≤ maxFileSize := by
  have hn := fileBlocks_le hold
  have hcount := fileBlocks_of_size hold
  have hmax : newSize ≤ maxFileSize := by
    unfold WithinIndirect at hnew
    unfold maxFileSize at hold ⊢
    omega
  have hnewcount : size2nblocks newSize = (newSize + 1023) / 1024 :=
    size2nblocks_of_lt (by unfold maxFileSize at hmax; omega)
  unfold changeSize at h
  cases hadd : addBlocks (inodeAddr i) (oiSize m (inodeAddr i)) newSize fuel m with
  | none => rw [hadd] at h; exact absurd h (by simp)
  | some r₁ =>
    obtain ⟨m₁, r₁⟩ := r₁
    rw [hadd] at h
    have hres : Resized g i m m₁ r₁ := by
      by_cases hge : size2nblocks newSize ≤ fileBlocks m i
      · obtain ⟨rfl, rfl⟩ := addBlocks_stop hge hadd
        exact ⟨Change.refl hs i, by omega, .inl rfl⟩
      · unfold WithinIndirect at hnew
        exact addBlocks_resized hs hx (by omega) hadd
    have hb := hres.bound
    rcases hres.result with rfl | ⟨rfl, h0⟩
    · simp only [Int.lt_irrefl, if_false] at h
      cases hrem : removeBlocks (inodeAddr i) (size2nblocks newSize) fuel m₁ with
      | none => rw [hrem] at h; exact absurd h (by simp)
      | some s =>
        obtain ⟨m₂, r₂⟩ := s
        rw [hrem] at h
        obtain ⟨hres₂, _⟩ := removeBlocks_resized hres.change.sound (hres.change.hasBlocks hx)
          (by omega) hrem
        have hb₂ := hres₂.bound
        have hc := hres.change.trans hres₂.change
        rcases hres₂.result with rfl | ⟨rfl, h0⟩
        · simp only [Int.lt_irrefl, if_false, Option.some.injEq, Prod.mk.injEq] at h
          obtain ⟨rfl, rfl⟩ := h
          refine ⟨hc.trans (setSize_change hc.sound hx.1 _), ?_⟩
          rw [oiSize_setSize (by unfold maxFileSize at hmax; omega)]
          exact hmax
        · simp only [ EIO, Int.reduceNeg, Int.reduceLT, if_true, Option.some.injEq,
            Prod.mk.injEq] at h
          obtain ⟨rfl, rfl⟩ := h
          exact ⟨hc, size_le_of_fileBlocks h0 (by omega)⟩
    · simp only [ EIO, Int.reduceNeg, Int.reduceLT, if_true, Option.some.injEq, Prod.mk.injEq] at h
      obtain ⟨rfl, rfl⟩ := h
      exact ⟨hres.change, size_le_of_fileBlocks h0 (by omega)⟩

end AnyFile

section CompleteFile

/-- No block of the file is missing. -/
def Complete (g : Geometry) (m : Bytes) (i : Nat) : Prop :=
  ∀ k, k < fileBlocks m i → own g m (i, dataSlot k) ≠ 0

/-- The data slots of the first `n` file blocks. -/
def FirstSlots (n : Nat) (s : Slot) : Prop := ∃ k, k < n ∧ s = dataSlot k

theorem FirstSlots.mono {n n' : Nat} (h : n ≤ n') (s : Slot) (hs : FirstSlots n s) :
    FirstSlots n' s := by
  obtain ⟨k, hk, rfl⟩ := hs
  exact ⟨k, by omega, rfl⟩

theorem removeBlocks_complete (hs : Sound g m) (hx : HasBlocks g m i)
    (hn : fileBlocks m i ≤ 266) (hcomp : Complete g m i)
    (h : removeBlocks (inodeAddr i) target fuel m = some (m', r)) :
    r = 0 ∧ Change g i m m' ∧ fileBlocks m' i = min (fileBlocks m i) target ∧
      Keep g i (FirstSlots (min (fileBlocks m i) target)) m m' := by
  refine removeBlocks_run (P := fun m r => Sound g m → HasBlocks g m i → fileBlocks m i ≤ 266 →
    Complete g m i → r.2 = 0 ∧ Change g i m r.1 ∧ fileBlocks r.1 i = min (fileBlocks m i) target ∧
      Keep g i (FirstSlots (min (fileBlocks m i) target)) m r.1) ?_ ?_ ?_ h hs hx hn hcomp
  · intro m hle hs _ _ _
    exact ⟨rfl, Change.refl hs i, (Nat.min_eq_left hle).symm, Keep.refl⟩
  · intro m hgt hneg hs hx hn hcomp
    change target < fileBlocks m i at hgt
    rcases removeBlock_spec hs hx (by omega) (by omega) with ⟨_, h0⟩ | ⟨m₁, heq, _, _, _⟩
    · exact absurd (h0 hn) (hcomp _ (by omega))
    · rw [heq] at hneg
      exact absurd hneg (Int.lt_irrefl 0)
  · intro m r hgt hok hrest hs hx hn hcomp
    change target < fileBlocks m i at hgt
    rcases removeBlock_spec hs hx (by omega) (by omega) with ⟨_, h0⟩ | ⟨m₁, heq, hc, hcount, hkeep⟩
    · exact absurd (h0 hn) (hcomp _ (by omega))
    · rw [heq] at hrest
      dsimp only at hrest
      have hk := hkeep hn
      have hcomp₁ : Complete g m₁ i := by
        intro k hk'
        rw [hk.own_eq _ ⟨k, by omega, rfl⟩ (dataSlot_isIndex k)]
        exact hcomp k (by omega)
      obtain ⟨hr, hc', hcount', hkeep'⟩ := hrest hc.sound (hc.hasBlocks hx) (by omega) hcomp₁
      refine ⟨hr, hc.trans hc', by omega, ?_⟩
      have hmin : min (fileBlocks m₁ i) target = min (fileBlocks m i) target := by omega
      rw [hmin] at hkeep'
      refine Keep.trans (hk.mono ?_) hkeep'
      rintro s ⟨k, hk', rfl⟩
      exact ⟨k, by omega, rfl⟩

/-- The file has grown from `m₀`: the old blocks are kept and the new ones are zero. -/
structure Growing (g : Geometry) (i : Nat) (m₀ m : Bytes) : Prop where
  change : Change g i m₀ m
  lower : fileBlocks m₀ i ≤ fileBlocks m i
  upper : fileBlocks m i ≤ 266
  keep : Keep g i (FirstSlots (fileBlocks m₀ i)) m₀ m
  fresh : ∀ k, fileBlocks m₀ i ≤ k → k < fileBlocks m i →
    own g m (i, dataSlot k) ≠ 0 ∧ ZeroBlock m (own g m (i, dataSlot k))

theorem Growing.refl (hs : Sound g m) (hn : fileBlocks m i ≤ 266) : Growing g i m m := by
  constructor
  · exact Change.refl hs i
  · exact Nat.le_refl _
  · exact hn
  · exact Keep.refl
  · intro k h1 h2
    omega

theorem Growing.complete (h : Growing g i m₀ m) (hcomp : Complete g m₀ i) : Complete g m i := by
  intro k hk
  by_cases hlt : k < fileBlocks m₀ i
  · rw [h.keep.own_eq _ ⟨k, hlt, rfl⟩ (dataSlot_isIndex k)]
    exact hcomp k hlt
  · exact (h.fresh k (by omega) hk).1

/-- A step that keeps the blocks below `n`. -/
theorem Growing.keep_step {n : Nat} (h : Growing g i m₀ m) (hc : Change g i m m')
    (hn0 : fileBlocks m₀ i ≤ n) (hn : n ≤ fileBlocks m i) (hcount : fileBlocks m' i = n)
    (hk : Keep g i (FirstSlots n) m m') : Growing g i m₀ m' := by
  constructor
  · exact h.change.trans hc
  · omega
  · have := h.upper
    omega
  · exact h.keep.trans (hk.mono (FirstSlots.mono hn0))
  · intro k h1 h2
    obtain ⟨h3, h4⟩ := h.fresh k h1 (by omega)
    have heq := hk.own_eq _ ⟨k, by omega, rfl⟩ (dataSlot_isIndex k)
    rw [heq]
    refine ⟨h3, fun a ha => ?_⟩
    rw [hk.data _ ⟨k, by omega, rfl⟩ (dataSlot_isIndex k) h3 a ha, h4 a ha]

theorem Growing.grown (h : Growing g i m₀ m) (hgr : Grown g i (fileBlocks m i) m m')
    (hlt : fileBlocks m i < 266) : Growing g i m₀ m' := by
  have hl := h.lower
  have hcount := hgr.count
  have hne : ∀ k, k < fileBlocks m i → dataSlot k ≠ dataSlot (fileBlocks m i) := by
    intro k hk heq
    have := dataSlot_inj (by omega) (by omega) heq
    omega
  constructor
  · exact h.change.trans hgr.change
  · omega
  · omega
  · apply h.keep.trans (hgr.keep.mono _)
    rintro s ⟨k, hk, rfl⟩
    exact hne k (by omega)
  · intro k h1 h2
    by_cases hk : k = fileBlocks m i
    · rw [hk]
      exact ⟨hgr.new, hgr.zero⟩
    · obtain ⟨h3, h4⟩ := h.fresh k h1 (by omega)
      have hnek := hne k (by omega)
      rw [hgr.keep.own_eq _ hnek (dataSlot_isIndex k)]
      refine ⟨h3, fun a ha => ?_⟩
      rw [hgr.keep.data _ hnek (dataSlot_isIndex k) h3 a ha, h4 a ha]

theorem addBlocks_complete (hx : HasBlocks g m₀ i) (hcomp : Complete g m₀ i)
    (hnew : size2nblocks newSize ≤ 266) (hg : Growing g i m₀ m)
    (h : addBlocks (inodeAddr i) (oiSize m₀ (inodeAddr i)) newSize fuel m = some (m', r)) :
    r = 0 ∧ Growing g i m₀ m' ∧ size2nblocks newSize ≤ fileBlocks m' i := by
  have hback : ∀ m s fuel, fileBlocks m i < size2nblocks newSize →
      (addBlock m (inodeAddr i)).2 = -ENOSPC →
      removeBlocks (inodeAddr i) (size2nblocks (oiSize m₀ (inodeAddr i))) fuel
        (addBlock m (inodeAddr i)).1 = some s →
      Growing g i m₀ m → s.2 = 0 ∧ Growing g i m₀ s.1 := by
    intro m s fuel hlt hfull hremoved hg
    have hl := hg.lower
    rcases addBlock_spec hg.change.sound (hg.change.hasBlocks hx) (by omega) with
      ⟨m₁, heq, hun⟩ | ⟨m₁, heq, _⟩
    · rw [heq] at hremoved
      have hg₁ : Growing g i m₀ m₁ := hg.keep_step hun.change hl (Nat.le_refl _)
        (hun.fields.fileBlocks (hg.change.hasBlocks hx).1) (hun.keep.mono fun _ _ => trivial)
      obtain ⟨hr, hc, hcount, hkeep⟩ := removeBlocks_complete hg₁.change.sound
        (hg₁.change.hasBlocks hx) hg₁.upper (hg₁.complete hcomp) hremoved
      have hl₁ := hg₁.lower
      have hold : size2nblocks (oiSize m₀ (inodeAddr i)) = fileBlocks m₀ i := rfl
      exact ⟨hr, hg₁.keep_step hc (by omega) (by omega) hcount hkeep⟩
    · rw [heq] at hfull
      exact absurd hfull (show (0 : Int) ≠ -ENOSPC by decide)
  refine addBlocks_run (P := fun m r => Growing g i m₀ m →
    r.2 = 0 ∧ Growing g i m₀ r.1 ∧ size2nblocks newSize ≤ fileBlocks r.1 i) ?_ ?_ ?_ ?_ ?_ h hg
  · exact fun m hle hg => ⟨rfl, hg, hle⟩
  · intro m hlt hio hg
    change fileBlocks m i < _ at hlt
    rcases addBlock_spec hg.change.sound (hg.change.hasBlocks hx) (by omega) with
      ⟨m₁, heq, _⟩ | ⟨m₁, heq, _⟩
    · rw [heq] at hio
      exact absurd hio (show -ENOSPC ≠ - EIO by decide)
    · rw [heq] at hio
      exact absurd hio (show (0 : Int) ≠ - EIO by decide)
  · intro m s fuel hlt hfull hremoved hneg hg
    have hr := (hback m s fuel hlt hfull hremoved hg).1
    omega
  · exact fun m s r fuel hlt hfull hremoved _ hrest hg =>
      hrest (hback m s fuel hlt hfull hremoved hg).2
  · intro m r hlt _ hfull hrest hg
    change fileBlocks m i < _ at hlt
    rcases addBlock_spec hg.change.sound (hg.change.hasBlocks hx) (by omega) with
      ⟨m₁, heq, _⟩ | ⟨m₁, heq, hgr⟩
    · rw [heq] at hfull
      exact absurd rfl hfull
    · rw [heq] at hrest
      exact hrest (hg.grown hgr (by omega))

/-- What `change_size` does to a file without missing blocks: the blocks that both sizes cover
are kept, those that only the new size covers are zero. -/
structure SizeChanged (g : Geometry) (i newSize : Nat) (m m' : Bytes) : Prop where
  change : Change g i m m'
  size : oiSize m' (inodeAddr i) = newSize
  keep : Keep g i (FirstSlots (min (fileBlocks m i) (size2nblocks newSize))) m m'
  fresh : ∀ k, fileBlocks m i ≤ k → k < size2nblocks newSize →
    own g m' (i, dataSlot k) ≠ 0 ∧ ZeroBlock m' (own g m' (i, dataSlot k))

theorem changeSize_complete (hs : Sound g m) (hx : HasBlocks g m i) (hn : fileBlocks m i ≤ 266)
    (hcomp : Complete g m i) (hlt : newSize < 4294967296) (hnew : size2nblocks newSize ≤ 266)
    (h : changeSize fuel m (inodeAddr i) newSize = some (m', r)) :
    r = 0 ∧ SizeChanged g i newSize m m' := by
  unfold changeSize at h
  cases hadd : addBlocks (inodeAddr i) (oiSize m (inodeAddr i)) newSize fuel m with
  | none => rw [hadd] at h; exact absurd h (by simp)
  | some r₁ =>
    obtain ⟨m₁, r₁⟩ := r₁
    rw [hadd] at h
    obtain ⟨rfl, hg, hge⟩ := addBlocks_complete hx hcomp hnew (Growing.refl hs hn) hadd
    simp only [Int.lt_irrefl, if_false] at h
    cases hrem : removeBlocks (inodeAddr i) (size2nblocks newSize) fuel m₁ with
    | none => rw [hrem] at h; exact absurd h (by simp)
    | some s =>
      obtain ⟨m₂, r₂⟩ := s
      rw [hrem] at h
      have hx₁ := hg.change.hasBlocks hx
      obtain ⟨rfl, hc, hcount, hkeep⟩ := removeBlocks_complete hg.change.sound hx₁ hg.upper
        (hg.complete hcomp) hrem
      simp only [Int.lt_irrefl, if_false, Option.some.injEq, Prod.mk.injEq] at h
      obtain ⟨rfl, rfl⟩ := h
      have hl := hg.lower
      have hset := setSize_keep hc.sound hx.1 (K := FirstSlots (size2nblocks newSize)) newSize
      have hmin : min (fileBlocks m₁ i) (size2nblocks newSize) = size2nblocks newSize := by omega
      rw [hmin] at hkeep
      have hall := hkeep.trans hset
      refine ⟨rfl, ?_, oiSize_setSize hlt, ?_, ?_⟩
      · exact (hg.change.trans hc).trans (setSize_change hc.sound hx.1 _)
      · apply (hg.keep.mono (FirstSlots.mono (by omega))).trans
        exact hall.mono (FirstSlots.mono (by omega))
      · intro k h1 h2
        obtain ⟨h3, h4⟩ := hg.fresh k h1 (by omega)
        rw [hall.own_eq _ ⟨k, h2, rfl⟩ (dataSlot_isIndex k)]
        refine ⟨h3, fun a ha => ?_⟩
        rw [hall.data _ ⟨k, h2, rfl⟩ (dataSlot_isIndex k) h3 a ha, h4 a ha]

theorem SizeChanged.complete (h : SizeChanged g i newSize m m') (hcomp : Complete g m i) :
    Complete g m' i := by
  intro k hk
  rw [fileBlocks, h.size] at hk
  by_cases hlt : k < fileBlocks m i
  · rw [h.keep.own_eq _ ⟨k, by omega, rfl⟩ (dataSlot_isIndex k)]
    exact hcomp k hlt
  · exact (h.fresh k (by omega) hk).1

end CompleteFile

end CS111.Ospfs
