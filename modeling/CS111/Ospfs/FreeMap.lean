import CS111.Lib.Accounting
import CS111.Ospfs.Dropping

/-!
# The account of the free map

`allocate_block` and `free_block` as a pool of block numbers. `free_block` computes the end of the
inode blocks by a division that rounds down, and leaves out one number more: where the inodes fill
their last block, this is the first data block.
-/

namespace CS111.Ospfs

open Memory

set_option autoImplicit false

/-- The superblock says the geometry, and none of the blocks before the data is free. -/
structure Formatted (g : Geometry) (m : Bytes) : Prop where
  nblocks : osNblocks m = g.nblocks
  ninodes : osNinodes m = g.ninodes
  firstinob : osFirstinob m = 3
  reserved : ∀ b, b < g.dataStart → isFree m b = false

def freeBlocks (m : Bytes) : Set Nat := {b | b < osNblocks m ∧ isFree m b = true}

/-- The answer 0 of `allocate_block` is `none`. -/
def allocatorStep (m : Bytes) : PoolCall Nat → Bytes × Option Nat
  | .take =>
    let r := allocateBlock m
    (r.1, if r.2 = 0 then none else some r.2)
  | .give blockno => (freeBlock m blockno, none)

/-- `free_block` is called for data blocks in use. -/
def AllocatorCall (m : Bytes) : PoolCall Nat → Prop
  | .take => True
  | .give blockno => Allocated m blockno

variable {g : Geometry} {m m' : Bytes} {b : Nat} {call : PoolCall Nat}

namespace Formatted

theorem dataStart_eq (h : Formatted g m) : dataStart m = g.dataStart := by
  unfold dataStart Geometry.dataStart
  rw [h.firstinob, h.ninodes]

theorem freeBlock_eq (h : Formatted g m) (b : Nat) :
    freeBlock m b = if b ≤ 3 + g.ninodes / 16 then m else bitvectorSet m freemap b := by
  have hn := g.nblocks_le
  have hroom := g.room
  unfold freeBlock
  rw [h.firstinob, h.ninodes, u32_of_lt (by omega)]

/-- The numbers that `free_block` ignores. -/
theorem ignored_iff (h : g.dataStart ≤ b) :
    b ≤ 3 + g.ninodes / 16 ↔ g.ninodes % 16 = 0 ∧ b = g.dataStart := by
  unfold Geometry.dataStart at *
  omega

theorem of_map (h : Formatted g m) (hm : ∀ a, a < 2048 → m' a = m a)
    (hreserved : ∀ b, b < g.dataStart → isFree m' b = false) : Formatted g m' := by
  obtain ⟨h1, h2, h3⟩ := super_congr (m := m) fun a _ ha => hm a ha
  exact ⟨h1.trans h.nblocks, h2.trans h.ninodes, h3.trans h.firstinob, hreserved⟩

/-- `allocate_block` finds no free block, or takes one that is behind the inode blocks. -/
theorem allocate (h : Formatted g m) :
    (freeBlocks m = ∅ ∧ allocateBlock m = (m, 0)) ∨
      ∃ b, b ∈ freeBlocks m ∧ g.dataStart ≤ b ∧
        allocateBlock m = (bitvectorClear m freemap b, b) := by
  have hdata : ∀ b, isFree m b = true → g.dataStart ≤ b := by
    intro b hfree
    by_contra hlt
    rw [h.reserved b (by omega)] at hfree
    cases hfree
  have hge := g.dataStart_ge
  unfold allocateBlock
  rcases allocateFrom_spec (m := m) (osNblocks m) 0 with hnone | ⟨b, _, hlt, hfree, heq⟩
  · refine .inl ⟨Set.eq_empty_of_forall_notMem fun b hb => ?_, hnone⟩
    obtain ⟨c, _, hfree, heq⟩ :=
      allocateFrom_free 0 (osNblocks m) ⟨b, by omega, by have := hb.1; omega, hb.2⟩
    rw [hnone] at heq
    have h0 : 0 = c := congrArg Prod.snd heq
    have hc := hdata c hfree
    omega
  · exact .inr ⟨b, ⟨by omega, hfree⟩, hdata b hfree, heq⟩

theorem freeBlocks_clear (hb : b < g.nblocks) :
    freeBlocks (bitvectorClear m freemap b) = freeBlocks m \ {b} := by
  have hn := g.nblocks_le
  have hw := freemap_word (b := b) (by omega)
  have hnblocks : osNblocks (bitvectorClear m freemap b) = osNblocks m :=
    (super_congr fun a _ ha => bitvectorClear_outside (by unfold freemap at *; omega)).1
  ext c
  simp only [freeBlocks, isFree, Set.mem_ofPred_eq, Set.mem_sdiff, Set.mem_singleton_iff, hnblocks,
    bitvectorTest_clear, Bool.and_eq_true, decide_eq_true_eq]
  tauto

theorem freeBlocks_set (h : Formatted g m) (hb : b < g.nblocks) :
    freeBlocks (bitvectorSet m freemap b) = insert b (freeBlocks m) := by
  have hn := g.nblocks_le
  have hw := freemap_word (b := b) (by omega)
  have hnblocks : osNblocks (bitvectorSet m freemap b) = osNblocks m :=
    (super_congr fun a _ ha => bitvectorSet_outside (by unfold freemap at *; omega)).1
  have hlt : b < osNblocks m := by rwa [h.nblocks]
  ext c
  simp only [freeBlocks, isFree, Set.mem_ofPred_eq, Set.mem_insert_iff, hnblocks, bitvectorTest_set,
    Bool.or_eq_true, decide_eq_true_eq]
  constructor
  · rintro ⟨hc, rfl | hfree⟩
    · exact .inl rfl
    · exact .inr ⟨hc, hfree⟩
  · rintro (rfl | ⟨hc, hfree⟩)
    · exact ⟨hlt, .inl rfl⟩
    · exact ⟨hc, .inr hfree⟩

theorem step (h : Formatted g m) (hcall : AllocatorCall m call) :
    Formatted g (allocatorStep m call).1 := by
  have hn := g.nblocks_le
  cases call with
  | take =>
    unfold allocatorStep
    rcases h.allocate with ⟨-, heq⟩ | ⟨b, hb, hdata, heq⟩
    · rwa [heq]
    · rw [heq]
      have hlt : b < g.nblocks := h.nblocks ▸ hb.1
      have hw := freemap_word (b := b) (by omega)
      apply h.of_map
      · exact fun a ha => bitvectorClear_outside (by unfold freemap at *; omega)
      · intro c hc
        unfold isFree
        rw [bitvectorTest_clear]
        exact Bool.and_eq_false_imp.mpr fun _ => h.reserved c hc
  | give b =>
    obtain ⟨hdata, hlt, -⟩ := hcall
    rw [h.dataStart_eq] at hdata
    rw [h.nblocks] at hlt
    have hw := freemap_word (b := b) (by omega)
    simp only [allocatorStep, h.freeBlock_eq]
    split
    · exact h
    · apply h.of_map
      · exact fun a ha => bitvectorSet_outside (by unfold freemap at *; omega)
      · intro c hc
        unfold isFree
        rw [bitvectorTest_set]
        exact Bool.or_eq_false_iff.mpr ⟨decide_eq_false (by omega), h.reserved c hc⟩

theorem step_right (h : Formatted g m) (call : PoolCall Nat) :
    call.Right (freeBlocks m) (allocatorStep m call).2 := by
  cases call with
  | give b => trivial
  | take =>
    have hge := g.dataStart_ge
    unfold allocatorStep
    rcases h.allocate with ⟨hempty, heq⟩ | ⟨b, hb, hdata, heq⟩
    · rw [heq]
      exact ⟨iff_of_true rfl hempty, fun _ hitem => nomatch hitem⟩
    · have h0 : b ≠ 0 := by omega
      simp only [heq, if_neg h0]
      refine ⟨iff_of_false (by simp) (Set.nonempty_of_mem hb).ne_empty, fun item hitem => ?_⟩
      cases hitem
      exact hb

/-- Only the first data block can get lost. -/
theorem step_exact (h : Formatted g m) (hcall : AllocatorCall m call) :
    freeBlocks (allocatorStep m call).1 = call.after (freeBlocks m) (allocatorStep m call).2 ↔
      ¬ (g.ninodes % 16 = 0 ∧ call = .give g.dataStart) := by
  cases call with
  | take =>
    refine iff_of_true ?_ (by simp)
    have hge := g.dataStart_ge
    unfold allocatorStep
    rcases h.allocate with ⟨-, heq⟩ | ⟨b, hb, hdata, heq⟩
    · rw [heq]
      rfl
    · have h0 : b ≠ 0 := by omega
      simp only [heq, if_neg h0]
      exact freeBlocks_clear (h.nblocks ▸ hb.1)
  | give b =>
    obtain ⟨hdata, hlt, hused⟩ := hcall
    rw [h.dataStart_eq] at hdata
    rw [h.nblocks] at hlt
    have hlost : PoolCall.give b = .give g.dataStart ↔ b = g.dataStart := by simp
    simp only [allocatorStep, h.freeBlock_eq]
    rw [hlost, ← ignored_iff hdata]
    by_cases hle : b ≤ 3 + g.ninodes / 16
    · refine iff_of_false (fun heq => ?_) (not_not_intro hle)
      rw [if_pos hle] at heq
      have hmem : b ∈ freeBlocks m := heq ▸ Set.mem_insert b _
      rw [hmem.2] at hused
      cases hused
    · rw [if_neg hle]
      exact iff_of_true (h.freeBlocks_set hlt) hle

end Formatted

/-- The free map is right in every state of a run, and so is every answer of `allocate_block`, unless
the first data block is given back on a disk whose inodes fill their blocks. -/
theorem free_map_accounts_iff {calls : List (PoolCall Nat)} (h : Formatted g m)
    (hcalls : AllEnabled AllocatorCall (fun m call => (allocatorStep m call).1) m calls) :
    Accounts allocatorStep freeBlocks (freeBlocks m) m calls ↔
      ∀ call, call ∈ calls → ¬ (g.ninodes % 16 = 0 ∧ call = .give g.dataStart) :=
  accounts_iff (fun hs hcall => hs.step hcall) (fun hs _ => hs.step_right _)
    (fun hs hcall => hs.step_exact hcall) h hcalls

section BigFile

def bigGeometry : Geometry := ⟨300, 16, by decide, by decide, by decide⟩

theorem bigFile_formatted : Formatted bigGeometry bigFile := by
  obtain ⟨h1, h2, h3⟩ := bigFile_super
  refine ⟨h1, h2, h3, fun b hb => ?_⟩
  have hlt : b < 4 := hb
  rw [bigFile_free b (by omega)]
  exact decide_eq_false (by omega)

theorem bigFile_call {b : Nat} (h1 : 4 ≤ b) (h2 : b < 271) :
    AllEnabled AllocatorCall (fun m call => (allocatorStep m call).1) bigFile [.give b] :=
  ⟨bigFile_allocated h1 h2, trivial⟩

theorem free_map_accounts_iff_bigFile :
    Accounts allocatorStep freeBlocks (freeBlocks bigFile) bigFile [.give 5] ∧
      ¬ Accounts allocatorStep freeBlocks (freeBlocks bigFile) bigFile [.give 4] := by
  constructor
  · apply (free_map_accounts_iff bigFile_formatted (bigFile_call (by decide) (by decide))).mpr
    decide
  · intro h
    have hkept := (free_map_accounts_iff bigFile_formatted
      (bigFile_call (by decide) (by decide))).mp h
    exact hkept (.give 4) (by simp) ⟨rfl, rfl⟩

/-- Block 4 is the first data block behind 16 inodes. It is in use, and still is after it has been
given back. -/
theorem first_data_block_lost : Formatted bigGeometry bigFile ∧
    AllEnabled AllocatorCall (fun m call => (allocatorStep m call).1) bigFile [.give 4] ∧
    freeBlock bigFile 4 = bigFile ∧
    ¬ Accounts allocatorStep freeBlocks (freeBlocks bigFile) bigFile [.give 4] := by
  have hsame : freeBlock bigFile 4 = bigFile := by
    rw [bigFile_formatted.freeBlock_eq]
    rfl
  refine ⟨bigFile_formatted, bigFile_call (by decide) (by decide), hsame, fun h => ?_⟩
  have hfree : freeBlocks (freeBlock bigFile 4) = insert 4 (freeBlocks bigFile) := h.2.2
  have hmem : 4 ∈ freeBlocks bigFile := by
    rw [hsame] at hfree
    rw [hfree]
    exact Set.mem_insert 4 _
  have hfree4 : isFree bigFile 4 = true := hmem.2
  rw [bigFile_free 4 (by decide)] at hfree4
  exact absurd hfree4 (by decide)

end BigFile

end CS111.Ospfs
