import CS111.Ospfs.Shrinking

/-!
# Removing the last block

On a well-formed file `remove_block` clears the slots that no longer serve a block, except where the
last block is the first one of a leaf index block: there it gives back the indirect block, and not the
leaf. `free_block` ignores the numbers up to `freeBound`.
-/

namespace CS111.Ospfs

open Memory

set_option autoImplicit false

variable {m m' m'' : Bytes} {oi n k last b c target fuel : Nat} {s t : Slot} {slots : List Slot}

section Dropped

/-- These slots have been cleared, and their blocks given back. -/
structure Dropped (oi : Nat) (slots : List Slot) (m m' : Bytes) : Prop where
  cleared : Cleared oi m m'
  gone : ∀ t s, s ∈ slots → t = s ∨ t.Below s → ptr m' oi t = 0
  kept : ∀ t, (∀ s, s ∈ slots → t ≠ s ∧ ¬ t.Below s) → ptr m' oi t = ptr m oi t
  free : ∀ c, c < osNblocks m → (isFree m' c = true ↔
    isFree m c = true ∨ freeBound m < c ∧ ∃ s, s ∈ slots ∧ ptr m oi s = c)
  data : ∀ a, dataStart m ≤ a / 1024 →
    (∀ p, p.isIndex = true → ptr m oi p ≠ 0 → a / 1024 ≠ ptr m oi p) → m' a = m a

theorem Dropped.nil : Dropped oi [] m m where
  cleared := Cleared.refl
  gone _ _ hs := by cases hs
  kept _ _ := rfl
  free c _ := by
    constructor
    · exact .inl
    · rintro (h | ⟨_, s, hs, _⟩)
      · exact h
      · cases hs
  data _ _ _ := rfl

theorem Cleared.freeBound (h : Cleared oi m m') : freeBound m' = freeBound m := by
  obtain ⟨_, h2, h3⟩ := h.superblock
  unfold CS111.Ospfs.freeBound
  rw [h2, h3]

/-- A slot is dropped first, and later ones do not lie below it. -/
theorem Dropped.cons (h : Dropped oi [s] m m') (h' : Dropped oi slots m' m'')
    (hp : Parts m oi) (hpt : Pointed m oi) (hlater : ∀ t, t ∈ slots → t ≠ s ∧ ¬ t.Below s) :
    Dropped oi (s :: slots) m m'' := by
  have hkept : ∀ t, t ≠ s → ¬ t.Below s → ptr m' oi t = ptr m oi t := by
    intro t h1 h2
    apply h.kept
    intro u hu
    rw [List.mem_singleton.mp hu]
    exact ⟨h1, h2⟩
  constructor
  · exact h.cleared.trans h'.cleared
  · intro t u hu ht
    rcases List.mem_cons.mp hu with rfl | hu
    · have h0 := h.gone t u List.mem_cons_self ht
      have hafter := h'.cleared.ptr (h.cleared.parts hp) (h.cleared.pointed hp hpt) t
      rw [h0, or_self] at hafter
      exact hafter
    · exact h'.gone t u hu ht
  · intro t ht
    obtain ⟨h1, h2⟩ := ht s List.mem_cons_self
    rw [h'.kept t fun u hu => ht u (List.mem_cons_of_mem s hu), hkept t h1 h2]
  · intro c hc
    rw [h'.free c (by rw [h.cleared.superblock.1]; exact hc), h.free c hc, h.cleared.freeBound]
    constructor
    · rintro ((hfree | ⟨hb, u, hu, heq⟩) | ⟨hb, u, hu, heq⟩)
      · exact .inl hfree
      · exact .inr ⟨hb, u, List.mem_singleton.mp hu ▸ List.mem_cons_self, heq⟩
      · obtain ⟨h1, h2⟩ := hlater u hu
        rw [hkept u h1 h2] at heq
        exact .inr ⟨hb, u, List.mem_cons_of_mem s hu, heq⟩
    · rintro (hfree | ⟨hb, u, hu, heq⟩)
      · exact .inl (.inl hfree)
      · rcases List.mem_cons.mp hu with rfl | hu
        · exact .inl (.inr ⟨hb, u, List.mem_cons_self, heq⟩)
        · obtain ⟨h1, h2⟩ := hlater u hu
          rw [← hkept u h1 h2] at heq
          exact .inr ⟨hb, u, hu, heq⟩
  · intro a ha hindex
    rw [h'.data a (by rw [h.cleared.dataStart]; exact ha), h.data a ha hindex]
    intro p hp' h0
    have heq := (h.cleared.ptr hp hpt p).resolve_right h0
    rw [heq]
    exact hindex p hp' (heq ▸ h0)

theorem IndexTree.of_cleared {lo : Nat} (h : IndexTree m oi lo)
    (hptr : ∀ t, ptr m' oi t = ptr m oi t ∨ ptr m' oi t = 0) : IndexTree m' oi lo where
  bound t ht h0 := by
    have heq := (hptr t).resolve_right h0
    rw [heq]
    exact h.bound t ht (heq ▸ h0)
  inj t u ht hu h0 heq := by
    have ht' := (hptr t).resolve_right h0
    have hu' := (hptr u).resolve_right (heq ▸ h0)
    rw [ht', hu'] at heq
    exact h.inj t u ht hu (ht' ▸ h0) heq
  region := h.region

section One
variable (hp : Parts m oi) (hpt : Pointed m oi) (htree : IndexTree m oi (dataStart m))
variable (hs : ∀ p, s.parent = some p → ptr m oi p ≠ 0)
include hp

theorem Parts.isFree_freeBlock :
    isFree (freeBlock m b) c = true ↔ isFree m c = true ∨ freeBound m < c ∧ b = c := by
  rw [hp.freeBlock_eq]
  by_cases hle : b ≤ freeBound m
  · rw [if_pos hle]
    constructor
    · exact .inl
    · rintro (h | ⟨h1, h2⟩)
      · exact h
      · omega
  · rw [if_neg hle]
    unfold isFree
    rw [bitvectorTest_set, Bool.or_eq_true, decide_eq_true_eq]
    constructor
    · rintro (rfl | h)
      · exact .inr ⟨by omega, rfl⟩
      · exact .inl h
    · rintro (h | ⟨_, rfl⟩)
      · exact .inr h
      · exact .inl rfl

include hpt htree hs

theorem dropSlot_dropped : Dropped oi [s] m (dropSlot oi m s) := by
  obtain ⟨hplace, hregion, _⟩ := hp.inode_place
  have hlt := Pointed.lt_nblocks hp hpt s
  have hkept := Pointed.ptr_freeBlock hp hpt hlt
  have htree' := htree.congr hkept
  have hs' : ∀ p, s.parent = some p → ptr (freeBlock m (ptr m oi s)) oi p ≠ 0 := by
    intro p hparent
    rw [hkept]
    exact hs p hparent
  have hptr : ∀ t, ptr (dropSlot oi m s) oi t = if t = s then 0 else if t.Below s then 0 else
      ptr m oi t := by
    intro t
    unfold dropSlot
    rw [htree'.ptr_setCell hs' (by decide) (fun h => absurd rfl h), hkept]
  have hout : ∀ a, a < oi + 16 ∨ oi + 64 ≤ a →
      (∀ p, p.isIndex = true → ptr m oi p ≠ 0 → a / 1024 ≠ ptr m oi p) →
      dropSlot oi m s a = freeBlock m (ptr m oi s) a := by
    intro a ha hindex
    apply wr32_outside
    rcases cell_place hs' with ⟨h1, h2⟩ | ⟨p, hindex', h0, h1, h2⟩
    · omega
    · rw [hkept] at h0 h1
      have hne := hindex p hindex' h0
      omega
  constructor
  · exact Pointed.dropSlot_cleared hp hpt hs
  · intro t u hu ht
    rw [List.mem_singleton.mp hu] at ht
    rw [hptr]
    rcases ht with heq | hbelow
    · rw [if_pos heq]
    · rw [if_pos hbelow, ite_self]
  · intro t ht
    obtain ⟨h1, h2⟩ := ht s List.mem_cons_self
    rw [hptr, if_neg h1, if_neg h2]
  · intro c hc
    have hword := hp.map_word hc
    have hsame : isFree (dropSlot oi m s) c = isFree (freeBlock m (ptr m oi s)) c := by
      apply bitvectorTest_congr
      intro k hk
      apply hout _ (by omega)
      intro p _ h0
      obtain ⟨hlo, _⟩ := hpt p h0
      omega
    rw [hsame, hp.isFree_freeBlock]
    constructor
    · rintro (h | ⟨h1, h2⟩)
      · exact .inl h
      · exact .inr ⟨h1, s, List.mem_cons_self, h2⟩
    · rintro (h | ⟨h1, u, hu, h2⟩)
      · exact .inl h
      · rw [List.mem_singleton.mp hu] at h2
        exact .inr ⟨h1, h2⟩
  · intro a ha hindex
    rw [hout a (by omega) hindex]
    exact hp.freeBlock_outside hlt (by omega)

end One

theorem dropSlots_dropped_roots (hp : Parts m oi) (hpt : Pointed m oi)
    (htree : IndexTree m oi (dataStart m)) (hroots : ∀ s, s ∈ slots → s.parent = none)
    (hnodup : slots.Nodup) : Dropped oi slots m (dropSlots oi slots m) := by
  induction slots generalizing m with
  | nil => exact Dropped.nil
  | cons s slots ih =>
    obtain ⟨hnot, hnodup⟩ := List.nodup_cons.mp hnodup
    have h := dropSlot_dropped hp hpt htree (root_slot (hroots s List.mem_cons_self))
    refine h.cons (ih (h.cleared.parts hp) (h.cleared.pointed hp hpt) ?_ ?_ hnodup) hp hpt ?_
    · rw [h.cleared.dataStart]
      exact htree.of_cleared (h.cleared.ptr hp hpt)
    · exact fun t ht => hroots t (List.mem_cons_of_mem s ht)
    · intro t ht
      refine ⟨fun heq => hnot (heq ▸ ht), ?_⟩
      exact Slot.not_below_root (hroots t (List.mem_cons_of_mem s ht))

/-- What `remove_block` does to the pointers and to the free map. -/
theorem droppedSlots_dropped (hp : Parts m oi) (hpt : Pointed m oi)
    (htree : IndexTree m oi (dataStart m)) (h0 : ptr m oi (dataSlot last) ≠ 0) :
    Dropped oi (droppedSlots last) m (dropSlots oi (droppedSlots last) m) := by
  have h := dropSlot_dropped hp hpt htree fun p hparent => ptr_parent_ne hparent h0
  obtain ⟨htail, hnodup⟩ := droppedSlots_tail last
  have hrest := dropSlots_dropped_roots (h.cleared.parts hp) (h.cleared.pointed hp hpt)
    (by rw [h.cleared.dataStart]; exact htree.of_cleared (h.cleared.ptr hp hpt))
    (fun t ht => (htail t ht).1) hnodup
  refine h.cons hrest hp hpt fun t ht => ?_
  obtain ⟨hroot, hindex⟩ := htail t ht
  refine ⟨?_, Slot.not_below_root hroot⟩
  rintro rfl
  rw [dataSlot_isIndex] at hindex
  cases hindex

end Dropped

section Removal
variable (h : FileTree m oi (last + 1))
include h

omit h in
theorem droppedSlots_iff (hlast : last < 65802)
    (hok : last < 266 ∨ (last - 10) % 256 ≠ 0) :
    s ∈ droppedSlots last ↔ s.first = last := by
  rw [mem_droppedSlots]
  constructor
  · rintro (rfl | ⟨h1, h2, rfl | ⟨h3, rfl⟩⟩)
    · exact first_dataSlot (by omega)
    · exact show 10 = last by omega
    · exact h3.symm
  · intro hfirst
    cases hidx : s.isIndex with
    | false =>
      left
      rw [← hfirst, dataSlot_first hidx]
    | true =>
      right
      cases s with
      | indirect =>
        simp only [Slot.first] at hfirst
        exact ⟨by omega, by omega, .inl rfl⟩
      | indirect2 =>
        simp only [Slot.first] at hfirst
        omega
      | entry2 k =>
        simp only [Slot.first] at hfirst
        omega
      | direct k => cases hidx
      | entry j => cases hidx
      | leaf k j => cases hidx

theorem FileTree.removeBlock_eq : removeBlock m oi =
      (setSize (dropSlots oi (droppedSlots last) m) oi (usub32 (oiSize m oi) 1024), 0) ∧
    Dropped oi (droppedSlots last) m (dropSlots oi (droppedSlots last) m) := by
  have hp := h.layout.parts
  have h0 := h.data_ne (Nat.lt_succ_self last)
  constructor
  · rcases removeBlock_cases hp h.pointed h.count with ⟨_, h1⟩ | ⟨_, _, heq⟩
    · exact absurd (h1 h.max) h0
    · exact heq
  · exact droppedSlots_dropped hp h.pointed h.indexTree h0

omit h in
theorem isFree_setSize (hp : Parts m oi) (hc : c < osNblocks m) (v : Nat) :
    isFree (setSize m oi v) c = isFree m c := by
  obtain ⟨hplace, _, _⟩ := hp.inode_place
  have hword := hp.map_word hc
  apply bitvectorTest_congr
  intro k hk
  exact wr32_outside (by omega)

/-- The file has lost block `n`. -/
structure Trimmed (m : Bytes) (oi n : Nat) (m' : Bytes) : Prop where
  tree : FileTree m' oi n
  kept : ∀ s, s.first < n → ptr m' oi s = ptr m oi s
  free : ∀ c, c < osNblocks m → (isFree m' c = true ↔
    isFree m c = true ∨ freeBound m < c ∧ ∃ s, s.first = n ∧ ptr m oi s = c)
  nblocks : osNblocks m' = osNblocks m
  bound : freeBound m' = freeBound m

/-- Where the last block is not the first one below a leaf index block. -/
theorem FileTree.trimmed (hok : last < 266 ∨ (last - 10) % 256 ≠ 0) :
    (removeBlock m oi).2 = 0 ∧ Trimmed m oi last (removeBlock m oi).1 := by
  have hp := h.layout.parts
  have hpt := h.pointed
  have hmax := h.max
  have hroom := hp.room
  obtain ⟨heq, hd⟩ := h.removeBlock_eq
  have hmem := fun s => droppedSlots_iff (s := s) (by omega) hok
  rw [heq]
  refine ⟨rfl, ?_⟩
  generalize dropSlots oi (droppedSlots last) m = m₁ at hd
  have hp₁ := hd.cleared.parts hp
  have hpt₁ := hd.cleared.pointed hp hpt
  have hptr : ∀ s, ptr (setSize m₁ oi (usub32 (oiSize m oi) 1024)) oi s = ptr m₁ oi s :=
    Pointed.ptr_setSize hp₁ hpt₁ _
  obtain ⟨hstart, hnblocks⟩ := dataStart_setSize hp₁ (usub32 (oiSize m oi) 1024)
  rw [hd.cleared.dataStart] at hstart
  rw [hd.cleared.superblock.1] at hnblocks
  have hkept : ∀ s, s.first < last → ptr m₁ oi s = ptr m oi s := by
    intro s hs
    apply hd.kept
    intro t ht
    rw [hmem] at ht
    refine ⟨fun heq => by rw [heq] at hs; omega, fun hbelow => ?_⟩
    have hle := Slot.first_below hbelow
    omega
  have hused : ∀ s, ptr m₁ oi s ≠ 0 ↔ s.first < last := by
    intro s
    constructor
    · intro h0
      have hold := (hd.cleared.ptr hp hpt s).resolve_right h0
      have hlt := (h.used s).mp (hold ▸ h0)
      by_contra hge
      exact h0 (hd.gone s s ((hmem s).mpr (by omega)) (.inl rfl))
    · intro hs
      rw [hkept s hs, h.used]
      omega
  have hfree : ∀ c, c < osNblocks m →
      (isFree (setSize m₁ oi (usub32 (oiSize m oi) 1024)) c = true ↔
        isFree m c = true ∨ freeBound m < c ∧ ∃ s, s.first = last ∧ ptr m oi s = c) := by
    intro c hc
    rw [isFree_setSize hp₁ (by rw [hd.cleared.superblock.1]; exact hc), hd.free c hc]
    simp only [hmem]
  have hnot : ∀ c, c < osNblocks m → isFree m c = false →
      (∀ s, s.first = last → ptr m oi s ≠ c) →
      isFree (setSize m₁ oi (usub32 (oiSize m oi) 1024)) c = false := by
    intro c hc hused' hne
    rw [Bool.eq_false_iff, ne_eq, hfree c hc, hused']
    rintro (h0 | ⟨_, s, hs, hsc⟩)
    · cases h0
    · exact hne s hs hsc
  have hlastused : ∀ s, s.first = last → Allocated m (ptr m oi s) := by
    intro s hs
    exact h.allocated s ((h.used s).mpr (by omega))
  constructor
  · constructor
    · have hparts := hp₁.setSize (usub32 (oiSize m oi) 1024)
      refine ⟨hparts.free_map, hparts.room, hparts.small, hparts.inode, ?_⟩
      intro b hb
      rw [hstart] at hb
      apply hnot b (by omega) (h.layout.reserved b hb)
      intro s hs hsb
      have hge := (hlastused s hs).1
      omega
    · have hftype : oiFtype (setSize m₁ oi (usub32 (oiSize m oi) 1024)) oi = oiFtype m₁ oi :=
        rd32_wr32_ne (.inl (Nat.le_refl _))
      rw [hftype, hd.cleared.ftype]
      exact h.ftype
    · have hsub : size2nblocks (usub32 (oiSize m oi) 1024) = size2nblocks (oiSize m oi) - 1 :=
        size2nblocks_sub (rd32_lt _ _) (by rw [h.count]; omega)
      rw [oiSize_setSize (usub32_lt _ _), hsub, h.count]
      rfl
    · omega
    · intro s
      rw [hptr]
      exact hused s
    · intro s h0
      rw [hptr] at h0 ⊢
      have hs := (hused s).mp h0
      rw [hkept s hs] at h0 ⊢
      obtain ⟨h1, h2, h3⟩ := h.allocated s h0
      refine ⟨by rw [hstart]; exact h1, by rw [hnblocks]; exact h2, hnot _ h2 h3 ?_⟩
      intro t ht heq
      rw [h.distinct s t h0 heq.symm] at hs
      omega
    · intro s t h0 heq
      rw [hptr] at h0 heq
      rw [hptr] at heq
      have hs := (hused s).mp h0
      have ht := (hused t).mp (heq ▸ h0)
      rw [hkept s hs, hkept t ht] at heq
      exact h.distinct s t ((h.used s).mpr (by omega)) heq
  · intro s hs
    rw [hptr, hkept s hs]
  · exact hfree
  · exact hnblocks
  · obtain ⟨_, h2, h3⟩ := superblock_setSize hp₁ (usub32 (oiSize m oi) 1024)
    rw [← hd.cleared.freeBound]
    unfold freeBound
    rw [h2, h3]

end Removal

section Beyond

/-- A cleared root slot. -/
theorem dropSlot_root (hs : s.parent = none) : ptr (dropSlot oi m s) oi s = 0 := by
  unfold dropSlot setCell
  rw [ptr_root hs, cell_root hs]
  exact rd32_wr32_of_lt _ _ (by decide)

/-- The first block below an index block takes the indirect block with it. -/
theorem droppedSlots_indirect (hp : Parts m oi) (hpt : Pointed m oi)
    (h0 : ptr m oi (dataSlot last) ≠ 0) (h10 : 10 ≤ last) (hmod : (last - 10) % 256 = 0) :
    ptr (dropSlots oi (droppedSlots last) m) oi .indirect = 0 := by
  have hfirst := Pointed.dropSlot_cleared hp hpt fun p hparent => ptr_parent_ne hparent h0
  have hp₁ := hfirst.parts hp
  have hpt₁ := hfirst.pointed hp hpt
  have hidx : directIndex last = (last - 10) % 256 := if_neg (by omega)
  have hzero : ptr (dropSlot oi (dropSlot oi m (dataSlot last)) .indirect) oi .indirect = 0 :=
    dropSlot_root rfl
  unfold droppedSlots
  rw [if_neg (by omega), dropSlots_cons, dropSlots_cons]
  by_cases h266 : last = 266
  · rw [if_pos h266, dropSlots_cons]
    have hsecond := Pointed.dropSlot_cleared hp₁ hpt₁ (s := .indirect) (root_slot rfl)
    have hthird := Pointed.dropSlot_cleared (hsecond.parts hp₁) (hsecond.pointed hp₁ hpt₁)
      (s := .indirect2) (root_slot rfl)
    have hafter := hthird.ptr (hsecond.parts hp₁) (hsecond.pointed hp₁ hpt₁) .indirect
    rw [hzero, or_self] at hafter
    exact hafter
  · rw [if_neg h266]
    exact hzero

/-- A file that reaches below the doubly indirect block is never cut to its indirect block. -/
theorem removeBlocks_beyond {r : Bytes × Int} (hp : Parts m oi) (hpt : Pointed m oi)
    (hcount : 266 < size2nblocks (oiSize m oi)) (htarget : target < 266)
    (hrun : removeBlocks oi target fuel m = some r) : r.2 < 0 := by
  -- the indirect block is gone with block 266, so that block 265 is not found
  refine removeBlocks_run (P := fun m r => Parts m oi → Pointed m oi →
    266 < size2nblocks (oiSize m oi) ∨
      size2nblocks (oiSize m oi) = 266 ∧ ptr m oi .indirect = 0 → r.2 < 0)
    ?_ ?_ ?_ hrun hp hpt (.inl hcount)
  · intro m hle _ _ hcount
    omega
  · exact fun _ _ hneg _ _ _ => hneg
  · intro m r _ hok hrest hp hpt hcount
    obtain ⟨n, hn⟩ : ∃ n, size2nblocks (oiSize m oi) = n + 1 :=
      ⟨size2nblocks (oiSize m oi) - 1, by omega⟩
    rcases removeBlock_cases hp hpt hn with ⟨heq, _⟩ | ⟨hmax, h0, heq⟩
    · rw [heq] at hok
      exact absurd neg_EIO hok
    · have hr : (removeBlock m oi).2 = 0 := by rw [heq]
      obtain ⟨hp', hpt', hcount'⟩ := removeBlock_step hp hpt hn hr
      apply hrest hp' hpt'
      rcases hcount with hmore | ⟨hlast, hind⟩
      · by_cases hn266 : n = 266
        · refine .inr ⟨by omega, ?_⟩
          have hd := droppedSlots_cleared hp hpt h0
          rw [heq, Pointed.ptr_setSize (hd.parts hp) (hd.pointed hp hpt)]
          exact droppedSlots_indirect hp hpt h0 (by omega) (by omega)
        · exact .inl (by omega)
      · obtain rfl : n = 265 := by omega
        exact absurd (ptr_below_zero (.inl rfl) hind) h0

end Beyond

/-- A file without blocks below the doubly indirect block is given back block by block. -/
theorem FileTree.removeBlocks_zero (h : FileTree m oi n) (hn : n ≤ 266) :
    ∃ m', (∀ fuel, n < fuel → removeBlocks oi 0 fuel m = some (m', 0)) ∧ Parts m' oi ∧
      osNblocks m' = osNblocks m ∧ ∀ c, c < osNblocks m → (isFree m' c = true ↔
        isFree m c = true ∨ freeBound m < c ∧ ∃ s, ptr m oi s ≠ 0 ∧ ptr m oi s = c) := by
  induction n generalizing m with
  | zero =>
    refine ⟨m, fun fuel hfuel => ?_, h.layout.parts, rfl, fun c _ => ⟨.inl, ?_⟩⟩
    · obtain ⟨fuel, rfl⟩ : ∃ l, fuel = l + 1 := ⟨fuel - 1, by omega⟩
      rw [removeBlocks, if_neg (by rw [h.count]; omega)]
    · rintro (hfree | ⟨_, s, h0, _⟩)
      · exact hfree
      · exact absurd ((h.used s).mp h0) (by omega)
  | succ last ih =>
    obtain ⟨hr, htrim⟩ := h.trimmed (.inl (by omega))
    obtain ⟨m', hrun, hparts, hnblocks, hfree⟩ := ih htrim.tree (by omega)
    refine ⟨m', fun fuel hfuel => ?_, hparts, hnblocks.trans htrim.nblocks, fun c hc => ?_⟩
    · obtain ⟨fuel, rfl⟩ : ∃ l, fuel = l + 1 := ⟨fuel - 1, by omega⟩
      rw [removeBlocks, if_pos (by rw [h.count]; omega)]
      dsimp only
      rw [hr, if_neg (by decide)]
      exact hrun fuel (by omega)
    · rw [hfree c (by rw [htrim.nblocks]; exact hc), htrim.free c hc, htrim.bound]
      constructor
      · rintro ((hf | ⟨hb, s, hs, heq⟩) | ⟨hb, s, h0, heq⟩)
        · exact .inl hf
        · exact .inr ⟨hb, s, (h.used s).mpr (by omega), heq⟩
        · have hs := (htrim.tree.used s).mp h0
          rw [htrim.kept s hs] at h0 heq
          exact .inr ⟨hb, s, h0, heq⟩
      · rintro (hf | ⟨hb, s, h0, heq⟩)
        · exact .inl (.inl hf)
        · have hs := (h.used s).mp h0
          by_cases hlast : s.first = last
          · exact .inl (.inr ⟨hb, s, hlast, heq⟩)
          · right
            rw [← htrim.kept s (by omega)] at h0 heq
            exact ⟨hb, s, h0, heq⟩

/-! ## When the last block is removed as it should be -/

/-- What `remove_block` is to do to a file of `n` blocks. -/
structure RemovesLast (m : Bytes) (oi n : Nat) : Prop where
  result : (removeBlock m oi).2 = 0
  count : size2nblocks (oiSize (removeBlock m oi).1 oi) + 1 = n
  free : ∀ c, c < osNblocks m → (isFree (removeBlock m oi).1 c = true ↔
    isFree m c = true ∨ ∃ s, s.first + 1 = n ∧ ptr m oi s = c)
  unnamed : ∀ s, ptr (removeBlock m oi).1 oi s ≠ 0 →
    isFree (removeBlock m oi).1 (ptr (removeBlock m oi).1 oi s) = false
  kept : ∀ k, k + 1 < n → blockOf (removeBlock m oi).1 oi k = blockOf m oi k

/-- `change_size(oi, 0)` gives back every block of the file. -/
def ReleasesAll (m : Bytes) (oi n : Nat) : Prop :=
  ∃ m', (∀ fuel, n < fuel → changeSize fuel m oi 0 = some (m', 0)) ∧
    ∀ c, c < osNblocks m → (isFree m' c = true ↔
      isFree m c = true ∨ ∃ s, ptr m oi s ≠ 0 ∧ ptr m oi s = c)

theorem FileTree.removesLast (h : FileTree m oi (last + 1)) (hok : last < 266 ∨ (last - 10) % 256 ≠ 0)
    (hbound : ∀ s, s.first = last → freeBound m < ptr m oi s) : RemovesLast m oi (last + 1) := by
  obtain ⟨hr, htrim⟩ := h.trimmed hok
  constructor
  · exact hr
  · rw [htrim.tree.count]
  · intro c hc
    rw [htrim.free c hc]
    constructor
    · rintro (hf | ⟨_, s, hs, heq⟩)
      · exact .inl hf
      · exact .inr ⟨s, by omega, heq⟩
    · rintro (hf | ⟨s, hs, heq⟩)
      · exact .inl hf
      · exact .inr ⟨heq ▸ hbound s (by omega), s, by omega, heq⟩
  · exact fun s h0 => (htrim.tree.allocated s h0).2.2
  · intro k hk
    have hmax := h.max
    rw [htrim.tree.blockOf_eq (by omega), h.blockOf_eq (by omega)]
    exact htrim.kept _ (by rw [first_dataSlot (by omega)]; omega)

/-- The leaf is not among the blocks given back. -/
theorem FileTree.leaf_stays (h : FileTree m oi (last + 1)) (h266 : 266 ≤ last)
    (hmod : (last - 10) % 256 = 0) : ¬ RemovesLast m oi (last + 1) := by
  intro hrem
  have hmax := h.max
  have hk : (last - 266) / 256 < 256 := by omega
  have hfirst : (Slot.entry2 ⟨(last - 266) / 256, hk⟩).first = last := by
    simp only [Slot.first]
    omega
  have h0 := (h.used (.entry2 ⟨(last - 266) / 256, hk⟩)).mpr (by omega)
  obtain ⟨_, h2, h3⟩ := h.allocated _ h0
  obtain ⟨heq, hd⟩ := h.removeBlock_eq
  have hfree := (hrem.free _ h2).mpr (.inr ⟨_, by rw [hfirst], rfl⟩)
  rw [heq, isFree_setSize (hd.cleared.parts h.layout.parts) (by rw [hd.cleared.superblock.1]; exact h2),
    hd.free _ h2, h3] at hfree
  rcases hfree with hfree | ⟨_, s, hs, hsame⟩
  · cases hfree
  · rw [← h.distinct _ s h0 hsame.symm, mem_droppedSlots] at hs
    rcases hs with hs | ⟨_, _, hs | ⟨_, hs⟩⟩
    · have hidx := dataSlot_isIndex last
      rw [← hs] at hidx
      cases hidx
    · cases hs
    · cases hs

theorem remove_block_iff (h : FileTree m oi n) (hn : 0 < n) :
    (RemovesLast m oi n ↔ (n ≤ 266 ∨ (n - 11) % 256 ≠ 0) ∧
      ∀ s, s.first + 1 = n → freeBound m < ptr m oi s) ∧
    (ReleasesAll m oi n ↔ n ≤ 266 ∧ ∀ s, ptr m oi s ≠ 0 → freeBound m < ptr m oi s) := by
  obtain ⟨last, rfl⟩ : ∃ l, n = l + 1 := ⟨n - 1, by omega⟩
  have hp := h.layout.parts
  constructor
  · constructor
    · intro hrem
      have hok : last < 266 ∨ (last - 10) % 256 ≠ 0 := by
        by_contra hno
        exact h.leaf_stays (by omega) (by omega) hrem
      refine ⟨by omega, fun s hs => ?_⟩
      obtain ⟨_, h2, h3⟩ := h.allocated s ((h.used s).mpr (by omega))
      have hfree := (hrem.free _ h2).mpr (.inr ⟨s, hs, rfl⟩)
      rw [(h.trimmed hok).2.free _ h2, h3] at hfree
      exact (hfree.resolve_left (by decide)).1
    · rintro ⟨hok, hbound⟩
      exact h.removesLast (by omega) fun s hs => hbound s (by omega)
  · have hsmaller : size2nblocks 0 ≤ size2nblocks (oiSize m oi) := Nat.zero_le _
    constructor
    · rintro ⟨m', hrun, hfree⟩
      have hmax : last + 1 ≤ 266 := by
        by_contra hgt
        have hrun' := hrun (last + 2) (by omega)
        rw [changeSize_shrinks hsmaller, Option.map_eq_some_iff] at hrun'
        obtain ⟨r, hr, heq⟩ := hrun'
        have hneg := removeBlocks_beyond hp h.pointed (by rw [h.count]; omega) (by decide) hr
        rw [if_pos hneg] at heq
        rw [heq] at hneg
        exact Int.lt_irrefl 0 hneg
      refine ⟨hmax, fun s h0 => ?_⟩
      obtain ⟨m₁, hrun₁, hp₁, hnblocks, hfree₁⟩ := h.removeBlocks_zero hmax
      have hrun' := hrun (last + 2) (by omega)
      rw [changeSize_shrinks hsmaller, show size2nblocks 0 = 0 by decide, hrun₁ _ (by omega),
        Option.map_some, if_neg (Int.lt_irrefl 0), Option.some.injEq, Prod.mk.injEq] at hrun'
      obtain ⟨_, h2, h3⟩ := h.allocated s h0
      have hgiven := (hfree _ h2).mpr (.inr ⟨s, h0, rfl⟩)
      rw [← hrun'.1, isFree_setSize hp₁ (by rw [hnblocks]; exact h2), hfree₁ _ h2, h3] at hgiven
      exact (hgiven.resolve_left (by decide)).1
    · rintro ⟨hmax, hbound⟩
      obtain ⟨m₁, hrun₁, hp₁, hnblocks, hfree₁⟩ := h.removeBlocks_zero hmax
      refine ⟨setSize m₁ oi 0, fun fuel hfuel => ?_, fun c hc => ?_⟩
      · rw [changeSize_shrinks hsmaller, show size2nblocks 0 = 0 by decide, hrun₁ fuel hfuel]
        rfl
      · rw [isFree_setSize hp₁ (by rw [hnblocks]; exact hc), hfree₁ c hc]
        constructor
        · rintro (hf | ⟨_, hs⟩)
          · exact .inl hf
          · exact .inr hs
        · rintro (hf | ⟨s, h0, heq⟩)
          · exact .inl hf
          · exact .inr ⟨heq ▸ hbound s h0, s, h0, heq⟩

section Files

/-- Block 270 is given back, and block 4 never is: it is the one that `free_block` takes for the last
inode block. -/
theorem remove_block_iff_bigFile : RemovesLast bigFile 3200 266 ∧ ¬ ReleasesAll bigFile 3200 266 := by
  obtain ⟨h1, h2⟩ := remove_block_iff bigFile_tree (by decide)
  have hbound : freeBound bigFile = 4 := by
    obtain ⟨-, hcount, hfirst⟩ := bigFile_super
    rw [freeBound, hcount, hfirst]
  constructor
  · refine h1.mpr ⟨.inl (by decide), fun s hs => ?_⟩
    rw [hbound, bigFile_ptr, if_pos (by omega)]
    split
    · decide
    · split <;> omega
  · intro hall
    have hfirst : ptr bigFile 3200 (.direct 0) = 4 := bigFile_ptr _
    have hlt := (h2.mp hall).2 (.direct 0) (by rw [hfirst]; decide)
    rw [hbound, hfirst] at hlt
    exact Nat.lt_irrefl 4 hlt

/-- The file of inode 2 has one block more, 273, below the index blocks 271 and 272. -/
def leafFile : Bytes := fun a =>
  let k := a / 4
  let word := if k = 520 then 4294705152 else if k = 800 then 273408 else if k = 815 then 271
    else if k = 69376 then 272 else if k = 69632 then 273 else bigWord k
  UInt8.ofNat (word / 256 ^ (a % 4))

def leafBlock : Slot → Nat
  | .direct k => 4 + k
  | .indirect => 14
  | .indirect2 => 271
  | .entry j => 15 + j
  | .entry2 k => if k = 0 then 272 else 0
  | .leaf k j => if k = 0 ∧ j = 0 then 273 else 0

def leafSlot (b : Nat) : Slot :=
  if b < 14 then .direct (Fin.ofNat 10 (b - 4)) else if b = 14 then .indirect
  else if b < 271 then .entry (Fin.ofNat 256 (b - 15)) else if b = 271 then .indirect2
  else if b = 272 then .entry2 0 else .leaf 0 0

theorem leafFile_ptr (s : Slot) : ptr leafFile 3200 s = leafBlock s := by
  cases s with
  | direct k =>
    revert k
    decide +kernel
  | indirect => decide +kernel
  | indirect2 => decide +kernel
  | entry j =>
    revert j
    decide +kernel
  | entry2 k =>
    revert k
    decide +kernel
  | leaf k j =>
    have hentry : ∀ k : Fin 256, ptr leafFile 3200 (.entry2 k) = if k = 0 then 272 else 0 := by
      decide +kernel
    by_cases hk : k = 0
    · subst hk
      revert j
      decide +kernel
    · rw [ptr_below_zero (.inl rfl) ((hentry k).trans (if_neg hk)), leafBlock,
        if_neg fun h => hk h.1]

theorem leafBlock_slot {s : Slot} (h : leafBlock s ≠ 0) :
    leafSlot (leafBlock s) = s ∧ 4 ≤ leafBlock s ∧ leafBlock s < 274 ∧ s.first < 267 := by
  cases s with
  | direct k =>
    revert k
    decide
  | indirect => decide
  | indirect2 => decide
  | entry j =>
    revert j
    decide +kernel
  | entry2 k =>
    rw [leafBlock] at h ⊢
    split at h
    · next hk =>
      subst hk
      decide
    · exact absurd rfl h
  | leaf k j =>
    rw [leafBlock] at h ⊢
    split at h
    · next hk =>
      obtain ⟨rfl, rfl⟩ := hk
      decide
    · exact absurd rfl h

theorem leafFile_tree : FileTree leafFile 3200 267 := by
  have hn : osNblocks leafFile = 300 := by decide +kernel
  have hf : osFirstinob leafFile = 3 := by decide +kernel
  have hi : osNinodes leafFile = 16 := by decide +kernel
  have hstart : dataStart leafFile = 4 := by
    unfold dataStart
    rw [hf, hi]
  have hfree : ∀ b, b < 274 → isFree leafFile b = false := by decide +kernel
  constructor
  · constructor
    · rw [hn, hf]
    · rw [hstart, hn]
      decide
    · rw [hn]
      decide
    · exact ⟨2, by decide +kernel⟩
    · intro b hb
      rw [hstart] at hb
      exact hfree b (by omega)
  · decide +kernel
  · have hsize : oiSize leafFile 3200 = 273408 := by decide +kernel
    rw [hsize]
    rfl
  · decide
  · intro s
    rw [leafFile_ptr]
    refine ⟨fun h0 => (leafBlock_slot h0).2.2.2, fun hlt => ?_⟩
    cases s with
    | direct k => exact Nat.ne_of_gt (show 0 < 4 + k.val by omega)
    | indirect => decide
    | indirect2 => decide
    | entry j => exact Nat.ne_of_gt (show 0 < 15 + j.val by omega)
    | entry2 k =>
      simp only [Slot.first] at hlt
      rw [leafBlock, if_pos (Fin.ext (by omega))]
      decide
    | leaf k j =>
      simp only [Slot.first] at hlt
      rw [leafBlock, if_pos ⟨Fin.ext (by omega), Fin.ext (by omega)⟩]
      decide
  · intro s h0
    rw [leafFile_ptr] at h0 ⊢
    obtain ⟨_, h1, h2, _⟩ := leafBlock_slot h0
    exact ⟨by omega, by omega, hfree _ h2⟩
  · intro s t h0 heq
    rw [leafFile_ptr] at h0 heq
    rw [leafFile_ptr] at heq
    rw [← (leafBlock_slot h0).1, heq, (leafBlock_slot (heq ▸ h0)).1]

/-- Of the three blocks that are to be given back, the leaf 272 is not. -/
theorem leaf_block_is_lost : FileTree leafFile 3200 267 ∧ ¬ RemovesLast leafFile 3200 267 :=
  ⟨leafFile_tree, leafFile_tree.leaf_stays (by decide) (by decide)⟩

end Files

end CS111.Ospfs
