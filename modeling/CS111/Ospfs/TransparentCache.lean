import CS111.Ospfs.BlockCache

/-!
# The block cache is transparent

The formatter holds the pointers between a `getblk` and its `putblk`, and stores through them. `m` is
the memory in which every modification is made at once. The 4294967295th call of `getblk` leaves 0 in
`used`, and the block is then taken for one that has never been used.
-/

namespace CS111.Ospfs

open Memory

set_option autoImplicit false

namespace BlockCache
variable {s s' : BlockCache} {i j b : Fin 16} {bno nblocks type : Nat} {clr : Bool}
  {view : Nat → Page}

def zeroPage : Page := fun _ => 0

structure Tidy (s : BlockCache) : Prop where
  unused : ∀ i, (s.cache i).used = 0 → (s.cache i).bno = 0
  small : ∀ i, (s.cache i).bno < 4194304

section Getblk

theorem page_fill (u : Bytes) : page (fill u 0 1024 0) 0 = zeroPage := by
  funext k
  exact fill_inside (by omega)

theorem page_readBlock (disk u : Bytes) (h : bno < 4194304) :
    page (readBlock disk u (ospfsBlock bno)) 0 = memoryPages disk bno := by
  funext k
  have hk : (k : Nat) < 1024 := k.isLt
  simp only [page, readBlock, memoryPages, ospfsBlock_of_lt h, Nat.zero_add, if_pos hk]

/-- What a call of `getblk` that returns has done. -/
structure Got (s : BlockCache) (bno : Nat) (clr : Bool) (b : Fin 16) (s' : BlockCache) : Prop where
  t : s'.t = u32 (s.t + 1)
  others : ∀ j, j ≠ b → s'.cache j = s.cache j
  block : (s'.cache b).bno = bno
  used : (s'.cache b).used = u32 (s.t + 1)
  busy : (s'.cache b).busy = u32 ((s.cache b).busy + 1)
  chosen : (s.cache b).bno = bno ∨ (s.cache b).busy = 0
  shows : ∀ {view}, s.pages.Shows view → u32 (s.t + 1) ≠ 0 →
    s'.pages.Shows (if clr then Function.update view bno zeroPage else view)

theorem out_eq (h : s.out i clr type = some (s', b)) : b = i ∧
    s' = { s.setBlock i (taken (s.cache i) clr (u32 (s.t + 1)) type) with t := u32 (s.t + 1) } := by
  unfold out at h
  dsimp only at h
  split at h
  · rw [Option.some.injEq, Prod.mk.injEq] at h
    exact ⟨h.2.symm, h.1.symm⟩
  · cases h

/-- The page that the slot had, and zeros after a `getblk` that clears. -/
theorem shows_taken {x : Page} {old : Block} {used : Nat} {c : WriteBack (Fin 16) Nat Page}
    (hshows : c.Shows view) (hslot : c.slot i = some (bno, x)) (hx : page old.u 0 = x) :
    (c.put i (some (bno, page (taken old clr used type).u 0))).Shows
      (if clr then Function.update view bno zeroPage else view) := by
  have hwrite := hshows.write hslot
  cases clr with
  | true =>
    have hzero : page (taken old true used type).u 0 = zeroPage := page_fill old.u
    rw [hzero]
    exact hwrite zeroPage
  | false =>
    have hsame : page (taken old false used type).u 0 = view bno := hx.trans (hshows.cached hslot).symm
    have hput := hwrite (view bno)
    rwa [Function.update_eq_self, ← hsame] at hput

theorem hit_got (ht : s.Tidy) (h0 : bno ≠ 0) (hbno : (s.cache i).bno = bno)
    (h : s.out i clr type = some (s', b)) : s.Got bno clr b s' := by
  obtain ⟨rfl, rfl⟩ := out_eq h
  have hused : (s.cache b).used ≠ 0 := fun hu => h0 (hbno ▸ ht.unused b hu)
  constructor
  · rfl
  · exact fun j hj => setBlock_ne hj
  · simp only [setBlock_self, taken, hbno]
  · simp only [setBlock_self, taken]
  · simp only [setBlock_self, taken]
  · exact .inl hbno
  · intro view hshows ht0
    have hslot := pages_slot hused
    rw [hbno] at hslot
    have hpages := pages_setBlock (s := s) (i := b)
      (b := taken (s.cache b) clr (u32 (s.t + 1)) type) ht0
    show (s.setBlock b _).pages.Shows _
    rw [hpages, show (taken (s.cache b) clr (u32 (s.t + 1)) type).bno = bno from hbno]
    exact shows_taken hshows hslot rfl

theorem miss_got (ht : s.Tidy) (hsmall : bno < 4194304) (hbusy : (s.cache i).busy = 0)
    (habsent : ∀ k, (s.cache k).bno ≠ bno)
    (h : (s.readIn i bno clr type).out i clr type = some (s', b)) : s.Got bno clr b s' := by
  obtain ⟨rfl, rfl⟩ := out_eq h
  have hread : ∃ b', s.readIn b bno clr type = (s.flushUsed b).setBlock b b' ∧ b'.bno = bno ∧
      b'.busy = 0 ∧ page b'.u 0 = memoryPages (s.flushUsed b).disk bno := by
    unfold readIn
    simp only [swizzleblock_same, ite_self]
    exact ⟨_, rfl, rfl, rfl, page_readBlock _ _ hsmall⟩
  obtain ⟨b', hread, hbno, hbusy', hpage⟩ := hread
  have htime : (s.readIn b bno clr type).t = s.t := by
    rw [hread]
    exact flushUsed_t s b
  have hblock : (s.readIn b bno clr type).cache b = b' := by
    rw [hread, setBlock_self]
  rw [hblock, htime]
  constructor
  · rfl
  · intro j hj
    rw [hread]
    show (setBlock _ b _).cache j = _
    rw [setBlock_ne hj, setBlock_ne hj, flushUsed_cache]
  · simp only [setBlock_self, taken, hbno]
  · simp only [setBlock_self, taken]
  · simp only [setBlock_self, taken, hbusy', hbusy]
  · exact .inr hbusy
  · intro view hshows ht0
    have hflush : (s.flushUsed b).pages.Shows view := by
      rw [pages_flushUsed (ht.small b)]
      exact hshows.flush b
    have hclean : ∀ {k x}, (s.flushUsed b).pages.slot b = some (k, x) →
        (s.flushUsed b).pages.store k = x := by
      intro k x hslot
      rw [pages_flushUsed (ht.small b)] at hslot ⊢
      rw [WriteBack.flush_slot] at hslot
      rw [hshows.flush_self hslot, hshows.cached hslot]
    have hmissing : ∀ j x, (s.flushUsed b).pages.slot j ≠ some (bno, x) := by
      intro j x hslot
      obtain ⟨-, hj, -⟩ := slot_eq_some hslot
      rw [flushUsed_cache] at hj
      exact habsent j hj
    have hload := hflush.load hclean hmissing
    have hshown : (((s.flushUsed b).pages.put b
        (some (bno, (s.flushUsed b).pages.store bno))).put b
          (some (bno, page (taken b' clr (u32 (s.t + 1)) type).u 0))).Shows
        (if clr then Function.update view bno zeroPage else view) :=
      shows_taken hload (WriteBack.put_self _ b _) hpage
    rw [WriteBack.put_put] at hshown
    have hpages := pages_setBlock (s := s.flushUsed b) (i := b)
      (b := taken b' clr (u32 (s.t + 1)) type) ht0
    rw [show (taken b' clr (u32 (s.t + 1)) type).bno = bno from hbno] at hpages
    have htwice : (s.readIn b bno clr type).setBlock b (taken b' clr (u32 (s.t + 1)) type) =
        (s.flushUsed b).setBlock b (taken b' clr (u32 (s.t + 1)) type) := by
      rw [hread]
      simp only [setBlock, Function.update_idem]
    show (setBlock _ b _).pages.Shows _
    rw [htwice, hpages]
    exact hshown

theorem getblk_got (ht : s.Tidy) (hnblocks : nblocks ≤ 8192) (h0 : bno ≠ 0)
    (h : s.getblk nblocks bno clr type = some (s', b)) : s.Got bno clr b s' ∧ bno < nblocks := by
  unfold getblk at h
  split at h
  · cases h
  · next hlt =>
    refine ⟨?_, by omega⟩
    split at h
    · next i hscan => exact hit_got ht h0 (scan_hit hscan) h
    · cases h
    · next least hscan =>
      obtain ⟨hbusy, habsent⟩ := scan_miss (by simp) hscan
      exact miss_got ht (by omega) hbusy (fun k => habsent k (List.mem_finRange k)) h

end Getblk

section Runs

/-- The pointers held, with the numbers of their blocks; the cache; what the blocks contain when every
modification is made in place; and how often `getblk` was called. -/
inductive Formats (nblocks : Nat) (disk : Bytes) :
    List (Fin 16 × Nat) → BlockCache → Bytes → Nat → Prop
  | start : Formats nblocks disk [] (start disk) disk 0
  | getblk {held : List (Fin 16 × Nat)} {s s' : BlockCache} {m : Bytes} {n bno type : Nat}
      {clr : Bool} {b : Fin 16} :
      Formats nblocks disk held s m n → bno ≠ 0 → s.getblk nblocks bno clr type = some (s', b) →
      Formats nblocks disk ((b, bno) :: held) s' (if clr then clearBlock m bno else m) (n + 1)
  | modify {held : List (Fin 16 × Nat)} {s : BlockCache} {m : Bytes} {n bno k : Nat} {b : Fin 16}
      {byte : UInt8} :
      Formats nblocks disk held s m n → (b, bno) ∈ held → k < 1024 →
      Formats nblocks disk held (s.modify b k byte) (Function.update m (1024 * bno + k) byte) n
  | putblk {held : List (Fin 16 × Nat)} {s : BlockCache} {m : Bytes} {n bno : Nat} {b : Fin 16} :
      Formats nblocks disk held s m n → (b, bno) ∈ held →
      Formats nblocks disk (held.erase (b, bno)) (s.putblk b) m n

structure Serves (held : List (Fin 16 × Nat)) (s : BlockCache) (m : Bytes) (n : Nat) : Prop where
  tidy : s.Tidy
  t : s.t = n + 1
  shows : s.pages.Shows (memoryPages m)
  pointer : ∀ x, x ∈ held → (s.cache x.1).bno = x.2 ∧ x.2 ≠ 0
  busy : ∀ i, (s.cache i).busy = held.countP fun x => x.1 == i
  calls : held.length ≤ n

variable {held : List (Fin 16 × Nat)} {m disk : Bytes} {n k : Nat} {byte : UInt8}

theorem start_serves (disk : Bytes) : Serves [] (start disk) disk 0 where
  tidy := ⟨fun _ _ => rfl, fun _ => Nat.zero_lt_succ _⟩
  t := rfl
  shows := WriteBack.Shows.empty fun _ => rfl
  pointer _ hx := absurd hx List.not_mem_nil
  busy _ := rfl
  calls := Nat.le_refl 0

theorem memoryPages_clearBlock (m : Bytes) (h : bno < 4194304) :
    memoryPages (clearBlock m bno) = Function.update (memoryPages m) bno zeroPage := by
  unfold clearBlock
  rw [ospfsBlock_of_lt h]
  apply memoryPages_update
  · funext j
    exact fill_inside (by omega)
  · intro a ha
    exact fill_outside (by omega)

theorem memoryPages_modify (m : Bytes) (bno : Nat) (hk : k < 1024) :
    memoryPages (Function.update m (1024 * bno + k) byte) =
      Function.update (memoryPages m) bno (Function.update (memoryPages m bno) ⟨k, hk⟩ byte) := by
  apply memoryPages_update
  · funext j
    by_cases hj : j = ⟨k, hk⟩
    · rw [hj, Function.update_self]
      exact Function.update_self _ _ _
    · have hne : (j : Nat) ≠ k := fun h => hj (Fin.ext h)
      rw [Function.update_of_ne hj]
      exact Function.update_of_ne (by omega) _ _
  · intro a ha
    exact Function.update_of_ne (by omega) _ _

theorem Serves.getblk (hs : Serves held s m n) (hn : n + 1 < 4294967295) (hnblocks : nblocks ≤ 8192)
    (h0 : bno ≠ 0) (h : s.getblk nblocks bno clr type = some (s', b)) :
    Serves ((b, bno) :: held) s' (if clr then clearBlock m bno else m) (n + 1) := by
  obtain ⟨hgot, hlt⟩ := getblk_got hs.tidy hnblocks h0 h
  have ht : u32 (s.t + 1) = n + 2 := by
    rw [hs.t, u32_of_lt (by omega)]
  have hcount : held.countP (fun x => x.1 == b) ≤ n := le_trans List.countP_le_length hs.calls
  constructor
  · constructor
    · intro i hi
      by_cases hib : i = b
      · rw [hib, hgot.used, ht] at hi
        omega
      · rw [hgot.others i hib] at hi ⊢
        exact hs.tidy.unused i hi
    · intro i
      by_cases hib : i = b
      · rw [hib, hgot.block]
        omega
      · rw [hgot.others i hib]
        exact hs.tidy.small i
  · rw [hgot.t, ht]
  · have hshows := hgot.shows hs.shows (by omega)
    cases clr with
    | true =>
      rw [if_pos rfl] at hshows ⊢
      rwa [memoryPages_clearBlock m (by omega)]
    | false => exact hshows
  · intro x hx
    rcases List.mem_cons.mp hx with rfl | hx
    · exact ⟨hgot.block, h0⟩
    · obtain ⟨hbno, hx0⟩ := hs.pointer x hx
      refine ⟨?_, hx0⟩
      by_cases hxb : x.1 = b
      · -- A block with a pointer to it is busy, so it has not been replaced.
        have hbusy : (s.cache b).busy ≠ 0 := by
          rw [hs.busy]
          exact Nat.ne_of_gt (List.countP_pos_iff.mpr ⟨x, hx, by simp [hxb]⟩)
        rw [hxb, hgot.block, ← hgot.chosen.resolve_right hbusy, ← hbno, hxb]
      · rw [hgot.others _ hxb, hbno]
  · intro i
    by_cases hib : i = b
    · subst hib
      rw [hgot.busy, hs.busy, u32_of_lt (by omega)]
      simp
    · rw [hgot.others i hib, hs.busy]
      simp [Ne.symm hib]
  · have hcalls := hs.calls
    rw [List.length_cons]
    omega

theorem Serves.used (hs : Serves held s m n) (hb : (b, bno) ∈ held) : (s.cache b).used ≠ 0 := by
  obtain ⟨hbno, h0⟩ := hs.pointer (b, bno) hb
  intro hused
  have hunused := hs.tidy.unused b hused
  rw [hbno] at hunused
  exact h0 hunused

/-- A change of a slot that keeps its block number, its count and its use. -/
theorem Serves.setBlock {block : Block} {m' : Bytes} (hs : Serves held s m n)
    (hbno : block.bno = (s.cache b).bno) (hused : block.used = (s.cache b).used)
    (hbusy : block.busy = (s.cache b).busy)
    (hshows : (s.setBlock b block).pages.Shows (memoryPages m')) :
    Serves held (s.setBlock b block) m' n := by
  have hcache : ∀ i, ((s.setBlock b block).cache i).bno = (s.cache i).bno ∧
      ((s.setBlock b block).cache i).used = (s.cache i).used ∧
      ((s.setBlock b block).cache i).busy = (s.cache i).busy := by
    intro i
    by_cases hi : i = b
    · subst hi
      rw [setBlock_self]
      exact ⟨hbno, hused, hbusy⟩
    · rw [setBlock_ne hi]
      exact ⟨rfl, rfl, rfl⟩
  constructor
  · constructor
    · intro i hi
      rw [(hcache i).1]
      exact hs.tidy.unused i ((hcache i).2.1 ▸ hi)
    · intro i
      rw [(hcache i).1]
      exact hs.tidy.small i
  · exact hs.t
  · exact hshows
  · intro x hx
    rw [(hcache x.1).1]
    exact hs.pointer x hx
  · intro i
    rw [(hcache i).2.2, hs.busy]
  · exact hs.calls

theorem page_update (u : Bytes) (hk : k < 1024) :
    page (Function.update u k byte) 0 = Function.update (page u 0) ⟨k, hk⟩ byte := by
  funext j
  show Function.update u k byte (0 + j) = _
  rw [Nat.zero_add]
  by_cases hj : j = ⟨k, hk⟩
  · rw [hj, Function.update_self, Function.update_self]
  · have hne : (j : Nat) ≠ k := fun h => hj (Fin.ext h)
    rw [Function.update_of_ne hj, Function.update_of_ne hne, page, Nat.zero_add]

theorem Serves.modify (hs : Serves held s m n) (hb : (b, bno) ∈ held) (hk : k < 1024) :
    Serves held (s.modify b k byte) (Function.update m (1024 * bno + k) byte) n := by
  obtain ⟨hbno, -⟩ := hs.pointer (b, bno) hb
  have hused := hs.used hb
  have hslot := pages_slot hused
  have hpage := hs.shows.cached hslot
  apply hs.setBlock
  · rfl
  · rfl
  · rfl
  · have hpages := pages_setBlock (s := s) (i := b)
      (b := { s.cache b with u := Function.update (s.cache b).u k byte }) hused
    rw [hpages, page_update _ hk, ← hpage, hbno, memoryPages_modify m bno hk]
    rw [hbno] at hslot
    exact hs.shows.write hslot _

theorem Serves.putblk (hs : Serves held s m n) (hn : n < 4294967295) (hb : (b, bno) ∈ held) :
    Serves (held.erase (b, bno)) (s.putblk b) m n := by
  have hused := hs.used hb
  have hslot := pages_slot hused
  have hlength := List.length_erase_le (a := (b, bno)) (l := held)
  have hcalls := hs.calls
  have hcount : 0 < held.countP fun x => x.1 == b :=
    List.countP_pos_iff.mpr ⟨(b, bno), hb, by simp⟩
  have hle : held.countP (fun x => x.1 == b) ≤ held.length := List.countP_le_length
  have hshows : (s.putblk b).pages.Shows (memoryPages m) := by
    have hpages := pages_setBlock (s := s) (i := b)
      (b := { s.cache b with busy := usub32 (s.cache b).busy 1 }) hused
    have hwrite := hs.shows.write hslot (page (s.cache b).u 0)
    rw [← hs.shows.cached hslot, Function.update_eq_self, hs.shows.cached hslot] at hwrite
    exact hpages ▸ hwrite
  constructor
  · constructor
    · intro i hi
      by_cases hib : i = b
      · subst hib
        rw [BlockCache.putblk, setBlock_self] at hi
        exact absurd hi hused
      · rw [BlockCache.putblk, setBlock_ne hib] at hi ⊢
        exact hs.tidy.unused i hi
    · intro i
      by_cases hib : i = b
      · subst hib
        rw [BlockCache.putblk, setBlock_self]
        exact hs.tidy.small i
      · rw [BlockCache.putblk, setBlock_ne hib]
        exact hs.tidy.small i
  · exact hs.t
  · exact hshows
  · intro x hx
    obtain ⟨hbno, hx0⟩ := hs.pointer x (List.mem_of_mem_erase hx)
    refine ⟨?_, hx0⟩
    by_cases hxb : x.1 = b
    · rw [BlockCache.putblk, hxb, setBlock_self, ← hbno, hxb]
    · rw [BlockCache.putblk, setBlock_ne hxb, hbno]
  · intro i
    have hperm := (List.perm_cons_erase hb).countP_eq fun x => x.1 == i
    rw [List.countP_cons] at hperm
    by_cases hib : i = b
    · subst hib
      rw [BlockCache.putblk, setBlock_self, hs.busy, usub32_of_le (by omega) (by omega), hperm]
      simp
    · rw [BlockCache.putblk, setBlock_ne hib, hs.busy, hperm]
      simp [Ne.symm hib]
  · omega

/-- In every run of fewer than 4294967295 calls the cache and the disk together are the memory. -/
theorem Formats.serves (hnblocks : nblocks ≤ 8192) (h : Formats nblocks disk held s m n)
    (hn : n < 4294967295) : Serves held s m n := by
  induction h with
  | start => exact start_serves disk
  | getblk _ h0 hgot ih => exact (ih (by omega)).getblk hn hnblocks h0 hgot
  | modify _ hb hk ih => exact (ih hn).modify hb hk
  | putblk _ hb ih => exact (ih hn).putblk hn hb

end Runs

section Flushdisk

theorem pages_flushdisk (slots : List (Fin 16)) (hsmall : ∀ i, (s.cache i).bno < 4194304) :
    (slots.foldl flushUsed s).pages = s.pages.flushAll slots := by
  induction slots generalizing s with
  | nil => rfl
  | cons i slots ih =>
    rw [List.foldl_cons, ih fun j => by rw [flushUsed_cache]; exact hsmall j,
      pages_flushUsed (hsmall i)]
    rfl

theorem flushdisk_disk {m : Bytes} (ht : s.Tidy) (hshows : s.pages.Shows (memoryPages m)) :
    s.flushdisk.disk = m := by
  apply memoryPages_injective
  have hstore := hshows.flushAll (List.mem_finRange (n := 16))
  rw [← pages_flushdisk _ ht.small, pages_store] at hstore
  exact hstore

end Flushdisk

section Transparency
variable {held : List (Fin 16 × Nat)} {m disk : Bytes} {n : Nat}

/-- What the formatter can see of a cache that behaves like the memory `m`. -/
structure Transparent (nblocks : Nat) (held : List (Fin 16 × Nat)) (s : BlockCache) (m : Bytes) :
    Prop where
  pointer : ∀ b bno, (b, bno) ∈ held →
    (s.cache b).bno = bno ∧ ∀ k, k < 1024 → (s.cache b).u k = m (1024 * bno + k)
  single : ∀ i j, (s.cache i).bno = (s.cache j).bno → (s.cache i).bno ≠ 0 → i = j
  flushed : s.flushdisk.disk = m

theorem Serves.read (hs : Serves held s m n) (hb : (b, bno) ∈ held) {k : Nat} (hk : k < 1024) :
    (s.cache b).u k = m (1024 * bno + k) := by
  have hpage := hs.shows.cached (pages_slot (hs.used hb))
  rw [(hs.pointer (b, bno) hb).1] at hpage
  have hbyte := congrFun hpage ⟨k, hk⟩
  simp only [memoryPages, page, Nat.zero_add] at hbyte
  exact hbyte.symm

theorem Serves.transparent (hs : Serves held s m n) : Transparent nblocks held s m where
  pointer b bno hb := ⟨(hs.pointer (b, bno) hb).1, fun _ hk => hs.read hb hk⟩
  single i j hij h0 := by
    have hi : (s.cache i).used ≠ 0 := fun hu => h0 (hs.tidy.unused i hu)
    have hj : (s.cache j).used ≠ 0 := fun hu => h0 (hij.trans (hs.tidy.unused j hu))
    exact hs.shows.single (pages_slot hi) (hij ▸ pages_slot hj)
  flushed := flushdisk_disk hs.tidy hs.shows

/-- In a run with fewer than 4294967295 calls of `getblk`, each of them returns what the block
contains, or zeros; no block is in two slots; and `flushdisk` leaves the memory on the disk. -/
theorem block_cache_transparent (hnblocks : nblocks ≤ 8192) (h : Formats nblocks disk held s m n)
    (hn : n < 4294967295) :
    Transparent nblocks held s m ∧
      ∀ bno clr type s' b, bno ≠ 0 → n + 1 < 4294967295 →
        s.getblk nblocks bno clr type = some (s', b) →
        ∀ k, k < 1024 → (s'.cache b).u k = if clr then 0 else m (1024 * bno + k) := by
  have hs := h.serves hnblocks hn
  refine ⟨hs.transparent, fun bno clr type s' b h0 hn' hget k hk => ?_⟩
  have hlt := (getblk_got hs.tidy hnblocks h0 hget).2
  have hread := (hs.getblk hn' hnblocks h0 hget).read List.mem_cons_self hk
  rw [hread]
  cases clr with
  | false => rfl
  | true =>
    have hblock := ospfsBlock_of_lt (b := bno) (by omega)
    rw [if_pos rfl, if_pos rfl, clearBlock, hblock]
    exact fill_inside (by omega)

end Transparency

section LongRun

def blank : Bytes := fun _ => 0

/-- Block 1, with the contents `u`, in the first slot after `n` calls of `getblk`. -/
def oneBlock (n busy : Nat) (u : Bytes) : BlockCache :=
  { (start blank).setBlock 0 ⟨1, BLOCK_FILE, busy, u32 (n + 1), u⟩ with t := u32 (n + 1) }

theorem oneBlock_cache (n busy : Nat) (u : Bytes) :
    (oneBlock n busy u).cache 0 = ⟨1, BLOCK_FILE, busy, u32 (n + 1), u⟩ := by
  unfold oneBlock
  dsimp only
  rw [setBlock_self]

theorem oneBlock_setBlock (n busy busy' : Nat) (u u' : Bytes) :
    (oneBlock n busy u).setBlock 0 ⟨1, BLOCK_FILE, busy', u32 (n + 1), u'⟩ = oneBlock n busy' u' := by
  simp only [oneBlock, setBlock, Function.update_idem]

theorem blank_getblk : (start blank).getblk 2 1 false BLOCK_FILE = some (oneBlock 1 1 blank, 0) := by
  have hscan : (start blank).scan 1 (List.finRange 16) none = .miss (some 0) := rfl
  have hread : (start blank).readIn 0 1 false BLOCK_FILE =
      (start blank).setBlock 0 ⟨1, BLOCK_FILE, 0, 0, blank⟩ := by
    have hblank : readBlock blank (fun _ => 0) (ospfsBlock 1) = blank := by
      funext k
      exact ite_self 0
    unfold readIn
    rw [show (start blank).flushUsed 0 = start blank from rfl]
    simp only [swizzleblock_same, ite_self]
    exact congrArg (fun u => (start blank).setBlock 0 ⟨1, BLOCK_FILE, 0, 0, u⟩) hblank
  unfold getblk
  rw [if_neg (by decide), hscan]
  simp only [hread, out, setBlock_self, taken]
  rw [if_pos (.inl trivial)]
  simp only [setBlock, Function.update_idem]
  rfl

theorem oneBlock_getblk (n : Nat) (u : Bytes) :
    (oneBlock n 0 u).getblk 2 1 false BLOCK_FILE = some (oneBlock (n + 1) 1 u, 0) := by
  have hscan : (oneBlock n 0 u).scan 1 (List.finRange 16) none = .hit 0 := by
    rw [List.finRange_succ, scan, if_pos (by rw [oneBlock_cache])]
  have ht : u32 (u32 (n + 1) + 1) = u32 (n + 1 + 1) := by
    unfold u32
    omega
  unfold getblk
  rw [if_neg (by decide), hscan]
  simp only [out, oneBlock_cache, taken]
  rw [if_pos (.inl trivial)]
  simp only [oneBlock, setBlock, Function.update_idem, ht]
  rfl

theorem oneBlock_putblk (n : Nat) (u : Bytes) :
    (oneBlock n 1 u).putblk 0 = oneBlock n 0 u := by
  simp only [putblk, oneBlock_cache, usub32_self]
  exact oneBlock_setBlock n 1 0 u u

/-- A 1 is stored in block 1, which is then asked for again and again. -/
theorem oneBlock_formats (n : Nat) : Formats 2 blank [] (oneBlock (n + 1) 0 (Function.update blank 0 1))
    (Function.update blank 1024 1) (n + 1) := by
  induction n with
  | zero =>
    have hget : Formats 2 blank [(0, 1)] (oneBlock 1 1 blank) blank 1 :=
      Formats.start.getblk (by decide) blank_getblk
    have hmodify : Formats 2 blank [(0, 1)] ((oneBlock 1 1 blank).modify 0 0 1)
        (Function.update blank 1024 1) 1 :=
      hget.modify List.mem_cons_self (by decide)
    have hstored : (oneBlock 1 1 blank).modify 0 0 1 = oneBlock 1 1 (Function.update blank 0 1) := by
      unfold modify
      rw [oneBlock_cache]
      exact oneBlock_setBlock 1 1 1 blank _
    rw [hstored] at hmodify
    have hput := hmodify.putblk List.mem_cons_self
    rw [oneBlock_putblk, List.erase_cons_head] at hput
    exact hput
  | succ n ih =>
    have hput := (ih.getblk (by decide) (oneBlock_getblk (n + 1) _)).putblk List.mem_cons_self
    rw [oneBlock_putblk, List.erase_cons_head] at hput
    exact hput

theorem block_cache_transparent_oneBlock :
    Transparent 2 [] (oneBlock 1 0 (Function.update blank 0 1)) (Function.update blank 1024 1) :=
  (block_cache_transparent (by decide) (oneBlock_formats 0) (by decide)).1

/-- The block has `used` 0, and what was stored in it does not reach the disk. -/
theorem modification_lost_after_many_calls : ∃ s m, Formats 2 blank [] s m 4294967295 ∧
    s.flushdisk.disk ≠ m ∧ ¬ Transparent 2 [] s m := by
  have hrun := oneBlock_formats 4294967294
  have hunused : ∀ i, ((oneBlock 4294967295 0 (Function.update blank 0 1)).cache i).used = 0 := by
    intro i
    by_cases hi : i = 0
    · rw [hi, oneBlock_cache]
      decide
    · exact congrArg Block.used (setBlock_ne hi)
  have hlost : (oneBlock 4294967295 0 (Function.update blank 0 1)).flushdisk.disk ≠
      Function.update blank 1024 1 := by
    have hsame : ∀ slots : List (Fin 16), ∀ s : BlockCache, (∀ i, (s.cache i).used = 0) →
        slots.foldl flushUsed s = s := by
      intro slots s hs
      apply List.foldl_fixed'
      intro i
      exact if_neg (not_not_intro (hs i))
    unfold flushdisk
    rw [hsame _ _ hunused]
    intro heq
    have hbyte := congrFun heq 1024
    rw [Function.update_self] at hbyte
    exact absurd hbyte (by decide)
  exact ⟨_, _, hrun, hlost, fun htransparent => hlost htransparent.flushed⟩

end LongRun

end BlockCache

end CS111.Ospfs
