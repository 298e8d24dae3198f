import CS111.Ospfs.NodeImage

/-!
# New directory entries

`allocdirentry` finds the first blank entry in the last block of a directory, or adds a block.
-/

namespace CS111.Ospfs

open Memory

set_option autoImplicit false

namespace Format

variable {g : Geometry} {m m' : Bytes} {f f' f₁ : Format} {i j k n b d od : Nat} {pending : List Nat}
variable {es : List (Name × Nat)}

section Inodes
variable (hn : f.nblocks = g.nblocks) (hi : f.ninodes = g.ninodes)
include hn

theorem inodeAt_eq (hlt : i < g.ninodes) : f.inodeAt i = inodeAddr i := by
  have hle := g.nblocks_le
  have hroom := g.room
  unfold Format.inodeAt firstinob nbitblock inodeAddr
  rw [hn, ospfsBlock_of_lt (by omega)]
  omega

theorem inode_eq (hlt : i < g.ninodes) (hr : f.inode i = some (f', n)) :
    f' = f ∧ n = inodeAddr i := by
  unfold Format.inode at hr
  simp only [Option.bind_eq_bind, Option.bind_eq_some_iff, Option.some.injEq, Prod.mk.injEq] at hr
  obtain ⟨f₁, hget, rfl, rfl⟩ := hr
  obtain ⟨rfl, _⟩ := getblk_false hget
  exact ⟨rfl, inodeAt_eq hn hlt⟩

include hi

theorem allocinode_eq (hle : f.nextinode ≤ g.ninodes) (hr : f.allocinode = some (f', i, n)) :
    f.nextinode < g.ninodes ∧ f' = { f with nextinode := f.nextinode + 1 } ∧ i = f.nextinode ∧
      n = inodeAddr f.nextinode := by
  unfold allocinode at hr
  split at hr
  · exact absurd hr (by simp)
  · rename_i hne
    have hlt : f.nextinode < g.ninodes := by omega
    simp only [Option.bind_eq_bind, Option.bind_eq_some_iff, Option.some.injEq,
      Prod.mk.injEq] at hr
    obtain ⟨⟨f₂, o⟩, hino, rfl, rfl, rfl⟩ := hr
    obtain ⟨rfl, rfl⟩ := inode_eq (f := { f with nextinode := f.nextinode + 1 }) hn hlt hino
    exact ⟨hlt, rfl, rfl, rfl⟩

end Inodes

section LastBlock

theorem ptr_eq_blockWord {oi : Nat} {s p : Slot} (hp : s.parent = some p) (h0 : ptr m oi s ≠ 0) :
    ptr m oi s = blockWord m (ptr m oi p) s.index := by
  have hp0 := ptr_parent_ne hp h0
  rw [ptr_child hp]
  exact if_neg hp0

theorem lastDirBlock_eq (hx : HasBlocks g f.data d) (hn : n < 65802)
    (h0 : own g f.data (d, dataSlot n) ≠ 0) (hr : f.lastDirBlock (inodeAddr d) n = some b) :
    b = own g f.data (d, dataSlot n) := by
  rw [own_eq_ptr hx] at h0 ⊢
  unfold lastDirBlock at hr
  split at hr
  · rename_i h266
    simp only [Option.bind_eq_bind, Option.bind_eq_some_iff, Option.some.injEq] at hr
    obtain ⟨f₁, hget₁, f₂, hget₂, _, _, rfl⟩ := hr
    obtain ⟨rfl, _⟩ := getblk_false hget₁
    obtain ⟨rfl, _⟩ := getblk_false hget₂
    have hslot := dataSlot_leaf (k := n) h266 hn
    have hj : directIndex n = (n - 266) % 256 := by
      unfold directIndex
      rw [if_neg (by omega)]
      omega
    rw [hslot] at h0 ⊢
    rw [ptr_eq_blockWord rfl h0, ptr_eq_blockWord rfl (ptr_parent_ne rfl h0)]
    simp only [Slot.index, hj, indirIndex_leaf h266]
    rfl
  · rename_i h266
    split at hr
    · rename_i h10
      simp only [Option.bind_eq_bind, Option.bind_eq_some_iff, Option.some.injEq] at hr
      obtain ⟨f₁, hget₁, _, _, rfl⟩ := hr
      obtain ⟨rfl, _⟩ := getblk_false hget₁
      have hslot := dataSlot_entry (k := n) h10 (by omega)
      have hj : directIndex n = n - 10 := by
        unfold directIndex
        rw [if_neg (by omega)]
        omega
      rw [hslot] at h0 ⊢
      rw [ptr_eq_blockWord rfl h0]
      simp only [Slot.index, hj]
      rfl
    · rename_i h10
      simp only [Option.bind_eq_bind, Option.bind_eq_some_iff, Option.some.injEq] at hr
      obtain ⟨_, _, rfl⟩ := hr
      rw [dataSlot_direct (by omega)]
      rfl

end LastBlock

section Opened

/-- Directory `d` has a blank entry at `od`, after `es`. -/
structure Opened (g : Geometry) (d : Nat) (es : List (Name × Nat)) (f f' : Format) (od : Nat) :
    Prop where
  forming : Forming g [] f'
  within : Within g d f f'
  fields : oiFtype f'.data (inodeAddr d) = FTYPE_DIR
  size : oiSize f'.data (inodeAddr d) = 1024 * ((es.length + 8) / 8)
  entries : HasEntries g f'.data d ((es.length + 8) / 8) es
  nextb : f.nextb + ((es.length + 8) / 8 - (es.length + 7) / 8) ≤ f'.nextb
  od_eq : od = direntAt g f'.data d es.length

theorem blockEntries_eq (hb : b < 4194304) :
    blockEntries b = (List.range 8).map fun k => 1024 * b + 128 * k := by
  unfold blockEntries
  rw [ospfsBlock_of_lt hb]

theorem wr32_zero {a : Nat} (hz : ∀ k, k < 4 → m (a + k) = 0) : wr32 m a 0 = m := by
  funext x
  by_cases hx : a ≤ x ∧ x < a + 4
  · obtain ⟨k, rfl⟩ := Nat.exists_eq_add_of_le hx.1
    have hk : k < 4 := by omega
    rw [hz k hk]
    have hin : wr32 m a 0 (a + k) = (wordBytes 0)[k] := store_inside hk
    rw [hin]
    match k, hk with
    | 0, _ => rfl
    | 1, _ => rfl
    | 2, _ => rfl
    | 3, _ => rfl
  · exact wr32_outside (by omega)

/-- The entries of a new block are blank already. -/
theorem blank_entries (hz : ZeroBlock m b) (hb : b < 4194304) :
    (blockEntries b).foldl (fun m od => setOdIno m od 0) m = m := by
  rw [blockEntries_eq hb]
  have step : ∀ l : List Nat, (∀ k, k ∈ l → k < 8) →
      (l.map fun k => 1024 * b + 128 * k).foldl (fun m od => setOdIno m od 0) m = m := by
    intro l hl
    induction l with
    | nil => rfl
    | cons k l ih =>
      have hk := hl k List.mem_cons_self
      rw [List.map_cons, List.foldl_cons]
      have hsame : setOdIno m (1024 * b + 128 * k) 0 = m := wr32_zero fun c hc => hz _ (by omega)
      rw [hsame]
      exact ih fun c hc => hl c (List.mem_cons_of_mem _ hc)
  exact step _ fun k hk => List.mem_range.mp hk

theorem storeblk_lt {oi : Nat} (hr : f.storeblk oi b n = some f') : n < 65802 := by
  unfold storeblk at hr
  split at hr
  · omega
  · split at hr
    · omega
    · split at hr
      · assumption
      · exact absurd hr (by simp)

variable (h : Forming g [] f) (hborn : d < f.nextinode)
variable (hnode : IsNode g f.data d (.dir es))
include h hborn hnode

theorem dir_hasBlocks : HasBlocks g f.data d := by
  have hle := h.nextinode_le
  refine ⟨by omega, ?_⟩
  rw [hnode.1]
  decide

omit h hborn in
theorem dir_dirBlocks : f.dirBlocks (inodeAddr d) = (es.length + 7) / 8 := by
  have hfits := hnode.2.2.fits
  unfold dirBlocks
  rw [hnode.2.1, u32_of_lt (by omega)]
  omega

variable (hino : ∀ e, e ∈ es → 0 < e.2 ∧ e.2 < 4294967296)
include hino

omit h hborn in
/-- Which entries are blank. -/
theorem dir_blank {k : Nat} (hk : k < 8 * ((es.length + 7) / 8)) :
    odIno f.data (direntAt g f.data d k) = 0 ↔ es.length ≤ k := by
  have hent := hnode.2.2
  constructor
  · intro h0
    by_contra hlt
    have he := List.getElem?_eq_getElem (show k < es.length by omega)
    have hpos := hino _ (List.mem_of_getElem? he)
    rw [hent.odIno_some hk he hpos.2] at h0
    omega
  · intro hle
    exact hent.odIno_none hk (List.getElem?_eq_none hle)

section LastBlock
variable (hne : (es.length + 7) / 8 ≠ 0)
variable (hb : b = own g f.data (d, dataSlot ((es.length + 7) / 8 - 1)))
include hb

omit h hborn hnode hino in
theorem direntAt_last {k : Nat} (hk : k < 8) :
    1024 * b + 128 * k = direntAt g f.data d (8 * ((es.length + 7) / 8 - 1) + k) := by
  unfold direntAt
  rw [show (8 * ((es.length + 7) / 8 - 1) + k) / 8 = (es.length + 7) / 8 - 1 by omega,
    show (8 * ((es.length + 7) / 8 - 1) + k) % 8 = k by omega, ← hb]

include hne

omit hborn in
/-- The last block has a blank entry. -/
theorem blank_opened
    (hr : (blockEntries b).find? (fun od => odIno f.data od == 0) = some od) :
    Opened g d es f f od := by
  rw [blockEntries_eq (hb ▸ h.own_small _), List.find?_map, Option.map_eq_some_iff] at hr
  obtain ⟨k, hfind, hod⟩ := hr
  rw [List.find?_range_eq_some] at hfind
  obtain ⟨hblank, hmem, hfirst⟩ := hfind
  have hk : k < 8 := List.mem_range.mp hmem
  have blank : ∀ j, j < 8 → (odIno f.data (1024 * b + 128 * j) = 0 ↔
      es.length ≤ 8 * ((es.length + 7) / 8 - 1) + j) := by
    intro j hj
    rw [direntAt_last hb hj]
    exact dir_blank hnode hino (by omega)
  have hle := (blank k hk).mp (by simpa using hblank)
  have hlen : es.length = 8 * ((es.length + 7) / 8 - 1) + k := by
    by_contra hlt
    have hj := hfirst (es.length - 8 * ((es.length + 7) / 8 - 1)) (by omega)
    have hzero := (blank (es.length - 8 * ((es.length + 7) / 8 - 1)) (by omega)).mpr (by omega)
    simp [hzero] at hj
  have hcount : (es.length + 8) / 8 = (es.length + 7) / 8 := by omega
  constructor
  · exact h
  · exact Within.refl
  · exact hnode.1
  · rw [hcount]
    exact hnode.2.1
  · rw [hcount]
    exact hnode.2.2
  · omega
  · rw [← hod, direntAt_last hb hk, ← hlen]

omit hborn hne in
theorem no_blank (hr : (blockEntries b).find? (fun od => odIno f.data od == 0) = none) :
    es.length = 8 * ((es.length + 7) / 8) := by
  rw [blockEntries_eq (hb ▸ h.own_small _), List.find?_map, Option.map_eq_none_iff,
    List.find?_range_eq_none] at hr
  by_contra hlt
  have hk : es.length - 8 * ((es.length + 7) / 8 - 1) < 8 := by omega
  have hj := hr _ hk
  have hzero : odIno f.data
      (1024 * b + 128 * (es.length - 8 * ((es.length + 7) / 8 - 1))) = 0 := by
    rw [direntAt_last hb hk]
    exact (dir_blank hnode hino (by omega)).mpr (by omega)
  simp [hzero] at hj

end LastBlock

omit hino in
/-- A directory without a blank entry gets a block. -/
theorem newDirBlock_opened (hfull : es.length = 8 * ((es.length + 7) / 8))
    (hr : f.newDirBlock (inodeAddr d) = some (f', od)) : Opened g d es f f' od := by
  have hx := dir_hasBlocks h hborn hnode
  have hblocks := dir_dirBlocks hnode
  obtain ⟨hft, hsize, hent⟩ := hnode
  generalize hn : (es.length + 7) / 8 = n at *
  have hcount : (es.length + 8) / 8 = n + 1 := by omega
  unfold newDirBlock at hr
  simp only [hblocks, Option.bind_eq_bind, Option.bind_eq_some_iff] at hr
  obtain ⟨⟨f₁, b⟩, hnew, hr⟩ := hr
  obtain ⟨rfl, rfl, hf₁⟩ := h.newblk hnew
  have hnext := h.nextb_le
  have hn8 := g.nblocks_le
  have hblank : (blockEntries f.nextb).foldl (fun m od => setOdIno m od 0) f.data = f.data :=
    blank_entries h.zero_nextb (by omega)
  simp only [hblank] at hr
  obtain ⟨f₂, hstore, hr⟩ := hr
  have hn65 := storeblk_lt hstore
  have h0 : own g f.data (d, dataSlot n) = 0 := by
    by_contra hne
    have := (hent.filled n hn65).mp hne
    omega
  have hp := storeblk_placed (n := n) hf₁ List.not_mem_nil hx hborn h0 hstore
  have hborn₂ : d < f₂.nextinode := by
    rw [hp.extends_.within.nextinode]
    exact hborn
  have hsize₂ : oiSize f₂.data (inodeAddr d) = 1024 * n := by
    rw [← hsize]
    exact rd32_congr fun k hk => hp.extends_.fields k (by omega)
  split at hr
  swap
  · exact absurd hr (by simp)
  simp only [Option.some.injEq, Prod.mk.injEq] at hr
  obtain ⟨rfl, rfl⟩ := hr
  have hr := g.inode_region hx.1
  generalize hm : setSize f₂.data (inodeAddr d) (u32 (oiSize f₂.data (inodeAddr d) + 1024)) = m
  have hout : ∀ a, a < inodeAddr d ∨ inodeAddr d + 4 ≤ a → m a = f₂.data a := by
    intro a ha
    rw [← hm]
    exact wr32_outside ha
  have hkeep : ∀ k, (4 ≤ k ∧ k < 8 ∨ 16 ≤ k ∧ k < 64) →
      m (inodeAddr d + k) = f₂.data (inodeAddr d + k) := fun k hk => hout _ (by omega)
  have hout64 : ∀ a, a < inodeAddr d ∨ inodeAddr d + 64 ≤ a → m a = f₂.data a :=
    fun a ha => hout a (by omega)
  have hown := own_setFields hp.forming hborn₂ hout64 hkeep
  have hge := h.nextb_ge
  have hd4 := g.dataStart_ge
  have hfilled := hp.filled (by omega) hn65 hent.filled
  have hbyte : ∀ x, x / 1024 < n + 1 → fileByte g m d x = fileByte g f₂.data d x := fun x hx =>
    setFields_fileByte hp.forming hborn₂ hout64 hkeep ((hfilled _ (by omega)).mpr hx)
  have hnew : own g m (d, dataSlot n) = f.nextb := by rw [hown, hp.new]
  have hwithin : Within g d f { f₂ with data := m } :=
    (take_extends : Extends g d [] f _).within.trans (hp.extends_.within.trans
      (setFields_within hp.forming hborn₂ hout64 fun k _ _ => hout _ (by omega)))
  constructor
  · exact hp.forming.setFields hborn₂ hout64 hkeep
  · exact hwithin
  · rw [← hft]
    apply rd32_congr
    intro k hk
    rw [Nat.add_assoc]
    exact (hout _ (by omega)).trans (hp.extends_.fields _ (by omega))
  · rw [hcount, ← hm, hsize₂, oiSize_setSize (u32_lt _), u32_of_lt (by omega)]
    omega
  · rw [hcount]
    constructor
    · exact setFields_filled hp.forming hborn₂ hout64 hkeep hfilled
    · omega
    · intro k j hk hj
      rw [hbyte _ (by omega)]
      by_cases hkn : k < 8 * n
      · rw [hp.fileByte_old hn65 hent.filled (by omega)]
        exact hent.entry k j hkn hj
      · rw [hp.fileByte_new (by omega), List.getElem?_eq_none (by omega)]
        exact h.unused _ (by omega)
  · have := hp.extends_.within.nextb
    rw [hcount]
    simp only at this ⊢
    omega
  · unfold direntAt
    rw [show es.length / 8 = n by omega, show es.length % 8 = 0 by omega, hnew,
      ospfsBlock_of_lt (by omega)]
    omega

theorem allocdirentry_opened {name : Name} (hr : f.allocdirentry (inodeAddr d) name = some (f', od)) :
    name.length ≤ 123 ∧ ∃ f₁, Opened g d es f f₁ od ∧
      f' = { f₁ with data := store f₁.data (od + 4) (name ++ [0]) } := by
  have hblocks := dir_dirBlocks hnode
  have hent := hnode.2.2
  have hx := dir_hasBlocks h hborn hnode
  have hfits := hent.fits
  unfold allocdirentry at hr
  split at hr
  · exact absurd hr (by simp)
  · rename_i hname
    refine ⟨by omega, ?_⟩
    simp only [hblocks, Option.bind_eq_bind] at hr
    split at hr
    · rename_i h0
      simp only [Option.bind_eq_some_iff, Option.some.injEq, Prod.mk.injEq] at hr
      obtain ⟨⟨f₁, od'⟩, hopen, rfl, rfl⟩ := hr
      exact ⟨f₁, newDirBlock_opened h hborn hnode (by omega) hopen, rfl⟩
    · rename_i hne
      rw [Option.bind_eq_some_iff] at hr
      obtain ⟨b, hlast, hr⟩ := hr
      have hb := lastDirBlock_eq hx (by omega) ((hent.filled _ (by omega)).mpr (by omega)) hlast
      split at hr
      · rename_i od' hfind
        simp only [Option.bind_some, Option.some.injEq, Prod.mk.injEq] at hr
        obtain ⟨rfl, rfl⟩ := hr
        exact ⟨f, blank_opened h hnode hino hne hb hfind, rfl⟩
      · rename_i hfind
        simp only [Option.bind_eq_some_iff, Option.some.injEq, Prod.mk.injEq] at hr
        obtain ⟨⟨f₁, od'⟩, hopen, rfl, rfl⟩ := hr
        exact ⟨f₁, newDirBlock_opened h hborn hnode (no_blank h hnode hino hb hfind) hopen, rfl⟩

end Opened

section Recorded

/-- The disk after a name has been stored at `od`. -/
def record (m : Bytes) (od ino : Nat) (name : Name) : Bytes :=
  setOdIno (store m (od + 4) (name ++ [0])) od ino

theorem record_eq (m : Bytes) (od ino : Nat) (name : Name) :
    record m od ino name = store m od (wordBytes ino ++ (name ++ [0])) :=
  store_store m od (wordBytes ino) (name ++ [0])

theorem record_length (ino : Nat) (name : Name) :
    (wordBytes ino ++ name).length = name.length + 4 := by
  have hw : (wordBytes ino).length = 4 := rfl
  rw [List.length_append, hw, Nat.add_comm]

theorem record_outside {ino a : Nat} {name : Name} (ha : a < od ∨ od + name.length + 5 ≤ a) :
    record m od ino name a = m a := by
  have hlen := record_length ino name
  rw [record_eq, ← List.append_assoc]
  apply store_outside
  rw [List.length_append, hlen, List.length_singleton]
  omega

/-- A blank entry becomes the entry with the given name. -/
theorem record_byte {ino : Nat} {name : Name} (hblank : m (od + j) = 0) :
    record m od ino name (od + j) = entryByte (some (name, ino)) j := by
  have hlen := record_length ino name
  rw [entryByte_some]
  by_cases hj : j < name.length + 4
  · rw [record_eq, ← List.append_assoc, store_inside (by rw [List.length_append]; omega),
      List.getElem_append_left (by omega), List.getElem?_eq_getElem (by rw [hlen]; exact hj),
      Option.getD_some]
  · rw [List.getElem?_eq_none (by rw [hlen]; omega), Option.getD_none]
    by_cases hlast : j = name.length + 4
    · rw [record_eq, ← List.append_assoc,
        store_inside (by rw [List.length_append, hlen, List.length_singleton]; omega),
        List.getElem_append_right (by omega)]
      simp
    · rw [record_outside (by omega), hblank]

/-- Directory `d` now has the entries `es`. -/
structure Recorded (g : Geometry) (d : Nat) (es : List (Name × Nat)) (f f' : Format) : Prop where
  forming : Forming g [] f'
  within : Within g d f f'
  node : IsNode g f'.data d (.dir es)
  nextb : f.nextb + ((es.length + 7) / 8 - (es.length + 6) / 8) ≤ f'.nextb

variable {name : Name} (ino : Nat) (ho : Opened g d es f f' od) (hname : name.length ≤ 123)
include ho hname

theorem Opened.recorded :
    Recorded g d (es ++ [(name, ino)]) f { f' with data := record f'.data od ino name } := by
  have hent := ho.entries
  have hfits := hent.fits
  have h0 := (hent.filled (es.length / 8) (by omega)).mpr (by omega)
  have hd := (own_ne_zero h0).1
  have hplain := ho.forming.plain_data (y := (d, dataSlot (es.length / 8)))
    (dataSlot_isIndex _) h0
  have hod := ho.od_eq
  unfold direntAt at hod
  have hout : ∀ a, a / 1024 ≠ own g f'.data (d, dataSlot (es.length / 8)) →
      record f'.data od ino name a = f'.data a := fun a ha => record_outside (by omega)
  have hown := own_write ho.forming hplain hout
  constructor
  · exact ho.forming.write hplain hout
  · apply ho.within.trans
    apply write_within ho.forming hplain hout
    intro x hxd hx0 heq
    rw [ho.forming.owns.inj hx0 heq] at hxd
    exact hxd rfl
  · have hcount : ((es ++ [(name, ino)]).length + 7) / 8 = (es.length + 8) / 8 := by
      rw [List.length_append, List.length_singleton]
    refine ⟨?_, ?_, ?_⟩
    · rw [← ho.fields]
      apply rd32_congr
      intro k hk
      rw [Nat.add_assoc]
      exact write_inode hplain hout hd (by omega)
    · rw [hcount, ← ho.size]
      exact rd32_congr fun k hk => write_inode hplain hout hd (by omega)
    · rw [hcount]
      constructor
      · intro k hk
        simp only [hown]
        exact hent.filled k hk
      · exact hfits
      · intro k j hk hj
        have hk0 := (hent.filled (k / 8) (by omega)).mpr (by omega)
        rw [fileByte_dirent hj]
        have haddr : direntAt g (record f'.data od ino name) d k = direntAt g f'.data d k := by
          unfold direntAt
          rw [hown]
        simp only [haddr]
        by_cases hke : k = es.length
        · have hentry : (es ++ [(name, ino)])[k]? = some (name, ino) := by
            rw [hke, List.getElem?_append_right (Nat.le_refl _), Nat.sub_self,
              List.getElem?_cons_zero]
          have hblank : f'.data (od + j) = 0 := by
            rw [ho.od_eq, hent.byte (by omega) hj, List.getElem?_eq_none (Nat.le_refl _)]
            rfl
          rw [hentry, hke, ← ho.od_eq, record_byte hblank]
        · have hentry : (es ++ [(name, ino)])[k]? = es[k]? := by
            rcases Nat.lt_or_gt_of_ne hke with hlt | hgt
            · exact List.getElem?_append_left hlt
            · rw [List.getElem?_eq_none (by rw [List.length_append, List.length_singleton]; omega),
                List.getElem?_eq_none (by omega)]
          rw [hentry, ← hent.byte hk hj]
          apply record_outside
          -- two entries of one directory do not overlap
          unfold direntAt
          by_cases hblock : k / 8 = es.length / 8
          · rw [hblock]
            omega
          · have hne : own g f'.data (d, dataSlot (k / 8)) ≠
                own g f'.data (d, dataSlot (es.length / 8)) := fun heq => by
              have hslot := ho.forming.owns.inj hk0 heq
              rw [Prod.mk.injEq] at hslot
              exact hblock (dataSlot_inj (by omega) (by omega) hslot.2)
            omega
  · have := ho.nextb
    simp only [List.length_append, List.length_singleton]
    exact this

end Recorded

end Format

end CS111.Ospfs
