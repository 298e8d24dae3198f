import CS111.Ospfs.Dirents
import CS111.Ospfs.Forming
import CS111.Ospfs.Nodes

/-!
# The image of an inode

How the bytes of a file, the entries of a directory and the target of a symbolic link lie on the
disk, and which writes of the formatter leave them alone.
-/

namespace CS111.Ospfs

open Memory

set_option autoImplicit false

variable {g : Geometry} {m m' : Bytes} {f f' : Format} {i j k n b : Nat} {pending : List Nat}

section Image

/-- The inode has the data blocks of a file of `n` blocks. -/
def Filled (g : Geometry) (m : Bytes) (i n : Nat) : Prop :=
  ∀ k, k < 65802 → (own g m (i, dataSlot k) ≠ 0 ↔ k < n)

structure HasBytes (g : Geometry) (m : Bytes) (i : Nat) (content : List UInt8) : Prop where
  filled : Filled g m i ((content.length + 1023) / 1024)
  fits : content.length ≤ maxFileSize
  bytes : ∀ x, (h : x < content.length) → fileByte g m i x = content[x]

/-- The inode number, the name, and zeros. -/
def entryByte : Option (Name × Nat) → Nat → UInt8
  | none, _ => 0
  | some e, j => ((wordBytes e.2 ++ e.1)[j]?).getD 0

/-- The blocks of a directory hold the entries, and then blank ones. -/
structure HasEntries (g : Geometry) (m : Bytes) (i n : Nat) (es : List (Name × Nat)) : Prop where
  filled : Filled g m i n
  fits : n ≤ 65802
  entry : ∀ k j, k < 8 * n → j < 128 → fileByte g m i (128 * k + j) = entryByte es[k]? j

theorem entryByte_some (e : Name × Nat) (j : Nat) :
    entryByte (some e) j = ((wordBytes e.2 ++ e.1)[j]?).getD 0 := rfl

theorem entryByte_ino {e : Name × Nat} (h : j < 4) :
    entryByte (some e) j = ((wordBytes e.2)[j]?).getD 0 := by
  have hlen : j < (wordBytes e.2).length := h
  rw [entryByte_some, List.getElem?_append_left hlen]

section Entries

variable {es : List (Name × Nat)} (h : HasEntries g m i n es) (hk : k < 8 * n)
include h hk

theorem HasEntries.byte (hj : j < 128) : m (direntAt g m i k + j) = entryByte es[k]? j := by
  rw [← h.entry k j hk hj, fileByte_dirent hj]

theorem HasEntries.odIno_some {e : Name × Nat} (he : es[k]? = some e) (hlt : e.2 < 4294967296) :
    odIno m (direntAt g m i k) = e.2 := by
  apply rd32_eq_of_wordBytes hlt
  intro j hj
  rw [h.byte hk (by omega), he, entryByte_ino hj]

theorem HasEntries.odIno_none (he : es[k]? = none) : odIno m (direntAt g m i k) = 0 := by
  apply rd32_eq_zero
  intro j hj
  rw [h.byte hk (by omega), he]
  rfl

end Entries

def IsNode (g : Geometry) (m : Bytes) (i : Nat) : Node → Prop
  | .file content => oiFtype m (inodeAddr i) = FTYPE_REG ∧
      oiSize m (inodeAddr i) = content.length ∧ HasBytes g m i content
  | .dir es => oiFtype m (inodeAddr i) = FTYPE_DIR ∧
      oiSize m (inodeAddr i) = 1024 * ((es.length + 7) / 8) ∧
      HasEntries g m i ((es.length + 7) / 8) es
  | .symlink target => oiFtype m (inodeAddr i) = FTYPE_SYMLINK ∧
      oiSize m (inodeAddr i) = target.length ∧ target.length ≤ 51 ∧
      load m (inodeAddr i + 12) (target.length + 1) = target ++ [0]

theorem Same.filled (h : Same g i m m') (hf : Filled g m i n) : Filled g m' i n := by
  intro k hk
  rw [h.own_eq]
  exact hf k hk

theorem Same.hasBytes {content : List UInt8} (h : Same g i m m') (hb : HasBytes g m i content) :
    HasBytes g m' i content := by
  constructor
  · exact h.filled hb.filled
  · exact hb.fits
  · intro x hx
    have hfits := hb.fits
    unfold maxFileSize at hfits
    rw [h.fileByte ((hb.filled _ (by omega)).mpr (by omega)), hb.bytes x hx]

theorem Same.hasEntries {es : List (Name × Nat)} (h : Same g i m m') (he : HasEntries g m i n es) :
    HasEntries g m' i n es := by
  constructor
  · exact h.filled he.filled
  · exact he.fits
  · intro k j hk hj
    have hfits := he.fits
    rw [h.fileByte ((he.filled _ (by omega)).mpr (by omega)), he.entry k j hk hj]

theorem Same.isNode {nd : Node} (h : Same g i m m') (hn : IsNode g m i nd) : IsNode g m' i nd := by
  cases nd with
  | file content =>
    obtain ⟨h1, h2, h3⟩ := hn
    exact ⟨h.ftype.trans h1, h.size.trans h2, h.hasBytes h3⟩
  | dir es =>
    obtain ⟨h1, h2, h3⟩ := hn
    exact ⟨h.ftype.trans h1, h.size.trans h2, h.hasEntries h3⟩
  | symlink target =>
    obtain ⟨h1, h2, h3, h4⟩ := hn
    refine ⟨h.ftype.trans h1, h.size.trans h2, h3, ?_⟩
    rw [← h4]
    apply load_congr
    intro k hk
    rw [Nat.add_assoc]
    exact h.inode _ (.inr (by omega))

end Image

namespace Format

section Blocks

/-- A block that is given out and holds no pointers. -/
def PlainBlock (g : Geometry) (f : Format) (b : Nat) : Prop :=
  Taken g f b ∧ ∀ x : Nat × Slot, x.2.isIndex = true → own g f.data x ≠ b

theorem Forming.plain_data (h : Forming g pending f) {y : Nat × Slot} (hy : y.2.isIndex = false)
    (h0 : own g f.data y ≠ 0) : PlainBlock g f (own g f.data y) := by
  constructor
  · exact (h.owns.used_of_ne h0).1
  · intro x hx heq
    have hxy := h.owns.inj h0 heq.symm
    rw [hxy, hx] at hy
    exact absurd hy (by simp)

theorem Forming.plain_pending (h : Forming g pending f) (hb : b ∈ pending) : PlainBlock g f b := by
  have hheld := h.held b hb
  constructor
  · exact hheld
  · intro x _ heq
    have hge := g.dataStart_ge
    have h0 : own g f.data x ≠ 0 := by
      rw [heq]
      have := hheld.1
      omega
    exact (h.owns.used_of_ne h0).2 (heq ▸ hb)

variable (h : Forming g pending f) (hb : PlainBlock g f b)
variable (hout : ∀ a, a / 1024 ≠ b → m' a = f.data a)
include h hb hout

theorem own_write : own g m' = own g f.data := by
  apply own_congr h.owns h.dataBlocks
  · intro i k hi _
    have hr := g.inode_region hi
    have := hb.1.1
    exact hout _ (by omega)
  · intro x a hx _ ha
    apply hout
    rw [ha]
    exact hb.2 x hx

theorem Forming.write : Forming g pending { f with data := m' } := by
  have hge := g.dataStart_ge
  have hlo := hb.1.1
  have hhi := hb.1.2
  apply h.congr
  · intro a ha
    exact hout a (by omega)
  · intro i k _ hi hk
    have hr := g.inode_region hi
    exact hout _ (by omega)
  · intro a ha
    exact hout a (by omega)
  · exact own_write h hb hout

omit h in
theorem write_inode (hi : i < g.ninodes) (hk : k < 64) :
    m' (inodeAddr i + k) = f.data (inodeAddr i + k) := by
  have hr := g.inode_region hi
  have := hb.1.1
  exact hout _ (by omega)

theorem write_same (hj : j < g.ninodes) (hne : ∀ s, own g f.data (j, s) ≠ 0 →
    own g f.data (j, s) ≠ b) : Same g j f.data m' := by
  constructor
  · intro k hk
    exact write_inode hb hout hj (by omega)
  · intro s
    exact congrFun (own_write h hb hout) (j, s)
  · intro s a h0 ha
    apply hout
    rw [ha]
    exact hne s h0

/-- A write into a block that no inode but `i` points to. -/
theorem write_within (hne : ∀ x, x.1 ≠ i → own g f.data x ≠ 0 → own g f.data x ≠ b) :
    Within g i f { f with data := m' } := by
  constructor
  · exact Nat.le_refl _
  · rfl
  · rfl
  · rfl
  · intro j hj
    apply rd32_congr
    intro k hk
    rw [Nat.add_assoc]
    exact write_inode hb hout hj (by omega)
  · intro j hj hji
    exact write_same h hb hout hj fun s hs0 => hne (j, s) hji hs0

end Blocks

section Fields

variable (h : Forming g pending f) (hi : i < f.nextinode)
variable (hout : ∀ a, a < inodeAddr i ∨ inodeAddr i + 64 ≤ a → m' a = f.data a)
include h

theorem Forming.region (hlt : i < g.ninodes) :
    3072 ≤ inodeAddr i ∧ inodeAddr i + 64 ≤ 1024 * f.nextb := by
  have hr := g.inode_region hlt
  have := h.nextb_ge
  omega

include hout

/-- A change of one inode leaves the pointers of the others alone. -/
theorem own_others (hi' : i < g.ninodes) (hj : j ≠ i) (s : Slot) :
    own g m' (j, s) = own g f.data (j, s) := by
  have hr := g.inode_region hi'
  apply own_congr_at h.owns h.dataBlocks
  · intro k hj' hk
    apply hout
    unfold inodeAddr
    omega
  · intro t a _ h0 ha
    have := (h.own_taken h0).1
    exact hout a (by omega)

theorem inode_same (hi' : i < g.ninodes) (hj : j ≠ i) : Same g j f.data m' := by
  have hr := g.inode_region hi'
  constructor
  · intro k hk
    apply hout
    unfold inodeAddr
    omega
  · intro s
    exact own_others h hout hi' hj s
  · intro s a h0 ha
    have := (h.own_taken h0).1
    exact hout a (by omega)

include hi

/-- A change of the size, the link count or the mode. -/
theorem own_setFields (hkeep : ∀ k, (4 ≤ k ∧ k < 8 ∨ 16 ≤ k ∧ k < 64) →
    m' (inodeAddr i + k) = f.data (inodeAddr i + k)) : own g m' = own g f.data := by
  have hle := h.nextinode_le
  have hr := g.inode_region (i := i) (by omega)
  apply own_congr h.owns h.dataBlocks
  · intro j k hj hk
    by_cases hji : j = i
    · rw [hji]
      exact hkeep k hk
    · apply hout
      unfold inodeAddr
      omega
  · intro x a _ h0 ha
    have := (h.own_taken h0).1
    exact hout a (by omega)

theorem Forming.setFields (hkeep : ∀ k, (4 ≤ k ∧ k < 8 ∨ 16 ≤ k ∧ k < 64) →
    m' (inodeAddr i + k) = f.data (inodeAddr i + k)) : Forming g pending { f with data := m' } := by
  have hle := h.nextinode_le
  have hr := h.region (i := i) (by omega)
  apply h.congr
  · intro a ha
    exact hout a (by omega)
  · intro j k h1 h2 h3
    apply hout
    unfold inodeAddr
    omega
  · intro a ha
    exact hout a (by omega)
  · exact own_setFields h hi hout hkeep

variable (hkeep : ∀ k, (4 ≤ k ∧ k < 8 ∨ 16 ≤ k ∧ k < 64) →
  m' (inodeAddr i + k) = f.data (inodeAddr i + k))
include hkeep

theorem setFields_filled (hf : Filled g f.data i n) : Filled g m' i n := by
  intro k hk
  rw [own_setFields h hi hout hkeep]
  exact hf k hk

theorem setFields_fileByte {x : Nat} (h0 : own g f.data (i, dataSlot (x / 1024)) ≠ 0) :
    fileByte g m' i x = fileByte g f.data i x := by
  have hle := h.nextinode_le
  have hr := g.inode_region (i := i) (by omega)
  have hlo := (h.own_taken h0).1
  unfold fileByte
  rw [own_setFields h hi hout hkeep]
  exact hout _ (by omega)

omit hkeep in
theorem setFields_within (hnlink : ∀ k, 8 ≤ k → k < 12 →
    m' (inodeAddr i + k) = f.data (inodeAddr i + k)) : Within g i f { f with data := m' } := by
  have hle := h.nextinode_le
  constructor
  · exact Nat.le_refl _
  · rfl
  · rfl
  · rfl
  · intro j _
    apply rd32_congr
    intro k hk
    rw [Nat.add_assoc]
    by_cases hji : j = i
    · rw [hji]
      exact hnlink _ (by omega) (by omega)
    · apply hout
      unfold inodeAddr
      omega
  · intro j _ hj
    exact inode_same h hout (by omega) hj

end Fields

section Nlink

variable (h : Forming g pending f) (hi : i < f.nextinode) (v : Nat)

theorem setNlink_outside {a : Nat} (ha : a < inodeAddr i ∨ inodeAddr i + 64 ≤ a) :
    setNlink m (inodeAddr i) v a = m a := wr32_outside (by omega)

theorem setNlink_keep (hk : k < 8 ∨ 12 ≤ k) :
    setNlink m (inodeAddr i) v (inodeAddr i + k) = m (inodeAddr i + k) := wr32_outside (by omega)

theorem setNlink_others (hj : j ≠ i) :
    oiNlink (setNlink m (inodeAddr i) v) (inodeAddr j) = oiNlink m (inodeAddr j) := by
  apply rd32_wr32_ne
  unfold inodeAddr
  omega

include h hi

theorem Forming.setNlink :
    Forming g pending { f with data := setNlink f.data (inodeAddr i) v } :=
  h.setFields hi (fun _ ha => setNlink_outside v ha) fun _ hk => setNlink_keep v (by omega)

/-- The link count plays no part in what an inode holds. -/
theorem setNlink_same : Same g j f.data (setNlink f.data (inodeAddr i) v) := by
  have hle := h.nextinode_le
  have hr := g.inode_region (i := i) (by omega)
  constructor
  · intro k hk
    apply wr32_outside
    unfold inodeAddr
    omega
  · intro s
    exact congrFun (own_setFields h hi (fun _ ha => setNlink_outside v ha)
      fun _ hk => setNlink_keep v (by omega)) (j, s)
  · intro s a h0 ha
    have := (h.own_taken h0).1
    exact setNlink_outside v (by omega)

end Nlink

section Placed

variable (hp : Placed g i n b pending f f')
include hp

theorem Placed.filled (hb : b ≠ 0) (hn : n < 65802) (hf : Filled g f.data i n) :
    Filled g f'.data i (n + 1) := by
  intro k hk
  by_cases hkn : k = n
  · rw [hkn, hp.new]
    exact ⟨fun _ => Nat.lt_succ_self n, fun _ => hb⟩
  · rw [hp.old _ (dataSlot_isIndex k) fun hc => hkn (dataSlot_inj hk hn hc), hf k hk]
    omega

theorem Placed.fileByte_old {x : Nat} (hn : n < 65802) (hf : Filled g f.data i n)
    (hx : x / 1024 < n) : fileByte g f'.data i x = fileByte g f.data i x := by
  have h0 := (hf _ (by omega)).mpr hx
  have hown : own g f'.data (i, dataSlot (x / 1024)) = own g f.data (i, dataSlot (x / 1024)) :=
    hp.extends_.kept _ h0
  unfold fileByte
  rw [hown]
  exact hp.extends_.data _ _ (dataSlot_isIndex _) h0 (by omega)

theorem Placed.fileByte_new {x : Nat} (hx : x / 1024 = n) :
    fileByte g f'.data i x = f.data (1024 * b + x % 1024) := by
  unfold fileByte
  rw [hx, hp.new]
  exact hp.extends_.pending b _ List.mem_cons_self (by omega)

end Placed

section Birth

variable (h : Forming g pending f) (hlt : f.nextinode < g.ninodes)
include h hlt

theorem Forming.unborn_own (s : Slot) : own g f.data (f.nextinode, s) = 0 := by
  unfold own
  split
  · exact ptr_eq_zero (fun k _ hk => h.unborn _ k (Nat.le_refl _) hlt hk) s
  · rfl

/-- The next inode is filled in, and has no blocks yet. -/
theorem Forming.born (hout : ∀ a, a < inodeAddr f.nextinode ∨ inodeAddr f.nextinode + 64 ≤ a →
      m' a = f.data a) (hown : ∀ s, own g m' (f.nextinode, s) = 0) :
    Forming g pending { f with nextinode := f.nextinode + 1, data := m' } := by
  have hr := h.region hlt
  have hsame : own g m' = own g f.data := by
    funext ⟨j, s⟩
    by_cases hj : j = f.nextinode
    · rw [hj, hown, h.unborn_own hlt]
    · exact own_others h hout hlt hj s
  constructor
  · exact h.nblocks
  · exact h.ninodes
  · exact h.nextb_ge
  · exact h.nextb_le
  · exact hlt
  · intro a ha
    exact (hout a (by omega)).trans (h.low a ha)
  · intro a h1 h2
    exact (hout a (by omega)).trans (h.bitmap a h1 h2)
  · intro j k h1 h2 h3
    have hj : f.nextinode < j := h1
    refine (hout _ ?_).trans (h.unborn j k (Nat.le_of_lt hj) h2 h3)
    unfold inodeAddr
    omega
  · intro a ha
    have ha' : f.nextb ≤ a / 1024 := ha
    exact (hout a (by omega)).trans (h.unused a ha')
  · have howns := h.owns
    rw [← hsame] at howns
    exact howns
  · intro b hb
    obtain ⟨x, hx⟩ := h.covered b hb
    exact ⟨x, by rw [← hx]; exact congrFun hsame x⟩
  · exact h.held

end Birth

end Format

end CS111.Ospfs
