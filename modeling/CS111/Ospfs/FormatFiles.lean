import CS111.Ospfs.FormatDirectory

/-!
# New files, links and directories

Every step of the formatter that enters something turns an image of a tree of inodes into an
image of the larger tree.
-/

namespace CS111.Ospfs

open Memory

set_option autoImplicit false

namespace Format

variable {g : Geometry} {m m' : Bytes} {f f' f₁ : Format} {i j k n b d od : Nat} {pending : List Nat}
variable {es : List (Name × Nat)} {A : Nodes} {name : Name}

section Contents

/-- The blocks of file `i` hold `content`; its size has not been stored yet. -/
structure Copied (g : Geometry) (i : Nat) (content : List UInt8) (f f' : Format) : Prop where
  forming : Forming g [] f'
  within : Within g i f f'
  fields : ∀ k, k < 16 → f'.data (inodeAddr i + k) = f.data (inodeAddr i + k)
  bytes : HasBytes g f'.data i content

theorem Copied.refl {content : List UInt8} (h : Forming g [] f) (hb : HasBytes g f.data i content) :
    Copied g i content f f := by
  constructor
  · exact h
  · exact Within.refl
  · intro k _
    rfl
  · exact hb

theorem Copied.trans {content content' : List UInt8} (h : Copied g i content f f₁)
    (h' : Copied g i content' f₁ f') : Copied g i content' f f' := by
  constructor
  · exact h'.forming
  · exact h.within.trans h'.within
  · intro k hk
    rw [h'.fields k hk, h.fields k hk]
  · exact h'.bytes

variable {done chunk content : List UInt8} {fuel size : Nat}
variable (h : Forming g [] f) (hx : HasBlocks g f.data i) (hborn : i < f.nextinode)
variable (hb : HasBytes g f.data i done) (hdone : done.length = 1024 * n)
include h hx hborn hb hdone

/-- One round of the copying loop. -/
theorem chunk_copied (hlt : f.nextb < g.nblocks) (hpos : 0 < chunk.length) (hmax : chunk.length ≤ 1024)
    (hr : Format.storeblk
      { f with data := store f.data (ospfsBlock f.nextb) chunk, nextb := f.nextb + 1 }
      (inodeAddr i) f.nextb n = some f') :
    Copied g i (done ++ chunk) f f' := by
  have hn := g.nblocks_le
  have hge := h.nextb_ge
  have hd4 := g.dataStart_ge
  have hn65 := storeblk_lt hr
  have htake := h.take hlt
  have hplain := htake.plain_pending (b := f.nextb) List.mem_cons_self
  rw [ospfsBlock_of_lt (by omega)] at hr
  have hwithin := (take_extends : Extends g i [] f _).within
  generalize hm : store f.data (1024 * f.nextb) chunk = m at hr
  have hout : ∀ a, a / 1024 ≠ f.nextb → m a = f.data a := fun a ha => by
    rw [← hm]
    exact store_outside (by omega)
  have hf₁ := htake.write hplain hout
  have hnot : ∀ x, own g f.data x ≠ 0 → own g f.data x ≠ f.nextb := fun x hx0 heq =>
    Nat.lt_irrefl _ (heq ▸ (h.own_taken hx0).2.1)
  have hsame : Same g i f.data m :=
    write_same (f := { f with nextb := f.nextb + 1 }) htake hplain hout hx.1 fun s => hnot (i, s)
  have hb₁ := hsame.hasBytes hb
  have hblocks : (done.length + 1023) / 1024 = n := by omega
  have hx₁ : HasBlocks g m i := ⟨hx.1, by rw [hsame.ftype]; exact hx.2⟩
  have hfilled := hb₁.filled
  rw [hblocks] at hfilled
  have h0 : own g m (i, dataSlot n) = 0 := by
    by_contra hne
    exact Nat.lt_irrefl _ ((hfilled n hn65).mp hne)
  have hp := storeblk_placed hf₁ List.not_mem_nil hx₁ hborn h0 hr
  constructor
  · exact hp.forming
  · exact hwithin.trans
      ((write_within htake hplain hout fun x _ => hnot x).trans hp.extends_.within)
  · intro k hk
    rw [hp.extends_.fields k hk]
    exact write_inode (f := { f with nextb := f.nextb + 1 }) hplain hout hx.1 (by omega)
  · have hlen : (done ++ chunk).length = 1024 * n + chunk.length := by
      rw [List.length_append, hdone]
    constructor
    · rw [hlen, show (1024 * n + chunk.length + 1023) / 1024 = n + 1 by omega]
      exact hp.filled (by omega) hn65 hfilled
    · unfold maxFileSize
      omega
    · intro x hxl
      by_cases hxn : x < done.length
      · rw [hp.fileByte_old hn65 hfilled (by omega), List.getElem_append_left hxn]
        exact hb₁.bytes x hxn
      · rw [hp.fileByte_new (by omega), List.getElem_append_right (by omega)]
        have hxmod : x % 1024 = x - done.length := by omega
        have hin : m (1024 * f.nextb + (x - done.length)) = chunk[x - done.length] := by
          rw [← hm]
          exact store_inside (by omega)
        rw [hxmod]
        exact hin

theorem writeBlocks_copied (hr : writeBlocks (inodeAddr i) fuel f n content = some (f', size)) :
    Copied g i (done ++ content) f f' ∧ size = (done ++ content).length := by
  induction fuel generalizing f n done content with
  | zero => exact absurd hr (by simp [writeBlocks])
  | succ fuel ih =>
    rw [writeBlocks] at hr
    simp only [Option.bind_eq_bind, Option.bind_eq_some_iff] at hr
    obtain ⟨f₁, hget, hr⟩ := hr
    obtain ⟨rfl, hlt⟩ := h.getblk_nextb hget
    split at hr
    · rename_i hempty
      simp only [Option.some.injEq, Prod.mk.injEq] at hr
      obtain ⟨rfl, rfl⟩ := hr
      have hnil : content = [] := by
        rw [List.length_take] at hempty
        exact List.length_eq_zero_iff.mp (by omega)
      rw [hnil, List.append_nil]
      exact ⟨Copied.refl h hb, by omega⟩
    · rename_i hpos
      rw [Option.bind_eq_some_iff] at hr
      obtain ⟨f₂, hstore, hr⟩ := hr
      have hlen := List.length_take (i := 1024) (l := content)
      have hc := chunk_copied h hx hborn hb hdone hlt (by omega) (by omega) hstore
      split at hr
      · rename_i hshort
        simp only [Option.some.injEq, Prod.mk.injEq] at hr
        obtain ⟨rfl, rfl⟩ := hr
        rw [List.take_of_length_le (by omega)] at hc hshort ⊢
        refine ⟨hc, ?_⟩
        rw [List.length_append]
        omega
      · rename_i hfull
        have hborn₂ : i < f₂.nextinode := by
          rw [hc.within.nextinode]
          exact hborn
        have hft : oiFtype f₂.data (inodeAddr i) = oiFtype f₁.data (inodeAddr i) :=
          rd32_congr fun k hk => by
            rw [Nat.add_assoc]
            exact hc.fields _ (by omega)
        have hx₂ : HasBlocks g f₂.data i := ⟨hx.1, by rw [hft]; exact hx.2⟩
        have hdone₂ : (done ++ content.take 1024).length = 1024 * (n + 1) := by
          rw [List.length_append]
          omega
        obtain ⟨hrest, hsize⟩ := ih hc.forming hx₂ hborn₂ hc.bytes hdone₂ hr
        rw [List.append_assoc, List.take_append_drop] at hrest hsize
        exact ⟨hc.trans hrest, hsize⟩

end Contents

section Born

/-- The next inode now holds `nd`, and everything else is left alone. -/
structure Born (g : Geometry) (hl : List Hardlink) (nd : Node) (f f' : Format) : Prop where
  forming : Forming g [] f'
  nextinode : f'.nextinode = f.nextinode + 1
  nextb : f.nextb ≤ f'.nextb
  linkContents : f'.linkContents = f.linkContents
  hardlinks : f'.hardlinks = hl
  same : ∀ j, j < g.ninodes → j ≠ f.nextinode → Same g j f.data f'.data
  nlinks : ∀ j, j < g.ninodes → j ≠ f.nextinode →
    oiNlink f'.data (inodeAddr j) = oiNlink f.data (inodeAddr j)
  node : IsNode g f'.data f.nextinode nd
  nlink : oiNlink f'.data (inodeAddr f.nextinode) = 1

theorem own_zero (hz : ∀ k, 16 ≤ k → k < 64 → m (inodeAddr i + k) = 0) (s : Slot) :
    own g m (i, s) = 0 := by
  unfold own
  split
  · exact ptr_eq_zero hz s
  · rfl

theorem filled_zero (hown : ∀ s, own g m (i, s) = 0) : Filled g m i 0 := by
  intro k _
  rw [hown]
  omega

variable {nd : Node} {hl : List Hardlink}
variable (h : Forming g [] f) (hlt : f.nextinode < g.ninodes)
include h hlt

theorem born_of_bytes
    (hout : ∀ a, a < inodeAddr f.nextinode ∨ inodeAddr f.nextinode + 64 ≤ a → m' a = f.data a)
    (hown : ∀ s, own g m' (f.nextinode, s) = 0) (hnode : IsNode g m' f.nextinode nd)
    (hnlink : oiNlink m' (inodeAddr f.nextinode) = 1) :
    Born g hl nd f { f with nextinode := f.nextinode + 1, hardlinks := hl, data := m' } := by
  have hf := h.born hlt hout hown
  constructor
  · exact ⟨hf.nblocks, hf.ninodes, hf.nextb_ge, hf.nextb_le, hf.nextinode_le, hf.low, hf.bitmap,
      hf.unborn, hf.unused, hf.owns, hf.covered, hf.held⟩
  · rfl
  · exact Nat.le_refl _
  · rfl
  · rfl
  · intro j _ hj
    exact inode_same h hout hlt hj
  · intro j _ hj
    apply rd32_congr
    intro k hk
    rw [Nat.add_assoc]
    apply hout
    unfold inodeAddr
    omega
  · exact hnode
  · exact hnlink

/-- Only fields in front of the block numbers are written: the node has no blocks. -/
theorem born_of_fields
    (hout : ∀ a, a < inodeAddr f.nextinode ∨ inodeAddr f.nextinode + 16 ≤ a → m' a = f.data a)
    (hnode : Filled g m' f.nextinode 0 → IsNode g m' f.nextinode nd)
    (hnlink : oiNlink m' (inodeAddr f.nextinode) = 1) :
    Born g hl nd f { f with nextinode := f.nextinode + 1, hardlinks := hl, data := m' } := by
  have hown : ∀ s, own g m' (f.nextinode, s) = 0 := by
    apply own_zero
    intro k h1 h2
    rw [hout _ (by omega), h.unborn _ k (Nat.le_refl _) hlt h2]
  exact born_of_bytes h hlt (fun a ha => hout a (by omega)) hown (hnode (filled_zero hown)) hnlink

/-- The inode of a new file, before its contents are copied. -/
def startFile (m : Bytes) (oi mode : Nat) : Bytes :=
  setMode (setFtype (setNlink m oi 1) oi FTYPE_REG) oi mode

theorem startFile_born (mode : Nat) :
    Born g hl (.file []) f { f with
      nextinode := f.nextinode + 1, hardlinks := hl,
      data := startFile f.data (inodeAddr f.nextinode) mode } := by
  have hz : ∀ k, k < 64 → f.data (inodeAddr f.nextinode + k) = 0 := fun k hk =>
    h.unborn _ k (Nat.le_refl _) hlt hk
  have hin : ∀ a, a < inodeAddr f.nextinode + 4 ∨ inodeAddr f.nextinode + 16 ≤ a →
      startFile f.data (inodeAddr f.nextinode) mode a = f.data a := fun a ha => by
    unfold startFile setMode setFtype setNlink
    rw [wr32_outside (by omega), wr32_outside (by omega), wr32_outside (by omega)]
  apply born_of_fields h hlt
  · intro a ha
    exact hin a (by omega)
  · intro hfilled
    refine ⟨?_, ?_, ?_⟩
    · unfold startFile setMode oiFtype
      rw [rd32_wr32_ne (by omega)]
      exact rd32_wr32_of_lt _ _ (by decide)
    · apply rd32_eq_zero
      intro k hk
      rw [hin _ (by omega), hz k (by omega)]
    · constructor
      · exact hfilled
      · exact Nat.zero_le _
      · intro x hx
        exact absurd hx (Nat.not_lt_zero x)
  · unfold startFile setMode setFtype setNlink oiNlink
    rw [rd32_wr32_ne (by omega), rd32_wr32_ne (by omega), rd32_wr32_of_lt _ _ (by decide)]

theorem file_born {mode fuel size : Nat} {content : List UInt8}
    (hr : writeBlocks (inodeAddr f.nextinode) fuel { f with
      nextinode := f.nextinode + 1, hardlinks := hl,
      data := startFile f.data (inodeAddr f.nextinode) mode } 0 content = some (f', size)) :
    Born g hl (.file content) f
      { f' with data := setSize f'.data (inodeAddr f.nextinode) (u32 size) } := by
  have hs : Born g hl _ _ _ := startFile_born h hlt mode
  have hft := hs.node.1
  have hx := hs.node
  generalize hf₁ : ({ f with
    nextinode := f.nextinode + 1, hardlinks := hl,
    data := startFile f.data (inodeAddr f.nextinode) mode } : Format) = f₁ at *
  have hblocks : HasBlocks g f₁.data f.nextinode := ⟨hlt, by rw [hft]; decide⟩
  have hborn : f.nextinode < f₁.nextinode := by
    rw [hs.nextinode]
    exact Nat.lt_succ_self _
  obtain ⟨hc, hsize⟩ := writeBlocks_copied (n := 0) hs.forming hblocks hborn hs.node.2.2 rfl hr
  rw [List.nil_append] at hc hsize
  have hfits := hc.bytes.fits
  unfold maxFileSize at hfits
  have hborn' : f.nextinode < f'.nextinode := by
    rw [hc.within.nextinode]
    exact hborn
  have hrg := g.inode_region hlt
  generalize hm : setSize f'.data (inodeAddr f.nextinode) (u32 size) = m
  have hout : ∀ a, a < inodeAddr f.nextinode ∨ inodeAddr f.nextinode + 4 ≤ a → m a = f'.data a := by
    intro a ha
    rw [← hm]
    exact wr32_outside ha
  have hout64 : ∀ a, a < inodeAddr f.nextinode ∨ inodeAddr f.nextinode + 64 ≤ a → m a = f'.data a :=
    fun a ha => hout a (by omega)
  have hkeep : ∀ k, (4 ≤ k ∧ k < 8 ∨ 16 ≤ k ∧ k < 64) →
      m (inodeAddr f.nextinode + k) = f'.data (inodeAddr f.nextinode + k) :=
    fun k hk => hout _ (by omega)
  have hwithin := hc.within.trans
    (setFields_within hc.forming hborn' hout64 fun k _ _ => hout _ (by omega))
  constructor
  · exact hc.forming.setFields hborn' hout64 hkeep
  · rw [hwithin.nextinode, hs.nextinode]
  · exact Nat.le_trans hs.nextb hwithin.nextb
  · rw [hwithin.linkContents, hs.linkContents]
  · rw [hwithin.hardlinks, hs.hardlinks]
  · intro j hj hne
    exact (hs.same j hj hne).trans (hwithin.same j hj hne)
  · intro j hj hne
    rw [hwithin.nlinks j hj, hs.nlinks j hj hne]
  · refine ⟨?_, ?_, ?_⟩
    · rw [← hft]
      apply rd32_congr
      intro k hk
      rw [Nat.add_assoc]
      exact (hout _ (by omega)).trans (hc.fields _ (by omega))
    · rw [← hm, hsize, oiSize_setSize (u32_lt _), u32_of_lt (by omega)]
    · constructor
      · exact setFields_filled hc.forming hborn' hout64 hkeep hc.bytes.filled
      · exact hc.bytes.fits
      · intro x hxl
        have h0 := (hc.bytes.filled (x / 1024) (by omega)).mpr (by omega)
        rw [← hc.bytes.bytes x hxl]
        exact setFields_fileByte hc.forming hborn' hout64 hkeep h0
  · rw [hwithin.nlinks _ hlt, hs.nlink]

def startSymlink (m : Bytes) (oi : Nat) (target : Name) : Bytes :=
  setSize (store (setFtype (setNlink m oi 1) oi FTYPE_SYMLINK) (oi + 12) (target ++ [0])) oi
    target.length

theorem symlink_born {target : Name} (hlen : target.length ≤ 51) :
    Born g hl (.symlink target) f { f with
      nextinode := f.nextinode + 1, hardlinks := hl,
      data := startSymlink f.data (inodeAddr f.nextinode) target } := by
  have hlast : (target ++ [0]).length = target.length + 1 := by
    rw [List.length_append, List.length_singleton]
  have hftype : oiFtype (startSymlink f.data (inodeAddr f.nextinode) target)
      (inodeAddr f.nextinode) = FTYPE_SYMLINK := by
    unfold startSymlink setSize oiFtype
    rw [rd32_wr32_ne (by omega), rd32_store_disjoint (by omega)]
    exact rd32_wr32_of_lt _ _ (by decide)
  apply born_of_bytes h hlt
  · intro a ha
    unfold startSymlink setSize setFtype setNlink
    rw [wr32_outside (by omega), store_outside (by omega), wr32_outside (by omega),
      wr32_outside (by omega)]
  · intro s
    unfold own
    rw [if_neg]
    exact fun hc => hc.2 hftype
  · refine ⟨hftype, ?_, hlen, ?_⟩
    · exact oiSize_setSize (by omega)
    · unfold startSymlink setSize wr32
      rw [load_store_disjoint]
      · rw [← hlast]
        exact load_store_same _ _ _
      · have hw : (wordBytes target.length).length = 4 := rfl
        omega
  · unfold startSymlink setSize setFtype setNlink oiNlink
    rw [rd32_wr32_ne (by omega), rd32_store_disjoint (by omega), rd32_wr32_ne (by omega),
      rd32_wr32_of_lt _ _ (by decide)]

def startDir (m : Bytes) (oi mode : Nat) : Bytes :=
  setMode (setNlink (setSize (setFtype m oi FTYPE_DIR) oi 0) oi 1) oi mode

theorem dir_born (mode : Nat) :
    Born g hl (.dir []) f { f with
      nextinode := f.nextinode + 1, hardlinks := hl,
      data := startDir f.data (inodeAddr f.nextinode) mode } := by
  have hin : ∀ a, a < inodeAddr f.nextinode ∨ inodeAddr f.nextinode + 16 ≤ a →
      startDir f.data (inodeAddr f.nextinode) mode a = f.data a := fun a ha => by
    unfold startDir setMode setFtype setNlink setSize
    rw [wr32_outside (by omega), wr32_outside (by omega), wr32_outside (by omega),
      wr32_outside (by omega)]
  apply born_of_fields h hlt
  · exact hin
  · intro hfilled
    refine ⟨?_, ?_, ?_⟩
    · unfold startDir setMode setNlink setSize oiFtype
      rw [rd32_wr32_ne (by omega), rd32_wr32_ne (by omega), rd32_wr32_ne (by omega)]
      exact rd32_wr32_of_lt _ _ (by decide)
    · unfold startDir setMode setNlink oiSize
      rw [rd32_wr32_ne (by omega), rd32_wr32_ne (by omega)]
      exact rd32_wr32_of_lt _ _ (by decide)
    · constructor
      · exact hfilled
      · exact Nat.zero_le _
      · intro k j hk
        exact absurd hk (Nat.not_lt_zero k)
  · unfold startDir setMode setNlink oiNlink
    rw [rd32_wr32_ne (by omega), rd32_wr32_of_lt _ _ (by decide)]

end Born

section Built

/-- The image of a tree of inodes, with the counters of the formatter. -/
structure Built (g : Geometry) (A : Nodes) (f : Format) : Prop where
  forming : Forming g [] f
  count : f.nextinode = A.length
  wellFormed : A.WellFormed
  node : ∀ i nd, A[i]? = some nd → IsNode g f.data i nd
  nlink : ∀ i, i < A.length → oiNlink f.data (inodeAddr i) = A.links i
  room : g.dataStart + A.dirBlocks ≤ f.nextb
  hardlinks : ∀ c, c ∈ f.hardlinks →
    2 ≤ c.ospIno ∧ c.ospIno < A.length ∧ A.isDirAt c.ospIno = false

theorem Built.length_le (h : Built g A f) : A.length ≤ g.ninodes := by
  rw [← h.count]
  exact h.forming.nextinode_le

theorem Built.dir_lt (h : Built g A f) (hd : A[d]? = some (.dir es)) : d < f.nextinode := by
  rw [h.count]
  by_contra hge
  rw [List.getElem?_eq_none (by omega)] at hd
  exact absurd hd (by simp)

/-- The inode numbers in a directory. -/
theorem Built.inos (h : Built g A f) (hd : A[d]? = some (.dir es)) (e : Name × Nat) (he : e ∈ es) :
    0 < e.2 ∧ e.2 < 4294967296 := by
  have hlen := h.length_le
  have hroom := g.room
  have hn := g.nblocks_le
  obtain ⟨h1, h2⟩ := h.wellFormed.mem_entries hd he
  omega

/-- What a new entry adds to the link count of its directory. -/
def newLinks (nd : Node) : Nat := if nd.isDir then 1 else 0

variable {nd : Node} {fr fl : Format} {hl : List Hardlink} (h : Built g A f) (hd : A[d]? = some (.dir es))
variable (hname : name.length ≤ 123)
include h hd hname

/-- A name is recorded, its directory may get a link, and a new inode is filled in. -/
theorem Built.add (hempty : nd.entries = [])
    (hrec : Recorded g d (es ++ [(name, A.length)]) f fr)
    (hborn : Born g hl nd fl f') (hsame : ∀ j, Same g j fr.data fl.data)
    (hnext : fl.nextinode = fr.nextinode)
    (hnextb : fr.nextb ≤ fl.nextb)
    (hother : ∀ j, j < g.ninodes → j ≠ d →
      oiNlink fl.data (inodeAddr j) = oiNlink fr.data (inodeAddr j))
    (hself : oiNlink fl.data (inodeAddr d) = oiNlink fr.data (inodeAddr d) + newLinks nd)
    (hhard : ∀ c, c ∈ hl → c ∈ f.hardlinks ∨ (c.ospIno = A.length ∧ nd.isDir = false)) :
    Built g (A.add d name nd) f' := by
  have hdlt := h.dir_lt hd
  have hcount : fl.nextinode = A.length := by
    rw [hnext, hrec.within.nextinode, h.count]
  have hlt : A.length < g.ninodes := by
    have := hborn.forming.nextinode_le
    rw [hborn.nextinode, hcount] at this
    exact this
  have h2 := h.wellFormed.two_le
  rw [h.count] at hdlt
  constructor
  · exact hborn.forming
  · rw [hborn.nextinode, hcount, Nodes.length_add]
  · exact h.wellFormed.add hd hname hempty
  · intro i nd' hi
    by_cases hnew : i = A.length
    · rw [hnew, Nodes.getElem?_add_new, Option.some.injEq] at hi
      rw [hnew, ← hi, ← hcount]
      exact hborn.node
    · have hilt : i < A.length := by
        by_contra hge
        rw [List.getElem?_eq_none (by rw [Nodes.length_add]; omega)] at hi
        exact absurd hi (by simp)
      rw [Nodes.getElem?_add_old hilt] at hi
      apply (hborn.same i (by omega) (by omega)).isNode
      apply (hsame i).isNode
      by_cases hid : i = d
      · rw [hid, Nodes.getElem?_enter_self hd, Option.some.injEq] at hi
        rw [hid, ← hi]
        exact hrec.node
      · rw [Nodes.getElem?_enter_ne hid] at hi
        exact (hrec.within.same i (by omega) hid).isNode (h.node i nd' hi)
  · intro i hi
    rw [Nodes.length_add] at hi
    rw [Nodes.links_add h.wellFormed hd hempty]
    by_cases hnew : i = A.length
    · rw [if_pos hnew, hnew, ← hcount]
      exact hborn.nlink
    · rw [if_neg hnew, hborn.nlinks i (by omega) (by omega)]
      by_cases hid : i = d
      · rw [if_pos hid, hid, hself, hrec.within.nlinks d (by omega), h.nlink d hdlt]
        rfl
      · rw [if_neg hid, hother i (by omega) hid, hrec.within.nlinks i (by omega),
          h.nlink i (by omega)]
  · have h1 := h.room
    have h3 := hrec.nextb
    have h4 := hborn.nextb
    rw [Nodes.dirBlocks_add hd hempty]
    simp only [List.length_append, List.length_singleton] at h3
    omega
  · intro c hc
    rw [Nodes.length_add]
    rw [hborn.hardlinks] at hc
    rcases hhard c hc with hold | ⟨hnew, hdir⟩
    · obtain ⟨h3, h4, h5⟩ := h.hardlinks c hold
      refine ⟨h3, Nat.lt_succ_of_lt h4, ?_⟩
      rw [Nodes.isDirAt_add_old h4, h5]
    · rw [hnew]
      refine ⟨h2, Nat.lt_succ_self _, ?_⟩
      rw [Nodes.isDirAt_add_new, hdir]

omit hname in
/-- A name is recorded for an inode that is there already. -/
theorem Built.enter (hname : name.length ≤ 123)
    (hrec : Recorded g d (es ++ [(name, n)]) f fr) (h2 : 2 ≤ n) (hlt : n < A.length)
    (hfile : A.isDirAt n = false) :
    Built g (A.enter d (name, n))
      { fr with data := setNlink fr.data (inodeAddr n) (u32 (oiNlink fr.data (inodeAddr n) + 1)) } := by
  have hcount : fr.nextinode = A.length := by rw [hrec.within.nextinode, h.count]
  have hlen := h.length_le
  have hnlink : oiNlink fr.data (inodeAddr n) = A.links n := by
    rw [hrec.within.nlinks n (by omega), h.nlink n hlt]
  have hsmall : A.links n + 1 < 4294967296 := by
    have h1 := A.named_le n
    have h3 := h.room
    have h4 := h.forming.nextb_le
    have h5 := g.nblocks_le
    rw [Nodes.links_of_not_dir hfile, if_neg (by omega)]
    omega
  have same : ∀ j, Same g j fr.data
      (setNlink fr.data (inodeAddr n) (u32 (oiNlink fr.data (inodeAddr n) + 1))) := fun j =>
    setNlink_same hrec.forming (by omega) _
  constructor
  · exact hrec.forming.setNlink (by omega) _
  · rw [Nodes.length_enter]
    exact hcount
  · exact h.wellFormed.enter hd h2 hlt hname
  · intro i nd' hi
    apply (same i).isNode
    by_cases hid : i = d
    · rw [hid, Nodes.getElem?_enter_self hd, Option.some.injEq] at hi
      rw [hid, ← hi]
      exact hrec.node
    · rw [Nodes.getElem?_enter_ne hid] at hi
      have hilt : i < A.length := by
        by_contra hge
        rw [List.getElem?_eq_none (by omega)] at hi
        exact absurd hi (by simp)
      exact (hrec.within.same i (by omega) hid).isNode (h.node i nd' hi)
  · intro i hi
    rw [Nodes.length_enter] at hi
    rw [Nodes.links_enter hd hfile h2]
    by_cases hin : i = n
    · rw [if_pos hin, hin]
      refine (rd32_wr32_of_lt _ _ (u32_lt _)).trans ?_
      rw [hnlink, u32_of_lt hsmall]
    · rw [if_neg hin, ← h.nlink i hi, ← hrec.within.nlinks i (by omega)]
      exact setNlink_others _ hin
  · have h1 := h.room
    have h3 := hrec.nextb
    rw [Nodes.dirBlocks_enter hd]
    simp only [List.length_append, List.length_singleton] at h3 ⊢
    omega
  · intro c hc
    rw [Nodes.length_enter, Nodes.isDirAt_enter]
    apply h.hardlinks c
    rw [← hrec.within.hardlinks]
    exact hc

end Built

end Format

end CS111.Ospfs
