import CS111.Ospfs.FormatImage

/-!
# Formatted images are consistent

What the module finds on a volume that the formatter has written.
-/

namespace CS111.Ospfs

open Memory

set_option autoImplicit false

namespace Format

variable {g : Geometry} {m : Bytes} {f f' f₁ : Format} {i j k n b d od : Nat}
variable {es : List (Name × Nat)} {A A' : Nodes} {name : Name} {md5 : List UInt8 → List UInt8}
variable {args : Arguments} {host : Host}

section Image

/-- A sound volume that holds a tree of inodes. -/
structure Image (g : Geometry) (A : Nodes) (m : Bytes) : Prop where
  sound : Sound g m
  wellFormed : A.WellFormed
  length_le : A.length ≤ g.ninodes
  node : ∀ i nd, A[i]? = some nd → IsNode g m i nd
  nlink : ∀ i, i < A.length → oiNlink m (inodeAddr i) = A.links i
  unborn : ∀ i k, A.length ≤ i → i < g.ninodes → k < 64 → m (inodeAddr i + k) = 0

variable (h : Built g A f) (hfin : Finished g f f')
include h hfin

theorem Finished.same (hi : i < g.ninodes) : Same g i f.data f'.data ∧
    oiNlink f'.data (inodeAddr i) = oiNlink f.data (inodeAddr i) := by
  have hr := g.inode_region hi
  have hge := g.dataStart_ge
  constructor
  · constructor
    · intro k _
      exact hfin.rest _ (by omega)
    · apply own_congr_at h.forming.owns h.forming.dataBlocks
      · intro k _ _
        exact hfin.rest _ (by omega)
      · intro t a _ h0 ha
        have := (h.forming.own_taken h0).1
        exact hfin.rest a (by omega)
    · intro s a h0 ha
      have := (h.forming.own_taken h0).1
      exact hfin.rest a (by omega)
  · apply rd32_congr
    intro k _
    exact hfin.rest _ (by omega)

theorem Finished.own_eq : own g f'.data = own g f.data := by
  funext ⟨i, s⟩
  by_cases hi : i < g.ninodes
  · exact (hfin.same h hi).1.own_eq s
  · unfold own
    rw [if_neg fun hc => hi hc.1, if_neg fun hc => hi hc.1]

theorem Finished.image : Image g A f'.data := by
  have hn := g.nblocks_le
  have hge := h.forming.nextb_ge
  have hle := h.forming.nextb_le
  have hlen := h.length_le
  constructor
  · constructor
    · exact hfin.osNblocks
    · exact hfin.osNinodes
    · exact hfin.osFirstinob
    · exact hfin.boot
    · intro b hb
      rw [Bool.eq_false_iff, ne_eq, hfin.free b (by omega)]
      omega
    · rw [hfin.own_eq h]
      apply h.forming.owns.mono
      rintro b ⟨⟨h1, h2⟩, _⟩
      refine ⟨h1, by omega, ?_⟩
      rw [Bool.eq_false_iff, ne_eq, hfin.free b (by omega)]
      omega
  · exact h.wellFormed
  · exact hlen
  · intro i nd hi
    have hlt := Nodes.lt_of_getElem? hi
    exact (hfin.same h (by omega)).1.isNode (h.node i nd hi)
  · intro i hi
    rw [(hfin.same h (by omega)).2, h.nlink i hi]
  · intro i k h1 h2 h3
    have hr := g.inode_region h2
    rw [hfin.rest _ (by omega)]
    apply h.forming.unborn i k _ h2 h3
    rw [h.count]
    exact h1

end Image

section Runs

/-- The steps of `main`. -/
theorem main_steps (hr : main md5 args = some f) :
    ∃ g f₁ f₂ f₃, g.nblocks = args.nblocks ∧ g.ninodes = args.ninodes ∧
      opendisk args.nblocks args.ninodes args.linkContents = some (opened g args.linkContents) ∧
      (opened g args.linkContents).makeRoot = some (f₁, inodeAddr 1) ∧
      Built g [.file [], .dir []] f₁ ∧ f₁.linkContents = args.linkContents ∧
      copyFiles md5 f₁ (inodeAddr 1) args.files = some f₂ ∧
      args.links.foldlM (fun f link => f.addsymlink (inodeAddr 1) link.1 link.2 0) f₂ = some f₃ ∧
      f₃.finishfs = some f := by
  unfold main at hr
  split at hr
  · rename_i hacc
    obtain ⟨g, hn, hi⟩ := Arguments.geometry hacc
    rw [← hn, ← hi] at hr
    simp only [Option.bind_eq_bind, Option.bind_eq_some_iff] at hr
    obtain ⟨f₀, hopen, ⟨f₁, oi⟩, hroot, f₂, hcopy, f₃, hlinks, hfin⟩ := hr
    have heq := opendisk_eq g hopen
    rw [heq] at hopen hroot
    obtain ⟨hbuilt, rfl, hlc⟩ := makeRoot_built hroot
    refine ⟨g, f₁, f₂, f₃, hn, hi, ?_, hroot, hbuilt, hlc, hcopy, hlinks, hfin⟩
    rw [← hn, ← hi]
    exact hopen
  · exact absurd hr (by simp)

theorem fileList_grows (files : List (Name × List UInt8)) (h : Built g A f)
    (hd : A[d]? = some (.dir es))
    (hr : files.foldlM (fun f file => f.writefile md5 (inodeAddr d) file.1 0 438 file.2) f = some f') :
    ∃ A', Built g A' f' ∧ A.Grows A' ∧ f'.linkContents = f.linkContents := by
  induction files generalizing A f es with
  | nil =>
    rw [List.foldlM_nil, Option.pure_def, Option.some.injEq] at hr
    rw [← hr]
    exact ⟨A, h, Nodes.Grows.refl, rfl⟩
  | cons file files ih =>
    rw [List.foldlM_cons, Option.bind_eq_bind, Option.bind_eq_some_iff] at hr
    obtain ⟨f₁, hfile, hr⟩ := hr
    obtain ⟨A₁, h₁, hg₁, hlc₁⟩ := writefile_grows h hd hfile
    obtain ⟨es₁, hd₁⟩ := hg₁.getElem?_dir hd
    obtain ⟨A₂, h₂, hg₂, hlc₂⟩ := ih h₁ hd₁ hr
    exact ⟨A₂, h₂, hg₁.trans hg₂, hlc₂.trans hlc₁⟩

theorem copyFiles_grows (h : Built g A f) (hd : A[d]? = some (.dir es)) (files : Files)
    (hr : copyFiles md5 f (inodeAddr d) files = some f') :
    ∃ A', Built g A' f' ∧ A.Grows A' ∧ f'.linkContents = f.linkContents := by
  cases files with
  | tree host => exact writedirectory_grows host h hd hr
  | list files => exact fileList_grows files h hd hr

theorem links_grows (links : List (Name × Name)) (h : Built g A f) (hd : A[d]? = some (.dir es))
    (hr : links.foldlM (fun f link => f.addsymlink (inodeAddr d) link.1 link.2 0) f = some f') :
    ∃ A', Built g A' f' ∧ A.Grows A' := by
  induction links generalizing A f es with
  | nil =>
    rw [List.foldlM_nil, Option.pure_def, Option.some.injEq] at hr
    rw [← hr]
    exact ⟨A, h, Nodes.Grows.refl⟩
  | cons link links ih =>
    rw [List.foldlM_cons, Option.bind_eq_bind, Option.bind_eq_some_iff] at hr
    obtain ⟨f₁, hlink, hr⟩ := hr
    obtain ⟨A₁, h₁, hg₁, _⟩ := addsymlink_grows h hd hlink
    obtain ⟨es₁, hd₁⟩ := hg₁.getElem?_dir hd
    obtain ⟨A₂, h₂, hg₂⟩ := ih h₁ hd₁ hr
    exact ⟨A₂, h₂, hg₁.trans hg₂⟩

/-- Every image that the formatter finishes. -/
theorem main_image (hr : main md5 args = some f) :
    ∃ g A, g.nblocks = args.nblocks ∧ g.ninodes = args.ninodes ∧ Image g A f.data := by
  obtain ⟨g, f₁, f₂, f₃, hn, hi, _, _, hbuilt, _, hcopy, hlinks, hfin⟩ := main_steps hr
  obtain ⟨A₂, h₂, hg₂, _⟩ := copyFiles_grows (d := 1) hbuilt rfl args.files hcopy
  obtain ⟨es, hd⟩ := hg₂.getElem?_dir (d := 1) rfl
  obtain ⟨A₃, h₃, _⟩ := links_grows args.links h₂ hd hlinks
  exact ⟨g, A₃, hn, hi, (finishfs_finished h₃.forming hfin).image h₃⟩

end Runs

section Consistency

/-- The entries `es` and what they name are the host tree, without what is skipped. -/
def Holds (g : Geometry) (m : Bytes) : List (Name × Nat) → Host → Prop
  | es, .nil => es = []
  | es, .file name _ _ content rest =>
    ∃ i es', es = (name, i) :: es' ∧ IsNode g m i (.file content) ∧ oiNlink m (inodeAddr i) = 1 ∧
      Holds g m es' rest
  | es, .dir name _ sub rest =>
    if name ∈ skippedNames then Holds g m es rest
    else ∃ i es₁ es', es = (name, i) :: es' ∧ IsNode g m i (.dir es₁) ∧
      oiNlink m (inodeAddr i) = 1 + sub.subdirs ∧ Holds g m es₁ sub ∧ Holds g m es' rest
  | es, .symlink name _ target rest =>
    if target.length > 51 then Holds g m es rest
    else ∃ i es', es = (name, i) :: es' ∧ IsNode g m i (.symlink target) ∧
      oiNlink m (inodeAddr i) = 1 ∧ Holds g m es' rest
  | es, .other _ rest => Holds g m es rest

structure Consistent (g : Geometry) (f : Format) (host : Host) : Prop where
  free : ∀ b, b < 8192 → (isFree f.data b = true ↔ f.nextb ≤ b ∧ b < g.nblocks)
  once : ∀ b, g.dataStart ≤ b → b < f.nextb → ∃ x, own g f.data x = b ∧ ∀ y, own g f.data y = b → y = x
  only : ∀ x, own g f.data x ≠ 0 → g.dataStart ≤ own g f.data x ∧ own g f.data x < f.nextb
  tree : ∃ es, IsNode g f.data 1 (.dir es) ∧
    oiNlink f.data (inodeAddr 1) = 1 + host.subdirs ∧ Holds g f.data es host
  named : ∀ d od, d < g.ninodes → oiFtype f.data (inodeAddr d) = FTYPE_DIR →
    oiNlink f.data (inodeAddr d) ≠ 0 → od ∈ entries f.data (inodeAddr d) → odIno f.data od ≠ 0 →
    odIno f.data od < f.nextinode ∧ oiNlink f.data (inodeAddr (odIno f.data od)) ≠ 0

theorem Image.holds (h : Image g A m) (hs : A.SingleLinks) (hent : A.Entered es host) :
    Holds g m es host := by
  have single : ∀ i nd, A[i]? = some nd → nd.isDir = false → oiNlink m (inodeAddr i) = 1 := by
    intro i nd hi hdir
    have hlt := Nodes.lt_of_getElem? hi
    rw [h.nlink i hlt]
    exact hs i hlt (by rw [Nodes.isDirAt_of_some hi, hdir])
  induction host generalizing es with
  | nil => exact hent
  | file name hostIno mode content rest ih =>
    obtain ⟨i, es', rfl, hi, hrest⟩ := hent
    exact ⟨i, es', rfl, h.node i _ hi, single i _ hi rfl, ih hrest⟩
  | dir name mode sub rest ihsub ihrest =>
    rw [Nodes.Entered] at hent
    rw [Holds]
    split
    · rename_i hskip
      rw [if_pos hskip] at hent
      exact ihrest hent
    · rename_i hskip
      rw [if_neg hskip] at hent
      obtain ⟨i, es₁, es', rfl, hi, hsub, hrest⟩ := hent
      refine ⟨i, es₁, es', rfl, h.node i _ hi, ?_, ihsub hsub, ihrest hrest⟩
      rw [h.nlink i (Nodes.lt_of_getElem? hi), Nodes.links_of_dir hi, hsub.subdirs]
  | symlink name hostIno target rest ih =>
    rw [Nodes.Entered] at hent
    rw [Holds]
    split
    · rename_i hlong
      rw [if_pos hlong] at hent
      exact ih hent
    · rename_i hlong
      rw [if_neg hlong] at hent
      obtain ⟨i, es', rfl, hi, hrest⟩ := hent
      exact ⟨i, es', rfl, h.node i _ hi, single i _ hi rfl, ih hrest⟩
  | other name rest ih => exact ih hent

theorem IsNode.size_le {nd : Node} (hdir : nd.isDir = true) (h : IsNode g m i nd) :
    oiSize m (inodeAddr i) ≤ maxFileSize := by
  cases nd with
  | file content => exact absurd hdir (by simp [Node.isDir])
  | symlink target => exact absurd hdir (by simp [Node.isDir])
  | dir es =>
    obtain ⟨_, h2, h3⟩ := h
    have := h3.fits
    unfold maxFileSize
    omega

/-- What a directory entry names. -/
theorem Image.entry (h : Image g A m) (hd : A[d]? = some (.dir es))
    (hod : od ∈ entries m (inodeAddr d)) (h0 : odIno m od ≠ 0) :
    ∃ k e, es[k]? = some e ∧ od = direntAt g m d k ∧ odIno m od = e.2 := by
  have hlt := Nodes.lt_of_getElem? hd
  have hlen := h.length_le
  have hnode := h.node d _ hd
  have hx : HasBlocks g m d := ⟨by omega, by rw [hnode.1]; decide⟩
  have hsize := IsNode.size_le rfl hnode
  obtain ⟨k, hk, rfl⟩ := (mem_entries h.sound hx hsize).mp hod
  obtain ⟨_, hsz, hent⟩ := hnode
  have hroom := g.room
  have hn := g.nblocks_le
  cases he : es[k]? with
  | none => exact absurd (hent.odIno_none (by omega) he) h0
  | some e =>
    have hino := h.wellFormed.mem_entries hd (List.mem_of_getElem? he)
    exact ⟨k, e, he, rfl, hent.odIno_some (by omega) he (by omega)⟩

theorem Image.dir_of_ftype (h : Image g A m) (hd : d < g.ninodes)
    (hft : oiFtype m (inodeAddr d) = FTYPE_DIR) (hn : oiNlink m (inodeAddr d) ≠ 0) :
    ∃ es, A[d]? = some (.dir es) := by
  by_cases hlt : d < A.length
  · have hnode := h.node d _ (List.getElem?_eq_getElem hlt)
    cases hnd : A[d] with
    | file content =>
      rw [hnd] at hnode
      exact absurd (hnode.1.symm.trans hft) (by decide)
    | symlink target =>
      rw [hnd] at hnode
      exact absurd (hnode.1.symm.trans hft) (by decide)
    | dir es => exact ⟨es, by rw [List.getElem?_eq_getElem hlt, hnd]⟩
  · exfalso
    apply hn
    apply rd32_eq_zero
    intro k hk
    rw [Nat.add_assoc]
    exact h.unborn d _ (by omega) hd (by omega)

/-- A host tree without second links, formatted with `-r` and neither `-c` nor `-l`. -/
theorem main_consistent (hfiles : args.files = .tree host) (hc : args.linkContents = false)
    (hl : args.links = []) (hu : host.Unlinked) (hr : main md5 args = some f) :
    ∃ g, g.nblocks = args.nblocks ∧ g.ninodes = args.ninodes ∧ Consistent g f host := by
  obtain ⟨g, f₁, f₂, f₃, hn, hi, _, _, hbuilt, hlc, hcopy, hlinks, hfin⟩ := main_steps hr
  rw [hl, List.foldlM_nil, Option.pure_def, Option.some.injEq] at hlinks
  rw [hfiles] at hcopy
  subst hlinks
  have hstart : Nodes.SingleLinks [.file [], .dir []] := by
    intro i hi hdir
    match i with
    | 0 => rfl
    | 1 => exact absurd hdir (by decide)
    | i + 2 => exact absurd hi (by simp)
  obtain ⟨h, _, hs⟩ := writedirectory_installed (d := 1) host hbuilt rfl (hlc.trans hc) hu hstart hcopy
  obtain ⟨es, hinst⟩ := Nodes.install_installed (d := 1) (A := [.file [], .dir []]) host rfl
  have hent := hinst.entered _ fun _ _ _ => rfl
  have hfinished := finishfs_finished h.forming hfin
  have himage := hfinished.image h
  have hroot := hinst.dir
  rw [List.nil_append] at hroot
  refine ⟨g, hn, hi, ?_⟩
  constructor
  · intro b hb
    rw [hfinished.nextb]
    exact hfinished.free b hb
  · intro b h1 h2
    rw [hfinished.nextb] at h2
    obtain ⟨x, hx⟩ := h.forming.covered b ⟨⟨h1, h2⟩, by simp⟩
    have hge := g.dataStart_ge
    rw [hfinished.own_eq h]
    refine ⟨x, hx, ?_⟩
    intro y hy
    exact h.forming.owns.inj (by omega) (hy.trans hx.symm)
  · intro x hx
    rw [hfinished.own_eq h] at hx ⊢
    rw [hfinished.nextb]
    have := h.forming.own_taken hx
    exact ⟨this.1, this.2.1⟩
  · refine ⟨es, himage.node 1 _ hroot, ?_, himage.holds hs hent⟩
    rw [himage.nlink 1 (Nodes.lt_of_getElem? hroot), Nodes.links_of_dir hroot, hent.subdirs]
  · intro d od hd hft hn0 hod h0
    obtain ⟨es', hes'⟩ := himage.dir_of_ftype hd hft hn0
    obtain ⟨k, e, he, _, hino⟩ := himage.entry hes' hod h0
    have hlt := (h.wellFormed.mem_entries hes' (List.mem_of_getElem? he)).2
    rw [hino, hfinished.nextinode, h.count]
    refine ⟨hlt, ?_⟩
    rw [himage.nlink _ hlt]
    exact hs.links_ne hlt

/-- One file of three bytes and one empty directory. -/
def smallHost : Host := .file [97] 0 420 [1, 2, 3] (.dir [98] 493 .nil .nil)

def smallArguments : Arguments := ⟨8, 5, false, .tree smallHost, []⟩

theorem main_small : ∃ f, main (fun _ => []) smallArguments = some f :=
  Option.isSome_iff_exists.mp (by decide +kernel)

/-- The same files on a volume with a full block of free map. -/
def largeArguments : Arguments := { smallArguments with nblocks := 8192 }

def largeDisk : Bytes := ((main (fun _ => []) largeArguments).map data).getD fun _ => 0

theorem main_large : ∃ f, main (fun _ => []) largeArguments = some f ∧ f.data = largeDisk := by
  obtain ⟨f, hf⟩ := Option.isSome_iff_exists.mp
    (show (main (fun _ => []) largeArguments).isSome = true by decide +kernel)
  refine ⟨f, hf, ?_⟩
  rw [largeDisk, hf]
  rfl

theorem main_consistent_small : ∃ f, main (fun _ => []) smallArguments = some f ∧
    ∃ g, g.nblocks = 8 ∧ g.ninodes = 5 ∧ Consistent g f smallHost := by
  obtain ⟨f, hf⟩ := main_small
  have hu : smallHost.Unlinked := ⟨rfl, trivial, trivial⟩
  exact ⟨f, hf, main_consistent rfl rfl rfl hu hf⟩

end Consistency

end Format

end CS111.Ospfs
