import CS111.Ospfs.FormatConsistent

/-!
# Reading back what the formatter copied

The calls of `writefile` in a run of the formatter, and what `ospfs_read` returns for the inodes
they make.
-/

namespace CS111.Ospfs

open Memory

set_option autoImplicit false

section Reads

/-- Calls of `ospfs_read` through one open file: the last position, and all bytes returned. -/
def readCalls (m : Bytes) (ino : Nat) : Nat → List Nat → Option (Nat × List UInt8)
  | fpos, [] => some (fpos, [])
  | fpos, count :: counts => do
    let r ← ospfsRead m ino count fpos (fun _ => true)
    let (fpos, bytes) ← readCalls m ino r.fpos counts
    some (fpos, r.bytes ++ bytes)

variable {g : Geometry} {m : Bytes} {i p : Nat} {content : List UInt8}

theorem HasBytes.fileBytes_eq {n : Nat} (h : HasBytes g m i content) (hle : p + n ≤ content.length) :
    fileBytes g m i p n = (content.drop p).take n := by
  apply List.ext_getElem
  · rw [fileBytes_length, List.length_take, List.length_drop]
    omega
  · intro k h1 h2
    rw [fileBytes_length] at h1
    rw [List.getElem_take, List.getElem_drop, ← h.bytes (p + k) (by omega)]
    simp [fileBytes]

variable (hs : Sound g m) (hi : i < g.ninodes) (h : IsNode g m i (.file content))
include h

theorem IsNode.complete : Complete g m i := by
  obtain ⟨_, hsize, hb⟩ := h
  have hfits := hb.fits
  intro k hk
  have hle : oiSize m (inodeAddr i) ≤ maxFileSize := by
    rw [hsize]
    exact hfits
  rw [fileBlocks_of_size hle, hsize] at hk
  unfold maxFileSize at hfits
  exact (hb.filled k (by omega)).mpr (by omega)

include hs hi

theorem read_file (count : Nat) (hp : p ≤ content.length) :
    ospfsRead m i count p (fun _ => true) =
      some ⟨(content.drop p).take count, min (p + count) content.length,
        (min count (content.length - p) : Nat)⟩ := by
  have hcomplete := h.complete
  obtain ⟨hft, hsize, hb⟩ := h
  have hfits := hb.fits
  have hx : HasBlocks g m i := ⟨hi, by rw [hft]; decide⟩
  rw [ospfsRead_eq hs hx hcomplete (by omega) (by omega), hsize, hb.fileBytes_eq (by omega)]
  have hpos : p + min count (content.length - p) = min (p + count) content.length := by omega
  have htake : (content.drop p).take (min count (content.length - p)) = (content.drop p).take count := by
    rw [← List.length_drop, ← List.take_eq_take_min]
  rw [hpos, htake]

/-- Any sequence of reads returns the file piece by piece. -/
theorem readCalls_file (counts : List Nat) (hp : p ≤ content.length) :
    readCalls m i p counts =
      some (min (p + counts.sum) content.length, (content.drop p).take counts.sum) := by
  induction counts generalizing p with
  | nil =>
    rw [readCalls, List.sum_nil, List.take_zero, Nat.add_zero, Nat.min_eq_left hp]
  | cons count counts ih =>
    have hp' : min (p + count) content.length ≤ content.length := Nat.min_le_right _ _
    have hmin : min (min (p + count) content.length + counts.sum) content.length =
        min (p + (count + counts.sum)) content.length := by omega
    rw [readCalls]
    simp only [read_file hs hi h count hp, ih hp', Option.bind_eq_bind, Option.bind_some, hmin,
      List.sum_cons]
    rw [List.take_add, List.drop_drop]
    by_cases hle : p + count ≤ content.length
    · rw [Nat.min_eq_left hle]
    · have hout : content.length ≤ p + count := by omega
      rw [List.drop_of_length_le hout, List.drop_of_length_le (Nat.le_min.mpr ⟨hout, Nat.le_refl _⟩)]

end Reads

namespace Format

section Calls

/-- A call of `writefile` and the state at its start. -/
structure FileCall where
  state : Format
  dirOi : Nat
  name : Name
  hostIno : Nat
  mode : Nat
  content : List UInt8

/-- `writedirectory` comes to the call. -/
inductive FileCall.InDirectory (md5 : List UInt8 → List UInt8) : Format → Nat → Host → FileCall → Prop
  | here {f dirOi name hostIno mode content rest} :
    InDirectory md5 f dirOi (.file name hostIno mode content rest)
      ⟨f, dirOi, name, hostIno, mode, content⟩
  | afterFile {f dirOi name hostIno mode content rest f' c}
    (hfile : f.writefile md5 dirOi name hostIno mode content = some f')
    (hc : InDirectory md5 f' dirOi rest c) :
    InDirectory md5 f dirOi (.file name hostIno mode content rest) c
  | skipped {f dirOi name mode sub rest c} (hskip : name ∈ skippedNames)
    (hc : InDirectory md5 f dirOi rest c) : InDirectory md5 f dirOi (.dir name mode sub rest) c
  | inside {f dirOi name mode sub rest f' oi c} (hskip : name ∉ skippedNames)
    (hmake : f.makeDirectory dirOi name mode = some (f', oi))
    (hc : InDirectory md5 f' oi sub c) : InDirectory md5 f dirOi (.dir name mode sub rest) c
  | afterDirectory {f dirOi name mode sub rest f' oi f'' c} (hskip : name ∉ skippedNames)
    (hmake : f.makeDirectory dirOi name mode = some (f', oi))
    (hsub : writedirectory md5 f' oi sub = some f'')
    (hc : InDirectory md5 f'' dirOi rest c) : InDirectory md5 f dirOi (.dir name mode sub rest) c
  | afterSymlink {f dirOi name hostIno target rest f' c}
    (hlink : f.writesymlink dirOi name hostIno target = some f')
    (hc : InDirectory md5 f' dirOi rest c) :
    InDirectory md5 f dirOi (.symlink name hostIno target rest) c
  | afterOther {f dirOi name rest c} (hc : InDirectory md5 f dirOi rest c) :
    InDirectory md5 f dirOi (.other name rest) c

/-- `copyFiles` comes to the call. -/
inductive FileCall.InFiles (md5 : List UInt8 → List UInt8) (f : Format) (rootOi : Nat) :
    Files → FileCall → Prop
  | tree {host c} (hc : FileCall.InDirectory md5 f rootOi host c) : InFiles md5 f rootOi (.tree host) c
  | list {before file after f'}
    (hbefore : copyFiles md5 f rootOi (.list before) = some f') :
    InFiles md5 f rootOi (.list (before ++ file :: after)) ⟨f', rootOi, file.1, 0, 438, file.2⟩

/-- `main` comes to the call. -/
def FileCall.InRun (md5 : List UInt8 → List UInt8) (args : Arguments) (c : FileCall) : Prop :=
  ∃ f₀ f₁ rootOi, opendisk args.nblocks args.ninodes args.linkContents = some f₀ ∧
    f₀.makeRoot = some (f₁, rootOi) ∧ FileCall.InFiles md5 f₁ rootOi args.files c

/-- No file with this host inode has been recorded. -/
def FileCall.Unlinked (c : FileCall) : Prop :=
  ∀ l, l ∈ c.state.hardlinks → c.hostIno ≠ 0 → l.hostIno ≠ c.hostIno

variable {g : Geometry} {f f' : Format} {d : Nat} {es : List (Name × Nat)} {A : Nodes}
variable {md5 : List UInt8 → List UInt8} {c : FileCall} {args : Arguments}

theorem FileCall.Unlinked.linkIno (h : c.Unlinked) (hlc : c.state.linkContents = false) :
    linkIno md5 c.state c.hostIno c.content = 0 := by
  unfold Format.linkIno getHardlink
  rw [hlc]
  split
  · rename_i h0
    have hne : c.hostIno ≠ 0 := by simpa using h0
    rw [List.find?_eq_none.mpr]
    intro l hl
    have := h l hl hne
    simp [hne, this]
  · rfl

end Calls

section Nodes

variable {g : Geometry} {f f' f₁ : Format} {d : Nat} {es : List (Name × Nat)} {A A₁ : Nodes}
variable {md5 : List UInt8 → List UInt8} {c : FileCall} {args : Arguments}

/-- The tree at the end has the file of the call at the inode that was next. -/
def FileCall.Stored (g : Geometry) (c : FileCall) (A : Nodes) (f' : Format) : Prop :=
  ∃ A', Built g A' f' ∧ A.Grows A' ∧ A'[c.state.nextinode]? = some (.file c.content)

theorem FileCall.Stored.of_grows (hg : A.Grows A₁) (h : c.Stored g A₁ f') : c.Stored g A f' := by
  obtain ⟨A', h', hg', hfile⟩ := h
  exact ⟨A', h', hg.trans hg', hfile⟩

theorem FileCall.Stored.grows (h : c.Stored g A f₁)
    (hr : ∀ A₁, Built g A₁ f₁ → A.Grows A₁ → ∃ A₂, Built g A₂ f' ∧ A₁.Grows A₂) :
    c.Stored g A f' := by
  obtain ⟨A₁, h₁, hg₁, hfile⟩ := h
  obtain ⟨A₂, h₂, hg₂⟩ := hr A₁ h₁ hg₁
  exact ⟨A₂, h₂, hg₁.trans hg₂, hg₂.node _ _ rfl hfile⟩

variable (h : Built g A f) (hd : A[d]? = some (.dir es)) (hlc : f.linkContents = false)
include h hd hlc

theorem writefile_stored {name : Name} {hostIno mode : Nat} {content : List UInt8}
    (hc : FileCall.Unlinked ⟨f, inodeAddr d, name, hostIno, mode, content⟩)
    (hr : f.writefile md5 (inodeAddr d) name hostIno mode content = some f') :
    FileCall.Stored g ⟨f, inodeAddr d, name, hostIno, mode, content⟩ A f' := by
  obtain ⟨_, hnew, _⟩ := writefile_built h hd hr
  refine ⟨_, (hnew (hc.linkIno hlc)).1, Nodes.grows_add hd, ?_⟩
  rw [h.count]
  exact Nodes.getElem?_add_new

theorem FileCall.InDirectory.stored {host : Host} (hu : c.Unlinked)
    (hin : FileCall.InDirectory md5 f (inodeAddr d) host c)
    (hr : writedirectory md5 f (inodeAddr d) host = some f') : c.Stored g A f' := by
  generalize hoi : inodeAddr d = dirOi at hin hr
  induction hin generalizing A d es f' with
  | here =>
    subst hoi
    rw [writedirectory] at hr
    simp only [Option.bind_eq_bind, Option.bind_eq_some_iff] at hr
    obtain ⟨f₁, hfile, hr⟩ := hr
    apply (writefile_stored h hd hlc hu hfile).grows
    intro A₁ h₁ hg₁
    obtain ⟨es₁, hd₁⟩ := hg₁.getElem?_dir hd
    obtain ⟨A₂, h₂, hg₂, _⟩ := writedirectory_grows _ h₁ hd₁ hr
    exact ⟨A₂, h₂, hg₂⟩
  | afterFile hfile hc ih =>
    subst hoi
    rw [writedirectory, hfile] at hr
    obtain ⟨A₁, h₁, hg₁, hlc₁⟩ := writefile_grows h hd hfile
    obtain ⟨es₁, hd₁⟩ := hg₁.getElem?_dir hd
    exact (ih h₁ hd₁ (hlc₁.trans hlc) hu rfl hr).of_grows hg₁
  | skipped hskip hc ih =>
    rw [writedirectory, if_pos hskip] at hr
    exact ih h hd hlc hu hoi hr
  | inside hskip hmake hc ih =>
    subst hoi
    rw [writedirectory, if_neg hskip, hmake] at hr
    simp only [Option.bind_eq_bind, Option.bind_eq_some_iff, Option.bind_some] at hr
    obtain ⟨f₂, hsub, hr⟩ := hr
    obtain ⟨hlc₁, rfl, h₁⟩ := makeDirectory_built h hd hmake
    have hstored := ih h₁ Nodes.getElem?_add_new (hlc₁.trans hlc) hu rfl hsub
    apply (hstored.of_grows (Nodes.grows_add hd)).grows
    intro A₂ h₂ hg₂
    obtain ⟨es₂, hd₂⟩ := hg₂.getElem?_dir hd
    obtain ⟨A₃, h₃, hg₃, _⟩ := writedirectory_grows _ h₂ hd₂ hr
    exact ⟨A₃, h₃, hg₃⟩
  | afterDirectory hskip hmake hsub hc ih =>
    subst hoi
    rw [writedirectory, if_neg hskip, hmake] at hr
    simp only [Option.bind_eq_bind, Option.bind_some, hsub] at hr
    obtain ⟨hlc₁, rfl, h₁⟩ := makeDirectory_built h hd hmake
    obtain ⟨A₂, h₂, hg₂, hlc₂⟩ := writedirectory_grows _ h₁ Nodes.getElem?_add_new hsub
    have hg := (Nodes.grows_add hd).trans hg₂
    obtain ⟨es₂, hd₂⟩ := hg.getElem?_dir hd
    exact (ih h₂ hd₂ (hlc₂.trans (hlc₁.trans hlc)) hu rfl hr).of_grows hg
  | afterSymlink hlink hc ih =>
    subst hoi
    rw [writedirectory, hlink] at hr
    unfold writesymlink at hlink
    split at hlink
    · rw [Option.some.injEq] at hlink
      subst hlink
      exact ih h hd hlc hu rfl hr
    · obtain ⟨A₁, h₁, hg₁, hlc₁⟩ := addsymlink_grows h hd hlink
      obtain ⟨es₁, hd₁⟩ := hg₁.getElem?_dir hd
      exact (ih h₁ hd₁ (hlc₁.trans hlc) hu rfl hr).of_grows hg₁
  | afterOther hc ih =>
    rw [writedirectory] at hr
    exact ih h hd hlc hu hoi hr

theorem FileCall.InFiles.stored {files : Files} (hu : c.Unlinked)
    (hin : FileCall.InFiles md5 f (inodeAddr d) files c)
    (hr : copyFiles md5 f (inodeAddr d) files = some f') : c.Stored g A f' := by
  cases hin with
  | tree hc => exact hc.stored h hd hlc hu hr
  | list hbefore =>
    obtain ⟨A₁, h₁, hg₁, hlc₁⟩ := fileList_grows _ h hd hbefore
    obtain ⟨es₁, hd₁⟩ := hg₁.getElem?_dir hd
    unfold copyFiles at hr hbefore
    simp only at hr hbefore
    rw [List.foldlM_append, hbefore] at hr
    simp only [Option.bind_eq_bind, Option.bind_some, List.foldlM_cons, Option.bind_eq_some_iff] at hr
    obtain ⟨f₂, hfile, hr⟩ := hr
    have hstored := writefile_stored h₁ hd₁ (hlc₁.trans hlc) hu hfile
    apply (hstored.of_grows hg₁).grows
    intro A₂ h₂ hg₂
    obtain ⟨es₂, hd₂⟩ := hg₂.getElem?_dir hd
    obtain ⟨A₃, h₃, hg₃, _⟩ := fileList_grows _ h₂ hd₂ hr
    exact ⟨A₃, h₃, hg₃⟩

end Nodes

section RoundTrip

variable {md5 : List UInt8 → List UInt8} {c : FileCall} {args : Arguments} {f : Format}

/-- What the module finds at the inode of a copied file. -/
structure ReadsBack (m : Bytes) (ino : Nat) (content : List UInt8) : Prop where
  size : ∃ oi, ospfsInode m ino = some oi ∧ oiFtype m oi = FTYPE_REG ∧ oiSize m oi = content.length
  reads : ∀ counts, readCalls m ino 0 counts =
    some (min counts.sum content.length, content.take counts.sum)
  finished : ∀ counts count, content.length ≤ counts.sum →
    readCalls m ino 0 counts = some (content.length, content) ∧
    ospfsRead m ino count content.length (fun _ => true) = some ⟨[], content.length, 0⟩

/-- The file is one of the finished image. -/
theorem main_file (hr : main md5 args = some f) (hc : args.linkContents = false)
    (hin : c.InRun md5 args) (hu : c.Unlinked) : ∃ g A, g.ninodes = args.ninodes ∧
      Image g A f.data ∧ A[c.state.nextinode]? = some (.file c.content) := by
  obtain ⟨g, f₁, f₂, f₃, _, hninodes, hopen, hroot, hbuilt, hlc, hcopy, hlinks, hfin⟩ := main_steps hr
  obtain ⟨f₀, f₁', rootOi, hopen', hroot', hin⟩ := hin
  rw [hopen, Option.some.injEq] at hopen'
  subst hopen'
  rw [hroot, Option.some.injEq, Prod.mk.injEq] at hroot'
  obtain ⟨rfl, rfl⟩ := hroot'
  have hstored := hin.stored (d := 1) hbuilt rfl (hlc.trans hc) hu hcopy
  obtain ⟨A₂, h₂, hg₂, hfile⟩ := hstored
  obtain ⟨es, hd⟩ := hg₂.getElem?_dir (d := 1) rfl
  obtain ⟨A₃, h₃, hg₃⟩ := links_grows args.links h₂ hd hlinks
  exact ⟨g, A₃, hninodes, (finishfs_finished h₃.forming hfin).image h₃, hg₃.node _ _ rfl hfile⟩

theorem main_reads_back (hr : main md5 args = some f) (hc : args.linkContents = false)
    (hin : c.InRun md5 args) (hu : c.Unlinked) : ReadsBack f.data c.state.nextinode c.content := by
  obtain ⟨g, A, _, himage, hnode⟩ := main_file hr hc hin hu
  have hlt := Nodes.lt_of_getElem? hnode
  have hlen := himage.length_le
  have hi : c.state.nextinode < g.ninodes := by omega
  have hread := himage.node _ _ hnode
  have hall := fun counts => readCalls_file himage.sound hi hread counts (Nat.zero_le _)
  constructor
  · exact ⟨_, himage.sound.inode hi, hread.1, hread.2.1⟩
  · intro counts
    rw [hall counts, Nat.zero_add, List.drop_zero]
  · intro counts count hle
    constructor
    · rw [hall counts, Nat.zero_add, Nat.min_eq_right hle, List.drop_zero, List.take_of_length_le hle]
    · rw [read_file himage.sound hi hread count (Nat.le_refl _), List.drop_length, List.take_nil,
        Nat.min_eq_right (Nat.le_add_right _ _), Nat.sub_self, Nat.min_zero]
      rfl

theorem main_reads_back_small : ∃ f, ∃ c : FileCall, main (fun _ => []) smallArguments = some f ∧
    c.InRun (fun _ => []) smallArguments ∧ c.content = [1, 2, 3] ∧
    ReadsBack f.data c.state.nextinode [1, 2, 3] := by
  obtain ⟨f, hf⟩ := main_small
  obtain ⟨g, f₁, f₂, f₃, _, _, hopen, hroot, _⟩ := main_steps hf
  have hin : FileCall.InRun (fun _ => []) smallArguments ⟨f₁, inodeAddr 1, [97], 0, 420, [1, 2, 3]⟩ :=
    ⟨_, _, _, hopen, hroot, .tree .here⟩
  have hu : FileCall.Unlinked ⟨f₁, inodeAddr 1, [97], 0, 420, [1, 2, 3]⟩ := fun _ _ h0 => absurd rfl h0
  exact ⟨f, _, hf, hin, rfl, main_reads_back hf rfl hin hu⟩

end RoundTrip

end Format

end CS111.Ospfs
