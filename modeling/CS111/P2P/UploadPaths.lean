import CS111.Lib.Paths
import CS111.P2P.MessageRoundTrip
import CS111.P2P.TrackerResponse

/-!
# Which files are uploaded

`task_upload` from the scanned request to the end of the transfer. Before it opens the file it compares
the beginning of the canonical path with the path of the working directory, byte by byte.
-/

namespace CS111.P2P

set_option autoImplicit false

open Paths

section Model

/-- `strncmp` on two strings without their NULs, as unsigned bytes. -/
def strncmp : List UInt8 → List UInt8 → Nat → Int
  | _, _, 0 => 0
  | [], [], _ + 1 => 0
  | [], b :: _, _ + 1 => - b.toNat
  | a :: _, [], _ + 1 => a.toNat
  | a :: as, b :: bs, n + 1 => if a = b then strncmp as bs n else a.toNat - b.toNat

/-- A canonical absolute path; its components are separated by `/`. -/
structure CanonicalPath where
  path : Path (47 : UInt8)
  no_nul : 0 ∉ render path

def CanonicalPath.text (p : CanonicalPath) : List UInt8 := render p.path

/-- What the peer asks the operating system: `realpath`, `getcwd`, and whether `open` with `O_RDONLY`
succeeds. -/
structure FileTree where
  realpath : List UInt8 → Option CanonicalPath
  getcwd : Option CanonicalPath
  opens : List UInt8 → Bool

/-- The string in `t->filename`. -/
def scannedName (c : Scan) : List UInt8 :=
  match c.stored with
  | .string s :: _ => s.takeWhile (· ≠ 0)
  | _ => []

/-- The error that ends the upload, or the outcome of the transfer. -/
inductive UploadEnd where
  | oddRequest
  | badFileName
  | noDirectory
  | badFile
  | outsideDirectory
  | cannotOpen
  | transferred (result : Option CopyEnd × Session)

/-- `c` is the state in which `osp2p_snscanf` returned on the request in the task buffer. -/
def taskUpload (tree : FileTree) (evilMode : Int) (t : Task) (c : Scan)
    (calls : List (WriteCall × ReadCall)) : UploadEnd :=
  if c.ret < 0 then .oddRequest
  else
    let t := { t with head := 0, tail := 0 }
    if (scannedName c).length > FILENAMESIZ then .badFileName
    else
      match tree.getcwd, tree.realpath (scannedName c) with
      | none, _ => .noDirectory
      | some _, none => .badFile
      | some currentDir, some filePath =>
        if strncmp currentDir.text filePath.text currentDir.text.length ≠ 0 then .outsideDirectory
        else if tree.opens (scannedName c) = false then .cannotOpen
        else .transferred (uploadLoop evilMode calls (.start t))

/-- The requested file was opened and the transfer began. -/
def UploadEnd.Served (r : UploadEnd) : Prop := ∃ result, r = .transferred result

/-- The requested file lies below the working directory. -/
def FileTree.Below (tree : FileTree) (c : Scan) : Prop :=
  ∃ currentDir filePath, tree.getcwd = some currentDir ∧
    tree.realpath (scannedName c) = some filePath ∧ Inside currentDir.path filePath.path

/-- A request that is refused for no other reason than its path. -/
def FileTree.Accepts (tree : FileTree) (c : Scan) : Prop :=
  0 ≤ c.ret ∧ (scannedName c).length ≤ FILENAMESIZ ∧ tree.opens (scannedName c) = true

end Model

variable {tree : FileTree} {evilMode : Int} {t : Task} {c : Scan} {calls : List (WriteCall × ReadCall)}

theorem strncmp_eq_zero_iff {a b : List UInt8} (h : 0 ∉ a) :
    strncmp a b a.length = 0 ↔ a <+: b := by
  induction a generalizing b with
  | nil => exact iff_of_true (by cases b <;> rfl) List.nil_prefix
  | cons x a ih =>
    have hx : x ≠ 0 := fun h0 => h (h0 ▸ List.mem_cons_self)
    have hnat : x.toNat ≠ 0 := fun h0 => hx (UInt8.toNat_inj.mp h0)
    cases b with
    | nil =>
      rw [List.length_cons, strncmp]
      refine iff_of_false (by omega) fun hprefix => ?_
      have hle := hprefix.length_le
      rw [List.length_cons, List.length_nil] at hle
      omega
    | cons y b =>
      rw [List.length_cons, strncmp, List.cons_prefix_cons]
      by_cases hxy : x = y
      · rw [if_pos hxy, ih fun h0 => h (List.mem_cons_of_mem _ h0)]
        exact (and_iff_right hxy).symm
      · have hne : x.toNat ≠ y.toNat := fun heq => hxy (UInt8.toNat_inj.mp heq)
        rw [if_neg hxy]
        exact iff_of_false (by omega) fun h => hxy h.1

/-- The checks before the transfer. -/
theorem served_iff : (taskUpload tree evilMode t c calls).Served ↔ tree.Accepts c ∧
    ∃ currentDir filePath, tree.getcwd = some currentDir ∧
      tree.realpath (scannedName c) = some filePath ∧ currentDir.text <+: filePath.text := by
  have hcheck : ∀ currentDir filePath : CanonicalPath,
      strncmp currentDir.text filePath.text currentDir.text.length = 0 ↔
        currentDir.text <+: filePath.text :=
    fun currentDir filePath => strncmp_eq_zero_iff currentDir.no_nul
  unfold taskUpload FileTree.Accepts UploadEnd.Served
  constructor
  · rintro ⟨result, h⟩
    split at h
    · cases h
    · next hret =>
      dsimp only at h
      split at h
      · cases h
      · next hlength =>
        split at h
        · cases h
        · cases h
        · next currentDir filePath hdir hfile =>
          split at h
          · cases h
          · next hsame =>
            split at h
            · cases h
            · next hopen =>
              exact ⟨⟨by omega, by omega, Bool.eq_true_of_not_eq_false hopen⟩, currentDir, filePath,
                hdir, hfile, (hcheck _ _).mp (not_not.mp hsame)⟩
  · rintro ⟨⟨hret, hlength, hopen⟩, currentDir, filePath, hdir, hfile, hprefix⟩
    have hsame := (hcheck currentDir filePath).mpr hprefix
    refine ⟨uploadLoop evilMode calls (.start { t with head := 0, tail := 0 }), ?_⟩
    rw [if_neg (by omega)]
    dsimp only
    rw [if_neg (by omega), hdir, hfile]
    dsimp only
    rw [if_neg (not_not.mpr hsame), if_neg (by rw [hopen]; decide)]

/-- Only files below the working directory are served, unless the path of a file goes on with something
else than a component behind the path of the directory. -/
theorem served_below_iff : ((taskUpload tree evilMode t c calls).Served → tree.Below c) ↔
    (tree.Accepts c → ∀ currentDir filePath, tree.getcwd = some currentDir →
      tree.realpath (scannedName c) = some filePath → currentDir.text <+: filePath.text →
        Continues currentDir.path filePath.path) := by
  rw [served_iff]
  constructor
  · intro h haccepts currentDir filePath hdir hfile hprefix
    obtain ⟨dir, file, hdir', hfile', hinside⟩ :=
      h ⟨haccepts, currentDir, filePath, hdir, hfile, hprefix⟩
    cases hdir.symm.trans hdir'
    cases hfile.symm.trans hfile'
    exact (inside_iff.mp hinside).2
  · rintro h ⟨haccepts, currentDir, filePath, hdir, hfile, hwithin⟩
    exact ⟨currentDir, filePath, hdir, hfile,
      inside_iff.mpr ⟨hwithin, h haccepts currentDir filePath hdir hfile hwithin⟩⟩

section Sibling

def component (l : List Char) (h : chars l ≠ [] ∧ 47 ∉ chars l) : Component (47 : UInt8) :=
  ⟨chars l, h.1, h.2⟩

/-- The working directory is `/a/dir`, and there is a file `/a/dir2/x`. -/
def siblingTree : FileTree where
  realpath name :=
    if name = chars ['.', '.', '/', 'd', 'i', 'r', '2', '/', 'x'] then
      some ⟨[component ['a'] (by decide), component ['d', 'i', 'r', '2'] (by decide),
        component ['x'] (by decide)], by decide⟩
    else none
  getcwd := some ⟨[component ['a'] (by decide), component ['d', 'i', 'r'] (by decide)], by decide⟩
  opens name := name == chars ['.', '.', '/', 'd', 'i', 'r', '2', '/', 'x']

/-- `GET ../dir2/x OSP2P`. -/
def siblingRequest : List UInt8 :=
  chars ['G', 'E', 'T', ' ', '.', '.', '/', 'd', 'i', 'r', '2', '/', 'x', ' ', 'O', 'S', 'P', '2', 'P',
    '\n']

def siblingScan : Scan :=
  Scan.run (fun i => siblingRequest.getD i 0) siblingRequest.length 40 (.start getFormat)

/-- A byte of the file beside the working directory is sent. -/
theorem sibling_uploaded :
    ∃ s, taskUpload siblingTree 0 ⟨fun _ => 0, 0, 20, 0⟩ siblingScan
        [(.all, deliver [120]), (.all, deliver [])] = .transferred (some .finished, s) ∧
      s.received = [120] ∧ ¬ siblingTree.Below siblingScan := by
  refine ⟨_, rfl, by decide, ?_⟩
  rintro ⟨currentDir, filePath, hdir, hfile, hinside⟩
  have hname : scannedName siblingScan = chars ['.', '.', '/', 'd', 'i', 'r', '2', '/', 'x'] := by
    decide
  rw [hname] at hfile
  cases hdir
  cases hfile
  have hnext := (inside_iff.mp hinside).2
  rw [Continues, if_neg (by simp)] at hnext
  exact absurd hnext (by decide)

end Sibling

end CS111.P2P
