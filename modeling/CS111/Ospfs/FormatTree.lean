import CS111.Ospfs.FormatFiles
import CS111.Ospfs.HostTree

/-!
# The formatter on a tree of host files

What `writedirectory` and `main` build, as a tree of inodes.
-/

namespace CS111.Ospfs

open Memory

set_option autoImplicit false

namespace Format

variable {g : Geometry} {f f' f₁ : Format} {i j k n b d od : Nat}
variable {es : List (Name × Nat)} {A A' : Nodes} {name : Name} {md5 : List UInt8 → List UInt8}

section Hardlinks

/-- The inode that a file is linked to, or 0. -/
def linkIno (md5 : List UInt8 → List UInt8) (f : Format) (hostIno : Nat) (content : List UInt8) : Nat :=
  if hostIno ≠ 0 ∨ f.linkContents then
    f.getHardlink hostIno (if f.linkContents then some (md5 content) else none)
  else 0

theorem getHardlink_mem {hostIno : Nat} {digest : Option (List UInt8)}
    (h : f.getHardlink hostIno digest ≠ 0) :
    ∃ c, c ∈ f.hardlinks ∧ c.ospIno = f.getHardlink hostIno digest := by
  unfold getHardlink at *
  split at h
  · rename_i c hfind
    exact ⟨c, List.mem_of_find?_eq_some hfind, rfl⟩
  · exact absurd rfl h

/-- The table after a new inode, which goes into it if its host file can have other names. -/
def rememberedLinks (f : Format) (hostIno ospIno : Nat) (digest : Option (List UInt8))
    (remember : Bool) : List Hardlink :=
  if remember then (f.addHardlink hostIno ospIno digest).hardlinks else f.hardlinks

theorem rememberedLinks_congr {hostIno ospIno : Nat} {digest : Option (List UInt8)} {remember : Bool}
    (h1 : f'.linkContents = f.linkContents) (h2 : f'.hardlinks = f.hardlinks) :
    f'.rememberedLinks hostIno ospIno digest remember =
      f.rememberedLinks hostIno ospIno digest remember := by
  unfold rememberedLinks addHardlink
  rw [h1, h2]

theorem mem_rememberedLinks {hostIno ospIno : Nat} {digest : Option (List UInt8)} {remember : Bool}
    {c : Hardlink} (hc : c ∈ f.rememberedLinks hostIno ospIno digest remember) :
    c ∈ f.hardlinks ∨ c.ospIno = ospIno := by
  unfold rememberedLinks at hc
  split at hc
  · rcases List.mem_cons.mp hc with rfl | hc
    · exact .inr rfl
    · exact .inl hc
  · exact .inl hc

theorem getHardlink_congr (hostIno : Nat) (digest : Option (List UInt8))
    (h1 : f'.linkContents = f.linkContents) (h2 : f'.hardlinks = f.hardlinks) :
    f'.getHardlink hostIno digest = f.getHardlink hostIno digest := by
  unfold getHardlink
  rw [h1, h2]

end Hardlinks

section Steps

variable (h : Built g A f) (hd : A[d]? = some (.dir es))
include h hd

/-- The first step of all entries. -/
theorem Built.opened (hr : f.allocdirentry (inodeAddr d) name = some (f', od)) :
    name.length ≤ 123 ∧ ∃ f₁, Opened g d es f f₁ od ∧
      f' = { f₁ with data := store f₁.data (od + 4) (name ++ [0]) } :=
  allocdirentry_opened h.forming (h.dir_lt hd) (h.node d _ hd) (h.inos hd) hr

/-- Linking to an inode that is there. -/
theorem Built.linkEntry (hname : name.length ≤ 123) (ho : Opened g d es f f₁ od)
    (hhard : ∃ c, c ∈ f.hardlinks ∧ c.ospIno = n)
    (hr : Format.linkEntry { f₁ with data := store f₁.data (od + 4) (name ++ [0]) } od n = some f') :
    Built g (A.enter d (name, n)) f' ∧ f'.linkContents = f.linkContents ∧
      f'.hardlinks = f.hardlinks := by
  obtain ⟨c, hc, rfl⟩ := hhard
  obtain ⟨h2, hlt, hfile⟩ := h.hardlinks c hc
  have hlen := h.length_le
  have hrec := ho.recorded c.ospIno hname
  unfold Format.linkEntry at hr
  simp only [Option.bind_eq_bind, Option.bind_eq_some_iff, Option.some.injEq] at hr
  obtain ⟨⟨f₂, o⟩, hino, rfl⟩ := hr
  obtain ⟨rfl, rfl⟩ := inode_eq hrec.forming.nblocks (by omega) hino
  exact ⟨h.enter hd hname hrec h2 hlt hfile, ho.within.linkContents, ho.within.hardlinks⟩

omit h hd in
/-- The fields of the state after a new inode has been given to an entry. -/
theorem newEntry_eq {hostIno : Nat} {digest : Option (List UInt8)} {remember : Bool}
    (hr : f.newEntry od hostIno digest remember = some (f', n))
    (hn : f.nblocks = g.nblocks) (hi : f.ninodes = g.ninodes) (hle : f.nextinode ≤ g.ninodes) :
    f.nextinode < g.ninodes ∧ n = inodeAddr f.nextinode ∧ f' = { f with
      nextinode := f.nextinode + 1
      hardlinks := f.rememberedLinks hostIno f.nextinode digest remember
      data := setNlink (setOdIno f.data od f.nextinode) (inodeAddr f.nextinode) 1 } := by
  unfold newEntry at hr
  simp only [Option.bind_eq_bind, Option.bind_eq_some_iff, Option.some.injEq, Prod.mk.injEq] at hr
  obtain ⟨⟨f₁, ino, oi⟩, halloc, rfl, rfl⟩ := hr
  obtain ⟨hlt, rfl, rfl, rfl⟩ := allocinode_eq hn hi hle halloc
  refine ⟨hlt, rfl, ?_⟩
  cases remember with
  | false => rfl
  | true => rfl

omit hd in
theorem Built.newEntry {hostIno : Nat} {digest : Option (List UInt8)} {remember : Bool}
    (hname : name.length ≤ 123) (ho : Opened g d es f f₁ od)
    (hr : Format.newEntry { f₁ with data := store f₁.data (od + 4) (name ++ [0]) } od hostIno digest
      remember = some (f', n)) :
    ∃ fr, Recorded g d (es ++ [(name, A.length)]) f fr ∧ fr.nextinode < g.ninodes ∧
      n = inodeAddr fr.nextinode ∧ f' = { fr with
        nextinode := fr.nextinode + 1
        hardlinks := f.rememberedLinks hostIno A.length digest remember
        data := setNlink fr.data (inodeAddr fr.nextinode) 1 } := by
  have hrec := ho.recorded A.length hname
  have hcount : f₁.nextinode = A.length := by rw [ho.within.nextinode, h.count]
  obtain ⟨hlt, hn, rfl⟩ := newEntry_eq hr ho.forming.nblocks ho.forming.ninodes
    ho.forming.nextinode_le
  refine ⟨_, hrec, hlt, hn, ?_⟩
  have hsame : Format.rememberedLinks { f₁ with data := store f₁.data (od + 4) (name ++ [0]) } hostIno
      f₁.nextinode digest remember = f.rememberedLinks hostIno f₁.nextinode digest remember :=
    rememberedLinks_congr ho.within.linkContents ho.within.hardlinks
  dsimp only
  rw [hsame]
  simp only [hcount]
  rfl

theorem writefile_built {hostIno mode : Nat} {content : List UInt8}
    (hr : f.writefile md5 (inodeAddr d) name hostIno mode content = some f') :
    f'.linkContents = f.linkContents ∧
      (linkIno md5 f hostIno content = 0 → Built g (A.add d name (.file content)) f' ∧
        f'.hardlinks = f.rememberedLinks hostIno A.length (if f.linkContents then some (md5 content) else none)
          (hostIno ≠ 0 ∨ f.linkContents)) ∧
      (linkIno md5 f hostIno content ≠ 0 →
        Built g (A.enter d (name, linkIno md5 f hostIno content)) f' ∧ f'.hardlinks = f.hardlinks) := by
  unfold writefile at hr
  simp only [Option.bind_eq_bind, Option.bind_eq_some_iff] at hr
  obtain ⟨⟨f₀, od⟩, halloc, hr⟩ := hr
  obtain ⟨hname, f₁, ho, rfl⟩ := h.opened hd halloc
  have hlink := getHardlink_congr hostIno (if f.linkContents then some (md5 content) else none)
    (by exact ho.within.linkContents :
      ({ f₁ with data := store f₁.data (od + 4) (name ++ [0]) } : Format).linkContents = _)
    ho.within.hardlinks
  simp only [ho.within.linkContents] at hr hlink
  rw [hlink] at hr
  have hino : (if hostIno ≠ 0 ∨ f.linkContents = true then
      f.getHardlink hostIno (if f.linkContents = true then some (md5 content) else none) else 0) =
      linkIno md5 f hostIno content := rfl
  rw [hino] at hr
  simp only [← ho.within.linkContents] at hr ⊢
  split at hr
  · rename_i h0
    rw [Option.bind_eq_some_iff] at hr
    obtain ⟨⟨f₂, oi⟩, hnew, hcopy⟩ := hr
    obtain ⟨fr, hrec, hlt, rfl, rfl⟩ := h.newEntry hname ho hnew
    unfold copyFile at hcopy
    simp only [Option.bind_eq_bind, Option.bind_eq_some_iff, Option.some.injEq] at hcopy
    obtain ⟨⟨f₃, size⟩, hwrite, rfl⟩ := hcopy
    have hborn := file_born hrec.forming hlt hwrite
    have hadd := h.add hd hname rfl hrec hborn (fun j => Same.refl) rfl (Nat.le_refl _)
      (fun _ _ _ => rfl) rfl fun c hc => (mem_rememberedLinks hc).imp_right fun hc => ⟨hc, rfl⟩
    refine ⟨?_, ?_, ?_⟩
    · rw [ho.within.linkContents, ← hrec.within.linkContents]
      exact hborn.linkContents
    · intro _
      exact ⟨hadd, hborn.hardlinks⟩
    · intro hne
      exact absurd h0 hne
  · rename_i hne
    have hmem : ∃ c, c ∈ f.hardlinks ∧ c.ospIno = linkIno md5 f hostIno content := by
      unfold linkIno at hne ⊢
      split at hne
      · rename_i hc
        rw [if_pos hc]
        exact getHardlink_mem hne
      · exact absurd rfl hne
    obtain ⟨hbuilt, hlc, hl⟩ := h.linkEntry hd hname ho hmem hr
    refine ⟨?_, ?_, ?_⟩
    · rw [ho.within.linkContents]
      exact hlc
    · intro h0
      exact absurd h0 hne
    · intro _
      exact ⟨hbuilt, hl⟩

/-- The inode that a symbolic link is linked to, or 0. -/
def symlinkIno (f : Format) (hostIno : Nat) : Nat :=
  if hostIno ≠ 0 then f.getHardlink hostIno none else 0

theorem addsymlink_built {hostIno : Nat} {target : Name}
    (hr : f.addsymlink (inodeAddr d) name target hostIno = some f') :
    f'.linkContents = f.linkContents ∧
      (symlinkIno f hostIno = 0 → Built g (A.add d name (.symlink target)) f' ∧
        f'.hardlinks = f.rememberedLinks hostIno A.length none (hostIno ≠ 0)) ∧
      (symlinkIno f hostIno ≠ 0 → Built g (A.enter d (name, symlinkIno f hostIno)) f' ∧
        f'.hardlinks = f.hardlinks) := by
  unfold addsymlink at hr
  simp only [Option.bind_eq_bind, Option.bind_eq_some_iff] at hr
  obtain ⟨⟨f₀, od⟩, halloc, hr⟩ := hr
  obtain ⟨hname, f₁, ho, rfl⟩ := h.opened hd halloc
  have hlink := getHardlink_congr hostIno none
    (by exact ho.within.linkContents :
      ({ f₁ with data := store f₁.data (od + 4) (name ++ [0]) } : Format).linkContents = _)
    ho.within.hardlinks
  rw [hlink] at hr
  have hino : (if hostIno ≠ 0 then f.getHardlink hostIno none else 0) = symlinkIno f hostIno := rfl
  rw [hino] at hr
  split at hr
  · rename_i h0
    rw [Option.bind_eq_some_iff] at hr
    obtain ⟨⟨f₂, oi⟩, hnew, hcopy⟩ := hr
    obtain ⟨fr, hrec, hlt, rfl, rfl⟩ := h.newEntry hname ho hnew
    unfold copyTarget at hcopy
    split at hcopy
    · exact absurd hcopy (by simp)
    · rename_i hlen
      rw [Option.some.injEq] at hcopy
      have hborn : Born g (f.rememberedLinks hostIno A.length none (hostIno ≠ 0)) (.symlink target) _ _ :=
        symlink_born hrec.forming hlt (by omega)
      have hadd := h.add hd hname rfl hrec hborn (fun j => Same.refl) rfl (Nat.le_refl _)
        (fun _ _ _ => rfl) rfl fun c hc => (mem_rememberedLinks hc).imp_right fun hc => ⟨hc, rfl⟩
      rw [← hcopy]
      refine ⟨?_, ?_, ?_⟩
      · exact hrec.within.linkContents
      · intro _
        exact ⟨hadd, hborn.hardlinks⟩
      · intro hne
        exact absurd h0 hne
  · rename_i hne
    have hmem : ∃ c, c ∈ f.hardlinks ∧ c.ospIno = symlinkIno f hostIno := by
      unfold symlinkIno at hne ⊢
      split at hne
      · rename_i hc
        rw [if_pos hc]
        exact getHardlink_mem hne
      · exact absurd rfl hne
    obtain ⟨hbuilt, hlc, hl⟩ := h.linkEntry hd hname ho hmem hr
    refine ⟨hlc, ?_, ?_⟩
    · intro h0
      exact absurd h0 hne
    · intro _
      exact ⟨hbuilt, hl⟩

theorem makeDirectory_built {mode : Nat}
    (hr : f.makeDirectory (inodeAddr d) name mode = some (f', n)) :
    f'.linkContents = f.linkContents ∧ n = inodeAddr A.length ∧
      Built g (A.add d name (.dir [])) f' := by
  unfold makeDirectory at hr
  simp only [Option.bind_eq_bind, Option.bind_eq_some_iff, Option.some.injEq, Prod.mk.injEq] at hr
  obtain ⟨⟨f₀, od⟩, hopen, ⟨f₂, ino, oi⟩, halloc, hr, rfl⟩ := hr
  obtain ⟨hname, f₁, ho, rfl⟩ := h.opened hd hopen
  have hcount : f₁.nextinode = A.length := by rw [ho.within.nextinode, h.count]
  have hrec := ho.recorded A.length hname
  obtain ⟨hlt, rfl, rfl, rfl⟩ := allocinode_eq (g := g)
    (f := { f₁ with data := store f₁.data (od + 4) (name ++ [0]) }) ho.forming.nblocks
    ho.forming.ninodes ho.forming.nextinode_le halloc
  have hdlt := h.dir_lt hd
  have hborn : d < f₁.nextinode := by
    rw [hcount, ← h.count]
    exact hdlt
  have hdn : d < g.ninodes := Nat.lt_of_lt_of_le hdlt h.forming.nextinode_le
  have hnlink : oiNlink (record f₁.data od A.length name) (inodeAddr d) = 1 + A.subdirs es := by
    rw [hrec.within.nlinks d hdn, h.nlink d (by rw [← h.count]; exact hdlt),
      Nodes.links_of_dir hd]
  have hfits := (h.node d _ hd).2.2.fits
  have hsub : A.subdirs es ≤ es.length := List.countP_le_length
  have hlinked := hrec.forming.setNlink hborn
    (u32 (oiNlink (record f₁.data od A.length name) (inodeAddr d) + 1))
  have hnew : Born g f₁.hardlinks _ _ _ := dir_born hlinked hlt mode
  have hself : oiNlink (setNlink (record f₁.data od A.length name) (inodeAddr d)
      (u32 (oiNlink (record f₁.data od A.length name) (inodeAddr d) + 1))) (inodeAddr d) =
      oiNlink (record f₁.data od A.length name) (inodeAddr d) + newLinks (.dir []) := by
    have hone : newLinks (.dir []) = 1 := rfl
    refine (rd32_wr32_of_lt _ _ (u32_lt _)).trans ?_
    rw [u32_of_lt (by omega), hone]
  have hadd := h.add hd hname rfl hrec hnew
    (fun j => setNlink_same hrec.forming hborn _) rfl (Nat.le_refl _)
    (fun j _ hj => setNlink_others _ hj) hself fun c hc =>
      .inl (by rw [← ho.within.hardlinks]; exact hc)
  refine ⟨?_, ?_, ?_⟩
  · rw [← hr]
    exact ho.within.linkContents
  · simp only [hcount]
  · rw [← hr]
    simp only [hcount] at hadd ⊢
    exact hadd

end Steps

section Trees

open Nodes

/-- Without second links the result is determined. -/
theorem writedirectory_installed (host : Host) (h : Built g A f) (hd : A[d]? = some (.dir es))
    (hlc : f.linkContents = false) (hu : host.Unlinked) (hs : A.SingleLinks)
    (hr : writedirectory md5 f (inodeAddr d) host = some f') :
    Built g (A.install d host) f' ∧ f'.linkContents = false ∧ (A.install d host).SingleLinks := by
  induction host generalizing A f f' d es with
  | nil =>
    rw [writedirectory, Option.some.injEq] at hr
    rw [← hr]
    exact ⟨h, hlc, hs⟩
  | file name hostIno mode content rest ih =>
    obtain ⟨rfl, hrest⟩ := hu
    rw [writedirectory] at hr
    simp only [Option.bind_eq_bind, Option.bind_eq_some_iff] at hr
    obtain ⟨f₁, hfile, hr⟩ := hr
    obtain ⟨hlc₁, hnew, _⟩ := writefile_built h hd hfile
    have h0 : linkIno md5 f 0 content = 0 := by
      unfold linkIno
      rw [hlc]
      rfl
    exact ih (hnew h0).1 (getElem?_add_self hd) (hlc₁.trans hlc) hrest
      (hs.add h.wellFormed hd rfl) hr
  | dir name mode sub rest ihsub ihrest =>
    rw [writedirectory] at hr
    rw [install]
    by_cases hskip : name ∈ skippedNames
    · rw [if_pos hskip] at hr ⊢
      exact ihrest h hd hlc hu.2 hs hr
    · rw [if_neg hskip] at hr ⊢
      simp only [Option.bind_eq_bind, Option.bind_eq_some_iff] at hr
      obtain ⟨⟨f₁, oi⟩, hmake, f₂, hsub, hr⟩ := hr
      obtain ⟨hlc₁, rfl, hnew⟩ := makeDirectory_built h hd hmake
      have hdlt := lt_of_getElem? hd
      have hentry : (A.add d name (.dir []))[A.length]? = some (.dir []) := getElem?_add_new
      obtain ⟨added, hinst⟩ := install_installed sub hentry
      obtain ⟨hbuilt, hlc₂, hs₂⟩ := ihsub hnew hentry (hlc₁.trans hlc) hu.1
        (hs.add h.wellFormed hd rfl) hsub
      have hdsub : (install (A.add d name (.dir [])) A.length sub)[d]? =
          some (.dir (es ++ [(name, A.length)])) := by
        rw [hinst.others d (by rw [length_add]; omega) (by omega)]
        exact getElem?_add_self hd
      exact ihrest hbuilt hdsub hlc₂ hu.2 hs₂ hr
  | symlink name hostIno target rest ih =>
    obtain ⟨rfl, hrest⟩ := hu
    rw [writedirectory] at hr
    rw [install]
    simp only [Option.bind_eq_bind, Option.bind_eq_some_iff] at hr
    obtain ⟨f₁, hlink, hr⟩ := hr
    unfold writesymlink at hlink
    by_cases hlong : target.length > 51
    · rw [if_pos hlong] at hlink ⊢
      rw [Option.some.injEq] at hlink
      rw [← hlink] at hr
      exact ih h hd hlc hrest hs hr
    · rw [if_neg hlong] at hlink ⊢
      obtain ⟨hlc₁, hnew, _⟩ := addsymlink_built h hd hlink
      exact ih (hnew rfl).1 (getElem?_add_self hd) (hlc₁.trans hlc) hrest
        (hs.add h.wellFormed hd rfl) hr
  | other name rest ih => exact ih h hd hlc hu hs hr

theorem writefile_grows {hostIno mode : Nat} {content : List UInt8} (h : Built g A f)
    (hd : A[d]? = some (.dir es))
    (hr : f.writefile md5 (inodeAddr d) name hostIno mode content = some f') :
    ∃ A', Built g A' f' ∧ A.Grows A' ∧ f'.linkContents = f.linkContents := by
  obtain ⟨hlc, hnew, hold⟩ := writefile_built h hd hr
  by_cases h0 : linkIno md5 f hostIno content = 0
  · exact ⟨_, (hnew h0).1, grows_add hd, hlc⟩
  · exact ⟨_, (hold h0).1, grows_enter hd, hlc⟩

theorem addsymlink_grows {hostIno : Nat} {target : Name} (h : Built g A f)
    (hd : A[d]? = some (.dir es))
    (hr : f.addsymlink (inodeAddr d) name target hostIno = some f') :
    ∃ A', Built g A' f' ∧ A.Grows A' ∧ f'.linkContents = f.linkContents := by
  obtain ⟨hlc, hnew, hold⟩ := addsymlink_built h hd hr
  by_cases h0 : symlinkIno f hostIno = 0
  · exact ⟨_, (hnew h0).1, grows_add hd, hlc⟩
  · exact ⟨_, (hold h0).1, grows_enter hd, hlc⟩

/-- With or without second links, `writedirectory` builds a larger tree. -/
theorem writedirectory_grows (host : Host) (h : Built g A f) (hd : A[d]? = some (.dir es))
    (hr : writedirectory md5 f (inodeAddr d) host = some f') :
    ∃ A', Built g A' f' ∧ A.Grows A' ∧ f'.linkContents = f.linkContents := by
  induction host generalizing A f f' d es with
  | nil =>
    rw [writedirectory, Option.some.injEq] at hr
    rw [← hr]
    exact ⟨A, h, Grows.refl, rfl⟩
  | file name hostIno mode content rest ih =>
    rw [writedirectory] at hr
    simp only [Option.bind_eq_bind, Option.bind_eq_some_iff] at hr
    obtain ⟨f₁, hfile, hr⟩ := hr
    obtain ⟨A₁, h₁, hg₁, hlc₁⟩ := writefile_grows h hd hfile
    obtain ⟨es₁, hd₁⟩ := hg₁.getElem?_dir hd
    obtain ⟨A₂, h₂, hg₂, hlc₂⟩ := ih h₁ hd₁ hr
    exact ⟨A₂, h₂, hg₁.trans hg₂, hlc₂.trans hlc₁⟩
  | dir name mode sub rest ihsub ihrest =>
    rw [writedirectory] at hr
    by_cases hskip : name ∈ skippedNames
    · rw [if_pos hskip] at hr
      exact ihrest h hd hr
    · rw [if_neg hskip] at hr
      simp only [Option.bind_eq_bind, Option.bind_eq_some_iff] at hr
      obtain ⟨⟨f₁, oi⟩, hmake, f₂, hsub, hr⟩ := hr
      obtain ⟨hlc₁, rfl, h₁⟩ := makeDirectory_built h hd hmake
      have hg₁ : A.Grows (A.add d name (.dir [])) := grows_add hd
      obtain ⟨A₂, h₂, hg₂, hlc₂⟩ := ihsub h₁ getElem?_add_new hsub
      obtain ⟨es₂, hd₂⟩ := (hg₁.trans hg₂).getElem?_dir hd
      obtain ⟨A₃, h₃, hg₃, hlc₃⟩ := ihrest h₂ hd₂ hr
      exact ⟨A₃, h₃, (hg₁.trans hg₂).trans hg₃, hlc₃.trans (hlc₂.trans hlc₁)⟩
  | symlink name hostIno target rest ih =>
    rw [writedirectory] at hr
    simp only [Option.bind_eq_bind, Option.bind_eq_some_iff] at hr
    obtain ⟨f₁, hlink, hr⟩ := hr
    unfold writesymlink at hlink
    by_cases hlong : target.length > 51
    · rw [if_pos hlong, Option.some.injEq] at hlink
      rw [← hlink] at hr
      exact ih h hd hr
    · rw [if_neg hlong] at hlink
      obtain ⟨A₁, h₁, hg₁, hlc₁⟩ := addsymlink_grows h hd hlink
      obtain ⟨es₁, hd₁⟩ := hg₁.getElem?_dir hd
      obtain ⟨A₂, h₂, hg₂, hlc₂⟩ := ih h₁ hd₁ hr
      exact ⟨A₂, h₂, hg₁.trans hg₂, hlc₂.trans hlc₁⟩
  | other name rest ih => exact ih h hd hr

end Trees

end Format

end CS111.Ospfs
