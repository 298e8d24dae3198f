import Mathlib.Data.Nat.Find
import Mathlib.Data.Set.Finite.Lattice
import CS111.Ospfs.MountedTree
import CS111.Ospfs.NameMaps

/-!
# Names on a formatted volume

On an image in which no directory has a name twice the names form a map. In every run they take the
steps of the map, and listings and lookups agree.
-/

namespace CS111.Ospfs

open Memory Format

set_option autoImplicit false

namespace Host

/-- All names in a host directory. -/
def names : Host → List Name
  | .nil => []
  | .file name _ _ _ rest | .dir name _ _ rest | .symlink name _ _ rest | .other name rest =>
    name :: rest.names

/-- No directory has a name twice. -/
def Distinct : Host → Prop
  | .nil => True
  | .file name _ _ _ rest | .symlink name _ _ rest | .other name rest =>
    name ∉ rest.names ∧ rest.Distinct
  | .dir name _ sub rest => name ∉ rest.names ∧ sub.Distinct ∧ rest.Distinct

end Host

variable {g : Geometry} {m : Bytes} {s : State} {cs : List Returned} {A : Nodes} {d i k od : Nat}
variable {es : List (Name × Nat)} {name : Name} {host : Host} {nd : Node}

namespace Nodes

/-- No directory has a name twice, and names are strings. -/
def Distinct (A : Nodes) : Prop := ∀ (d : Nat) (es : List (Name × Nat)), A[d]? = some (.dir es) →
  (es.map (·.1)).Nodup ∧ ∀ e, e ∈ es → ∀ c, c ∈ e.1 → c ≠ 0

theorem Distinct.add (h : A.Distinct) (hd : A[d]? = some (.dir es)) (hempty : nd.entries = [])
    (hnew : name ∉ es.map (·.1)) (hchars : ∀ c, c ∈ name → c ≠ 0) : (A.add d name nd).Distinct := by
  intro e es' he
  rcases Nat.lt_trichotomy e A.length with hlt | rfl | hgt
  · by_cases hed : e = d
    · subst hed
      rw [getElem?_add_self hd, Option.some.injEq, Node.dir.injEq] at he
      subst he
      obtain ⟨hnodup, hold⟩ := h e es hd
      constructor
      · rw [List.map_append, List.nodup_append]
        refine ⟨hnodup, List.nodup_singleton _, ?_⟩
        intro other hother last hlast heq
        rw [List.map_singleton, List.mem_singleton] at hlast
        rw [heq, hlast] at hother
        exact hnew hother
      · intro e' he'
        rcases List.mem_append.mp he' with hmem | hmem
        · exact hold e' hmem
        · rw [List.mem_singleton.mp hmem]
          exact hchars
    · rw [getElem?_add_ne hlt hed] at he
      exact h e es' he
  · rw [getElem?_add_new, Option.some.injEq] at he
    subst he
    obtain rfl : es' = [] := hempty
    exact ⟨List.nodup_nil, nofun⟩
  · rw [List.getElem?_eq_none (by rw [length_add]; omega)] at he
    cases he

/-- The names still to come are new after one more entry, too. -/
theorem new_later {names : List Name} (hname : name ∉ names)
    (hnew : ∀ other, other ∈ name :: names → other ∉ es.map (·.1)) :
    ∀ other, other ∈ names → other ∉ (es ++ [(name, i)]).map (·.1) := by
  intro other hother hmem
  rw [List.map_append, List.mem_append, List.map_singleton, List.mem_singleton] at hmem
  rcases hmem with hold | heq
  · exact hnew other (List.mem_cons_of_mem _ hother) hold
  · rw [heq] at hother
    exact hname hother

theorem Distinct.install (h : A.Distinct) (hd : A[d]? = some (.dir es)) (hdistinct : host.Distinct)
    (hs : host.Strings) (hnew : ∀ name, name ∈ host.names → name ∉ es.map (·.1)) :
    (A.install d host).Distinct := by
  induction host generalizing A d es with
  | nil => exact h
  | file name hostIno mode content rest ih =>
    exact ih (h.add hd rfl (hnew name List.mem_cons_self) hs.1) (getElem?_add_self hd) hdistinct.2 hs.2
      (new_later hdistinct.1 hnew)
  | dir name mode sub rest ihsub ihrest =>
    have hrest : ∀ other, other ∈ rest.names → other ∉ es.map (·.1) :=
      fun other hother => hnew other (List.mem_cons_of_mem _ hother)
    rw [Nodes.install]
    split
    · exact ihrest h hd hdistinct.2.2 hs.2.2 hrest
    · have hdlt := lt_of_getElem? hd
      have hadd : (A.add d name (.dir [])).Distinct :=
        h.add hd rfl (hnew name List.mem_cons_self) hs.1
      obtain ⟨added, hsub⟩ := install_installed (A := A.add d name (.dir [])) sub getElem?_add_new
      have hd' : (Nodes.install (A.add d name (.dir [])) A.length sub)[d]? =
          some (.dir (es ++ [(name, A.length)])) := by
        rw [hsub.others d (by rw [length_add]; omega) (by omega)]
        exact getElem?_add_self hd
      exact ihrest (ihsub hadd getElem?_add_new hdistinct.2.1 hs.2.1 fun _ _ => List.not_mem_nil) hd'
        hdistinct.2.2 hs.2.2 (new_later hdistinct.1 hnew)
  | symlink name hostIno target rest ih =>
    rw [Nodes.install]
    split
    · exact ih h hd hdistinct.2 hs.2.2 fun other hother => hnew other (List.mem_cons_of_mem _ hother)
    · exact ih (h.add hd rfl (hnew name List.mem_cons_self) hs.1) (getElem?_add_self hd) hdistinct.2 hs.2.2
        (new_later hdistinct.1 hnew)
  | other name rest ih =>
    exact ih h hd hdistinct.2 hs fun other hother => hnew other (List.mem_cons_of_mem _ hother)

end Nodes

/-! ## Listings -/

section Listings

/-- A listing with enough room shows each name in directory `d` once, with the inode to which
`ospfs_lookup` leads. -/
def ListsNames (m : Bytes) (d : Nat) : Prop :=
  ∃ listed : List DirEntry, (listed.map (·.name)).Nodup ∧
    (∀ name i, (∃ e, e ∈ listed ∧ e.name = name ∧ e.ino = i) ↔
      ospfsDirLookup m d name true = some (.ok (some i))) ∧
    ∀ parent room, listed.length + 2 ≤ room → ∃ fuel r,
      ospfsDirReaddir fuel m d parent 0 (fun accepted _ => accepted.length < room) = some r ∧
        r.ret = 1 ∧ r.accepted = dotEntry d :: dotDotEntry parent :: listed

/-- No listing shows a name twice. -/
def UniqueNames (m : Bytes) : Prop := ∀ d oi, ospfsInode m d = some oi → oiFtype m oi = FTYPE_DIR →
  ((liveFrom m oi 0).map (·.name)).Nodup

theorem hasEntry_iff_lt : HasEntry m d k ↔ k < slotCount m (inodeAddr d) := by
  unfold HasEntry slotCount
  omega

theorem mem_liveFrom {e : DirEntry} : e ∈ liveFrom m (inodeAddr d) 0 ↔
    ∃ k, HasEntry m d k ∧ liveEntry m (inodeAddr d) k = some e := by
  unfold liveFrom
  rw [List.mem_filterMap, Nat.sub_zero, ← List.range_eq_range']
  simp only [List.mem_range, hasEntry_iff_lt]

/-- What is listed for an entry that names an inode of a known type. -/
theorem EntryAt.liveEntry (hat : EntryAt g m d k name i) (hlen : name.length ≤ 123) (hs : Sound g m)
    (hd : IsDirectory g m d) (hi : i < g.ninodes) (hknown : Known m i) :
    ∃ e, liveEntry m (inodeAddr d) k = some e ∧ e.name = name ∧ e.ino = i := by
  have hname : odName m (direntAt g m d k) = name := by
    obtain ⟨_, hchars, hnul, hload⟩ := entryMatches_iff.mp hat.spelled
    have hown := own_lt_nblocks hs (d, dataSlot (k / 8))
    have hroom : name.length < imageEnd m - (direntAt g m d k + 4) := by
      unfold imageEnd direntAt
      rw [hs.nblocks]
      omega
    refine (cString_load_iff hload (fun c hc => ?_) hroom).mpr hnul
    rw [← hload] at hc
    obtain ⟨j, hj, rfl⟩ := List.mem_map.mp hc
    exact hchars j (List.mem_range.mp hj)
  obtain ⟨dtype, hdtype⟩ := Option.isSome_iff_exists.mp hknown
  refine ⟨⟨name, k + 2, i, dtype⟩, ?_, rfl, rfl⟩
  unfold Ospfs.liveEntry
  simp only [hd.direntAt_eq hs hat.has, hat.ino, if_neg (Nat.ne_of_gt hat.pos), hs.inode hi, hdtype,
    hname, Option.map_some]

variable (h : Tables g s) (hd : d < g.ninodes) (hf : oiFtype s.data (inodeAddr d) = FTYPE_DIR)
include h hd hf

theorem Tables.namesOf_listed : namesOf s.data d name = some i ↔ Listed g s.data d name i := by
  rw [namesOf_iff h.ready h.table]
  simp only [hd, hf, true_and]

theorem Tables.lookup_iff : ospfsDirLookup s.data d name true = some (.ok (some i)) ↔
    Listed g s.data d name i := by
  have hs := h.ready.mounted.sound
  rw [← h.namesOf_listed hd hf]
  unfold ospfsDirLookup
  simp only [hs.inode hd]
  cases hfind : findDirentry s.data (inodeAddr d) name with
  | none =>
    rw [h.unbound hfind]
    split <;> simp
  | some od =>
    have hname : namesOf s.data d name = some (odIno s.data od) := by
      rw [hs.namesOf_eq hd hf, resolve, hfind, Option.map_some]
    obtain ⟨hlt, hknown⟩ := h.known d name _ hname
    have hlen := ((h.namesOf_listed hd hf).mp hname).1
    have hmade : ospfsMkLinuxInode s.data (odIno s.data od) true = some true := by
      unfold ospfsMkLinuxInode
      unfold Known entryType at hknown
      simp only [hs.inode hlt]
      split at hknown
      · next htype => simp [htype]
      · split at hknown
        · next htype => simp [htype]
        · split at hknown
          · next htype => simp [htype]
          · cases hknown
    simp only [if_neg (Nat.not_lt.mpr hlen), hmade, hname, Option.some.injEq, Except.ok.injEq]

/-- What is listed for an entry in use. -/
theorem Tables.liveEntry_some (hat : EntryAt g s.data d k name i) :
    ∃ e, liveEntry s.data (inodeAddr d) k = some e ∧ e.name = name ∧ e.ino = i := by
  have hlisted : Listed g s.data d name i := ⟨(h.table d hd hf).length_le hat, k, hat⟩
  obtain ⟨hlt, hknown⟩ := h.known d name i ((h.namesOf_listed hd hf).mpr hlisted)
  exact hat.liveEntry hlisted.1 h.ready.mounted.sound (h.ready.isDirectory hd hf) hlt hknown

/-- What is listed comes from an entry in use. -/
theorem Tables.entryAt_of_liveEntry {e : DirEntry} (hk : HasEntry s.data d k)
    (he : liveEntry s.data (inodeAddr d) k = some e) : EntryAt g s.data d k e.name e.ino := by
  have h0 : odIno s.data (direntAt g s.data d k) ≠ 0 := by
    intro h0
    unfold liveEntry at he
    simp only [(h.ready.isDirectory hd hf).direntAt_eq h.ready.mounted.sound hk, h0, if_true] at he
    cases he
  obtain ⟨name, _, hmatch⟩ := (h.table d hd hf).named k hk h0
  obtain ⟨e', he', hname, hino⟩ := h.liveEntry_some hd hf ⟨hk, hmatch, rfl⟩
  rw [he, Option.some.injEq] at he'
  subst he'
  rw [hname, hino]
  exact ⟨hk, hmatch, rfl⟩

theorem Tables.wellFormedDir : WellFormedDir s.data d (inodeAddr d) := by
  have hdir := h.ready.isDirectory hd hf
  have hsize := hdir.size_le
  unfold maxFileSize at hsize
  constructor
  · exact h.ready.mounted.sound.inode hd
  · omega
  · intro k hk h0
    have hhas := hasEntry_iff_lt.mpr hk
    rw [hdir.direntAt_eq h.ready.mounted.sound hhas] at h0
    obtain ⟨name, _, hmatch⟩ := (h.table d hd hf).named k hhas h0
    obtain ⟨e, he, _⟩ := h.liveEntry_some hd hf ⟨hhas, hmatch, rfl⟩
    rw [he]
    rfl

theorem Tables.listed_once : ((liveFrom s.data (inodeAddr d) 0).map (·.name)).Nodup := by
  unfold liveFrom
  rw [List.Nodup, List.pairwise_map, List.pairwise_filterMap, Nat.sub_zero, ← List.range_eq_range']
  refine List.nodup_range.imp_of_mem fun {k l} hk hl hne e he e' he' heq => hne ?_
  have hat := h.entryAt_of_liveEntry hd hf (hasEntry_iff_lt.mpr (List.mem_range.mp hk)) he
  have hat' := h.entryAt_of_liveEntry hd hf (hasEntry_iff_lt.mpr (List.mem_range.mp hl)) he'
  rw [← heq] at hat'
  exact (h.table d hd hf).unique k l e.name ((h.table d hd hf).length_le hat) hat.has hat'.has
    hat.spelled hat'.spelled

theorem Tables.listsNames : ListsNames s.data d := by
  refine ⟨liveFrom s.data (inodeAddr d) 0, h.listed_once hd hf, fun name i => ?_, fun parent room hroom => ?_⟩
  · rw [h.lookup_iff hd hf]
    constructor
    · rintro ⟨e, he, rfl, rfl⟩
      obtain ⟨k, hk, hlive⟩ := mem_liveFrom.mp he
      have hat := h.entryAt_of_liveEntry hd hf hk hlive
      exact ⟨(h.table d hd hf).length_le hat, k, hat⟩
    · rintro ⟨_, k, hat⟩
      obtain ⟨e, he, hname, hino⟩ := h.liveEntry_some hd hf hat
      exact ⟨e, mem_liveFrom.mpr ⟨k, hat.has, he⟩, hname, hino⟩
  · obtain ⟨r, hr, hends⟩ := ospfsDirReaddir_ends (h.wellFormedDir hd hf) parent room (Nat.zero_le _)
      (Nat.le_refl _)
    have hall : (remaining s.data d parent (inodeAddr d) 0).length =
        (liveFrom s.data (inodeAddr d) 0).length + 2 := rfl
    cases hends with
    | all _ hret hacc => exact ⟨_, r, hr, hret, hacc⟩
    | dots hless => omega
    | entry _ hless => omega

end Listings

/-! ## One call -/

section Calls

/-- Inode `i` is there, and has no links. -/
def NoLinks (m : Bytes) (i : Nat) : Prop := ∃ oi, ospfsInode m i = some oi ∧ oiNlink m oi = 0

theorem Callback.Proper.chars {c : Callback} (h : c.Proper m) (hc : c.creates = some (d, name)) :
    ∀ b, b ∈ name → b ≠ 0 := by
  cases c with
  | create | symlink =>
    obtain ⟨rfl, rfl⟩ := Prod.mk.inj (Option.some.inj hc)
    exact h
  | _ => cases hc

variable (h : Tables g s)
include h

theorem Tables.uniqueNames : UniqueNames s.data := by
  intro d oi hoi hf
  obtain ⟨hd, rfl⟩ := h.ready.mounted.sound.ospfsInode_iff.mp hoi
  exact h.listed_once hd hf

/-- There are no more names than entries. -/
theorem Tables.finite (d : Nat) : {name | namesOf s.data d name ≠ none}.Finite := by
  have hcover : {name | namesOf s.data d name ≠ none} ⊆
      ⋃ k ∈ {k | k < slotCount s.data (inodeAddr d)},
        {name | entryMatches s.data name (direntAt g s.data d k) = true} := by
    intro name hname
    obtain ⟨i, hi⟩ := Option.ne_none_iff_exists'.mp hname
    obtain ⟨-, -, -, k, hat⟩ := (namesOf_iff h.ready h.table).mp hi
    exact Set.mem_biUnion (hasEntry_iff_lt.mp hat.has) hat.spelled
  refine Set.Finite.subset (Set.Finite.biUnion (Set.finite_lt_nat _) fun k _ => ?_) hcover
  exact Set.Subsingleton.finite fun a ha b hb => entryMatches_unique hb ha

variable {s' : State} {c : Callback} {ret : Int}

/-- The inode that a new name leads to had no links. -/
theorem Tables.noLinks (h' : Tables g s') (hstep : ReturnStep s (c, some ret) s')
    (hc : c.creates = some (d, name)) (h0 : ret = 0) (hi : namesOf s'.data d name = some i) :
    NoLinks s.data i := by
  obtain ⟨⟨fuel, hout⟩, hallowed, -, hproper⟩ := hstep
  rcases Callback.creates_changes h.ready hallowed hc hout with ⟨_, hlong, _⟩ |
    ⟨_, hlen, ret', heq, hcreates⟩
  · exact absurd (h0.symm.trans (Option.some.inj hlong)) (by decide)
  obtain rfl := Option.some.inj heq
  cases hcreates with
  | bound | full => exact absurd h0 (by decide)
  | @entered k j _ _ hone hspells htwo hfree hcount =>
    have hat : EntryAt g s'.data d k name j :=
      ⟨(hone.has k).mpr (.inr rfl), hspells.matches (hproper.chars hc) (by omega), hspells.ino⟩
    have hnew := (h'.namesOf_listed hone.dir.exists_ino hone.dir.ftype).mpr ⟨hlen, k, hat⟩
    obtain rfl : j = i := Option.some.inj (hnew.symm.trans hi)
    exact ⟨inodeAddr j, h.ready.mounted.sound.inode hcount.exists_ino, hfree⟩

/-- A new name leads to an inode that has no links and that no name led to. -/
theorem Tables.entersName (hstep : ReturnStep s (c, some ret) s') (hc : c.creates = some (d, name))
    (hmemory : c.findsMemory = true) :
    EntersName (fun i => NoLinks s.data i ∧ ∀ e other, namesOf s.data e other ≠ some i)
      (namesOf s.data) c d name ret (namesOf s'.data) := by
  obtain ⟨h', hnames⟩ := h.step hstep
  have hbase := hnames.entersName hc hmemory
  refine ⟨hbase.long, hbase.bound, fun h0 => ?_, hbase.failed⟩
  obtain ⟨i, hfresh, heq⟩ := hbase.entered h0
  have hi : namesOf s'.data d name = some i := by
    rw [heq]
    exact if_pos ⟨rfl, rfl⟩
  exact ⟨i, ⟨h.noLinks h' hstep hc h0 hi, hfresh⟩, heq⟩

end Calls

/-! ## The volume at the start -/

section Start

/-- An entry in use has a name if a NUL comes in time. -/
theorem entryMatches_exists {n : Nat} (hino : 0 < odIno m od) (hn : n ≤ 123) (hnul : m (od + 4 + n) = 0) :
    ∃ name, name.length ≤ 123 ∧ entryMatches m name od = true := by
  have hex : ∃ n, m (od + 4 + n) = 0 := ⟨n, hnul⟩
  have hlen : (load m (od + 4) (Nat.find hex)).length = Nat.find hex := load_length ..
  refine ⟨load m (od + 4) (Nat.find hex), ?_, entryMatches_iff.mpr ?_⟩
  · rw [hlen]
    exact (Nat.find_min' hex hnul).trans hn
  · rw [hlen]
    exact ⟨hino, fun k hk => Nat.find_min hex hk, Nat.find_spec hex, rfl⟩

namespace Format

theorem Image.dir (h : Image g A m) (hd : d < g.ninodes) (hf : oiFtype m (inodeAddr d) = FTYPE_DIR) :
    ∃ es, A[d]? = some (.dir es) :=
  h.dir_of_ftype hd hf (h.ready.linked d hd hf)

section Unique

variable (h : Image g A m) (hd : A[d]? = some (.dir es))
include h hd

/-- What is known of an entry in use. -/
theorem Image.entry_known (hk : HasEntry m d k) (h0 : odIno m (direntAt g m d k) ≠ 0) :
    ∃ e, es[k]? = some e ∧ odIno m (direntAt g m d k) = e.2 ∧ e.2 < g.ninodes ∧ Known m e.2 := by
  obtain ⟨_, _, hent⟩ := h.node d _ hd
  have hroom := (h.hasEntry_iff hd).mp hk
  cases he : es[k]? with
  | none => exact absurd (hent.odIno_none hroom he) h0
  | some e =>
    obtain ⟨_, hlt, hword, _⟩ := h.ino_lt hd he
    refine ⟨e, rfl, hent.odIno_some hroom he hword, hlt, ?_⟩
    unfold Known
    rw [h.entryType hd he]
    rfl

/-- An entry with a name is shown under it. -/
theorem Image.liveEntry_some (hk : HasEntry m d k) (hlen : name.length ≤ 123)
    (hmatch : entryMatches m name (direntAt g m d k) = true) :
    ∃ e, liveEntry m (inodeAddr d) k = some e ∧ e.name = name := by
  obtain ⟨e, _, hino, hlt, hknown⟩ :=
    h.entry_known hd hk (Nat.ne_of_gt (entryMatches_iff.mp hmatch).1)
  obtain ⟨e', he', hname, _⟩ :=
    EntryAt.liveEntry ⟨hk, hmatch, hino⟩ hlen h.sound (h.isDirectory hd) hlt hknown
  exact ⟨e', he', hname⟩

/-- A later entry has another name. -/
theorem Image.entries_apart {l : Nat} (hu : UniqueNames m) (hlen : name.length ≤ 123)
    (hl : HasEntry m d l) (hkl : k < l) (hmatch : entryMatches m name (direntAt g m d k) = true) :
    entryMatches m name (direntAt g m d l) = false := by
  have hnodup := hu d _ (h.sound.inode (h.lt_ninodes hd)) (h.isDirectory hd).ftype
  unfold liveFrom at hnodup
  rw [List.Nodup, List.pairwise_map, List.pairwise_filterMap, Nat.sub_zero, ← List.range_eq_range',
    List.pairwise_iff_getElem] at hnodup
  rw [Bool.eq_false_iff]
  intro hmatch'
  have hk : HasEntry m d k := by
    unfold HasEntry at hl ⊢
    omega
  obtain ⟨e, he, hname⟩ := h.liveEntry_some hd hk hlen hmatch
  obtain ⟨e', he', hname'⟩ := h.liveEntry_some hd hl hlen hmatch'
  have hlslot := hasEntry_iff_lt.mp hl
  have hne := hnodup k l (by rw [List.length_range]; omega) (by rwa [List.length_range]) hkl
  rw [List.getElem_range, List.getElem_range] at hne
  exact hne e he e' he' (hname.trans hname'.symm)

theorem Image.table (hu : UniqueNames m) : Table g m d := by
  constructor
  · intro k hk h0
    obtain ⟨e, he, hino, _⟩ := h.entry_known hd hk h0
    obtain ⟨_, _, hent⟩ := h.node d _ hd
    obtain ⟨_, _, _, hlen⟩ := h.ino_lt hd he
    exact entryMatches_exists (Nat.pos_of_ne_zero h0) hlen
      (hent.name_nul ((h.hasEntry_iff hd).mp hk) he hlen)
  · intro k l name hlen hk hl hmatch hmatch'
    rcases Nat.lt_trichotomy k l with hkl | hkl | hlk
    · rw [h.entries_apart hd hu hlen hl hkl hmatch] at hmatch'
      cases hmatch'
    · exact hkl
    · rw [h.entries_apart hd hu hlen hk hlk hmatch'] at hmatch
      cases hmatch

end Unique

/-- The names on an image form a map if no directory has a name twice. -/
theorem Image.tables (h : Image g A m) (hu : UniqueNames m) : Tables g ⟨m, -1⟩ := by
  refine ⟨h.ready, h.counted, fun d hd hf => ?_, fun d name i hname => ?_⟩
  · obtain ⟨es, hes⟩ := h.dir hd hf
    exact h.table hes hu
  · obtain ⟨hd, hf⟩ := h.sound.namesOf_some hname
    obtain ⟨es, hes⟩ := h.dir hd hf
    have hdir := h.isDirectory hes
    dsimp only at hname ⊢
    rw [h.sound.namesOf_eq hd hf, (h.table hes hu).resolve_iff h.sound hdir] at hname
    obtain ⟨_, k, hat⟩ := hname
    obtain ⟨e, _, hino, hlt, hknown⟩ := h.entry_known hes hat.has (by rw [hat.ino]; exact Nat.ne_of_gt hat.pos)
    rw [hat.ino] at hino
    rw [hino]
    exact ⟨hlt, hknown⟩

/-- No listing of the image shows a name twice if no directory of the host has a name twice. -/
theorem Image.uniqueNames (h : Image g A m) (hA : A.Distinct) : UniqueNames m := by
  intro d oi hoi hf
  obtain ⟨hd, rfl⟩ := h.sound.ospfsInode_iff.mp hoi
  obtain ⟨es, hes⟩ := h.dir hd hf
  obtain ⟨hnodup, hchars⟩ := hA d es hes
  have hlisting := congrArg (List.map Prod.fst) (h.listing hes hchars)
  rw [List.map_map, List.map_map] at hlisting
  exact (show ((liveFrom m (inodeAddr d) 0).map (·.name)) = es.map (·.1) from hlisting) ▸ hnodup

variable {md5 : List UInt8 → List UInt8} {args : Arguments} {f : Format}

theorem main_uniqueNames (hfiles : args.files = .tree host) (hc : args.linkContents = false)
    (hl : args.links = []) (hu : host.Unlinked) (hs : host.Strings) (hd : host.Distinct)
    (hr : main md5 args = some f) : UniqueNames f.data := by
  obtain ⟨g, A, es, himage, rfl, _, _⟩ := main_entered hfiles hc hl hu hr
  have hstart : Nodes.Distinct [.file [], .dir []] := by
    intro d es hes
    match d with
    | 0 => cases hes
    | 1 =>
      cases hes
      exact ⟨List.nodup_nil, nofun⟩
    | d + 2 => cases hes
  exact himage.uniqueNames (hstart.install (d := 1) rfl hd hs fun _ _ => List.not_mem_nil)

theorem main_tables (hr : main md5 args = some f) (hu : UniqueNames f.data) :
    ∃ g, Tables g ⟨f.data, -1⟩ := by
  obtain ⟨g, A, _, _, himage⟩ := main_image hr
  exact ⟨g, himage.tables hu⟩

end Format

end Start

section Mounted

variable {md5 : List UInt8 → List UInt8} {args : Arguments} {f : Format}

/-- In every run on a formatted image, what the callbacks do to the names is what they do to a map. -/
theorem names_are_a_map (hr : main md5 args = some f) (hu : UniqueNames f.data)
    (hrun : Run ReturnStep ⟨f.data, -1⟩ cs s) : Run NamesStep (namesOf f.data) cs (namesOf s.data) := by
  obtain ⟨g, h⟩ := main_tables hr hu
  exact (h.run hrun).2

/-- In every state of such a run `find_direntry` is a finite map in every directory, no directory has a name
twice, and the next call to enter or remove a name does to the map what it returns. -/
theorem directories_are_maps (hr : main md5 args = some f) (hu : UniqueNames f.data)
    (hrun : Run ReturnStep ⟨f.data, -1⟩ cs s) :
    UniqueNames s.data ∧ (∀ d, {name | namesOf s.data d name ≠ none}.Finite) ∧
      (∀ (c : Callback) (d : Nat) (name : Name) (ret : Int) (s' : State), c.creates = some (d, name) →
        c.findsMemory = true → ReturnStep s (c, some ret) s' →
          EntersName (fun i => NoLinks s.data i ∧ ∀ e other, namesOf s.data e other ≠ some i)
            (namesOf s.data) c d name ret (namesOf s'.data)) ∧
      ∀ (d ino : Nat) (name : Name) (ret : Int) (s' : State),
        ReturnStep s (.unlink d ino name, some ret) s' →
          RemovesName (namesOf s.data) d name ret (namesOf s'.data) := by
  obtain ⟨g, h⟩ := main_tables hr hu
  obtain ⟨ht, _⟩ := h.run hrun
  refine ⟨ht.uniqueNames, ht.finite, fun c d name ret s' hc hmemory hstep => ?_,
    fun d ino name ret s' hstep => ?_⟩
  · exact ht.entersName hstep hc hmemory
  · exact (ht.step hstep).2.removesName

theorem large_unique {f : Format} (hf : main (fun _ => []) largeArguments = some f) :
    UniqueNames f.data := by
  have hu : smallHost.Unlinked := ⟨rfl, trivial, trivial⟩
  have hs : smallHost.Strings := ⟨by simp, by simp, trivial, trivial⟩
  have hd : smallHost.Distinct := ⟨by decide, by decide, trivial, trivial⟩
  exact main_uniqueNames rfl rfl rfl hu hs hd hf

/-- What the calls on the large volume return. -/
def largeReturned : List Returned := largeCalls.zip [some 0, none, some 0, some 0, some 0]

/-- `Callback.Proper` where the file that gets a name is `other` in directory `e`. -/
def Callback.ProperAs (m : Bytes) (e : Nat) (other : Name) : Callback → Prop
  | .create _ name _ _ | .symlink _ name _ _ => ∀ c, c ∈ name → c ≠ 0
  | .link src dir name => (∀ c, c ∈ name → c ≠ 0) ∧ namesOf m e other = some src ∧
      ∀ od, od ∈ firstBlank m (inodeAddr dir) → m (od + 4 + name.length) = 0
  | _ => True

instance (m : Bytes) (e : Nat) (other : Name) : ∀ c : Callback, Decidable (c.ProperAs m e other)
  | .create _ name _ _ | .symlink _ name _ _ => inferInstanceAs (Decidable (∀ c, c ∈ name → c ≠ 0))
  | .link src dir name => inferInstanceAs (Decidable ((∀ c, c ∈ name → c ≠ 0) ∧
      namesOf m e other = some src ∧
      ∀ od, od ∈ firstBlank m (inodeAddr dir) → m (od + 4 + name.length) = 0))
  | .unlink _ _ _ | .write _ _ _ _ _ | .read _ _ _ _ | .notifyChange _ _ | .lookup _ _ _
  | .readdir _ _ _ _ | .followLink _ _ => inferInstanceAs (Decidable True)

theorem Callback.ProperAs.proper {m : Bytes} {e : Nat} {other : Name} {c : Callback}
    (h : c.ProperAs m e other) : c.Proper m := by
  cases c with
  | link => exact ⟨h.1, ⟨e, other, h.2.1⟩, h.2.2⟩
  | create | symlink => exact h
  | unlink | write | read | notifyChange | lookup | readdir | followLink => trivial

/-- The state after a call that returns this value. -/
def Returned.next (s : State) (c : Returned) : Option State :=
  (c.1.outcome 3 s).bind fun r => if r.2 = c.2 then some r.1 else none

/-- The call may be made, and the file that it links is `a` in the root directory. -/
def Returned.Fits (s : State) (c : Returned) : Prop :=
  c.1.Allowed s.data ∧ c.1.OnDentry s.data ∧ c.1.ProperAs s.data 1 [97]

instance (s : State) (c : Returned) : Decidable (c.Fits s) :=
  inferInstanceAs (Decidable (c.1.Allowed s.data ∧ c.1.OnDentry s.data ∧ c.1.ProperAs s.data 1 [97]))

theorem Returned.returnStep {s t : State} {c : Returned} (hcall : c.next s = some t) (hfits : c.Fits s) :
    ReturnStep s c t := by
  obtain ⟨hallowed, hdentry, hproper⟩ := hfits
  obtain ⟨⟨t', ret⟩, hout, hsame⟩ := Option.bind_eq_some_iff.mp hcall
  dsimp only at hsame
  split at hsame
  · next hret =>
    cases hsame
    exact ⟨⟨3, hret ▸ hout⟩, hallowed, hdentry, hproper.proper⟩
  · cases hsame

theorem large_returns : ∃ s, Run ReturnStep ⟨largeDisk, -1⟩ largeReturned s ∧
    oiFtype s.data (inodeAddr 1) = FTYPE_DIR ∧ ospfsInode s.data 1 = some (inodeAddr 1) := by
  obtain ⟨s, hrun, hend⟩ := Run.of_guarded (fun s c => Returned.next s c) (fun s c => Returned.Fits s c)
    (fun s => oiFtype s.data (inodeAddr 1) = FTYPE_DIR ∧ ospfsInode s.data 1 = some (inodeAddr 1))
    ⟨largeDisk, -1⟩ largeReturned (by decide +kernel)
  exact ⟨s, hrun.mono fun hstep => Returned.returnStep hstep.1 hstep.2, hend⟩

/-- The length of the target is looked at before the name. -/
theorem long_target_of_bound_name : ∃ f s', main (fun _ => []) largeArguments = some f ∧ UniqueNames f.data ∧
    ReturnStep ⟨f.data, -1⟩ (.symlink 1 [97] (List.replicate 52 98) true, some (-ENAMETOOLONG)) s' ∧
    namesOf f.data 1 [97] = some 2 ∧ (-ENAMETOOLONG : Int) ≠ -EEXIST := by
  obtain ⟨f, hf, hdata⟩ := main_large
  obtain ⟨s', hcall, hfits, hname⟩ : ∃ s' : State,
      Returned.next ⟨largeDisk, -1⟩ (.symlink 1 [97] (List.replicate 52 98) true, some (-ENAMETOOLONG)) = some s' ∧
        Returned.Fits ⟨largeDisk, -1⟩ (.symlink 1 [97] (List.replicate 52 98) true, some (-ENAMETOOLONG)) ∧
        namesOf largeDisk 1 [97] = some 2 :=
    ⟨_, rfl, by decide +kernel, by decide +kernel⟩
  rw [← hdata] at hcall hfits hname
  exact ⟨f, s', hf, large_unique hf, Returned.returnStep hcall hfits, hname, by decide⟩

/-- The file "c" is removed, and then "e" entered. -/
theorem directories_are_maps_large : ∃ f s removed entered,
    main (fun _ => []) largeArguments = some f ∧ Run ReturnStep ⟨f.data, -1⟩ (largeReturned.take 3) s ∧
    ReturnStep s (.unlink 1 4 [99], some 0) removed ∧
    ReturnStep removed (.symlink 1 [101] [97] true, some 0) entered ∧ UniqueNames s.data ∧
    RemovesName (namesOf s.data) 1 [99] 0 (namesOf removed.data) ∧
    EntersName (fun i => NoLinks removed.data i ∧ ∀ e other, namesOf removed.data e other ≠ some i)
      (namesOf removed.data) (.symlink 1 [101] [97] true) 1 [101] 0 (namesOf entered.data) := by
  obtain ⟨f, hf, hdata⟩ := main_large
  obtain ⟨entered, hrun, -⟩ := large_returns
  rw [← hdata] at hrun
  obtain ⟨removed, hrun', hentered⟩ := Run.last (largeReturned.take 4) hrun
  obtain ⟨s, hrun, hremoved⟩ := Run.last (largeReturned.take 3) hrun'
  obtain ⟨hunique, -, -, hunlinks⟩ := directories_are_maps hf (large_unique hf) hrun
  obtain ⟨-, -, hcreates, -⟩ := directories_are_maps hf (large_unique hf) hrun'
  exact ⟨f, s, removed, entered, hf, hrun, hremoved, hentered, hunique, hunlinks 1 4 [99] 0 removed hremoved,
    hcreates _ 1 [101] 0 entered rfl rfl hentered⟩

theorem names_are_a_map_large : ∃ f s, main (fun _ => []) largeArguments = some f ∧
    Run ReturnStep ⟨f.data, -1⟩ largeReturned s ∧
    Run NamesStep (namesOf f.data) largeReturned (namesOf s.data) := by
  obtain ⟨f, hf, hdata⟩ := main_large
  obtain ⟨s, hrun, -⟩ := large_returns
  rw [← hdata] at hrun
  exact ⟨f, s, hf, hrun, names_are_a_map hf (large_unique hf) hrun⟩

/-- In every state of such a run, listings and lookups agree in every directory. -/
theorem listings_agree (hr : main md5 args = some f) (hu : UniqueNames f.data)
    (hrun : Run ReturnStep ⟨f.data, -1⟩ cs s) (d oi : Nat) (hoi : ospfsInode s.data d = some oi)
    (hf : oiFtype s.data oi = FTYPE_DIR) : ListsNames s.data d := by
  obtain ⟨g, h⟩ := main_tables hr hu
  obtain ⟨ht, _⟩ := h.run hrun
  obtain ⟨hlt, rfl⟩ := ht.ready.mounted.sound.ospfsInode_iff.mp hoi
  exact ht.listsNames hlt hf

theorem listings_agree_large : ∃ f s oi, main (fun _ => []) largeArguments = some f ∧
    Run ReturnStep ⟨f.data, -1⟩ largeReturned s ∧ ospfsInode s.data 1 = some oi ∧
    ListsNames s.data 1 := by
  obtain ⟨f, hf, hdata⟩ := main_large
  obtain ⟨s, hrun, hdir, hoi⟩ := large_returns
  rw [← hdata] at hrun
  exact ⟨f, s, _, hf, hrun, hoi, listings_agree hf (large_unique hf) hrun 1 _ hoi hdir⟩

end Mounted

end CS111.Ospfs
