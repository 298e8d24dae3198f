import CS111.Ospfs.LinkCounts
import CS111.Ospfs.NewSymlinks
import CS111.Ospfs.Readdir
import CS111.Ospfs.RoundTrip

/-!
# The host tree on the mounted volume

What the module shows of an image that `ospfsformat -r` has written: every path leads to what the host
has there, and nothing else is found.
-/

namespace CS111.Ospfs

open Memory Format

set_option autoImplicit false

/-- What a host directory has under a name. -/
inductive HostNode where
  | file (content : List UInt8)
  | dir (sub : Host)
  | symlink (target : Name)

namespace Host

/-- The first entry with a name, of those that are copied. -/
def entry (name : Name) : Host → Option HostNode
  | .nil => none
  | .file name' _ _ content rest => if name' = name then some (.file content) else rest.entry name
  | .dir name' _ sub rest =>
    if name' ∈ skippedNames then rest.entry name
    else if name' = name then some (.dir sub) else rest.entry name
  | .symlink name' _ target rest =>
    if target.length > 51 then rest.entry name
    else if name' = name then some (.symlink target) else rest.entry name
  | .other _ rest => rest.entry name

/-- What is found along a path, without following links. -/
def find : List Name → Host → Option HostNode
  | [], host => some (.dir host)
  | name :: path, host =>
    match host.entry name with
    | some (.dir sub) => find path sub
    | some x => if path = [] then some x else none
    | none => none

/-- The names and types of the entries that are copied, in order. -/
def listing : Host → List (Name × DType)
  | .nil => []
  | .file name _ _ _ rest => (name, .reg) :: rest.listing
  | .dir name _ _ rest =>
    if name ∈ skippedNames then rest.listing else (name, .dir) :: rest.listing
  | .symlink name _ target rest =>
    if target.length > 51 then rest.listing else (name, .lnk) :: rest.listing
  | .other _ rest => rest.listing

/-- Names and targets are strings. -/
def Strings : Host → Prop
  | .nil => True
  | .file name _ _ _ rest => (∀ c, c ∈ name → c ≠ 0) ∧ rest.Strings
  | .dir name _ sub rest => (∀ c, c ∈ name → c ≠ 0) ∧ sub.Strings ∧ rest.Strings
  | .symlink name _ target rest =>
    (∀ c, c ∈ name → c ≠ 0) ∧ (∀ c, c ∈ target → c ≠ 0) ∧ rest.Strings
  | .other _ rest => rest.Strings

theorem Strings.name {host : Host} {name : Name} {x : HostNode} (hs : host.Strings)
    (hx : host.entry name = some x) : ∀ c, c ∈ name → c ≠ 0 := by
  induction host with
  | nil => cases hx
  | file name' hostIno mode content rest ih =>
    rw [Host.entry] at hx
    split at hx
    · next heq => exact heq ▸ hs.1
    · exact ih hs.2 hx
  | dir name' mode sub rest _ ih =>
    rw [Host.entry] at hx
    split at hx
    · exact ih hs.2.2 hx
    · split at hx
      · next heq => exact heq ▸ hs.1
      · exact ih hs.2.2 hx
  | symlink name' hostIno target rest ih =>
    rw [Host.entry] at hx
    split at hx
    · exact ih hs.2.2 hx
    · split at hx
      · next heq => exact heq ▸ hs.1
      · exact ih hs.2.2 hx
  | other name' rest ih => exact ih hs hx

end Host

section Walk

/-- The inode that the kernel finds along a path, with one `ospfs_lookup` for each name. -/
def walk (m : Bytes) : Nat → List Name → Option Nat
  | ino, [] => some ino
  | ino, name :: path =>
    match ospfsInode m ino with
    | none => none
    | some oi =>
      if oiFtype m oi = FTYPE_DIR then
        match ospfsDirLookup m ino name true with
        | some (.ok (some next)) => walk m next path
        | _ => none
      else none

/-- What the callbacks show of an inode. -/
def Shows (m : Bytes) (i : Nat) : HostNode → Prop
  | .file content =>
    (∃ oi, ospfsInode m i = some oi ∧ oiFtype m oi = FTYPE_REG ∧ oiSize m oi = content.length) ∧
      ∀ counts, readCalls m i 0 counts =
        some (min counts.sum content.length, content.take counts.sum)
  | .dir sub => (∃ oi, ospfsInode m i = some oi ∧ oiFtype m oi = FTYPE_DIR) ∧
      ∀ parent room, sub.listing.length + 2 ≤ room →
        ∃ fuel r, ospfsDirReaddir fuel m i parent 0 (fun accepted _ => accepted.length < room) = some r ∧
          r.ret = 1 ∧ r.accepted.map (fun e => (e.name, e.dtype)) =
            ([46], .dir) :: ([46, 46], .dir) :: sub.listing
  | .symlink target => (∃ oi, ospfsInode m i = some oi ∧ oiFtype m oi = FTYPE_SYMLINK) ∧
      (target.take 5 ≠ rootPrefix → ∀ n uid, ∃ addr,
        ospfsFollowLink ⟨m, n⟩ i uid = some (⟨m, n⟩, addr) ∧ linkText ⟨m, n⟩ addr = target)

end Walk

variable {g : Geometry} {m : Bytes} {A : Nodes} {d i k n : Nat} {es : List (Name × Nat)}
variable {e : Name × Nat} {name : Name} {host : Host}

/-! ## The tree of inodes -/

namespace Nodes

/-- Inode `i` is a copy of what the host has. -/
def Copied (A : Nodes) (i : Nat) : HostNode → Prop
  | .file content => A[i]? = some (.file content)
  | .dir sub => ∃ es, A[i]? = some (.dir es) ∧ A.Entered es sub ∧ sub.Strings
  | .symlink target => A[i]? = some (.symlink target) ∧ ∀ c, c ∈ target → c ≠ 0

/-- The type that `ospfs_dir_readdir` shows. -/
def dtypeAt (A : Nodes) (i : Nat) : DType :=
  match A[i]? with
  | some (.dir _) => .dir
  | some (.symlink _) => .lnk
  | _ => .reg

theorem Entered.listing (h : A.Entered es host) :
    es.map (fun e => (e.1, A.dtypeAt e.2)) = host.listing := by
  induction host generalizing es with
  | nil =>
    obtain rfl : es = [] := h
    rfl
  | file name hostIno mode content rest ih =>
    obtain ⟨i, es', rfl, hi, hrest⟩ := h
    rw [List.map_cons, ih hrest, dtypeAt, hi]
    rfl
  | dir name mode sub rest _ ih =>
    rw [Entered] at h
    rw [Host.listing]
    split at h
    · next hskip =>
      rw [if_pos hskip]
      exact ih h
    · next hskip =>
      obtain ⟨i, es₁, es', rfl, hi, _, hrest⟩ := h
      rw [if_neg hskip, List.map_cons, ih hrest, dtypeAt, hi]
  | symlink name hostIno target rest ih =>
    rw [Entered] at h
    rw [Host.listing]
    split at h
    · next hlong =>
      rw [if_pos hlong]
      exact ih h
    · next hlong =>
      obtain ⟨i, es', rfl, hi, hrest⟩ := h
      rw [if_neg hlong, List.map_cons, ih hrest, dtypeAt, hi]
  | other name rest ih => exact ih h

/-- One more entry, for a name that may be the one that is looked for. -/
theorem Copied.entry_cons {name name' : Name} {i : Nat} {x : HostNode} {found : Option HostNode}
    (hcopied : A.Copied i x)
    (hrest : (found = none ∧ es.find? (·.1 = name) = none) ∨
      ∃ x i, found = some x ∧ es.find? (·.1 = name) = some (name, i) ∧ A.Copied i x) :
    ((if name' = name then some x else found) = none ∧
        ((name', i) :: es).find? (·.1 = name) = none) ∨
      ∃ x' i', (if name' = name then some x else found) = some x' ∧
        ((name', i) :: es).find? (·.1 = name) = some (name, i') ∧ A.Copied i' x' := by
  by_cases hname : name' = name
  · subst hname
    rw [if_pos rfl, List.find?_cons_of_pos (by simp)]
    exact .inr ⟨x, i, rfl, rfl, hcopied⟩
  · rw [if_neg hname, List.find?_cons_of_neg (by simpa using hname)]
    exact hrest

/-- A name leads to a copy of what the host has under it. -/
theorem Entered.entry (h : A.Entered es host) (hs : host.Strings) (name : Name) :
    (host.entry name = none ∧ es.find? (·.1 = name) = none) ∨
      ∃ x i, host.entry name = some x ∧ es.find? (·.1 = name) = some (name, i) ∧ A.Copied i x := by
  induction host generalizing es with
  | nil =>
    obtain rfl : es = [] := h
    exact .inl ⟨rfl, rfl⟩
  | file name' hostIno mode content rest ih =>
    obtain ⟨i, es', rfl, hi, hrest⟩ := h
    exact Copied.entry_cons (x := .file content) hi (ih hrest hs.2)
  | dir name' mode sub rest _ ih =>
    rw [Entered] at h
    rw [Host.entry]
    split at h
    · next hskip =>
      rw [if_pos hskip]
      exact ih h hs.2.2
    · next hskip =>
      obtain ⟨i, es₁, es', rfl, hi, hsub, hrest⟩ := h
      rw [if_neg hskip]
      exact Copied.entry_cons (x := .dir sub) ⟨es₁, hi, hsub, hs.2.1⟩ (ih hrest hs.2.2)
  | symlink name' hostIno target rest ih =>
    rw [Entered] at h
    rw [Host.entry]
    split at h
    · next hlong =>
      rw [if_pos hlong]
      exact ih h hs.2.2
    · next hlong =>
      obtain ⟨i, es', rfl, hi, hrest⟩ := h
      rw [if_neg hlong]
      exact Copied.entry_cons (x := .symlink target) ⟨hi, hs.2.1⟩ (ih hrest hs.2.2)
  | other name' rest ih => exact ih h hs

theorem Entered.strings (h : A.Entered es host) (hs : host.Strings) :
    ∀ e, e ∈ es → ∀ c, c ∈ e.1 → c ≠ 0 := by
  intro e he
  rcases h.entry hs e.1 with ⟨_, hnone⟩ | ⟨x, i, hx, _, _⟩
  · have hne := List.find?_eq_none.mp hnone e he
    simp at hne
  · exact hs.name hx

end Nodes

/-! ## The entries on the disk -/

section Entries

variable (hent : HasEntries g m d n es) (hk : k < 8 * n) (he : es[k]? = some e)
include hent hk he

theorem HasEntries.name_byte {j : Nat} (hj : j < 124) :
    m (direntAt g m d k + 4 + j) = (e.1[j]?).getD 0 := by
  have hlen : (wordBytes e.2).length = 4 := rfl
  rw [Nat.add_assoc, hent.byte hk (by omega), he, entryByte_some,
    List.getElem?_append_right (by omega), hlen, Nat.add_sub_cancel_left]

variable (hlen : e.1.length ≤ 123)
include hlen

theorem HasEntries.name_load : load m (direntAt g m d k + 4) e.1.length = e.1 := by
  apply List.ext_getElem (load_length ..)
  intro j h1 h2
  simp only [load, List.getElem_map, List.getElem_range]
  rw [hent.name_byte hk he (by omega), List.getElem?_eq_getElem h2]
  rfl

theorem HasEntries.name_nul : m (direntAt g m d k + 4 + e.1.length) = 0 := by
  rw [hent.name_byte hk he (by omega), List.getElem?_eq_none (Nat.le_refl _)]
  rfl

/-- An entry has its own name and no other. -/
theorem HasEntries.matches (hpos : 0 < e.2) (hlt : e.2 < 4294967296) (hchars : ∀ c, c ∈ e.1 → c ≠ 0) :
    entryMatches m name (direntAt g m d k) = decide (e.1 = name) := by
  have hload := hent.name_load hk he hlen
  have hnul := hent.name_nul hk he hlen
  have hino := hent.odIno_some hk he hlt
  by_cases hname : e.1 = name
  · subst hname
    rw [decide_eq_true rfl, entryMatches_written_iff hload hchars (by omega)]
    exact hnul
  · rw [decide_eq_false hname]
    exact entryMatches_other hload hchars hnul (Ne.symm hname)

end Entries

namespace Format

section Resolve

variable (h : Image g A m) (hd : A[d]? = some (.dir es)) (hchars : ∀ e, e ∈ es → ∀ c, c ∈ e.1 → c ≠ 0)
include h hd

theorem Image.lt_ninodes : d < g.ninodes := by
  have hlt := Nodes.lt_of_getElem? hd
  have hlen := h.length_le
  omega

theorem Image.isDirectory : IsDirectory g m d :=
  h.ready.isDirectory (h.lt_ninodes hd) (h.node d _ hd).1

/-- The entries fill the directory's blocks from the front. -/
theorem Image.hasEntry_iff : HasEntry m d k ↔ k < 8 * ((es.length + 7) / 8) := by
  unfold HasEntry
  rw [(h.node d _ hd).2.1]
  omega

/-- What is known of an entry. -/
theorem Image.ino_lt (he : es[k]? = some e) :
    2 ≤ e.2 ∧ e.2 < g.ninodes ∧ e.2 < 4294967296 ∧ e.1.length ≤ 123 := by
  have hmem := List.mem_of_getElem? he
  have hino := h.wellFormed.mem_entries hd hmem
  have hname := h.wellFormed.name _ (List.mem_of_getElem? hd) e hmem
  have hlen := h.length_le
  have hroom := g.room
  have hn := g.nblocks_le
  omega

include hchars

theorem Image.matches_iff (hk : k < 8 * ((es.length + 7) / 8)) :
    entryMatches m name (direntAt g m d k) = true ↔ ∃ e, es[k]? = some e ∧ e.1 = name := by
  obtain ⟨_, _, hent⟩ := h.node d _ hd
  cases he : es[k]? with
  | none =>
    rw [entryMatches_blank (hent.odIno_none hk he)]
    simp
  | some e =>
    obtain ⟨h2, _, hlt, hlen⟩ := h.ino_lt hd he
    rw [hent.matches hk he hlen (by omega) hlt (hchars e (List.mem_of_getElem? he))]
    simp

/-- A name leads to the first entry that was written with it. -/
theorem Image.resolve : resolve m (inodeAddr d) name = (es.find? (·.1 = name)).map (·.2) := by
  have hdir := h.isDirectory hd
  obtain ⟨_, _, hent⟩ := h.node d _ hd
  rw [resolve_eq h.sound hdir]
  cases hfind : es.find? (·.1 = name) with
  | none =>
    have hnone : entryNamed g m d name = none := by
      rw [entryNamed_none hdir.aligned]
      intro k hk
      rw [Bool.eq_false_iff, ne_eq, h.matches_iff hd hchars ((h.hasEntry_iff hd).mp hk)]
      rintro ⟨e, he, heq⟩
      exact absurd heq (by simpa using List.find?_eq_none.mp hfind e (List.mem_of_getElem? he))
    rw [hnone]
    rfl
  | some e =>
    obtain ⟨heq, k, hk, hget, hbefore⟩ := List.find?_eq_some_iff_getElem.mp hfind
    have he : es[k]? = some e := by rw [List.getElem?_eq_getElem hk, hget]
    have hroom : k < 8 * ((es.length + 7) / 8) := by omega
    obtain ⟨_, _, hlt, _⟩ := h.ino_lt hd he
    have hsome : entryNamed g m d name = some k := by
      rw [entryNamed_some hdir.aligned]
      refine ⟨(h.hasEntry_iff hd).mpr hroom, ?_, fun l hl => ?_⟩
      · exact (h.matches_iff hd hchars hroom).mpr ⟨e, he, by simpa using heq⟩
      · rw [Bool.eq_false_iff, ne_eq, h.matches_iff hd hchars (by omega)]
        rintro ⟨e', he', heq'⟩
        have hne := hbefore l hl
        rw [List.getElem?_eq_getElem (by omega), Option.some.injEq] at he'
        rw [he'] at hne
        simp [heq'] at hne
    rw [hsome]
    simp only [Option.map_some, hent.odIno_some hroom he hlt]

/-- What `ospfs_lookup` attaches to the dentry. -/
theorem Image.lookup_iff : ospfsDirLookup m d name true = some (.ok (some i)) ↔
    es.find? (·.1 = name) = some (name, i) := by
  have hresolve : Ospfs.resolve m (inodeAddr d) name = (es.find? (·.1 = name)).map (·.2) :=
    h.resolve hd hchars
  have hlt := h.lt_ninodes hd
  unfold Ospfs.resolve at hresolve
  unfold ospfsDirLookup
  rw [h.sound.inode hlt]
  cases hfind : es.find? (·.1 = name) with
  | none =>
    rw [hfind, Option.map_none, Option.map_eq_none_iff] at hresolve
    simp only [hresolve]
    split <;> simp
  | some e =>
    have hmem := List.mem_of_find?_eq_some hfind
    have hname : e.1 = name := by simpa using List.find?_some hfind
    obtain ⟨k, hk⟩ := List.mem_iff_getElem?.mp hmem
    obtain ⟨h2, hino, _, hlen⟩ := h.ino_lt hd hk
    rw [hfind, Option.map_some, Option.map_eq_some_iff] at hresolve
    obtain ⟨od, hod, hodIno⟩ := hresolve
    have hmade : ospfsMkLinuxInode m e.2 true = some true := by
      have hAlt := (h.wellFormed.mem_entries hd hmem).2
      have hnode := h.node e.2 _ (List.getElem?_eq_getElem hAlt)
      unfold ospfsMkLinuxInode
      rw [h.sound.inode hino]
      cases hA : A[e.2] <;> rw [hA] at hnode <;> simp [hnode.1]
    rw [hname] at hlen
    simp only [if_neg (Nat.not_lt.mpr hlen), hod, hodIno, hmade, Option.some.injEq, Except.ok.injEq]
    rw [← hname]
    constructor
    · rintro rfl
      rfl
    · intro heq
      exact congrArg Prod.snd heq

end Resolve

section Listings

variable (h : Image g A m) (hd : A[d]? = some (.dir es)) (hchars : ∀ e, e ∈ es → ∀ c, c ∈ e.1 → c ≠ 0)
include h hd

theorem Image.slotCount_eq : slotCount m (inodeAddr d) = 8 * ((es.length + 7) / 8) := by
  unfold slotCount
  rw [(h.node d _ hd).2.1]
  omega

omit hd in
/-- Strings on the disk end before the disk does. -/
theorem Image.string_room {a : Nat} (ha : a < 1024 * g.nblocks) : a < imageEnd m := by
  unfold imageEnd
  rw [h.sound.nblocks]
  omega

theorem Image.entryType (he : es[k]? = some e) :
    Ospfs.entryType (oiFtype m (inodeAddr e.2)) = some (A.dtypeAt e.2) := by
  have hlt := (h.wellFormed.mem_entries hd (List.mem_of_getElem? he)).2
  have hA := List.getElem?_eq_getElem hlt
  have hnode := h.node e.2 _ hA
  unfold Nodes.dtypeAt
  rw [hA]
  cases hnd : A[e.2] <;> rw [hnd] at hnode <;> rw [hnode.1] <;> rfl

include hchars

/-- The entry that is shown for each place. -/
theorem Image.liveEntry_eq (hk : k < slotCount m (inodeAddr d)) : liveEntry m (inodeAddr d) k =
    (es[k]?).map fun e => ⟨e.1, k + 2, e.2, A.dtypeAt e.2⟩ := by
  have hslots := h.slotCount_eq hd
  have hdir := h.isDirectory hd
  obtain ⟨_, hsize, hent⟩ := h.node d _ hd
  have haddr : ospfsInodeData m (inodeAddr d) (128 * k) = direntAt g m d k :=
    direntAt_eq h.sound hdir.hasBlocks hdir.size_le (by omega)
  unfold liveEntry
  rw [haddr]
  cases he : es[k]? with
  | none =>
    simp only [hent.odIno_none (by omega) he, if_true, Option.map_none]
  | some e =>
    obtain ⟨h2, hino, hlt, hlen⟩ := h.ino_lt hd he
    have hname : odName m (direntAt g m d k) = e.1 := by
      have hown := own_lt_nblocks h.sound (d, dataSlot (k / 8))
      have hroom := h.string_room (a := direntAt g m d k + 127) (by unfold direntAt; omega)
      exact (cString_load_iff (hent.name_load (by omega) he hlen) (hchars e (List.mem_of_getElem? he))
        (by omega)).mpr (hent.name_nul (by omega) he hlen)
    simp only [hent.odIno_some (by omega) he hlt, show e.2 ≠ 0 by omega, if_false, h.sound.inode hino,
      h.entryType hd he, hname, Option.map_some]

theorem Image.wellFormedDir : WellFormedDir m d (inodeAddr d) := by
  have hdir := h.isDirectory hd
  have hsize := hdir.size_le
  unfold maxFileSize at hsize
  constructor
  · exact h.sound.inode (h.lt_ninodes hd)
  · omega
  · intro k hk h0
    have hslots := h.slotCount_eq hd
    obtain ⟨_, hsz, hent⟩ := h.node d _ hd
    rw [h.liveEntry_eq hd hchars hk, Option.isSome_map]
    rw [direntAt_eq h.sound hdir.hasBlocks hdir.size_le (by omega)] at h0
    by_contra hnone
    exact h0 (hent.odIno_none (by omega) (by simpa using hnone))

/-- The names and types of a listing, behind `.` and `..`. -/
theorem Image.listing : (liveFrom m (inodeAddr d) 0).map (fun e => (e.name, e.dtype)) =
    es.map fun e => (e.1, A.dtypeAt e.2) := by
  have hslots := h.slotCount_eq hd
  have hplaces := map_range_getElem? es (n := slotCount m (inodeAddr d)) (by omega)
  have hlive : (List.range (slotCount m (inodeAddr d))).filterMap
      (fun k => (liveEntry m (inodeAddr d) k).map fun e => (e.name, e.dtype)) =
        (List.range (slotCount m (inodeAddr d))).filterMap
          (fun k => (es[k]?).map fun e => (e.1, A.dtypeAt e.2)) := by
    apply List.filterMap_congr
    intro k hk
    rw [h.liveEntry_eq hd hchars (List.mem_range.mp hk), Option.map_map]
    rfl
  unfold liveFrom
  rw [Nat.sub_zero, ← List.range_eq_range', List.map_filterMap, hlive]
  calc
    _ = ((List.range (slotCount m (inodeAddr d))).map (es[·]?)).filterMap
          (Option.map fun e => (e.1, A.dtypeAt e.2)) := by
      rw [List.filterMap_map]
      rfl
    _ = es.map fun e => (e.1, A.dtypeAt e.2) := by
      rw [hplaces, List.filterMap_append, List.filterMap_map]
      simp

end Listings

section Paths

variable {x : HostNode}

/-- What has been copied is shown. -/
theorem Image.shows (h : Image g A m) (hx : A.Copied i x) : Shows m i x := by
  cases x with
  | file content =>
    have hlt : i < g.ninodes := Nat.lt_of_lt_of_le (Nodes.lt_of_getElem? hx) h.length_le
    have hnode := h.node i _ hx
    refine ⟨⟨_, h.sound.inode hlt, hnode.1, hnode.2.1⟩, fun counts => ?_⟩
    rw [readCalls_file h.sound hlt hnode counts (Nat.zero_le _), Nat.zero_add, List.drop_zero]
  | dir sub =>
    obtain ⟨es, hd, hent, hs⟩ := hx
    have hwf := h.wellFormedDir hd (hent.strings hs)
    refine ⟨⟨_, hwf.inode, (h.node i _ hd).1⟩, fun parent room hroom => ?_⟩
    have hlisting := h.listing hd (hent.strings hs)
    rw [hent.listing] at hlisting
    have hlength := congrArg List.length hlisting
    rw [List.length_map] at hlength
    obtain ⟨r, hr, hends⟩ := ospfsDirReaddir_ends hwf parent room (Nat.zero_le _) (Nat.le_refl _)
    have hall : (remaining m i parent (inodeAddr i) 0).length = sub.listing.length + 2 := by
      rw [← hlength]
      rfl
    cases hends with
    | all _ hret hacc =>
      refine ⟨_, r, hr, hret, ?_⟩
      rw [hacc, ← hlisting]
      rfl
    | dots hless => omega
    | entry _ hless => omega
  | symlink target =>
    obtain ⟨hA, hchars⟩ := hx
    have hlt : i < g.ninodes := Nat.lt_of_lt_of_le (Nodes.lt_of_getElem? hA) h.length_le
    obtain ⟨hft, _, hlen, hload⟩ := h.node i _ hA
    refine ⟨⟨_, h.sound.inode hlt, hft⟩, fun hplain n uid => ⟨inodeAddr i + 12, ?_⟩⟩
    rw [load_succ] at hload
    obtain ⟨htarget, hnul⟩ := List.append_inj' hload rfl
    have hnul : m (inodeAddr i + 12 + target.length) = 0 := by simpa using hnul
    have hregion := g.inode_region hlt
    have hfits := g.room
    unfold Geometry.dataStart at hregion
    have hroom := h.string_room (a := inodeAddr i + 63) (by omega)
    refine ⟨ospfsFollowLink_plain (h.sound.inode hlt) (load_ne_rootPrefix htarget hplain (.inr hnul)), ?_⟩
    exact (cString_load_iff htarget hchars (by dsimp only; omega)).mpr hnul

/-- Only a directory leads any further. -/
theorem Image.walk_leaf (h : Image g A m) {i : Nat} {nd : Node} (hA : A[i]? = some nd)
    (hleaf : nd.isDir = false) {path : List Name} (hpath : path ≠ []) : walk m i path = none := by
  obtain ⟨next, path, rfl⟩ := List.exists_cons_of_ne_nil hpath
  have hlt : i < g.ninodes := Nat.lt_of_lt_of_le (Nodes.lt_of_getElem? hA) h.length_le
  have hnode := h.node i _ hA
  have hne : oiFtype m (inodeAddr i) ≠ FTYPE_DIR := by
    cases nd with
    | file content => rw [hnode.1]; decide
    | symlink target => rw [hnode.1]; decide
    | dir es => cases hleaf
  simp only [Ospfs.walk, h.sound.inode hlt, if_neg hne]

/-- By induction on the path, for all directories. -/
theorem Image.walk (h : Image g A m) (path : List Name) (hd : A[d]? = some (.dir es))
    (hent : A.Entered es host) (hs : host.Strings) :
    (host.find path = none ∧ walk m d path = none) ∨
      ∃ x i, host.find path = some x ∧ walk m d path = some i ∧ A.Copied i x := by
  induction path generalizing d es host with
  | nil => exact .inr ⟨.dir host, d, rfl, rfl, es, hd, hent, hs⟩
  | cons name path ih =>
    have hoi := h.sound.inode (h.lt_ninodes hd)
    have hft := (h.node d _ hd).1
    have hlookup : ∀ i, ospfsDirLookup m d name true = some (.ok (some i)) ↔
        es.find? (·.1 = name) = some (name, i) := fun _ => h.lookup_iff hd (hent.strings hs)
    rcases hent.entry hs name with ⟨hnone, hmissing⟩ | ⟨x, i, hx, hfound, hcopied⟩
    · left
      have hstop : ∀ i, ospfsDirLookup m d name true ≠ some (.ok (some i)) := by
        intro i heq
        rw [hlookup, hmissing] at heq
        cases heq
      constructor
      · rw [Host.find, hnone]
      · -- the other case of the `match`, by `hstop`
        simp only [Ospfs.walk, hoi, hft, if_true]
    · have hnext : Ospfs.walk m d (name :: path) = Ospfs.walk m i path := by
        simp only [Ospfs.walk, hoi, hft, if_true, (hlookup i).mpr hfound]
      rw [hnext, Host.find, hx]
      cases x with
      | dir sub =>
        obtain ⟨es', hd', hent', hs'⟩ := hcopied
        exact ih hd' hent' hs'
      | file content =>
        by_cases hpath : path = []
        · subst hpath
          exact .inr ⟨.file content, i, rfl, rfl, hcopied⟩
        · exact .inl ⟨if_neg hpath, h.walk_leaf hcopied rfl hpath⟩
      | symlink target =>
        by_cases hpath : path = []
        · subst hpath
          exact .inr ⟨.symlink target, i, rfl, rfl, hcopied⟩
        · exact .inl ⟨if_neg hpath, h.walk_leaf hcopied.1 rfl hpath⟩

end Paths

section Mounted

variable {f : Format} {args : Arguments} {md5 : List UInt8 → List UInt8}

/-- An image made with `-r`, and with neither `-c` nor `-l`, of a host tree without second links. -/
theorem main_entered (hfiles : args.files = .tree host) (hc : args.linkContents = false)
    (hl : args.links = []) (hu : host.Unlinked) (hr : main md5 args = some f) :
    ∃ g A es, Image g A f.data ∧ A = Nodes.install [.file [], .dir []] 1 host ∧
      A[1]? = some (.dir es) ∧ A.Entered es host := by
  obtain ⟨g, f₁, f₂, f₃, _, _, _, _, hbuilt, hlc, hcopy, hlinks, hfin⟩ := main_steps hr
  rw [hl, List.foldlM_nil, Option.pure_def, Option.some.injEq] at hlinks
  rw [hfiles] at hcopy
  subst hlinks
  have hstart : Nodes.SingleLinks [.file [], .dir []] := by
    intro i hi hdir
    match i with
    | 0 => rfl
    | 1 => exact absurd hdir (by decide)
    | i + 2 => exact absurd hi (by simp)
  obtain ⟨h, _, _⟩ := writedirectory_installed (d := 1) host hbuilt rfl (hlc.trans hc) hu hstart hcopy
  obtain ⟨es, hinst⟩ := Nodes.install_installed (d := 1) (A := [.file [], .dir []]) host rfl
  have hroot := hinst.dir
  rw [List.nil_append] at hroot
  exact ⟨g, _, es, (finishfs_finished h.forming hfin).image h, rfl, hroot,
    hinst.entered _ fun _ _ _ => rfl⟩

/-- Every path leads to what the host has there, and to nothing where the host has nothing. -/
theorem mounted_tree (hfiles : args.files = .tree host) (hc : args.linkContents = false)
    (hl : args.links = []) (hu : host.Unlinked) (hs : host.Strings) (hr : main md5 args = some f)
    (path : List Name) :
    match host.find path with
    | none => walk f.data 1 path = none
    | some x => ∃ i, walk f.data 1 path = some i ∧ Shows f.data i x := by
  obtain ⟨g, A, es, himage, -, hroot, hent⟩ := main_entered hfiles hc hl hu hr
  rcases himage.walk path hroot hent hs with ⟨hnone, hwalk⟩ | ⟨x, i, hx, hwalk, hcopied⟩
  · rw [hnone]
    exact hwalk
  · rw [hx]
    exact ⟨i, hwalk, himage.shows hcopied⟩

theorem mounted_tree_small : ∃ f, main (fun _ => []) smallArguments = some f ∧
    (∃ i, walk f.data 1 [[97]] = some i ∧ Shows f.data i (.file [1, 2, 3])) ∧
    (∃ i, walk f.data 1 [[98]] = some i ∧ Shows f.data i (.dir .nil)) ∧
    walk f.data 1 [[98], [97]] = none := by
  obtain ⟨f, hf⟩ := main_small
  have hu : smallHost.Unlinked := ⟨rfl, trivial, trivial⟩
  have hs : smallHost.Strings := ⟨by simp, by simp, trivial, trivial⟩
  exact ⟨f, hf, mounted_tree rfl rfl rfl hu hs hf [[97]], mounted_tree rfl rfl rfl hu hs hf [[98]],
    mounted_tree rfl rfl rfl hu hs hf [[98], [97]]⟩

end Mounted

end Format

end CS111.Ospfs
