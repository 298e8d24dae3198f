import Mathlib.Data.List.Count
import CS111.Ospfs.EntryChanges

/-!
# Link counts

`oi_nlink` of a file is the number of directory entries with its inode number: for every image of the
formatter, and after every run of calls in which `ospfs_unlink` is given the inode that the name leads to.
-/

namespace CS111.Ospfs

open Memory

set_option autoImplicit false

section Lists
variable {α : Type} [DecidableEq α] {l l' : List α} {p q : α → Bool} {a : α}

/-- Only `a` is counted anew: it was not in the list, or did not count. -/
theorem countP_one_more (hl : l.Nodup) (hl' : l'.Nodup) (hmem : ∀ x, x ∈ l' ↔ x ∈ l ∨ x = a)
    (hsame : ∀ x, x ∈ l → x ≠ a → q x = p x) (ha : a ∈ l → p a = false) :
    l'.countP q = l.countP p + if q a = true then 1 else 0 := by
  have hperm : l'.Perm (a :: l.erase a) := by
    refine (List.perm_ext_iff_of_nodup hl' ?_).mpr fun x => ?_
    · exact List.nodup_cons.mpr ⟨hl.not_mem_erase, hl.erase a⟩
    · rw [hmem, List.mem_cons, hl.mem_erase_iff]
      by_cases hx : x = a <;> simp [hx]
  have hrest : (l.erase a).countP q = (l.erase a).countP p := by
    apply List.countP_congr
    intro x hx
    obtain ⟨hne, hx⟩ := hl.mem_erase_iff.mp hx
    rw [hsame x hx hne]
  have hcount : l.countP p = (l.erase a).countP p := by
    by_cases hin : a ∈ l
    · rw [(List.perm_cons_erase hin).countP_eq, List.countP_cons, ha hin]
      rfl
    · rw [List.erase_of_not_mem hin]
  rw [hperm.countP_eq, List.countP_cons, hrest, hcount]

omit [DecidableEq α] in
/-- A list read place by place, beyond its end. -/
theorem map_range_getElem? (l : List α) {n : Nat} (h : l.length ≤ n) :
    (List.range n).map (l[·]?) = l.map some ++ List.replicate (n - l.length) none := by
  apply List.ext_getElem?
  intro k
  by_cases hk : k < l.length
  · rw [List.getElem?_append_left (by rwa [List.length_map]), List.getElem?_map, List.getElem?_map,
      List.getElem?_range (by omega), Option.map_some, List.getElem?_eq_getElem hk, Option.map_some]
  · rw [List.getElem?_append_right (by rw [List.length_map]; omega), List.length_map,
      List.getElem?_map, List.getElem?_replicate]
    by_cases hn : k < n
    · rw [List.getElem?_range hn, if_pos (by omega), Option.map_some,
        List.getElem?_eq_none (by omega)]
    · rw [List.getElem?_eq_none (by rw [List.length_range]; omega), if_neg (by omega)]
      rfl

omit [DecidableEq α] in
theorem countP_range_getElem? (l : List α) {n : Nat} (h : l.length ≤ n) :
    (List.range n).countP (fun k => (l[k]?).any p) = l.countP p := by
  have hcount : (List.range n).countP (fun k => (l[k]?).any p) =
      ((List.range n).map (l[·]?)).countP (Option.any p) := by
    rw [List.countP_map]
    rfl
  rw [hcount, map_range_getElem? l h, List.countP_append, List.countP_map, List.countP_replicate]
  rfl

omit [DecidableEq α] in
theorem sum_range_getElem? (l : List α) (w : α → Nat) {n : Nat} (h : l.length ≤ n) :
    ((List.range n).map fun k => (l[k]?).elim 0 w).sum = (l.map w).sum := by
  have hmap : (List.range n).map (fun k => (l[k]?).elim 0 w) =
      ((List.range n).map (l[·]?)).map (Option.elim · 0 w) := by
    rw [List.map_map]
    rfl
  rw [hmap, map_range_getElem? l h, List.map_append, List.sum_append, List.map_map,
    List.map_replicate, List.sum_replicate_nat, Option.elim_none, Nat.mul_zero, Nat.add_zero]
  rfl

end Lists

variable {g : Geometry} {m m' : Bytes} {s s' : State} {c : Callback} {cs : List Callback}
variable {d i j k l od : Nat} {name : Name}

section Counting

/-- The addresses of the entries of all directories. -/
def allEntries (m : Bytes) : List Nat :=
  (List.range (osNinodes m)).flatMap fun d =>
    (ospfsInode m d).elim [] fun oi => if oiFtype m oi = FTYPE_DIR then entries m oi else []

/-- How many entries name inode `i`. -/
def entriesNaming (m : Bytes) (i : Nat) : Nat := (allEntries m).countP fun od => odIno m od == i

/-- The entries by directory and number. -/
def places (g : Geometry) (m : Bytes) : List (Nat × Nat) :=
  (List.range g.ninodes).flatMap fun d =>
    if oiFtype m (inodeAddr d) = FTYPE_DIR then
      (List.range ((oiSize m (inodeAddr d) + 127) / 128)).map (d, ·)
    else []

theorem mem_places : (d, k) ∈ places g m ↔
    d < g.ninodes ∧ oiFtype m (inodeAddr d) = FTYPE_DIR ∧ HasEntry m d k := by
  unfold places HasEntry
  rw [List.mem_flatMap]
  constructor
  · rintro ⟨e, he, hmem⟩
    split at hmem
    · next hf =>
      obtain ⟨l, hl, heq⟩ := List.mem_map.mp hmem
      obtain ⟨rfl, rfl⟩ := Prod.mk.inj heq
      rw [List.mem_range] at he hl
      exact ⟨he, hf, by omega⟩
    · exact absurd hmem List.not_mem_nil
  · rintro ⟨hd, hf, hk⟩
    refine ⟨d, List.mem_range.mpr hd, ?_⟩
    rw [if_pos hf]
    exact List.mem_map.mpr ⟨k, List.mem_range.mpr (by omega), rfl⟩

theorem nodup_places (g : Geometry) (m : Bytes) : (places g m).Nodup := by
  unfold places
  rw [List.nodup_flatMap]
  constructor
  · intro d _
    split
    · exact List.nodup_range.map fun k l heq => (Prod.mk.inj heq).2
    · exact List.nodup_nil
  · refine List.nodup_range.pairwise_of_forall_ne fun d _ e _ hne p hp hp' => hne ?_
    dsimp only at hp hp'
    split at hp
    · split at hp'
      · obtain ⟨k, _, rfl⟩ := List.mem_map.mp hp
        obtain ⟨l, _, heq⟩ := List.mem_map.mp hp'
        exact (Prod.mk.inj heq).1.symm
      · exact absurd hp' List.not_mem_nil
    · exact absurd hp List.not_mem_nil

/-- The places of the entries when one of them has been filled. -/
theorem OneEntry.places_iff {e : Nat} (hone : OneEntry g d k m m') :
    (e, l) ∈ places g m' ↔ (e, l) ∈ places g m ∨ (e, l) = (d, k) := by
  have hd := hone.dir.exists_ino
  have hf := (hone.dirs d hd).mp hone.dir.ftype
  rw [mem_places, mem_places, Prod.mk.injEq]
  by_cases hed : e = d
  · subst hed
    rw [hone.has]
    simp only [hd, hf, hone.dir.ftype, true_and]
  · have hsize : e < g.ninodes → oiFtype m (inodeAddr e) = FTYPE_DIR →
        (HasEntry m' e l ↔ HasEntry m e l) := by
      intro he hf
      unfold HasEntry
      rw [(hone.others e he hed hf).size]
    constructor
    · rintro ⟨he, hf', hl⟩
      have hf := (hone.dirs e he).mp hf'
      exact .inl ⟨he, hf, (hsize he hf).mp hl⟩
    · rintro (⟨he, hf, hl⟩ | ⟨rfl, -⟩)
      · exact ⟨he, (hone.dirs e he).mpr hf, (hsize he hf).mpr hl⟩
      · exact absurd rfl hed

variable (h : Ready g s)
include h

theorem Ready.allEntries_eq :
    allEntries s.data = (places g s.data).map fun p => direntAt g s.data p.1 p.2 := by
  have hs := h.mounted.sound
  unfold allEntries places
  rw [hs.ninodes, List.map_flatMap]
  apply List.flatMap_congr
  intro d hd
  rw [List.mem_range] at hd
  rw [hs.inode hd, Option.elim_some]
  split
  · next hf =>
    rw [entries_eq hs (h.isDirectory hd hf).hasBlocks (h.isDirectory hd hf).size_le, List.map_map]
    rfl
  · rfl

theorem Ready.entriesNaming_eq (i : Nat) : entriesNaming s.data i =
    (places g s.data).countP fun p => odIno s.data (direntAt g s.data p.1 p.2) == i := by
  unfold entriesNaming
  rw [h.allEntries_eq, List.countP_map]
  rfl

/-- The address of an entry says where it is. -/
theorem Ready.direntAt_inj {e : Nat} (hd : (d, k) ∈ places g s.data) (he : (e, l) ∈ places g s.data)
    (heq : direntAt g s.data d k = direntAt g s.data e l) : (d, k) = (e, l) := by
  obtain ⟨hd, hf, hk⟩ := mem_places.mp hd
  obtain ⟨-, -, hl⟩ := mem_places.mp he
  have hdir := h.isDirectory hd hf
  have hown : own g s.data (d, dataSlot (k / 8)) = own g s.data (e, dataSlot (l / 8)) := by
    unfold direntAt at heq
    omega
  obtain ⟨rfl, -⟩ := Prod.mk.inj (h.mounted.sound.owns.inj (hdir.block_ne hk) hown)
  by_contra hne
  have hapart := hdir.dirent_apart h.mounted.sound hk hl (fun hkl => hne (by rw [hkl]))
  omega

/-- There are fewer entries than a link count can count. -/
theorem Ready.entriesNaming_lt (i : Nat) : entriesNaming s.data i < 4294967295 := by
  have hnodup : (allEntries s.data).Nodup := by
    rw [h.allEntries_eq]
    exact (nodup_places g s.data).map_on fun _ hp _ hq heq => h.direntAt_inj hp hq heq
  have hsub : (allEntries s.data).toFinset ⊆ Finset.range 8388608 := by
    intro od hod
    rw [List.mem_toFinset, h.allEntries_eq] at hod
    obtain ⟨⟨d, k⟩, hplace, rfl⟩ := List.mem_map.mp hod
    obtain ⟨hd, hf, hk⟩ := mem_places.mp hplace
    have hn := g.nblocks_le
    obtain ⟨-, hlt, -⟩ := h.mounted.sound.owns.used_of_ne ((h.isDirectory hd hf).block_ne hk)
    rw [Finset.mem_range]
    dsimp only
    unfold direntAt
    omega
  have hlen := Finset.card_le_card hsub
  rw [List.toFinset_card_of_nodup hnodup, Finset.card_range] at hlen
  have hcount : entriesNaming s.data i ≤ (allEntries s.data).length := List.countP_le_length
  omega

/-- The other entries name what they named. -/
theorem Ready.odIno_others {e : Nat} (hone : OneEntry g d k s.data s'.data)
    (hold : (e, l) ∈ places g s.data) (hne : (e, l) ≠ (d, k)) :
    odIno s'.data (direntAt g s'.data e l) = odIno s.data (direntAt g s.data e l) := by
  obtain ⟨he, hf, hl⟩ := mem_places.mp hold
  by_cases hed : e = d
  · subst hed
    exact hone.odIno_kept hl fun hlk => hne (by rw [hlk])
  · have hbytes := fun j hj => (hone.others e he hed hf).entry_bytes (h.isDirectory he hf) hl
      (show j < 128 from hj)
    exact odIno_congr fun j hj => hbytes j (by omega)

variable (h' : Ready g s')
include h'

/-- One entry has been filled. -/
theorem OneEntry.entriesNaming_eq (hone : OneEntry g d k s.data s'.data) (hi : i ≠ 0) :
    entriesNaming s'.data i = entriesNaming s.data i +
      if odIno s'.data (direntAt g s'.data d k) = i then 1 else 0 := by
  have hcount := countP_one_more (a := (d, k)) (nodup_places g s.data) (nodup_places g s'.data)
    (p := fun p => odIno s.data (direntAt g s.data p.1 p.2) == i)
    (q := fun p => odIno s'.data (direntAt g s'.data p.1 p.2) == i)
    (fun _ => hone.places_iff) ?_ ?_
  · rw [h'.entriesNaming_eq, h.entriesNaming_eq, hcount]
    simp only [beq_iff_eq]
  · rintro ⟨e, l⟩ hold hne
    simp only [h.odIno_others hone hold hne]
  · intro hold
    obtain ⟨-, -, hk⟩ := mem_places.mp hold
    simp only [hone.blank hk, beq_eq_false_iff_ne]
    exact hi.symm

end Counting

section Invariant

/-- The link count of every inode from 2 on that is no directory. -/
def Counted (g : Geometry) (m : Bytes) : Prop :=
  ∀ i, 2 ≤ i → i < g.ninodes → oiFtype m (inodeAddr i) ≠ FTYPE_DIR →
    oiNlink m (inodeAddr i) = entriesNaming m i

theorem Quiet.entriesNaming_eq (hq : Quiet g s.data s'.data) (h : Ready g s) (h' : Ready g s') (i : Nat) :
    entriesNaming s'.data i = entriesNaming s.data i := by
  have hplaces : places g s'.data = places g s.data := by
    unfold places
    apply List.flatMap_congr
    intro d hd
    rw [List.mem_range] at hd
    rw [hq.ftype d hd]
    split
    · next hf => rw [(hq.dir d hd hf).size]
    · rfl
  rw [h'.entriesNaming_eq, h.entriesNaming_eq, hplaces]
  apply List.countP_congr
  rintro ⟨d, k⟩ hplace
  obtain ⟨hd, hf, hk⟩ := mem_places.mp hplace
  have hbytes := fun j hj => (hq.dir d hd hf).entry_bytes (h.isDirectory hd hf) hk
    (show j < 128 from hj)
  rw [odIno_congr fun j hj => hbytes j (by omega)]

variable (h : Ready g s) (h' : Ready g s') (hc : Counted g s.data)
include h h' hc

theorem Counted.quiet (hq : Quiet g s.data s'.data) : Counted g s'.data := by
  intro i htwo hi hf
  rw [hq.ftype i hi] at hf
  rw [hq.nlink i hi, hc i htwo hi hf, hq.entriesNaming_eq h h']

/-- An entry for inode `i`, which gets one more link; it stays blank if `i` is 0. -/
theorem Counted.oneMore (hone : OneEntry g d k s.data s'.data)
    (hino : odIno s'.data (direntAt g s'.data d k) = i)
    (hcount : 2 ≤ i → oiFtype s.data (inodeAddr i) ≠ FTYPE_DIR →
      oiNlink s'.data (inodeAddr i) = oiNlink s.data (inodeAddr i) + 1)
    (hothers : ∀ j, j < g.ninodes → j ≠ i →
      oiNlink s'.data (inodeAddr j) = oiNlink s.data (inodeAddr j)) : Counted g s'.data := by
  intro j htwo hj hf
  have hf₀ : oiFtype s.data (inodeAddr j) ≠ FTYPE_DIR := fun hdir => hf ((hone.dirs j hj).mpr hdir)
  rw [hone.entriesNaming_eq h h' (by omega), hino]
  by_cases hji : j = i
  · subst hji
    rw [if_pos rfl, hcount htwo hf₀, hc j htwo hj hf₀]
  · rw [if_neg (Ne.symm hji), hothers j hj hji, hc j htwo hj hf₀, Nat.add_zero]

/-- The entry of inode `i` is cleared, which gets one link less. -/
theorem Counted.oneLess (hone : OneEntry g d k s'.data s.data)
    (hino : odIno s.data (direntAt g s.data d k) = i)
    (hcount : NewCount g i (usub32 (oiNlink s.data (inodeAddr i)) 1) s.data s'.data) :
    Counted g s'.data := by
  intro j htwo hj hf
  have hf₀ : oiFtype s.data (inodeAddr j) ≠ FTYPE_DIR := fun hdir => hf ((hone.dirs j hj).mp hdir)
  have hbefore := hone.entriesNaming_eq h' h (i := j) (by omega)
  have hlt := h.entriesNaming_lt j
  rw [hino] at hbefore
  by_cases hji : j = i
  · subst hji
    rw [if_pos rfl] at hbefore
    rw [hcount.count, hc j htwo hj hf₀, hbefore]
    unfold usub32
    omega
  · rw [if_neg (Ne.symm hji)] at hbefore
    rw [hcount.others j hj hji, hc j htwo hj hf₀, hbefore, Nat.add_zero]

end Invariant

section Runs

/-- The kernel gives `ospfs_unlink` the inode that the name leads to. -/
def Callback.OnDentry (m : Bytes) : Callback → Prop
  | .unlink dir ino name => ∀ i, resolve m (inodeAddr dir) name = some i → i = ino
  | _ => True

def DentryStep (s : State) (c : Callback) (s' : State) : Prop :=
  AllowedStep s c s' ∧ c.OnDentry s.data

theorem Counted.creates {findsMemory : Bool} {ret : Int} (hc : Counted g s.data) (h : Ready g s)
    (h' : Ready g s') (hcreates : Creates g s s' d name findsMemory ret) : Counted g s'.data := by
  cases hcreates with
  | bound _ _ hsame => rwa [hsame]
  | full _ hone hblank hcount _ =>
    exact hc.oneMore h h' hone hblank (fun htwo => absurd htwo (by decide)) fun j hj _ => hcount j hj
  | entered _ hone hspells _ hfree hcount _ _ =>
    refine hc.oneMore h h' hone hspells.ino (fun _ _ => ?_) hcount.others
    rw [hcount.count, hfree]

theorem Counted.step (hc : Counted g s.data) (h : Ready g s) (hstep : DentryStep s c s') :
    Counted g s'.data := by
  have h' := h.step hstep.1
  obtain ⟨⟨⟨fuel, hrun⟩, hallowed⟩, hdentry⟩ := hstep
  obtain ⟨out, hout⟩ := Callback.run_outcome hrun
  have hs := h.mounted.sound
  cases c with
  | create dir name mode newInode | symlink dir name symname newInode =>
    rcases Callback.creates_changes h hallowed rfl hout with ⟨_, _, hsame⟩ | ⟨_, _, _, _, hcreates⟩
    · rwa [hsame]
    · exact hc.creates h h' hcreates
  | link src dir name =>
    obtain ⟨ret, -, hlink⟩ := returned_iff.mp hout
    rcases ospfsLink_changes h hallowed hlink with ⟨_, _, hsame⟩ | ⟨_, _, _, hsame⟩ |
      ⟨_, _, _, k, hone, hino, _, _, hcount⟩
    · rwa [hsame]
    · rwa [hsame]
    · refine hc.oneMore h h' hone hino (fun htwo hf => ?_) hcount.others
      have hlt := h.entriesNaming_lt src
      have hnlink := hc src htwo hcount.exists_ino hf
      rw [← hnlink] at hlt
      rw [hcount.count, u32_of_lt (by omega)]
  | unlink dir ino name =>
    obtain ⟨ret, -, hunlink⟩ := returned_iff.mp hout
    rcases ospfsUnlink_changes h hallowed hunlink with ⟨_, _, hsame⟩ | ⟨k, hfound, hone, hcount⟩
    · rwa [hsame]
    · refine hc.oneLess h h' hone ?_ hcount
      apply hdentry
      rw [resolve_eq hs hone.dir, hfound]
      rfl
  | write | read | notifyChange | lookup | readdir | followLink =>
    obtain ⟨_, _, heq⟩ := Option.map_eq_some_iff.mp hout
    obtain ⟨rfl, rfl⟩ := Prod.mk.inj heq
    exact hc.quiet h h' (Callback.outcome_quiet h hallowed hout)

end Runs

section Start

variable {A : Nodes} {n : Nat} {es : List (Name × Nat)}

theorem HasEntries.countP_eq (hent : HasEntries g m d n es) (hfits : es.length ≤ 8 * n)
    (hinos : ∀ e, e ∈ es → e.2 < 4294967296) (hi : i ≠ 0) :
    (List.range (8 * n)).countP (fun k => odIno m (direntAt g m d k) == i) =
      es.countP fun e => e.2 == i := by
  rw [← countP_range_getElem? es hfits]
  apply List.countP_congr
  intro k hk
  rw [List.mem_range] at hk
  cases he : es[k]? with
  | none => simp [hent.odIno_none hk he, hi.symm]
  | some e => simp [hent.odIno_some hk he (hinos e (List.mem_of_getElem? he))]

variable (h : Format.Image g A m)
include h

/-- A directory's share of the entries that name an inode. -/
theorem Format.Image.countP_directory (hd : d < g.ninodes) (hi : i ≠ 0) :
    (if oiFtype m (inodeAddr d) = FTYPE_DIR then
      (List.range ((oiSize m (inodeAddr d) + 127) / 128)).map (d, ·) else []).countP
        (fun p => odIno m (direntAt g m p.1 p.2) == i) =
      (A[d]?).elim 0 fun nd => nd.entries.countP (·.2 == i) := by
  cases hA : A[d]? with
  | none =>
    have hlen : A.length ≤ d := List.getElem?_eq_none_iff.mp hA
    have hzero : oiFtype m (inodeAddr d) = 0 := by
      apply rd32_eq_zero
      intro k hk
      rw [Nat.add_assoc]
      exact h.unborn d _ hlen hd (by omega)
    rw [hzero, if_neg (by decide)]
    rfl
  | some nd =>
    have hnode := h.node d nd hA
    cases nd with
    | file content =>
      rw [hnode.1, if_neg (by decide)]
      rfl
    | symlink target =>
      rw [hnode.1, if_neg (by decide)]
      rfl
    | dir es =>
      obtain ⟨hf, hsize, hent⟩ := hnode
      have hroom := g.room
      have hn := g.nblocks_le
      have hlen := h.length_le
      rw [if_pos hf, hsize, show (1024 * ((es.length + 7) / 8) + 127) / 128 = 8 * ((es.length + 7) / 8) by omega,
        List.countP_map]
      refine hent.countP_eq (by omega) (fun e he => ?_) hi
      have hino := h.wellFormed.mem_entries hA he
      omega

theorem Format.Image.entriesNaming_eq (hi : i ≠ 0) : entriesNaming m i = A.named i := by
  have hready : Ready g ⟨m, -1⟩ := h.ready
  have hcount := hready.entriesNaming_eq i
  rw [hcount]
  unfold places Nodes.named
  rw [List.countP_flatMap, ← sum_range_getElem? A _ h.length_le]
  congr 1
  apply List.map_congr_left
  intro d hd
  exact h.countP_directory (List.mem_range.mp hd) hi

theorem Format.Image.counted : Counted g m := by
  intro i htwo hi hf
  rw [h.entriesNaming_eq (by omega)]
  by_cases hlt : i < A.length
  · have hdir : A.isDirAt i = false := by
      rw [Bool.eq_false_iff]
      intro hdir
      obtain ⟨es, hes⟩ := Nodes.eq_dir_of_isDirAt hdir
      exact hf (h.node i _ hes).1
    rw [h.nlink i hlt, Nodes.links_of_not_dir hdir, if_neg (by omega)]
  · have hzero : oiNlink m (inodeAddr i) = 0 := by
      apply rd32_eq_zero
      intro k hk
      rw [Nat.add_assoc]
      exact h.unborn i _ (by omega) hi (by omega)
    rw [hzero, Nodes.named_of_wellFormed h.wellFormed (by omega)]

end Start

/-- A free inode is named by no entry. -/
theorem Counted.unnamed (hc : Counted g s.data) (h : Ready g s) (htwo : 2 ≤ i) (hi : i < g.ninodes)
    (hfree : oiNlink s.data (inodeAddr i) = 0) : entriesNaming s.data i = 0 := by
  rw [← hc i htwo hi fun hf => h.linked i hi hf hfree, hfree]

theorem Counted.run (hc : Counted g s.data) (h : Ready g s) (hrun : Run DentryStep s cs s') :
    Ready g s' ∧ Counted g s'.data :=
  hrun.invariant (P := fun t => Ready g t ∧ Counted g t.data)
    (fun ht hstep => ⟨ht.1.step hstep.1, ht.2.step ht.1 hstep⟩) ⟨h, hc⟩

/-- In every state that a run on an image of the formatter comes to, the link count of every inode that is
no directory is the number of entries that name it, and no entry names the inode that the next new file gets. -/
theorem link_counts {md5 : List UInt8 → List UInt8} {args : Format.Arguments} {f : Format}
    (hf : Format.main md5 args = some f) (hrun : Run DentryStep ⟨f.data, -1⟩ cs s) :
    (∀ i oi, 2 ≤ i → ospfsInode s.data i = some oi → oiFtype s.data oi ≠ FTYPE_DIR →
      oiNlink s.data oi = entriesNaming s.data i) ∧
      ∀ i, findEmptyInode s.data = some i → ∀ od, od ∈ allEntries s.data → odIno s.data od ≠ i := by
  obtain ⟨g, A, _, _, himage⟩ := Format.main_image hf
  have hstart : Counted g (State.data ⟨f.data, -1⟩) := himage.counted
  obtain ⟨h, hc⟩ := hstart.run himage.ready hrun
  constructor
  · intro i oi htwo hoi hfile
    obtain ⟨hi, rfl⟩ := h.mounted.sound.ospfsInode_iff.mp hoi
    exact hc i htwo hi hfile
  · intro i hempty od hod hnames
    obtain ⟨htwo, hi, hfree⟩ := findEmptyInode_some h.mounted.sound hempty
    have hnone := List.countP_eq_zero.mp (hc.unnamed h htwo hi hfree) od hod
    exact hnone (beq_iff_eq.mpr hnames)

/-- A new file or symbolic link takes an inode that no entry names, and then its own entry is the only one. -/
theorem Counted.handedOut {fuel : Nat} {ret : Int} (hc : Counted g s.data) (h : Ready g s) (hallowed : c.Allowed s.data)
    (hcreates : c.creates = some (d, name)) (hcall : c.outcome fuel s = some (s', some ret))
    (hret : ret = 0 ∨ ret = -ENOMEM) :
    ∃ od i, od ∈ allEntries s'.data ∧ Spells s'.data od i name ∧ entriesNaming s.data i = 0 ∧
      entriesNaming s'.data i = 1 := by
  have h' := h.step ⟨⟨fuel, Callback.outcome_run hcall⟩, hallowed⟩
  have hentered : ret ≠ -ENAMETOOLONG ∧ ret ≠ -EEXIST ∧ ret ≠ -ENOSPC := by
    rcases hret with rfl | rfl <;> decide
  rcases Callback.creates_changes h hallowed hcreates hcall with ⟨_, hlong, _⟩ | ⟨_, _, ret', heq, hchanges⟩
  · exact absurd (Option.some.inj hlong) hentered.1
  obtain rfl := Option.some.inj heq
  cases hchanges with
  | bound => exact absurd rfl hentered.2.1
  | full => exact absurd rfl hentered.2.2
  | @entered k i _ _ hone hspells htwo hfree hcount =>
    have hnone := hc.unnamed h htwo hcount.exists_ino hfree
    have hplace : (d, k) ∈ places g s'.data := hone.places_iff.mpr (.inr rfl)
    refine ⟨direntAt g s'.data d k, i, ?_, hspells, hnone, ?_⟩
    · rw [h'.allEntries_eq]
      exact List.mem_map.mpr ⟨(d, k), hplace, rfl⟩
    · rw [hone.entriesNaming_eq h h' (by omega), hnone, if_pos hspells.ino]

/-- In every state of such a run the link count of a file or symbolic link is the number of its entries, and a
call that makes a new one takes an inode that no entry names. -/
theorem files_counted {md5 : List UInt8 → List UInt8} {args : Format.Arguments} {f : Format}
    (hf : Format.main md5 args = some f) (hrun : Run DentryStep ⟨f.data, -1⟩ cs s) :
    (∀ i oi, 2 ≤ i → ospfsInode s.data i = some oi →
      oiFtype s.data oi = FTYPE_REG ∨ oiFtype s.data oi = FTYPE_SYMLINK →
        oiNlink s.data oi = entriesNaming s.data i) ∧
      ∀ (c : Callback) (d : Nat) (name : Name) (fuel : Nat) (s' : State) (ret : Int),
        c.creates = some (d, name) → c.Allowed s.data → c.outcome fuel s = some (s', some ret) →
          ret = 0 ∨ ret = -ENOMEM →
            ∃ od i, od ∈ allEntries s'.data ∧ Spells s'.data od i name ∧ entriesNaming s.data i = 0 ∧
              entriesNaming s'.data i = 1 := by
  obtain ⟨g, A, _, _, himage⟩ := Format.main_image hf
  have hstart : Counted g (State.data ⟨f.data, -1⟩) := himage.counted
  obtain ⟨h, hc⟩ := hstart.run himage.ready hrun
  constructor
  · intro i oi htwo hoi htype
    obtain ⟨hi, rfl⟩ := h.mounted.sound.ospfsInode_iff.mp hoi
    refine hc i htwo hi ?_
    rcases htype with hreg | hsymlink
    · rw [hreg]
      decide
    · rw [hsymlink]
      decide
  · intro c d name fuel s' ret hcreates hallowed hcall hret
    exact hc.handedOut h hallowed hcreates hcall hret

section Large

instance (m : Bytes) : ∀ c : Callback, Decidable (c.OnDentry m)
  | .unlink dir ino name =>
    inferInstanceAs (Decidable (∀ i, i ∈ resolve m (inodeAddr dir) name → i = ino))
  | .create _ _ _ _ | .symlink _ _ _ _ | .link _ _ _ | .write _ _ _ _ _ | .read _ _ _ _
  | .notifyChange _ _ | .lookup _ _ _ | .readdir _ _ _ _ | .followLink _ _ =>
    inferInstanceAs (Decidable True)

theorem link_counts_large : ∃ f s, Format.main (fun _ => []) Format.largeArguments = some f ∧
    Run DentryStep ⟨f.data, -1⟩ largeCalls s ∧
    (∀ i oi, 2 ≤ i → ospfsInode s.data i = some oi → oiFtype s.data oi ≠ FTYPE_DIR →
      oiNlink s.data oi = entriesNaming s.data i) ∧
    ∀ i, findEmptyInode s.data = some i → ∀ od, od ∈ allEntries s.data → odIno s.data od ≠ i := by
  obtain ⟨f, hf, hdata⟩ := Format.main_large
  obtain ⟨s, hguarded, -⟩ := Run.of_guarded (fun s c => Callback.run 3 s c)
    (fun s c => c.Allowed s.data ∧ c.OnDentry s.data) (fun _ => True) ⟨Format.largeDisk, -1⟩ largeCalls
    (by decide +kernel)
  rw [← hdata] at hguarded
  have hrun : Run DentryStep ⟨f.data, -1⟩ largeCalls s :=
    hguarded.mono fun hstep => ⟨⟨⟨3, hstep.1⟩, hstep.2.1⟩, hstep.2.2⟩
  exact ⟨f, s, hf, hrun, link_counts hf hrun⟩

/-- The symbolic link takes the inode of the file that has been removed. -/
theorem files_counted_large : ∃ f s, Format.main (fun _ => []) Format.largeArguments = some f ∧
    Run DentryStep ⟨f.data, -1⟩ (largeCalls.take 4) s ∧
    (∀ i oi, 2 ≤ i → ospfsInode s.data i = some oi →
      oiFtype s.data oi = FTYPE_REG ∨ oiFtype s.data oi = FTYPE_SYMLINK →
        oiNlink s.data oi = entriesNaming s.data i) ∧
    ∃ s', (Callback.symlink 1 [101] [97] true).outcome 3 s = some (s', some 0) ∧
      ∃ od i, od ∈ allEntries s'.data ∧ Spells s'.data od i [101] ∧ entriesNaming s.data i = 0 ∧
        entriesNaming s'.data i = 1 := by
  obtain ⟨f, hf, hdata⟩ := Format.main_large
  obtain ⟨s, hguarded, hallowed, hlast⟩ := Run.of_guarded (fun s c => Callback.run 3 s c)
    (fun s c => c.Allowed s.data ∧ c.OnDentry s.data)
    (fun s => (Callback.symlink 1 [101] [97] true).Allowed s.data ∧
      ((Callback.symlink 1 [101] [97] true).outcome 3 s).any (fun r => r.2 == some 0) = true)
    ⟨Format.largeDisk, -1⟩ (largeCalls.take 4) (by decide +kernel)
  rw [← hdata] at hguarded
  have hrun : Run DentryStep ⟨f.data, -1⟩ (largeCalls.take 4) s :=
    hguarded.mono fun hstep => ⟨⟨⟨3, hstep.1⟩, hstep.2.1⟩, hstep.2.2⟩
  obtain ⟨⟨s', ret⟩, hcall, hret⟩ := (Option.any_eq_true _ _).mp hlast
  obtain rfl : ret = some 0 := beq_iff_eq.mp hret
  obtain ⟨hcounts, hnew⟩ := files_counted hf hrun
  exact ⟨f, s, hf, hrun, hcounts, s', hcall, hnew _ 1 [101] 3 s' 0 rfl hallowed hcall (.inl rfl)⟩

end Large

end CS111.Ospfs
