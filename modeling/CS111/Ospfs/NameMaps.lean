import CS111.Ospfs.NameTables

/-!
# The names as a map

What the names of all directories lead to, and the steps that the callbacks take on such maps. A map
says nothing of blocks, entries or their order.
-/

namespace CS111.Ospfs

open Memory

set_option autoImplicit false

section Maps

/-- The inode that a name leads to, for every directory. -/
abbrev Names := Nat → Name → Option Nat

/-- `names` with a new meaning for one name. -/
def Names.set (names : Names) (d : Nat) (name : Name) (i : Option Nat) : Names :=
  fun e other => if e = d ∧ other = name then i else names e other

/-- A callback with the value that it returned, if it enters or removes a name. -/
abbrev Returned := Callback × Option Int

/-- The name that a callback enters, and its directory. -/
def Callback.enters : Callback → Option (Nat × Name)
  | .create dir name _ _ | .symlink dir name _ _ | .link _ dir name => some (dir, name)
  | _ => none

def Callback.removes : Callback → Option (Nat × Name)
  | .unlink dir _ name => some (dir, name)
  | _ => none

/-- What the callbacks do to the names. The length is looked at first. -/
inductive NamesStep : Names → Returned → Names → Prop
  | long {names : Names} {c : Callback} (hlong : c.Long) :
      NamesStep names (c, some (-ENAMETOOLONG)) names
  | bound {names : Names} {c : Callback} {d i : Nat} {name : Name} (hc : c.enters = some (d, name))
      (hshort : ¬ c.Long) (hbound : names d name = some i) : NamesStep names (c, some (-EEXIST)) names
  | full {names : Names} {c : Callback} {d : Nat} {name : Name} (hc : c.creates = some (d, name))
      (hshort : ¬ c.Long) (hnone : names d name = none) : NamesStep names (c, some (-ENOSPC)) names
  | created {names : Names} {c : Callback} {d i : Nat} {name : Name} {ret : Int}
      (hc : c.creates = some (d, name)) (hshort : ¬ c.Long) (hnone : names d name = none)
      (hfresh : ∀ e other, names e other ≠ some i)
      (hret : ret = 0 ∨ ret = -ENOMEM ∧ c.findsMemory = false) :
      NamesStep names (c, some ret) (names.set d name (some i))
  | linked {names : Names} {src d e : Nat} {name other : Name}
      (hshort : ¬ (Callback.link src d name).Long) (hnone : names d name = none)
      (hsrc : names e other = some src) :
      NamesStep names (.link src d name, some 0) (names.set d name (some src))
  | missing {names : Names} {d ino : Nat} {name : Name} (hnone : names d name = none) :
      NamesStep names (.unlink d ino name, some (-ENOENT)) names
  | removed {names : Names} {d ino : Nat} {name : Name} {ret : Int} (hbound : names d name = some ino) :
      NamesStep names (.unlink d ino name, some ret) (names.set d name none)
  | other {names : Names} {c : Callback} (henters : c.enters = none) (hremoves : c.removes = none) :
      NamesStep names (c, none) names

/-- A call that enters a name for a new inode, which is one of `free`. -/
structure EntersName (free : Nat → Prop) (names : Names) (c : Callback) (d : Nat) (name : Name) (ret : Int)
    (names' : Names) : Prop where
  long : ret = -ENAMETOOLONG ↔ c.Long
  bound : ret = -EEXIST ↔ ¬ c.Long ∧ names d name ≠ none
  entered : ret = 0 → ∃ i, free i ∧ names' = names.set d name (some i)
  failed : ret ≠ 0 → names' = names

/-- A call that removes a name. -/
structure RemovesName (names : Names) (d : Nat) (name : Name) (ret : Int) (names' : Names) : Prop where
  missing : names d name = none → ret = -ENOENT ∧ names' = names
  removed : names d name ≠ none → names' = names.set d name none

variable {names names' : Names} {c : Callback} {d : Nat} {name : Name} {ret : Int}

theorem Callback.enters_of_creates (hc : c.creates = some (d, name)) : c.enters = some (d, name) := by
  cases c with
  | create | symlink => exact hc
  | _ => cases hc

theorem NamesStep.entersName (h : NamesStep names (c, some ret) names') (hc : c.creates = some (d, name))
    (hmemory : c.findsMemory = true) :
    EntersName (fun i => ∀ e other, names e other ≠ some i) names c d name ret names' := by
  have henters := Callback.enters_of_creates hc
  cases h with
  | long hlong =>
    exact ⟨iff_of_true rfl hlong, iff_of_false (by decide) fun hshort => hshort.1 hlong,
      fun h0 => absurd h0 (by decide), fun _ => rfl⟩
  | bound hc' hshort hbound =>
    obtain ⟨rfl, rfl⟩ := Prod.mk.inj (Option.some.inj (henters.symm.trans hc'))
    have hsome : names d name ≠ none := by
      rw [hbound]
      exact Option.some_ne_none _
    exact ⟨iff_of_false (by decide) hshort, iff_of_true rfl ⟨hshort, hsome⟩,
      fun h0 => absurd h0 (by decide), fun _ => rfl⟩
  | full hc' hshort hnone =>
    obtain ⟨rfl, rfl⟩ := Prod.mk.inj (Option.some.inj (hc.symm.trans hc'))
    exact ⟨iff_of_false (by decide) hshort, iff_of_false (by decide) fun hbound => hbound.2 hnone,
      fun h0 => absurd h0 (by decide), fun _ => rfl⟩
  | created hc' hshort hnone hfresh hret =>
    obtain ⟨rfl, rfl⟩ := Prod.mk.inj (Option.some.inj (hc.symm.trans hc'))
    obtain rfl : ret = 0 := hret.resolve_right fun hno => by
      rw [hmemory] at hno
      cases hno.2
    exact ⟨iff_of_false (by decide) hshort, iff_of_false (by decide) fun hbound => hbound.2 hnone,
      fun _ => ⟨_, hfresh, rfl⟩, fun h0 => absurd rfl h0⟩
  | linked | missing | removed => cases hc

theorem NamesStep.removesName {ino : Nat} (h : NamesStep names (.unlink d ino name, some ret) names') :
    RemovesName names d name ret names' := by
  cases h with
  | long hlong => exact hlong.elim
  | bound hc | full hc | created hc => cases hc
  | missing hnone => exact ⟨fun _ => ⟨rfl, rfl⟩, fun hsome => absurd hnone hsome⟩
  | removed hbound =>
    refine ⟨fun hnone => ?_, fun _ => rfl⟩
    rw [hbound] at hnone
    cases hnone

end Maps

section Disk

/-- The names on the disk. -/
def namesOf (m : Bytes) : Names := fun d name =>
  (ospfsInode m d).bind fun oi => if oiFtype m oi = FTYPE_DIR then resolve m oi name else none

/-- What the kernel sees to, and one thing that `ospfs_link` relies on: names are strings, only what a name
leads to gets another name, and the entry taken for it ends the name with a NUL. -/
def Callback.Proper (m : Bytes) : Callback → Prop
  | .create _ name _ _ | .symlink _ name _ _ => ∀ c, c ∈ name → c ≠ 0
  | .link src dir name => (∀ c, c ∈ name → c ≠ 0) ∧ (∃ e other, namesOf m e other = some src) ∧
      EndsInNul m (inodeAddr dir) name
  | _ => True

def ReturnStep (s : State) (c : Returned) (s' : State) : Prop :=
  (∃ fuel, c.1.outcome fuel s = some (s', c.2)) ∧ c.1.Allowed s.data ∧ c.1.OnDentry s.data ∧
    c.1.Proper s.data

end Disk

variable {g : Geometry} {m m' : Bytes} {s s' s₀ : State} {c : Callback} {cs : List Returned}
variable {d e i j k l od fuel : Nat} {name other : Name} {out : Option Int} {ret : Int}

section Invariant

/-- The type of inode `i` is one that a listing shows. -/
def Known (m : Bytes) (i : Nat) : Prop := (entryType (oiFtype m (inodeAddr i))).isSome = true

/-- A volume on which the names form a map. -/
structure Tables (g : Geometry) (s : State) : Prop where
  ready : Ready g s
  counted : Counted g s.data
  table : ∀ d, d < g.ninodes → oiFtype s.data (inodeAddr d) = FTYPE_DIR → Table g s.data d
  known : ∀ d name i, namesOf s.data d name = some i → i < g.ninodes ∧ Known s.data i

theorem Sound.namesOf_eq (hs : Sound g m) (hd : d < g.ninodes) (hf : oiFtype m (inodeAddr d) = FTYPE_DIR) :
    namesOf m d name = resolve m (inodeAddr d) name := by
  unfold namesOf
  rw [hs.inode hd, Option.bind_some, if_pos hf]

theorem Sound.namesOf_some (hs : Sound g m) (h : namesOf m d name = some i) :
    d < g.ninodes ∧ oiFtype m (inodeAddr d) = FTYPE_DIR := by
  unfold namesOf at h
  obtain ⟨oi, hoi, hresolve⟩ := Option.bind_eq_some_iff.mp h
  obtain ⟨hd, rfl⟩ := hs.ospfsInode_iff.mp hoi
  split at hresolve
  · next hf => exact ⟨hd, hf⟩
  · cases hresolve

/-- Names of directories by their tables. -/
theorem namesOf_iff (h : Ready g s) (ht : ∀ d, d < g.ninodes →
    oiFtype s.data (inodeAddr d) = FTYPE_DIR → Table g s.data d) :
    namesOf s.data d name = some i ↔
      d < g.ninodes ∧ oiFtype s.data (inodeAddr d) = FTYPE_DIR ∧ Listed g s.data d name i := by
  have hs := h.mounted.sound
  constructor
  · intro hname
    obtain ⟨hd, hf⟩ := hs.namesOf_some hname
    rw [hs.namesOf_eq hd hf, (ht d hd hf).resolve_iff hs (h.isDirectory hd hf)] at hname
    exact ⟨hd, hf, hname⟩
  · rintro ⟨hd, hf, hlisted⟩
    rw [hs.namesOf_eq hd hf, (ht d hd hf).resolve_iff hs (h.isDirectory hd hf)]
    exact hlisted

/-- A name that leads nowhere is not in the table. -/
theorem Tables.not_listed (h : Tables g s) (hd : d < g.ninodes)
    (hf : oiFtype s.data (inodeAddr d) = FTYPE_DIR)
    (hnone : findDirentry s.data (inodeAddr d) name = none) (i : Nat) : ¬ Listed g s.data d name i := by
  rw [← (h.table d hd hf).resolve_iff h.ready.mounted.sound (h.ready.isDirectory hd hf)]
  unfold resolve
  rw [hnone]
  exact nofun

/-- An inode that no entry names has no name. -/
theorem Tables.fresh (h : Tables g s) (hnone : entriesNaming s.data i = 0) (e : Nat) (other : Name) :
    namesOf s.data e other ≠ some i := by
  intro hname
  obtain ⟨he, hf, _, k, hentry⟩ := (namesOf_iff h.ready h.table).mp hname
  rw [h.ready.entriesNaming_eq, List.countP_eq_zero] at hnone
  exact hnone (e, k) (mem_places.mpr ⟨he, hf, hentry.has⟩) (by simpa using hentry.ino)

end Invariant

/-! ## What a change of one entry does to the names -/

section Entries

theorem NewCount.known {n : Nat} (h : NewCount g i n m m') (hj : j < g.ninodes) (hknown : Known m j) :
    Known m' j := by
  unfold Known at *
  rcases h.types j hj with hsame | hreg | hsymlink
  · rwa [hsame]
  · rw [hreg]
    rfl
  · rw [hsymlink]
    rfl

/-- The tables of the directories other than `d`. -/
theorem OneEntry.tables (hone : OneEntry g d k m m') (h : Ready g s) (hm : s.data = m)
    (ht : ∀ e, e < g.ninodes → oiFtype m (inodeAddr e) = FTYPE_DIR → Table g m e) (hd : Table g m' d)
    (e : Nat) (he : e < g.ninodes) (hf : oiFtype m' (inodeAddr e) = FTYPE_DIR) : Table g m' e := by
  subst hm
  by_cases hed : e = d
  · subst hed
    exact hd
  · have hf₀ := (hone.dirs e he).mp hf
    exact ((hone.others e he hed hf₀).keeps (h.isDirectory he hf₀)).table (ht e he hf₀)

/-- The names in directories other than `d`. -/
theorem OneEntry.listed_other (hone : OneEntry g d k m m') (h : Ready g s) (hm : s.data = m) (hed : e ≠ d) :
    (e < g.ninodes ∧ oiFtype m' (inodeAddr e) = FTYPE_DIR ∧ Listed g m' e other i) ↔
      e < g.ninodes ∧ oiFtype m (inodeAddr e) = FTYPE_DIR ∧ Listed g m e other i := by
  subst hm
  constructor
  · rintro ⟨he, hf, hlisted⟩
    have hf₀ := (hone.dirs e he).mp hf
    exact ⟨he, hf₀, ((hone.others e he hed hf₀).listed_iff (h.isDirectory he hf₀)).mp hlisted⟩
  · rintro ⟨he, hf, hlisted⟩
    exact ⟨he, (hone.dirs e he).mpr hf,
      ((hone.others e he hed hf).listed_iff (h.isDirectory he hf)).mpr hlisted⟩

variable (h : Tables g s) (h' : Ready g s') (hc' : Counted g s'.data)
include h h' hc'

/-- The entry gets a name that was free. -/
theorem Tables.filled (hone : OneEntry g d k s.data s'.data) (hlen : name.length ≤ 123)
    (hentry : EntryAt g s'.data d k name i) (hnone : findDirentry s.data (inodeAddr d) name = none)
    (hi : i < g.ninodes ∧ Known s'.data i) (hkept : ∀ j, j < g.ninodes → Known s.data j → Known s'.data j) :
    Tables g s' ∧ namesOf s'.data = (namesOf s.data).set d name (some i) := by
  have hd := hone.dir.exists_ino
  have hf := (hone.dirs d hd).mp hone.dir.ftype
  have hfree := h.not_listed hd hf hnone
  have htables := hone.tables h.ready rfl h.table <|
    hone.table (h.table d hd hf) fun _ => ⟨name, hlen, hentry.spelled, hfree⟩
  have hnames : namesOf s'.data = (namesOf s.data).set d name (some i) := by
    funext e other
    apply Option.ext
    intro j
    rw [namesOf_iff h' htables]
    unfold Names.set
    by_cases hed : e = d
    · subst hed
      rw [hone.listed_iff]
      by_cases hother : other = name
      · subst hother
        rw [if_pos ⟨rfl, rfl⟩, Option.some.injEq]
        constructor
        · rintro ⟨_, _, hlisted | ⟨_, hat⟩⟩
          · exact absurd hlisted (hfree j)
          · rw [← hentry.ino, hat.ino]
        · rintro rfl
          exact ⟨hd, hone.dir.ftype, .inr ⟨hlen, hentry⟩⟩
      · rw [if_neg (fun heq => hother heq.2), namesOf_iff h.ready h.table]
        constructor
        · rintro ⟨_, _, hlisted | ⟨_, hat⟩⟩
          · exact ⟨hd, hf, hlisted⟩
          · exact absurd (entryMatches_unique hentry.spelled hat.spelled) hother
        · rintro ⟨_, _, hlisted⟩
          exact ⟨hd, hone.dir.ftype, .inl hlisted⟩
    · rw [if_neg (fun heq => hed heq.1), namesOf_iff h.ready h.table]
      exact hone.listed_other h.ready rfl hed
  refine ⟨⟨h', hc', htables, fun e other j hj => ?_⟩, hnames⟩
  rw [hnames] at hj
  unfold Names.set at hj
  split at hj
  · rw [← Option.some.inj hj]
    exact hi
  · obtain ⟨hlt, hknown⟩ := h.known e other j hj
    exact ⟨hlt, hkept j hlt hknown⟩

/-- The names stay, and so do the types that were known. -/
theorem Tables.of_names (htables : ∀ d, d < g.ninodes → oiFtype s'.data (inodeAddr d) = FTYPE_DIR →
      Table g s'.data d)
    (hnames : namesOf s'.data = namesOf s.data)
    (hkept : ∀ j, j < g.ninodes → Known s.data j → Known s'.data j) :
    Tables g s' ∧ namesOf s'.data = namesOf s.data := by
  refine ⟨⟨h', hc', htables, fun e other j hj => ?_⟩, hnames⟩
  rw [hnames] at hj
  obtain ⟨hlt, hknown⟩ := h.known e other j hj
  exact ⟨hlt, hkept j hlt hknown⟩

/-- The entry stays blank. -/
theorem Tables.blank (hone : OneEntry g d k s.data s'.data)
    (hblank : odIno s'.data (direntAt g s'.data d k) = 0)
    (hkept : ∀ j, j < g.ninodes → Known s.data j → Known s'.data j) :
    Tables g s' ∧ namesOf s'.data = namesOf s.data := by
  have hd := hone.dir.exists_ino
  have hf := (hone.dirs d hd).mp hone.dir.ftype
  have htables := hone.tables h.ready rfl h.table <|
    hone.table (h.table d hd hf) fun h0 => absurd hblank h0
  refine h.of_names h' hc' htables ?_ hkept
  funext e other
  apply Option.ext
  intro j
  rw [namesOf_iff h' htables, namesOf_iff h.ready h.table]
  by_cases hed : e = d
  · subst hed
    rw [hone.listed_iff]
    have hno : ¬ EntryAt g s'.data e k other j := fun hat =>
      absurd (hat.ino.symm.trans hblank) (Nat.ne_of_gt hat.pos)
    simp only [hno, and_false, or_false, hd, hf, hone.dir.ftype]
  · exact hone.listed_other h.ready rfl hed

/-- The entry is cleared. -/
theorem Tables.cleared (hone : OneEntry g d k s'.data s.data) (hlen : name.length ≤ 123)
    (hentry : EntryAt g s.data d k name i)
    (hkept : ∀ j, j < g.ninodes → Known s.data j → Known s'.data j) :
    Tables g s' ∧ namesOf s'.data = (namesOf s.data).set d name none := by
  have hd := hone.dir.exists_ino
  have hf' := (hone.dirs d hd).mp hone.dir.ftype
  have ht := h.table d hd hone.dir.ftype
  have htables : ∀ e, e < g.ninodes → oiFtype s'.data (inodeAddr e) = FTYPE_DIR → Table g s'.data e := by
    intro e he hf
    by_cases hed : e = d
    · subst hed
      exact hone.keeps.table ht
    · have hf₀ := (hone.dirs e he).mpr hf
      exact ((hone.others e he hed hf).symm.keeps (h.ready.isDirectory he hf₀)).table (h.table e he hf₀)
  have hnames : namesOf s'.data = (namesOf s.data).set d name none := by
    funext e other
    apply Option.ext
    intro j
    rw [namesOf_iff h' htables]
    unfold Names.set
    by_cases hed : e = d
    · subst hed
      by_cases hother : other = name
      · subst hother
        rw [if_pos ⟨rfl, rfl⟩]
        refine iff_of_false ?_ nofun
        rintro ⟨_, _, _, l, hat⟩
        -- it would be a second entry with the name
        have hat₀ := hone.keeps.entry hlen hat
        have hlk := ht.unique l k other hlen hat₀.has hentry.has hat₀.spelled hentry.spelled
        subst hlk
        exact absurd (hat.ino.symm.trans (hone.blank hat.has)) (Nat.ne_of_gt hat.pos)
      · rw [if_neg (fun heq => hother heq.2), namesOf_iff h.ready h.table, hone.listed_iff]
        constructor
        · rintro ⟨_, _, hlisted⟩
          exact ⟨hd, hone.dir.ftype, .inl hlisted⟩
        · rintro ⟨_, _, hlisted | ⟨_, hat⟩⟩
          · exact ⟨hd, hf', hlisted⟩
          · exact absurd (entryMatches_unique hentry.spelled hat.spelled) hother
    · rw [if_neg (fun heq => hed heq.1), namesOf_iff h.ready h.table]
      exact (hone.listed_other h' rfl hed).symm
  refine ⟨⟨h', hc', htables, fun e other j hj => ?_⟩, hnames⟩
  rw [hnames] at hj
  unfold Names.set at hj
  split at hj
  · cases hj
  · obtain ⟨hlt, hknown⟩ := h.known e other j hj
    exact ⟨hlt, hkept j hlt hknown⟩

theorem Tables.quiet (hq : Quiet g s.data s'.data) : Tables g s' ∧ namesOf s'.data = namesOf s.data := by
  have htables : ∀ e, e < g.ninodes → oiFtype s'.data (inodeAddr e) = FTYPE_DIR → Table g s'.data e := by
    intro e he hf
    rw [hq.ftype e he] at hf
    exact ((hq.dir e he hf).keeps (h.ready.isDirectory he hf)).table (h.table e he hf)
  refine h.of_names h' hc' htables ?_ fun j hj hknown => ?_
  · funext e other
    apply Option.ext
    intro j
    rw [namesOf_iff h' htables, namesOf_iff h.ready h.table]
    refine and_congr_right fun he => ?_
    rw [hq.ftype e he]
    exact and_congr_right fun hf => (hq.dir e he hf).listed_iff (h.ready.isDirectory he hf)
  · unfold Known at *
    rwa [hq.ftype j hj]

end Entries

/-! ## Runs -/

section Runs

/-- What `find_direntry` finds has a name. -/
theorem Tables.bound (h : Tables g s) (hd : d < g.ninodes) (hf : oiFtype s.data (inodeAddr d) = FTYPE_DIR)
    (hbound : (findDirentry s.data (inodeAddr d) name).isSome = true) :
    ∃ i, namesOf s.data d name = some i := by
  obtain ⟨od, hod⟩ := Option.isSome_iff_exists.mp hbound
  refine ⟨odIno s.data od, ?_⟩
  rw [h.ready.mounted.sound.namesOf_eq hd hf]
  unfold resolve
  rw [hod]
  rfl

/-- What it does not find has none. -/
theorem Tables.unbound (h : Tables g s) (hnone : findDirentry s.data (inodeAddr d) name = none) :
    namesOf s.data d name = none := by
  rw [Option.eq_none_iff_forall_not_mem]
  intro i hi
  obtain ⟨hd, hf⟩ := h.ready.mounted.sound.namesOf_some hi
  rw [h.ready.mounted.sound.namesOf_eq hd hf] at hi
  unfold resolve at hi
  rw [hnone] at hi
  cases hi

/-- `ospfs_create` and `ospfs_symlink`. -/
theorem Tables.creates (h : Tables g s) (h' : Ready g s') (hc' : Counted g s'.data)
    (hc : c.creates = some (d, name)) (hshort : ¬ c.Long) (hlen : name.length ≤ 123)
    (hchars : ∀ b, b ∈ name → b ≠ 0)
    (hdir : oiFtype s.data (inodeAddr d) = FTYPE_DIR)
    (hcreates : Creates g s s' d name c.findsMemory ret) :
    Tables g s' ∧ NamesStep (namesOf s.data) (c, some ret) (namesOf s'.data) := by
  have henters := Callback.enters_of_creates hc
  cases hcreates with
  | bound hd hbound hsame =>
    subst hsame
    obtain ⟨i, hi⟩ := h.bound hd hdir hbound
    exact ⟨h, .bound henters hshort hi⟩
  | full hnone hone hblank _ htypes =>
    obtain ⟨htables, hnames⟩ := h.blank h' hc' hone hblank fun j hj hknown => by
      unfold Known at *
      rwa [htypes j hj]
    rw [hnames]
    exact ⟨htables, .full hc hshort (h.unbound hnone)⟩
  | @entered k i _ hnone hone hspells htwo hfree hcount hmade hret =>
    have hi := hcount.exists_ino
    have hentry : EntryAt g s'.data d k name i :=
      ⟨(hone.has k).mpr (.inr rfl), hspells.matches hchars (by omega), hspells.ino⟩
    have hknown : Known s'.data i := by
      unfold Known
      rcases hmade with hreg | hsymlink
      · rw [hreg]
        rfl
      · rw [hsymlink]
        rfl
    obtain ⟨htables, hnames⟩ := h.filled h' hc' hone hlen hentry hnone ⟨hi, hknown⟩
      fun j hj => hcount.known hj
    rw [hnames]
    have hunnamed := h.counted.unnamed h.ready htwo hi hfree
    exact ⟨htables, .created hc hshort (h.unbound hnone) (h.fresh hunnamed) hret⟩

/-- `ospfs_link`. -/
theorem Tables.links {src : Nat} (h : Tables g s) (h' : Ready g s') (hc' : Counted g s'.data)
    (hallowed : (Callback.link src d name).Allowed s.data)
    (hproper : (Callback.link src d name).Proper s.data)
    (hlink : ospfsLink fuel s src d name = some (s', ret)) :
    Tables g s' ∧ NamesStep (namesOf s.data) (.link src d name, some ret) (namesOf s'.data) := by
  obtain ⟨hchars, ⟨e, other, hsrc⟩, hends⟩ := hproper
  have hd := ospfsLink_exists h.ready.mounted.sound h.ready.counter hlink
  obtain ⟨hlt, hknown⟩ := h.known e other src hsrc
  rcases ospfsLink_changes h.ready hallowed hlink with ⟨hlong, rfl, rfl⟩ | ⟨hlen, hbound, rfl, rfl⟩ |
    ⟨hlen, hnone, rfl, k, hone, hino, htext, hnul, hcount⟩
  · exact ⟨h, .long hlong⟩
  · obtain ⟨i, hi⟩ := h.bound hd hallowed.served.1 hbound
    exact ⟨h, .bound rfl (Nat.not_lt.mpr hlen) hi⟩
  · have hspells : Spells s'.data (direntAt g s'.data d k) src name := ⟨hino, htext, hnul.mpr hends⟩
    have hpos : 0 < src := by
      obtain ⟨_, _, _, l, hat⟩ := (namesOf_iff h.ready h.table).mp hsrc
      exact hat.pos
    have hentry : EntryAt g s'.data d k name src :=
      ⟨(hone.has k).mpr (.inr rfl), hspells.matches hchars hpos, hino⟩
    obtain ⟨htables, hnames⟩ := h.filled h' hc' hone hlen hentry hnone ⟨hlt, hcount.known hlt hknown⟩
      fun j hj => hcount.known hj
    rw [hnames]
    exact ⟨htables, .linked (Nat.not_lt.mpr hlen) (h.unbound hnone) hsrc⟩

/-- `ospfs_unlink`. -/
theorem Tables.unlinks {ino : Nat} (h : Tables g s) (h' : Ready g s') (hc' : Counted g s'.data)
    (hallowed : (Callback.unlink d ino name).Allowed s.data)
    (hdentry : (Callback.unlink d ino name).OnDentry s.data)
    (hunlink : ospfsUnlink fuel s d ino name = some (s', ret)) :
    Tables g s' ∧ NamesStep (namesOf s.data) (.unlink d ino name, some ret) (namesOf s'.data) := by
  have hs := h.ready.mounted.sound
  rcases ospfsUnlink_changes h.ready hallowed hunlink with ⟨hnone, rfl, rfl⟩ | ⟨k, hfound, hone, hcount⟩
  · exact ⟨h, .missing (h.unbound hnone)⟩
  · have hd := hone.dir
    obtain ⟨hhas, hmatch, _⟩ := (entryNamed_some hd.aligned).mp hfound
    have hresolve : resolve s.data (inodeAddr d) name = some (odIno s.data (direntAt g s.data d k)) := by
      rw [resolve_eq hs hd, hfound]
      rfl
    have hino := hdentry _ hresolve
    have hentry : EntryAt g s.data d k name ino := ⟨hhas, hmatch, hino⟩
    obtain ⟨htables, hnames⟩ := h.cleared h' hc' hone
      ((h.table d hd.exists_ino hd.ftype).length_le hentry) hentry fun j hj => hcount.known hj
    rw [hnames]
    refine ⟨htables, .removed ?_⟩
    rw [hs.namesOf_eq hd.exists_ino hd.ftype, hresolve, hino]

theorem Tables.step (h : Tables g s) {l : Returned} (hstep : ReturnStep s l s') :
    Tables g s' ∧ NamesStep (namesOf s.data) l (namesOf s'.data) := by
  obtain ⟨⟨fuel, hout⟩, hallowed, hdentry, hproper⟩ := hstep
  obtain ⟨c, out⟩ := l
  dsimp only at hout hallowed hdentry hproper
  have hdentryStep : DentryStep s c s' := ⟨⟨⟨fuel, Callback.outcome_run hout⟩, hallowed⟩, hdentry⟩
  have h' := h.ready.step hdentryStep.1
  have hc' := h.counted.step h.ready hdentryStep
  have creating : ∀ d name, c.creates = some (d, name) → (∀ b, b ∈ name → b ≠ 0) →
      oiFtype s.data (inodeAddr d) = FTYPE_DIR →
        Tables g s' ∧ NamesStep (namesOf s.data) (c, out) (namesOf s'.data) := by
    intro d name hc hchars hdir
    rcases Callback.creates_changes h.ready hallowed hc hout with ⟨hlong, rfl, rfl⟩ |
      ⟨hshort, hlen, ret, rfl, hcreates⟩
    · exact ⟨h, .long hlong⟩
    · exact h.creates h' hc' hc hshort hlen hchars hdir hcreates
  cases c with
  | create dir name mode newInode => exact creating dir name rfl hproper hallowed.served.1
  | symlink dir name symname newInode => exact creating dir name rfl hproper hallowed.served.1
  | link src dir name =>
    obtain ⟨ret, rfl, hlink⟩ := returned_iff.mp hout
    exact h.links h' hc' hallowed hproper hlink
  | unlink dir ino name =>
    obtain ⟨ret, rfl, hunlink⟩ := returned_iff.mp hout
    exact h.unlinks h' hc' hallowed hdentry hunlink
  | write | read | notifyChange | lookup | readdir | followLink =>
    obtain ⟨_, _, heq⟩ := Option.map_eq_some_iff.mp hout
    obtain ⟨rfl, rfl⟩ := Prod.mk.inj heq
    obtain ⟨htables, hnames⟩ := h.quiet h' hc' (Callback.outcome_quiet h.ready hallowed hout)
    rw [hnames]
    exact ⟨htables, .other rfl rfl⟩

/-- The disk does what the map does. -/
theorem Tables.run (h : Tables g s₀) (hrun : Run ReturnStep s₀ cs s) :
    Tables g s ∧ Run NamesStep (namesOf s₀.data) cs (namesOf s.data) := by
  obtain ⟨names, hnames, htables, rfl⟩ := hrun.simulate
    (R := fun t names => Tables g t ∧ namesOf t.data = names) (fun {t l r names} ht hstep => by
      obtain ⟨ht, rfl⟩ := ht
      obtain ⟨hr, hnames⟩ := ht.step hstep
      exact ⟨_, hnames, hr, rfl⟩) ⟨h, rfl⟩
  exact ⟨htables, hnames⟩

end Runs

end CS111.Ospfs
