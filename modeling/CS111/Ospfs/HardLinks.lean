import CS111.Ospfs.FormatTree

/-!
# The table of hard links

The parameter `host_ino` of `get_hardlink` and `add_hardlink` is an `unsigned long` of 64 bits, and
the field of `struct Hardlink` has 32. A host inode number that does not fit is not found again, and
what is left of it is found for another one. The option `-c` is off.
-/

namespace CS111.Ospfs

set_option autoImplicit false

structure LinkCall where
  hostIno : Nat
  ospIno : Nat
  digest : Option (List UInt8)
  deriving Repr, DecidableEq

namespace Format
variable {f : Format} {calls : List LinkCall} {call : LinkCall} {host osp : Nat}
  {digest : Option (List UInt8)}

def addHardlinks (f : Format) (calls : List LinkCall) : Format :=
  calls.foldl (fun f call => f.addHardlink call.hostIno call.ospIno call.digest) f

/-- The number of the last call with a certain property, or else `r`. -/
def lastIno (p : LinkCall → Bool) (r : Nat) (calls : List LinkCall) : Nat :=
  calls.foldl (fun r call => if p call then call.ospIno else r) r

/-- Every host inode number is found with its most recent number, and 0 is found for the others. -/
def LooksUp (f : Format) (calls : List LinkCall) : Prop :=
  ∀ host digest, host < 18446744073709551616 →
    (f.addHardlinks calls).getHardlink host digest =
      lastIno (fun call => call.hostIno == host) 0 calls

section Lookup

theorem lastIno_cons (p : LinkCall → Bool) (r : Nat) (call : LinkCall) (calls : List LinkCall) :
    lastIno p r (call :: calls) = lastIno p (if p call then call.ospIno else r) calls := rfl

theorem lastIno_congr {p q : LinkCall → Bool} {r : Nat} (h : ∀ call, call ∈ calls → p call = q call) :
    lastIno p r calls = lastIno q r calls := by
  induction calls generalizing r with
  | nil => rfl
  | cons call calls ih =>
    obtain ⟨hcall, hcalls⟩ := List.forall_mem_cons.mp h
    rw [lastIno_cons, lastIno_cons, hcall, ih hcalls]

theorem lastIno_none {p : LinkCall → Bool} {r : Nat} (h : ∀ call, call ∈ calls → p call = false) :
    lastIno p r calls = r := by
  induction calls generalizing r with
  | nil => rfl
  | cons call calls ih =>
    obtain ⟨hcall, hcalls⟩ := List.forall_mem_cons.mp h
    rw [lastIno_cons, hcall, ih hcalls]
    rfl

theorem lastIno_ne_zero {p : LinkCall → Bool} {r : Nat}
    (hosp : ∀ call, call ∈ calls → call.ospIno ≠ 0)
    (h : r ≠ 0 ∨ ∃ call, call ∈ calls ∧ p call = true) : lastIno p r calls ≠ 0 := by
  induction calls generalizing r with
  | nil =>
    rcases h with hr | ⟨call, hmem, -⟩
    · exact hr
    · cases hmem
  | cons call calls ih =>
    obtain ⟨hcall, hcalls⟩ := List.forall_mem_cons.mp hosp
    rw [lastIno_cons]
    apply ih hcalls
    by_cases hp : p call = true
    · rw [if_pos hp]
      exact .inl hcall
    · rw [if_neg hp]
      rcases h with hr | ⟨call', hmem, hp'⟩
      · exact .inl hr
      · rcases List.mem_cons.mp hmem with rfl | hmem
        · exact absurd hp' hp
        · exact .inr ⟨call', hmem, hp'⟩

theorem getHardlink_add (hc : f.linkContents = false) :
    (f.addHardlink call.hostIno call.ospIno call.digest).getHardlink host digest =
      if host ≠ 0 ∧ u32 call.hostIno = host then call.ospIno else f.getHardlink host digest := by
  unfold getHardlink addHardlink
  simp only [hc, Bool.false_eq_true, false_and, or_false, List.find?_cons]
  by_cases hhost : host ≠ 0 ∧ u32 call.hostIno = host
  · rw [if_pos hhost, decide_eq_true hhost]
  · rw [if_neg hhost, decide_eq_false hhost]

theorem getHardlink_addHardlinks (hc : f.linkContents = false) :
    (f.addHardlinks calls).getHardlink host digest =
      lastIno (fun call => decide (host ≠ 0 ∧ u32 call.hostIno = host)) (f.getHardlink host digest)
        calls := by
  induction calls generalizing f with
  | nil => rfl
  | cons call calls ih =>
    have hnext : (f.addHardlink call.hostIno call.ospIno call.digest).linkContents = false := hc
    rw [addHardlinks, List.foldl_cons, ← addHardlinks, ih hnext, getHardlink_add hc, lastIno_cons]
    simp only [decide_eq_true_eq]

theorem getHardlink_empty (h : f.hardlinks = []) : f.getHardlink host digest = 0 := by
  unfold getHardlink
  rw [h]
  rfl

end Lookup

section Names

/-- The inode number of a name of a host file: the one in the table, or a new one that goes there. -/
def nameIno (f : Format) (host new : Nat) : Format × Nat :=
  if f.getHardlink host none = 0 then (f.addHardlink host new none, new)
  else (f, f.getHardlink host none)

/-- The names of host files one after the other, each with the number that a new inode would get. The
result pairs the host files with their inode numbers. -/
def nameInos (f : Format) : List (Nat × Nat) → List (Nat × Nat)
  | [] => []
  | (host, new) :: names =>
    let r := f.nameIno host new
    (host, r.2) :: nameInos r.1 names

/-- One number for each host inode in the table, and one host inode for each number. -/
structure OneToOne (f : Format) : Prop where
  linkContents : f.linkContents = false
  ne_zero : ∀ c, c ∈ f.hardlinks → c.hostIno ≠ 0 ∧ c.ospIno ≠ 0
  same : ∀ c d, c ∈ f.hardlinks → d ∈ f.hardlinks → (c.hostIno = d.hostIno ↔ c.ospIno = d.ospIno)

theorem OneToOne.getHardlink (h : OneToOne f) (hhost : host ≠ 0) :
    (f.getHardlink host none = 0 ∧ ∀ c, c ∈ f.hardlinks → c.hostIno ≠ host) ∨
      ∃ c, c ∈ f.hardlinks ∧ c.hostIno = host ∧ f.getHardlink host none = c.ospIno ∧
        c.ospIno ≠ 0 := by
  unfold Format.getHardlink
  simp only [h.linkContents, Bool.false_eq_true, false_and, or_false]
  cases hfind : f.hardlinks.find? fun cur => decide (host ≠ 0 ∧ cur.hostIno = host) with
  | none =>
    refine .inl ⟨rfl, fun c hc heq => ?_⟩
    have hno := List.find?_eq_none.mp hfind c hc
    exact hno (decide_eq_true ⟨hhost, heq⟩)
  | some c =>
    have hc := List.mem_of_find?_eq_some hfind
    have hfound := List.find?_some hfind
    have hcur := of_decide_eq_true hfound
    exact .inr ⟨c, hc, hcur.2, rfl, (h.ne_zero c hc).2⟩

/-- The table after a name, and where the number of the name is in it. -/
theorem OneToOne.nameIno {new : Nat} (h : OneToOne f) (hhost : host ≠ 0) (hsmall : host < 4294967296)
    (hnew : new ≠ 0 ∧ ∀ c, c ∈ f.hardlinks → c.ospIno ≠ new) :
    OneToOne (f.nameIno host new).1 ∧
      (∃ c, c ∈ (f.nameIno host new).1.hardlinks ∧ c.hostIno = host ∧
        c.ospIno = (f.nameIno host new).2) ∧
      ∀ c, c ∈ (f.nameIno host new).1.hardlinks → c ∈ f.hardlinks ∨ c.ospIno = new := by
  unfold Format.nameIno
  rcases h.getHardlink hhost with ⟨h0, habsent⟩ | ⟨c, hc, hchost, hfound, hne⟩
  · rw [if_pos h0]
    unfold addHardlink
    rw [u32_of_lt hsmall]
    refine ⟨⟨h.linkContents, ?_, ?_⟩, ⟨_, List.mem_cons_self, rfl, rfl⟩, ?_⟩
    · intro c hc
      rcases List.mem_cons.mp hc with rfl | hc
      · exact ⟨hhost, hnew.1⟩
      · exact h.ne_zero c hc
    · intro c d hc hd
      rcases List.mem_cons.mp hc with rfl | hc <;> rcases List.mem_cons.mp hd with rfl | hd
      · exact iff_of_true rfl rfl
      · exact iff_of_false (Ne.symm (habsent d hd)) (Ne.symm (hnew.2 d hd))
      · exact iff_of_false (habsent c hc) (hnew.2 c hc)
      · exact h.same c d hc hd
    · intro c hc
      rcases List.mem_cons.mp hc with rfl | hc
      · exact .inr rfl
      · exact .inl hc
  · have h0 : f.getHardlink host none ≠ 0 := by rwa [hfound]
    rw [if_neg h0]
    exact ⟨h, ⟨c, hc, hchost, hfound.symm⟩, fun c hc => .inl hc⟩

/-- What the names of a list need: small host numbers, and new inodes that are all different. -/
def Nameable (used : List Hardlink) (names : List (Nat × Nat)) : Prop :=
  (∀ x, x ∈ names → x.1 ≠ 0 ∧ x.1 < 4294967296 ∧ x.2 ≠ 0 ∧ ∀ c, c ∈ used → c.ospIno ≠ x.2) ∧
    (names.map Prod.snd).Nodup

theorem OneToOne.nameInos {names : List (Nat × Nat)} (h : OneToOne f)
    (hn : Nameable f.hardlinks names) : ∃ f', OneToOne f' ∧
      (∀ c, c ∈ f.hardlinks → c ∈ f'.hardlinks) ∧
      ∀ x, x ∈ f.nameInos names → ∃ c, c ∈ f'.hardlinks ∧ c.hostIno = x.1 ∧ c.ospIno = x.2 := by
  induction names generalizing f with
  | nil => exact ⟨f, h, fun _ hc => hc, fun x hx => absurd hx List.not_mem_nil⟩
  | cons name names ih =>
    obtain ⟨host, new⟩ := name
    obtain ⟨hall, hnodup⟩ := hn
    rw [List.map_cons, List.nodup_cons] at hnodup
    obtain ⟨⟨hhost, hsmall, hnew⟩, hrest⟩ := List.forall_mem_cons.mp hall
    obtain ⟨hone, hmem, hold⟩ := h.nameIno hhost hsmall hnew
    have hnext : Nameable (f.nameIno host new).1.hardlinks names := by
      refine ⟨fun x hx => ?_, hnodup.2⟩
      obtain ⟨hx1, hx2, hx3, hx4⟩ := hrest x hx
      refine ⟨hx1, hx2, hx3, fun c hc => ?_⟩
      rcases hold c hc with hc | hc
      · exact hx4 c hc
      · intro heq
        exact hnodup.1 (List.mem_map.mpr ⟨x, hx, by rw [← heq, hc]⟩)
    obtain ⟨f', hone', hkept, hnames⟩ := ih hone hnext
    refine ⟨f', hone', fun c hc => hkept c ?_, fun x hx => ?_⟩
    · unfold Format.nameIno
      split
      · exact List.mem_cons_of_mem _ hc
      · exact hc
    · rcases List.mem_cons.mp hx with rfl | hx
      · obtain ⟨c, hc, hchost, hcino⟩ := hmem
        exact ⟨c, hkept c hc, hchost, hcino⟩
      · exact hnames x hx

end Names

section Formatter
variable {g : Geometry} {A : Nodes} {f' : Format} {d mode : Nat} {es : List (Name × Nat)}
  {name target : Name} {content : List UInt8} {md5 : List UInt8 → List UInt8}

/-- A new name in directory `d` leads to the inode of `nameIno`, which keeps the table. -/
structure GivesIno (g : Geometry) (d : Nat) (es : List (Name × Nat)) (name : Name) (host : Nat)
    (f f' : Format) : Prop where
  entry : ∃ A', Built g A' f' ∧ A'[d]? = some (.dir (es ++ [(name, (f.nameIno host f.nextinode).2)]))
  table : f'.hardlinks = (f.nameIno host f.nextinode).1.hardlinks
  linkContents : f'.linkContents = false

variable (h : Built g A f) (hd : A[d]? = some (.dir es)) (hc : f.linkContents = false)
include h hd hc

theorem Built.givesIno {nd : Node} (hlc : f'.linkContents = f.linkContents)
    (hnew : f.getHardlink host none = 0 → Built g (A.add d name nd) f' ∧
      f'.hardlinks = f.rememberedLinks host A.length none true)
    (hold : f.getHardlink host none ≠ 0 → Built g (A.enter d (name, f.getHardlink host none)) f' ∧
      f'.hardlinks = f.hardlinks) : GivesIno g d es name host f f' := by
  by_cases h0 : f.getHardlink host none = 0
  · obtain ⟨hbuilt, htable⟩ := hnew h0
    have hname : f.nameIno host f.nextinode = (f.addHardlink host A.length none, A.length) := by
      rw [nameIno, if_pos h0, h.count]
    constructor
    · rw [hname]
      exact ⟨_, hbuilt, Nodes.getElem?_add_self hd⟩
    · rw [hname]
      exact htable
    · exact hlc.trans hc
  · obtain ⟨hbuilt, htable⟩ := hold h0
    have hname : f.nameIno host f.nextinode = (f, f.getHardlink host none) := by
      rw [nameIno, if_neg h0]
    constructor
    · rw [hname]
      exact ⟨_, hbuilt, Nodes.getElem?_enter_self hd⟩
    · rw [hname]
      exact htable
    · exact hlc.trans hc

theorem writefile_givesIno (hhost : host ≠ 0)
    (hr : f.writefile md5 (inodeAddr d) name host mode content = some f') :
    GivesIno g d es name host f f' := by
  obtain ⟨hlc, hnew, hold⟩ := writefile_built h hd hr
  have hino : linkIno md5 f host content = f.getHardlink host none := by
    unfold linkIno
    rw [hc, if_pos (.inl hhost)]
    rfl
  simp only [hino, hc, hhost, ne_eq, not_false_eq_true, true_or, decide_true] at hnew hold
  exact h.givesIno hd hc hlc hnew hold

theorem addsymlink_givesIno (hhost : host ≠ 0)
    (hr : f.addsymlink (inodeAddr d) name target host = some f') :
    GivesIno g d es name host f f' := by
  obtain ⟨hlc, hnew, hold⟩ := addsymlink_built h hd hr
  have hino : symlinkIno f host = f.getHardlink host none := if_pos hhost
  simp only [hino, hhost, ne_eq, not_false_eq_true, decide_true] at hnew hold
  exact h.givesIno hd hc hlc hnew hold

omit hd hc in
/-- The table stays one to one, and has the number that the name leads to. -/
theorem GivesIno.oneToOne (hgives : GivesIno g d es name host f f') (hone : OneToOne f)
    (hhost : host ≠ 0) (hsmall : host < 4294967296) :
    OneToOne f' ∧ ∃ c, c ∈ f'.hardlinks ∧ c.hostIno = host ∧
      c.ospIno = (f.nameIno host f.nextinode).2 := by
  have hfresh : f.nextinode ≠ 0 ∧ ∀ c, c ∈ f.hardlinks → c.ospIno ≠ f.nextinode := by
    rw [h.count]
    have hlen := h.wellFormed.two_le
    exact ⟨by omega, fun c hc => Nat.ne_of_lt (h.hardlinks c hc).2.1⟩
  obtain ⟨hnext, hmem, -⟩ := hone.nameIno hhost hsmall hfresh
  rw [hgives.table]
  refine ⟨⟨hgives.linkContents, ?_, ?_⟩, hmem⟩
  · rw [hgives.table]
    exact hnext.ne_zero
  · rw [hgives.table]
    exact hnext.same

end Formatter

/-- Every lookup is right, and host files share an inode exactly when they have the same number, as
long as the host numbers fit in 32 bits. If one of them does not, a lookup goes wrong. -/
theorem hardlinks_look_up (hempty : f.hardlinks = []) (hc : f.linkContents = false)
    (hhost : ∀ call, call ∈ calls → call.hostIno ≠ 0 ∧ call.hostIno < 18446744073709551616) :
    ((∀ call, call ∈ calls → call.hostIno < 4294967296) → LooksUp f calls) ∧
      ((∀ call, call ∈ calls → call.ospIno ≠ 0) → LooksUp f calls →
        ∀ call, call ∈ calls → call.hostIno < 4294967296) ∧
      ∀ names x y, Nameable [] names → x ∈ f.nameInos names → y ∈ f.nameInos names →
        (x.1 = y.1 ↔ x.2 = y.2) := by
  refine ⟨?_, ?_, ?_⟩
  · intro hsmall host digest _
    rw [getHardlink_addHardlinks hc, getHardlink_empty hempty]
    apply lastIno_congr
    intro call hcall
    rw [u32_of_lt (hsmall call hcall)]
    by_cases heq : call.hostIno = host
    · rw [beq_iff_eq.mpr heq]
      exact decide_eq_true ⟨heq ▸ (hhost call hcall).1, heq⟩
    · rw [beq_eq_false_iff_ne.mpr heq]
      exact decide_eq_false fun h => heq h.2
  · intro hosp h call hcall
    by_contra hlarge
    have hlookup := h call.hostIno none (hhost call hcall).2
    rw [getHardlink_addHardlinks hc, getHardlink_empty hempty, lastIno_none fun d _ =>
      decide_eq_false fun hd => hlarge (by rw [← hd.2]; exact u32_lt d.hostIno)] at hlookup
    have hself : (call.hostIno == call.hostIno) = true := beq_self_eq_true call.hostIno
    exact lastIno_ne_zero hosp (.inr ⟨call, hcall, hself⟩) hlookup.symm
  · intro names x y hnames hx hy
    have hone : OneToOne f := ⟨hc, by rw [hempty]; simp, by rw [hempty]; simp⟩
    obtain ⟨f', hone', -, hin⟩ := hone.nameInos (hempty ▸ hnames)
    obtain ⟨c, hcx, hcx1, hcx2⟩ := hin x hx
    obtain ⟨d, hdy, hdy1, hdy2⟩ := hin y hy
    rw [← hcx1, ← hcx2, ← hdy1, ← hdy2]
    exact hone'.same c d hcx hdy

section Tables

def emptyTable : Format := ⟨8, 4, false, fun _ => 0, 0, 0, []⟩

theorem hardlinks_look_up_small : LooksUp emptyTable [⟨5, 2, none⟩, ⟨6, 3, none⟩] :=
  (hardlinks_look_up rfl rfl (by decide)).1 (by decide)

/-- Host inode 4294967301 is not found again, and is taken for host inode 5. -/
theorem large_host_ino_truncated :
    (emptyTable.addHardlinks [⟨4294967301, 2, none⟩]).getHardlink 4294967301 none = 0 ∧
      (emptyTable.addHardlinks [⟨4294967301, 2, none⟩]).getHardlink 5 none = 2 ∧
      ¬ LooksUp emptyTable [⟨4294967301, 2, none⟩] ∧
      emptyTable.nameInos [(4294967301, 2), (4294967301, 3), (5, 4)] =
        [(4294967301, 2), (4294967301, 3), (5, 3)] := by
  refine ⟨by decide, by decide, fun h => ?_, by decide⟩
  exact absurd (h 5 none (by decide)) (by decide)

end Tables

end Format

end CS111.Ospfs
