import CS111.Ospfs.Nodes

/-!
# Entering a host tree

`install` is what `writedirectory` does to a tree of inodes when no host file has a second link.
-/

namespace CS111.Ospfs

open Format

set_option autoImplicit false

namespace Host

/-- No file or symbolic link has more than one link. -/
def Unlinked : Host → Prop
  | .nil => True
  | .file _ hostIno _ _ rest => hostIno = 0 ∧ rest.Unlinked
  | .dir _ _ sub rest => sub.Unlinked ∧ rest.Unlinked
  | .symlink _ hostIno _ rest => hostIno = 0 ∧ rest.Unlinked
  | .other _ rest => rest.Unlinked

/-- The number of directories that are not skipped. -/
def subdirs : Host → Nat
  | .nil => 0
  | .file _ _ _ _ rest => rest.subdirs
  | .dir name _ _ rest => if name ∈ skippedNames then rest.subdirs else rest.subdirs + 1
  | .symlink _ _ _ rest => rest.subdirs
  | .other _ rest => rest.subdirs

end Host

namespace Nodes

variable {A A' A'' : Nodes} {d i : Nat} {es : List (Name × Nat)} {name : Name} {nd : Node}

section Grows

/-- Nothing is lost, and directories only get more entries. -/
structure Grows (A A' : Nodes) : Prop where
  length_le : A.length ≤ A'.length
  node : ∀ (i : Nat) (nd : Node), nd.isDir = false → A[i]? = some nd → A'[i]? = some nd
  dir : ∀ (i : Nat) (es : List (Name × Nat)), A[i]? = some (Node.dir es) →
    ∃ es', A'[i]? = some (Node.dir (es ++ es'))

theorem Grows.refl : A.Grows A := by
  constructor
  · exact Nat.le_refl _
  · intro i nd _ h
    exact h
  · intro i es h
    exact ⟨[], by rw [List.append_nil]; exact h⟩

theorem Grows.trans (h : A.Grows A') (h' : A'.Grows A'') : A.Grows A'' := by
  constructor
  · exact Nat.le_trans h.length_le h'.length_le
  · intro i nd hd hi
    exact h'.node i nd hd (h.node i nd hd hi)
  · intro i es hi
    obtain ⟨es₁, h1⟩ := h.dir i es hi
    obtain ⟨es₂, h2⟩ := h'.dir i _ h1
    exact ⟨es₁ ++ es₂, by rw [← List.append_assoc]; exact h2⟩

theorem Grows.getElem?_dir (h : A.Grows A') (hd : A[d]? = some (.dir es)) :
    ∃ es', A'[d]? = some (.dir es') := by
  obtain ⟨es', h1⟩ := h.dir d es hd
  exact ⟨_, h1⟩

theorem lt_of_getElem? (h : A[i]? = some nd) : i < A.length := by
  by_contra hge
  rw [List.getElem?_eq_none (by omega)] at h
  exact absurd h (by simp)

theorem grows_enter {e : Name × Nat} (hd : A[d]? = some (.dir es)) : A.Grows (A.enter d e) := by
  constructor
  · rw [length_enter]
  · intro i nd hdir hi
    have hid : i ≠ d := by
      rintro rfl
      rw [hd, Option.some.injEq] at hi
      rw [← hi] at hdir
      exact absurd hdir (by simp [Node.isDir])
    rw [getElem?_enter_ne hid]
    exact hi
  · intro i es' hi
    by_cases hid : i = d
    · subst hid
      rw [hd, Option.some.injEq, Node.dir.injEq] at hi
      rw [← hi]
      exact ⟨[e], getElem?_enter_self hd⟩
    · refine ⟨[], ?_⟩
      rw [List.append_nil, getElem?_enter_ne hid]
      exact hi

theorem grows_add (hd : A[d]? = some (.dir es)) : A.Grows (A.add d name nd) := by
  have henter := grows_enter (e := (name, A.length)) hd
  constructor
  · rw [length_add]
    exact Nat.le_succ _
  · intro i nd' hdir hi
    rw [getElem?_add_old (lt_of_getElem? hi)]
    exact henter.node i nd' hdir hi
  · intro i es' hi
    rw [getElem?_add_old (lt_of_getElem? hi)]
    exact henter.dir i es' hi

end Grows

section Install

def install (A : Nodes) (d : Nat) : Host → Nodes
  | .nil => A
  | .file name _ _ content rest => install (A.add d name (.file content)) d rest
  | .dir name _ sub rest =>
    if name ∈ skippedNames then install A d rest
    else install (install (A.add d name (.dir [])) A.length sub) d rest
  | .symlink name _ target rest =>
    if target.length > 51 then install A d rest else install (A.add d name (.symlink target)) d rest
  | .other _ rest => install A d rest

/-- The entries of a directory are those of the host directory that are not skipped, in order. -/
def Entered (A : Nodes) : List (Name × Nat) → Host → Prop
  | es, .nil => es = []
  | es, .file name _ _ content rest =>
    ∃ i es', es = (name, i) :: es' ∧ A[i]? = some (.file content) ∧ Entered A es' rest
  | es, .dir name _ sub rest =>
    if name ∈ skippedNames then Entered A es rest
    else ∃ i es₁ es', es = (name, i) :: es' ∧ A[i]? = some (.dir es₁) ∧ Entered A es₁ sub ∧
      Entered A es' rest
  | es, .symlink name _ target rest =>
    if target.length > 51 then Entered A es rest
    else ∃ i es', es = (name, i) :: es' ∧ A[i]? = some (.symlink target) ∧ Entered A es' rest
  | es, .other _ rest => Entered A es rest

/-- Inode `d` got the entries `added`, no other old inode has changed, and the new inodes alone say
that `host` has been entered. -/
structure Installed (d : Nat) (es : List (Name × Nat)) (host : Host) (A A' : Nodes)
    (added : List (Name × Nat)) : Prop where
  length_le : A.length ≤ A'.length
  dir : A'[d]? = some (.dir (es ++ added))
  others : ∀ i, i < A.length → i ≠ d → A'[i]? = A[i]?
  entered : ∀ A'' : Nodes, (∀ i, A.length ≤ i → i < A'.length → A''[i]? = A'[i]?) →
    A''.Entered added host

theorem getElem?_add_self (hd : A[d]? = some (.dir es)) :
    (A.add d name nd)[d]? = some (.dir (es ++ [(name, A.length)])) := by
  rw [getElem?_add_old (lt_of_getElem? hd), getElem?_enter_self hd]

theorem getElem?_add_ne (hi : i < A.length) (hid : i ≠ d) : (A.add d name nd)[i]? = A[i]? := by
  rw [getElem?_add_old hi, getElem?_enter_ne hid]

/-- One more entry in front of what `rest` adds. -/
theorem Installed.step {added : List (Name × Nat)} {host rest : Host}
    (hd : A[d]? = some (.dir es)) {B : Nodes} (hle : A.length < B.length)
    (hothers : ∀ i, i < A.length → i ≠ d → B[i]? = A[i]?)
    (h : Installed d (es ++ [(name, A.length)]) rest B A' added)
    (hentered : ∀ A'' : Nodes, (∀ i, A.length ≤ i → i < B.length → A''[i]? = B[i]?) →
      A''.Entered added rest → A''.Entered ((name, A.length) :: added) host) :
    Installed d es host A A' ((name, A.length) :: added) := by
  have hdlt := lt_of_getElem? hd
  constructor
  · exact Nat.le_trans (Nat.le_of_lt hle) h.length_le
  · rw [h.dir, List.append_assoc]
    rfl
  · intro i hi hid
    rw [h.others i (by omega) hid, hothers i hi hid]
  · intro A'' hsame
    apply hentered A''
    · intro i h1 h2
      rw [hsame i h1 (Nat.lt_of_lt_of_le h2 h.length_le), h.others i h2 (by omega)]
    · apply h.entered A''
      intro i h1 h2
      exact hsame i (by omega) h2

theorem install_installed (host : Host) (hd : A[d]? = some (.dir es)) :
    ∃ added, Installed d es host A (A.install d host) added := by
  induction host generalizing A d es with
  | nil =>
    refine ⟨[], ?_, ?_, ?_, ?_⟩
    · exact Nat.le_refl _
    · rw [List.append_nil]
      exact hd
    · intro i _ _
      rfl
    · intro A'' _
      rfl
  | file name hostIno mode content rest ih =>
    obtain ⟨added, hrest⟩ := ih (A := A.add d name (.file content)) (getElem?_add_self hd)
    refine ⟨_, hrest.step hd (by rw [length_add]; exact Nat.lt_succ_self _)
      (fun i hi hid => getElem?_add_ne hi hid) ?_⟩
    intro A'' hsame hent
    refine ⟨_, _, rfl, ?_, hent⟩
    rw [hsame _ (Nat.le_refl _) (by rw [length_add]; exact Nat.lt_succ_self _)]
    exact getElem?_add_new
  | dir name mode sub rest ihsub ihrest =>
    rw [install]
    by_cases hskip : name ∈ skippedNames
    · rw [if_pos hskip]
      obtain ⟨added, hrest⟩ := ihrest hd
      refine ⟨added, hrest.length_le, hrest.dir, hrest.others, ?_⟩
      intro A'' hsame
      rw [Entered, if_pos hskip]
      exact hrest.entered A'' hsame
    · rw [if_neg hskip]
      have hdlt := lt_of_getElem? hd
      obtain ⟨es₁, hsub⟩ := ihsub (A := A.add d name (.dir [])) (d := A.length) getElem?_add_new
      have hlen := hsub.length_le
      rw [length_add] at hlen
      have hdsub : (install (A.add d name (.dir [])) A.length sub)[d]? =
          some (.dir (es ++ [(name, A.length)])) := by
        rw [hsub.others d (by rw [length_add]; omega) (by omega)]
        exact getElem?_add_self hd
      obtain ⟨added, hrest⟩ := ihrest hdsub
      refine ⟨_, hrest.step hd (by omega) ?_ ?_⟩
      · intro i hi hid
        rw [hsub.others i (by rw [length_add]; omega) (by omega)]
        exact getElem?_add_ne hi hid
      · intro A'' hsame hent
        rw [Entered, if_neg hskip]
        refine ⟨_, es₁, _, rfl, ?_, ?_, hent⟩
        · rw [hsame _ (Nat.le_refl _) (by omega)]
          exact hsub.dir
        · apply hsub.entered A''
          intro i h1 h2
          rw [length_add] at h1
          exact hsame i (by omega) h2
  | symlink name hostIno target rest ih =>
    rw [install]
    by_cases hlong : target.length > 51
    · rw [if_pos hlong]
      obtain ⟨added, hrest⟩ := ih hd
      refine ⟨added, hrest.length_le, hrest.dir, hrest.others, ?_⟩
      intro A'' hsame
      rw [Entered, if_pos hlong]
      exact hrest.entered A'' hsame
    · rw [if_neg hlong]
      obtain ⟨added, hrest⟩ := ih (A := A.add d name (.symlink target)) (getElem?_add_self hd)
      refine ⟨_, hrest.step hd (by rw [length_add]; exact Nat.lt_succ_self _)
        (fun i hi hid => getElem?_add_ne hi hid) ?_⟩
      intro A'' hsame hent
      rw [Entered, if_neg hlong]
      refine ⟨_, _, rfl, ?_, hent⟩
      rw [hsame _ (Nat.le_refl _) (by rw [length_add]; exact Nat.lt_succ_self _)]
      exact getElem?_add_new
  | other name rest ih =>
    obtain ⟨added, hrest⟩ := ih hd
    exact ⟨added, hrest.length_le, hrest.dir, hrest.others, hrest.entered⟩

end Install

section Links

theorem isDirAt_of_some (h : A[i]? = some nd) : A.isDirAt i = nd.isDir := by
  unfold isDirAt
  rw [h]
  rfl

/-- A directory entered has as many subdirectories as the host directory. -/
theorem Entered.subdirs {host : Host} (h : A.Entered es host) : A.subdirs es = host.subdirs := by
  unfold Nodes.subdirs
  induction host generalizing es with
  | nil =>
    obtain rfl : es = [] := h
    rfl
  | file name hostIno mode content rest ih =>
    obtain ⟨i, es', rfl, hi, hrest⟩ := h
    rw [List.countP_cons, ih hrest, isDirAt_of_some hi]
    rfl
  | dir name mode sub rest _ ih =>
    rw [Entered] at h
    rw [Host.subdirs]
    split at h
    · rename_i hskip
      rw [if_pos hskip]
      exact ih h
    · rename_i hskip
      obtain ⟨i, es₁, es', rfl, hi, _, hrest⟩ := h
      rw [if_neg hskip, List.countP_cons, ih hrest, isDirAt_of_some hi]
      rfl
  | symlink name hostIno target rest ih =>
    rw [Entered] at h
    split at h
    · exact ih h
    · obtain ⟨i, es', rfl, hi, hrest⟩ := h
      rw [List.countP_cons, ih hrest, isDirAt_of_some hi]
      rfl
  | other name rest ih => exact ih h

/-- Every inode that is not a directory has one link. -/
def SingleLinks (A : Nodes) : Prop := ∀ i, i < A.length → A.isDirAt i = false → A.links i = 1

theorem SingleLinks.links_ne (hs : A.SingleLinks) (hi : i < A.length) : A.links i ≠ 0 := by
  cases hdir : A.isDirAt i with
  | true =>
    obtain ⟨es, hes⟩ := eq_dir_of_isDirAt hdir
    rw [links_of_dir hes]
    omega
  | false =>
    rw [hs i hi hdir]
    decide

theorem SingleLinks.add (hs : A.SingleLinks) (hw : A.WellFormed) (hd : A[d]? = some (.dir es))
    (hempty : nd.entries = []) : (A.add d name nd).SingleLinks := by
  intro i hi hdir
  rw [length_add] at hi
  rw [links_add hw hd hempty]
  by_cases hnew : i = A.length
  · rw [if_pos hnew]
  · have hlt : i < A.length := by omega
    rw [isDirAt_add_old hlt] at hdir
    have hid : i ≠ d := by
      rintro rfl
      rw [isDirAt_of_some hd] at hdir
      exact absurd hdir (by simp [Node.isDir])
    rw [if_neg hnew, if_neg hid]
    exact hs i hlt hdir

end Links

end Nodes

end CS111.Ospfs
