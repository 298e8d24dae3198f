import Mathlib.Algebra.BigOperators.Group.List.Basic
import CS111.Ospfs.Format

/-!
# Trees of inodes

What a formatted volume is for, apart from where its blocks lie: `nodes[i]` is the file, directory
or symbolic link at inode `i`. Directories name their entries by inode numbers.
-/

namespace CS111.Ospfs

set_option autoImplicit false

inductive Node where
  | file (content : List UInt8)
  | dir (entries : List (Name × Nat))
  | symlink (target : Name)
  deriving Repr, DecidableEq

namespace Node

def isDir : Node → Bool
  | dir _ => true
  | _ => false

def entries : Node → List (Name × Nat)
  | dir es => es
  | _ => []

def addEntry (e : Name × Nat) : Node → Node
  | dir es => dir (es ++ [e])
  | n => n

/-- The blocks that the entries of a directory fill. -/
def dirBlocks (n : Node) : Nat := (n.entries.length + 7) / 8

end Node

/-- The sum over a list of which one element has been modified. -/
theorem sum_map_modify {α : Type} {weight : α → Nat} {f : α → α} {l : List α} {d k : Nat} {x : α}
    (hx : l[d]? = some x) (hf : weight (f x) = weight x + k) :
    ((l.modify d f).map weight).sum = (l.map weight).sum + k := by
  induction l generalizing d with
  | nil => exact absurd hx (by simp)
  | cons y l ih =>
    cases d with
    | zero =>
      obtain rfl : y = x := by simpa using hx
      simp only [List.modify_zero_cons, List.map_cons, List.sum_cons, hf]
      omega
    | succ d =>
      have hrec := ih (d := d) (by simpa using hx)
      simp only [List.modify_succ_cons, List.map_cons, List.sum_cons, hrec]
      omega

abbrev Nodes := List Node

namespace Nodes

variable {A : Nodes} {d i : Nat} {e : Name × Nat} {es : List (Name × Nat)} {n : Node}

def enter (A : Nodes) (d : Nat) (e : Name × Nat) : Nodes := A.modify d (Node.addEntry e)

def isDirAt (A : Nodes) (i : Nat) : Bool := (A[i]?).any Node.isDir

/-- The number of entries, over all directories, that name inode `i`. -/
def named (A : Nodes) (i : Nat) : Nat := (A.map fun n => n.entries.countP (·.2 == i)).sum

def subdirs (A : Nodes) (es : List (Name × Nat)) : Nat := es.countP (fun e => A.isDirAt e.2)

/-- The link count that belongs to inode `i`. Inode 0 is not used. -/
def links (A : Nodes) (i : Nat) : Nat :=
  match A[i]? with
  | some (.dir es) => 1 + A.subdirs es
  | _ => if i = 0 then 1 else A.named i

/-- The blocks of all directories. -/
def dirBlocks (A : Nodes) : Nat := (A.map Node.dirBlocks).sum

structure WellFormed (A : Nodes) : Prop where
  two_le : 2 ≤ A.length
  ino : ∀ n, n ∈ A → ∀ e, e ∈ n.entries → 2 ≤ e.2 ∧ e.2 < A.length
  name : ∀ n, n ∈ A → ∀ e, e ∈ n.entries → e.1.length ≤ 123

section Enter

@[simp] theorem length_enter : (A.enter d e).length = A.length := by
  simp [enter]

theorem getElem?_enter_self (hd : A[d]? = some (.dir es)) :
    (A.enter d e)[d]? = some (.dir (es ++ [e])) := by
  simp [enter, hd, Node.addEntry]

theorem getElem?_enter_ne (h : i ≠ d) : (A.enter d e)[i]? = A[i]? := by
  simp [enter, Ne.symm h]

theorem isDirAt_enter : (A.enter d e).isDirAt i = A.isDirAt i := by
  unfold isDirAt enter
  rw [List.getElem?_modify]
  cases A[i]? with
  | none => rfl
  | some n => cases n <;> by_cases h : d = i <;> simp [h, Node.addEntry, Node.isDir]

theorem subdirs_congr {A' : Nodes} (h : ∀ e, e ∈ es → A'.isDirAt e.2 = A.isDirAt e.2) :
    A'.subdirs es = A.subdirs es := by
  unfold subdirs
  apply List.countP_congr
  intro e he
  rw [h e he]

theorem named_enter (hd : A[d]? = some (.dir es)) :
    (A.enter d e).named i = A.named i + if e.2 = i then 1 else 0 := by
  apply sum_map_modify hd
  simp [Node.addEntry, Node.entries, List.countP_append, List.countP_singleton]

theorem dirBlocks_enter (hd : A[d]? = some (.dir es)) :
    (A.enter d e).dirBlocks = A.dirBlocks + ((es.length + 8) / 8 - (es.length + 7) / 8) := by
  apply sum_map_modify hd
  simp only [Node.addEntry, Node.dirBlocks, Node.entries, List.length_append, List.length_singleton]
  omega

theorem mem_enter_entries (hd : A[d]? = some (.dir es)) (hn : n ∈ A.enter d e) {e' : Name × Nat}
    (he : e' ∈ n.entries) : e' = e ∨ ∃ n', n' ∈ A ∧ e' ∈ n'.entries := by
  obtain ⟨j, hj⟩ := List.mem_iff_getElem?.mp hn
  by_cases hjd : j = d
  · rw [hjd, getElem?_enter_self hd, Option.some.injEq] at hj
    rw [← hj] at he
    rcases List.mem_append.mp he with hold | hnew
    · exact .inr ⟨.dir es, List.mem_of_getElem? hd, hold⟩
    · exact .inl (List.mem_singleton.mp hnew)
  · rw [getElem?_enter_ne hjd] at hj
    exact .inr ⟨n, List.mem_of_getElem? hj, he⟩

end Enter

section New

/-- A new inode with a first name in directory `d`. -/
def add (A : Nodes) (d : Nat) (name : Name) (n : Node) : Nodes := A.enter d (name, A.length) ++ [n]

variable {name : Name} (hd : A[d]? = some (.dir es))

@[simp] theorem length_add : (A.add d name n).length = A.length + 1 := by
  simp [add]

theorem getElem?_add_new : (A.add d name n)[A.length]? = some n := by
  simp [add]

theorem getElem?_add_old (h : i < A.length) :
    (A.add d name n)[i]? = (A.enter d (name, A.length))[i]? := by
  unfold add
  exact List.getElem?_append_left (by simpa using h)

theorem isDirAt_add_old (h : i < A.length) : (A.add d name n).isDirAt i = A.isDirAt i := by
  have hold := isDirAt_enter (A := A) (d := d) (i := i) (e := ⟨name, A.length⟩)
  unfold isDirAt at *
  rw [getElem?_add_old h, hold]

theorem isDirAt_add_new : (A.add d name n).isDirAt A.length = n.isDir := by
  unfold isDirAt
  rw [getElem?_add_new]
  rfl

theorem named_of_wellFormed (hw : A.WellFormed) (h : A.length ≤ i) : A.named i = 0 := by
  unfold named
  apply List.sum_eq_zero
  intro c hc
  obtain ⟨n, hn, rfl⟩ := List.mem_map.mp hc
  rw [List.countP_eq_zero]
  intro e he
  have := (hw.ino n hn e he).2
  simp only [beq_iff_eq]
  omega

include hd

theorem named_add (hempty : n.entries = []) :
    (A.add d name n).named i = A.named i + if A.length = i then 1 else 0 := by
  have h := named_enter (e := (name, A.length)) (i := i) hd
  unfold add named at *
  rw [List.map_append, List.sum_append, h]
  simp [hempty]

theorem dirBlocks_add (hempty : n.entries = []) : (A.add d name n).dirBlocks =
    A.dirBlocks + ((es.length + 8) / 8 - (es.length + 7) / 8) := by
  have h := dirBlocks_enter (e := (name, A.length)) hd
  unfold add dirBlocks at *
  rw [List.map_append, List.sum_append, h]
  simp [hempty, Node.dirBlocks]

theorem WellFormed.add (hw : A.WellFormed) (hname : name.length ≤ 123) (hempty : n.entries = []) :
    (A.add d name n).WellFormed := by
  have old : ∀ n', n' ∈ A.add d name n → ∀ e', e' ∈ n'.entries →
      e' = (name, A.length) ∨ ∃ n'', n'' ∈ A ∧ e' ∈ n''.entries := by
    intro n' hn' e' he'
    rcases List.mem_append.mp hn' with h | h
    · exact mem_enter_entries hd h he'
    · rw [List.mem_singleton.mp h, hempty] at he'
      exact absurd he' (by simp)
  constructor
  · have := hw.two_le
    rw [length_add]
    omega
  · intro n' hn' e' he'
    rw [length_add]
    rcases old n' hn' e' he' with rfl | ⟨n'', h1, h2⟩
    · exact ⟨hw.two_le, Nat.lt_succ_self _⟩
    · obtain ⟨h3, h4⟩ := hw.ino n'' h1 e' h2
      exact ⟨h3, Nat.lt_succ_of_lt h4⟩
  · intro n' hn' e' he'
    rcases old n' hn' e' he' with rfl | ⟨n'', h1, h2⟩
    · exact hname
    · exact hw.name n'' h1 e' h2

theorem WellFormed.enter (hw : A.WellFormed) (h2 : 2 ≤ e.2) (hlt : e.2 < A.length)
    (hname : e.1.length ≤ 123) : (A.enter d e).WellFormed := by
  constructor
  · rw [length_enter]
    exact hw.two_le
  · intro n' hn' e' he'
    rw [length_enter]
    rcases mem_enter_entries hd hn' he' with rfl | ⟨n'', h3, h4⟩
    · exact ⟨h2, hlt⟩
    · exact hw.ino n'' h3 e' h4
  · intro n' hn' e' he'
    rcases mem_enter_entries hd hn' he' with rfl | ⟨n'', h3, h4⟩
    · exact hname
    · exact hw.name n'' h3 e' h4

end New

section Links

/-- A block has eight entries. -/
theorem named_le (A : Nodes) (i : Nat) : A.named i ≤ 8 * A.dirBlocks := by
  induction A with
  | nil => exact Nat.zero_le _
  | cons n A ih =>
    have hcount := List.countP_le_length (p := fun e : Name × Nat => e.2 == i) (l := n.entries)
    unfold named dirBlocks at *
    simp only [List.map_cons, List.sum_cons, Node.dirBlocks] at ih ⊢
    omega

theorem links_of_dir (hi : A[i]? = some (.dir es)) : A.links i = 1 + A.subdirs es := by
  unfold links
  rw [hi]

theorem links_of_not_dir (hi : A.isDirAt i = false) :
    A.links i = if i = 0 then 1 else A.named i := by
  unfold links
  unfold isDirAt at hi
  cases hn : A[i]? with
  | none => rfl
  | some n =>
    cases n with
    | file content => rfl
    | symlink target => rfl
    | dir es =>
      rw [hn] at hi
      exact absurd hi (by simp [Node.isDir])

/-- The entries of one directory. -/
theorem WellFormed.mem_entries (hw : A.WellFormed) (hi : A[i]? = some (.dir es)) (he : e ∈ es) :
    2 ≤ e.2 ∧ e.2 < A.length := hw.ino _ (List.mem_of_getElem? hi) e he

theorem eq_dir_of_isDirAt (hi : A.isDirAt i = true) : ∃ es, A[i]? = some (.dir es) := by
  unfold isDirAt at hi
  cases hn : A[i]? with
  | none =>
    rw [hn] at hi
    exact absurd hi (by simp)
  | some n =>
    rw [hn] at hi
    cases n with
    | file content => exact absurd hi (by simp [Node.isDir])
    | symlink target => exact absurd hi (by simp [Node.isDir])
    | dir es => exact ⟨es, rfl⟩

variable {name : Name} (hw : A.WellFormed) (hd : A[d]? = some (.dir es))
include hw hd

/-- A new inode has one link; its directory has one more if it is a directory itself. -/
theorem links_add (hempty : n.entries = []) : (A.add d name n).links i =
    if i = A.length then 1 else if i = d then A.links i + (if n.isDir then 1 else 0) else A.links i := by
  have hdlt : d < A.length := by
    by_contra hge
    rw [List.getElem?_eq_none (by omega)] at hd
    exact absurd hd (by simp)
  have hsub : ∀ (j : Nat) es', A[j]? = some (Node.dir es') →
      (A.add d name n).subdirs es' = A.subdirs es' := by
    intro j es' hj
    apply subdirs_congr
    intro e he
    exact isDirAt_add_old (hw.mem_entries hj he).2
  have h2 := hw.two_le
  by_cases hi : i = A.length
  · rw [if_pos hi, hi]
    cases hn : n.isDir with
    | true =>
      have hadded : (A.add d name n).isDirAt A.length = true := isDirAt_add_new.trans hn
      obtain ⟨es', hes'⟩ := eq_dir_of_isDirAt hadded
      have hes : es' = [] := by
        rw [getElem?_add_new, Option.some.injEq] at hes'
        rw [hes'] at hempty
        exact hempty
      rw [links_of_dir hes', hes]
      rfl
    | false =>
      rw [links_of_not_dir (by rw [isDirAt_add_new, hn]), if_neg (by omega), named_add hd hempty,
        named_of_wellFormed hw (Nat.le_refl _), if_pos rfl]
  · rw [if_neg hi]
    by_cases hlt : i < A.length
    · cases hdir : A.isDirAt i with
      | true =>
        obtain ⟨es', hes'⟩ := eq_dir_of_isDirAt hdir
        by_cases hid : i = d
        · subst hid
          obtain rfl : es' = es := by
            rw [hd, Option.some.injEq, Node.dir.injEq] at hes'
            exact hes'.symm
          have hself : (A.add i name n)[i]? = some (.dir (es' ++ [(name, A.length)])) := by
            rw [getElem?_add_old hlt, getElem?_enter_self hd]
          rw [if_pos rfl, links_of_dir hself, links_of_dir hd]
          have hsplit : (A.add i name n).subdirs (es' ++ [(name, A.length)]) =
              (A.add i name n).subdirs es' + if n.isDir then 1 else 0 := by
            unfold subdirs
            rw [List.countP_append, List.countP_singleton, isDirAt_add_new]
          rw [hsplit, hsub i es' hd]
          omega
        · have hold : (A.add d name n)[i]? = some (.dir es') := by
            rw [getElem?_add_old hlt, getElem?_enter_ne hid, hes']
          rw [if_neg hid, links_of_dir hold, links_of_dir hes', hsub i es' hes']
      | false =>
        have hid : i ≠ d := by
          rintro rfl
          unfold isDirAt at hdir
          rw [hd] at hdir
          exact absurd hdir (by simp [Node.isDir])
        rw [if_neg hid, links_of_not_dir (by rw [isDirAt_add_old hlt, hdir]), links_of_not_dir hdir,
          named_add hd hempty, if_neg (Ne.symm hi), Nat.add_zero]
    · have hnone : A.isDirAt i = false := by
        unfold isDirAt
        rw [List.getElem?_eq_none (by omega)]
        rfl
      have hnone' : (A.add d name n).isDirAt i = false := by
        unfold isDirAt
        rw [List.getElem?_eq_none (by rw [length_add]; omega)]
        rfl
      rw [if_neg (by omega), links_of_not_dir hnone', links_of_not_dir hnone, named_add hd hempty,
        if_neg (Ne.symm hi), Nat.add_zero]

omit hw in
/-- Another name for a file or a symbolic link. -/
theorem links_enter (he : A.isDirAt e.2 = false) (h2 : 2 ≤ e.2) :
    (A.enter d e).links i = if i = e.2 then A.links i + 1 else A.links i := by
  cases hdir : A.isDirAt i with
  | true =>
    have hie : i ≠ e.2 := by
      rintro rfl
      rw [hdir] at he
      exact absurd he (by simp)
    obtain ⟨es', hes'⟩ := eq_dir_of_isDirAt hdir
    have hsub : ∀ l, (A.enter d e).subdirs l = A.subdirs l := fun l =>
      subdirs_congr fun _ _ => isDirAt_enter
    rw [if_neg hie]
    by_cases hid : i = d
    · subst hid
      rw [links_of_dir (getElem?_enter_self hd), links_of_dir hd, hsub]
      unfold subdirs
      rw [List.countP_append, List.countP_singleton, he]
      rfl
    · have hold : (A.enter d e)[i]? = some (.dir es') := by
        rw [getElem?_enter_ne hid, hes']
      rw [links_of_dir hold, links_of_dir hes', hsub]
  | false =>
    rw [links_of_not_dir (by rw [isDirAt_enter, hdir]), links_of_not_dir hdir, named_enter hd]
    by_cases hie : i = e.2
    · rw [if_pos hie, if_pos hie.symm, if_neg (by omega), if_neg (by omega)]
    · rw [if_neg hie, if_neg (Ne.symm hie), Nat.add_zero]

end Links

end Nodes

end CS111.Ospfs
