import Mathlib.Data.Finset.Basic
import CS111.P2P.FileNames

/-!
# Which files a download removes

`task_download` with its calls for the next peers, on the names in the working directory. Every
attempt that fails goes through the label `try_again`, which removes the file named in
`t->disk_filename` if a name has been stored there.
-/

namespace CS111.P2P

set_option autoImplicit false

section Model

abbrev Name := List UInt8

/-- What one attempt meets: whether the peer is this one, the answers of `open_socket` and of `open`
with an error other than `EEXIST`, what the task buffer holds, and the calls of `read` and `write`. -/
structure DownloadPeer where
  self : Bool
  connects : List Bool
  fails : Nat → Bool
  buf : Nat → UInt8
  calls : List (ReadCall × WriteCall)

/-- The connections of an attempt; `none` when the listed ones are used up. In evil mode 1 the peer is
called until it does not answer. -/
def connected (evilMode : Int) (connects : List Bool) : Option Bool :=
  if evilMode = 1 then if false ∈ connects then some false else none
  else if evilMode = 2 ∨ evilMode = 3 then
    match connects with
    | [] => none
    | false :: _ => some false
    | true :: connects => connects.head?
  else connects.head?

def localName (filename : Name) (i : Nat) : Name :=
  if i = 0 then filename else suffixed filename i

inductive LocalFile where
  | saved (name : Name)
  | failed (name : Name)
  | tooMany
  deriving Repr, DecidableEq

/-- The loop over the local names, `n` rounds from `i` on. -/
def openLocal (filename : Name) (fails : Nat → Bool) (files : Finset Name) : Nat → Nat → LocalFile
  | 0, _ => .tooMany
  | n + 1, i =>
    if fails i then .failed (localName filename i)
    else if localName filename i ∈ files then openLocal filename fails files n (i + 1)
    else .saved (localName filename i)

/-- How an attempt ends. `diskFilename` is what the label `try_again` finds there, and `created` the file
that the attempt has created. -/
inductive AttemptEnd where
  | tryAgain (created : Option Name) (diskFilename : Name)
  | tooManyFiles
  | downloaded (name : Name)
  | running (created : Option Name)
  deriving Repr, DecidableEq

def AttemptEnd.created : AttemptEnd → Option Name
  | .tryAgain created _ | .running created => created
  | .tooManyFiles => none
  | .downloaded name => some name

/-- The call of `unlink`. -/
def AttemptEnd.unlinked : AttemptEnd → Option Name
  | .tryAgain _ [] => none
  | .tryAgain _ (c :: name) => some (c :: name)
  | .tooManyFiles | .downloaded _ | .running _ => none

def attempt (evilMode : Int) (filename : Name) (peer : DownloadPeer) (files : Finset Name) :
    AttemptEnd :=
  if peer.self then .tryAgain none []
  else
    match connected evilMode peer.connects with
    | none => .running none
    | some false => .tryAgain none []
    | some true =>
      match openLocal filename peer.fails files 50 0 with
      | .failed name => .tryAgain none name
      | .tooMany => .tooManyFiles
      | .saved name =>
        match downloadLoop peer.calls .init (.start ⟨peer.buf, 0, 0, 0⟩) with
        | (none, _) => .running (some name)
        | (some .aborted, _) => .tryAgain (some name) name
        | (some .finished, s) =>
          if s.task.totalWritten > 0 then .downloaded name else .tryAgain (some name) name

/-- The names in the directory after an attempt. -/
def AttemptEnd.files (r : AttemptEnd) (files : Finset Name) : Finset Name :=
  let files := match r.created with
    | some name => insert name files
    | none => files
  match r.unlinked with
  | some name => files.erase name
  | none => files

/-- One attempt of a download, with the names in the directory when it began. -/
structure Attempted where
  peer : DownloadPeer
  files : Finset Name
  ended : AttemptEnd

/-- The attempts of a download, and the names in the directory behind them. -/
def taskDownloadFiles (evilMode : Int) (filename : Name) :
    List DownloadPeer → Finset Name → List Attempted × Finset Name
  | [], files => ([], files)
  | peer :: peers, files =>
    let r := attempt evilMode filename peer files
    match r with
    | .tryAgain _ _ =>
      let (rest, last) := taskDownloadFiles evilMode filename peers (r.files files)
      (⟨peer, files, r⟩ :: rest, last)
    | .tooManyFiles | .downloaded _ | .running _ => ([⟨peer, files, r⟩], r.files files)

/-- Only what an attempt has created is removed, and no file that was there before. -/
def RemovesOwn (files : Finset Name) (run : List Attempted × Finset Name) : Prop :=
  (∀ a, a ∈ run.1 → ∀ name, a.ended.unlinked = some name →
    a.ended.created = some name ∧ name ∉ files) ∧ files ⊆ run.2

/-- The attempt gets to the local names, and `open` fails for `name` with an error other than
`EEXIST`. -/
def OpenFails (evilMode : Int) (filename : Name) (peer : DownloadPeer) (files : Finset Name)
    (name : Name) : Prop :=
  peer.self = false ∧ connected evilMode peer.connects = some true ∧
    ∃ i, i < 50 ∧ peer.fails i = true ∧ localName filename i = name ∧
      ∀ j, j < i → peer.fails j = false ∧ localName filename j ∈ files

end Model

variable {evilMode : Int} {filename name : Name} {peer : DownloadPeer} {peers : List DownloadPeer}
  {files start : Finset Name} {fails : Nat → Bool} {r : AttemptEnd}

theorem openLocal_failed_iff {n i : Nat} : openLocal filename fails files n i = .failed name ↔
    ∃ k, i ≤ k ∧ k < i + n ∧ fails k = true ∧ localName filename k = name ∧
      ∀ j, i ≤ j → j < k → fails j = false ∧ localName filename j ∈ files := by
  induction n generalizing i with
  | zero =>
    refine iff_of_false (fun h => ?_) ?_
    · cases h
    · rintro ⟨k, hik, hk, -⟩
      omega
  | succ n ih =>
    rw [openLocal]
    split
    · next hfail =>
      constructor
      · intro h
        cases h
        exact ⟨i, Nat.le_refl i, by omega, hfail, rfl, fun j hij hj => by omega⟩
      · rintro ⟨k, hik, -, -, hname, hbefore⟩
        have hk : k = i := by
          by_contra hne
          have hfine := (hbefore i (Nat.le_refl i) (by omega)).1
          rw [hfail] at hfine
          cases hfine
        rw [← hname, hk]
    · next hfine =>
      have hi : fails i = false := Bool.eq_false_iff.mpr hfine
      split
      · next hmem =>
        rw [ih]
        constructor
        · rintro ⟨k, hik, hk, hfail, hname, hbefore⟩
          refine ⟨k, by omega, by omega, hfail, hname, fun j hij hj => ?_⟩
          by_cases hji : j = i
          · rw [hji]
            exact ⟨hi, hmem⟩
          · exact hbefore j (by omega) hj
        · rintro ⟨k, hik, hk, hfail, hname, hbefore⟩
          have hne : k ≠ i := by
            rintro rfl
            exact hfine hfail
          exact ⟨k, by omega, by omega, hfail, hname, fun j hij hj => hbefore j (by omega) hj⟩
      · next hmem =>
        refine iff_of_false (fun h => ?_) ?_
        · cases h
        · rintro ⟨k, hik, -, hfail, -, hbefore⟩
          by_cases hk : k = i
          · rw [hk] at hfail
            exact hfine hfail
          · exact hmem (hbefore i (Nat.le_refl i) (by omega)).2

theorem openLocal_saved {n i : Nat} (h : openLocal filename fails files n i = .saved name) :
    name ∉ files := by
  induction n generalizing i with
  | zero => cases h
  | succ n ih =>
    rw [openLocal] at h
    split at h
    · cases h
    · split at h
      · exact ih h
      · next hmem =>
        cases h
        exact hmem

theorem openFails_iff : OpenFails evilMode filename peer files name ↔
    peer.self = false ∧ connected evilMode peer.connects = some true ∧
      openLocal filename peer.fails files 50 0 = .failed name := by
  rw [openLocal_failed_iff]
  constructor
  · rintro ⟨hself, hconnect, i, hi, hfail, hname, hbefore⟩
    exact ⟨hself, hconnect, i, Nat.zero_le i, by omega, hfail, hname, fun j _ hj => hbefore j hj⟩
  · rintro ⟨hself, hconnect, i, -, hi, hfail, hname, hbefore⟩
    exact ⟨hself, hconnect, i, by omega, hfail, hname, fun j hj => hbefore j (Nat.zero_le j) hj⟩

/-- What an attempt leaves to the label `try_again`. -/
inductive AttemptCase (evilMode : Int) (filename : Name) (peer : DownloadPeer)
    (files : Finset Name) : AttemptEnd → Prop
  | nothing {r : AttemptEnd} : r.created = none → r.unlinked = none →
      (∀ name, ¬ OpenFails evilMode filename peer files name) →
      AttemptCase evilMode filename peer files r
  | failed {name : Name} : OpenFails evilMode filename peer files name →
      AttemptCase evilMode filename peer files (.tryAgain none name)
  | created {r : AttemptEnd} {name : Name} : name ∉ files → r.created = some name →
      (r.unlinked = none ∨ r = .tryAgain (some name) name) →
      (∀ name, ¬ OpenFails evilMode filename peer files name) →
      AttemptCase evilMode filename peer files r

theorem attempt_case : AttemptCase evilMode filename peer files
    (attempt evilMode filename peer files) := by
  unfold attempt
  split
  · next hself =>
    refine .nothing rfl rfl ?_
    rintro name ⟨hfalse, -⟩
    rw [hself] at hfalse
    cases hfalse
  · next hself =>
    split
    · next hconnect =>
      refine .nothing rfl rfl ?_
      rintro name ⟨-, htrue, -⟩
      rw [hconnect] at htrue
      cases htrue
    · next hconnect =>
      refine .nothing rfl rfl ?_
      rintro name ⟨-, htrue, -⟩
      rw [hconnect] at htrue
      cases htrue
    · next hconnect =>
      have hno : ∀ {r}, openLocal filename peer.fails files 50 0 = r → (∀ name, r ≠ .failed name) →
          ∀ name, ¬ OpenFails evilMode filename peer files name := by
        intro r hr hne name hfails
        exact hne name (hr.symm.trans (openFails_iff.mp hfails).2.2)
      split
      · next name hopen =>
        exact .failed (openFails_iff.mpr ⟨Bool.eq_false_iff.mpr hself, hconnect, hopen⟩)
      · next hopen => exact .nothing rfl rfl (hno hopen (by simp))
      · next name hopen =>
        have hnew := openLocal_saved hopen
        have hfine := hno hopen (by simp)
        split
        · exact .created hnew rfl (.inl rfl) hfine
        · exact .created hnew rfl (.inr rfl) hfine
        · split
          · exact .created hnew rfl (.inl rfl) hfine
          · exact .created hnew rfl (.inr rfl) hfine

theorem unlinked_eq_some {created : Option Name} {diskFilename : Name}
    (h : (AttemptEnd.tryAgain created diskFilename).unlinked = some name) :
    name = diskFilename ∧ name ≠ [] := by
  cases diskFilename with
  | nil => cases h
  | cons c rest =>
    cases h
    exact ⟨rfl, List.cons_ne_nil c rest⟩

/-- A name whose `open` failed is passed to `unlink`, and nothing was created. -/
theorem AttemptCase.of_openFails (h : AttemptCase evilMode filename peer files r)
    (hfails : OpenFails evilMode filename peer files name) (hne : name ≠ []) :
    r.unlinked = some name ∧ r.created = none := by
  cases h with
  | nothing _ _ hno => exact absurd hfails (hno name)
  | created _ _ _ hno => exact absurd hfails (hno name)
  | @failed name' hfails' =>
    have heq := (openFails_iff.mp hfails).2.2.symm.trans (openFails_iff.mp hfails').2.2
    cases heq
    cases name with
    | nil => exact absurd rfl hne
    | cons c rest => exact ⟨rfl, rfl⟩

/-- If no `open` fails, what is removed was created by the attempt, and all other names stay. -/
theorem AttemptCase.removes_own (h : AttemptCase evilMode filename peer files r)
    (hfine : ∀ name, OpenFails evilMode filename peer files name → name = []) :
    (∀ name, r.unlinked = some name → r.created = some name ∧ name ∉ files) ∧
      files ⊆ r.files files := by
  cases h with
  | nothing hcreated hunlinked _ =>
    refine ⟨fun name h => ?_, ?_⟩
    · rw [hunlinked] at h
      cases h
    · unfold AttemptEnd.files
      rw [hcreated, hunlinked]
  | @failed name hfails =>
    cases hfine name hfails
    exact ⟨fun name h => (by cases h), Finset.Subset.refl _⟩
  | @created r name hnew hcreated hunlinked _ =>
    rcases hunlinked with hunlinked | rfl
    · refine ⟨fun name h => ?_, ?_⟩
      · rw [hunlinked] at h
        cases h
      · unfold AttemptEnd.files
        rw [hcreated, hunlinked]
        exact Finset.subset_insert _ _
    · refine ⟨fun name' h => ?_, ?_⟩
      · obtain ⟨rfl, -⟩ := unlinked_eq_some h
        exact ⟨rfl, hnew⟩
      · intro x hx
        have hxne : x ≠ name := fun heq => hnew (heq ▸ hx)
        cases name with
        | nil => exact Finset.mem_insert_of_mem hx
        | cons c rest => exact Finset.mem_erase.mpr ⟨hxne, Finset.mem_insert_of_mem hx⟩

/-- The first attempt, and the others when it fails. -/
theorem run_cons (evilMode : Int) (filename : Name) (peer : DownloadPeer)
    (peers : List DownloadPeer) (files : Finset Name) :
    (taskDownloadFiles evilMode filename (peer :: peers) files =
      ([⟨peer, files, attempt evilMode filename peer files⟩],
        (attempt evilMode filename peer files).files files)) ∨
    taskDownloadFiles evilMode filename (peer :: peers) files =
      (⟨peer, files, attempt evilMode filename peer files⟩ ::
        (taskDownloadFiles evilMode filename peers
          ((attempt evilMode filename peer files).files files)).1,
        (taskDownloadFiles evilMode filename peers
          ((attempt evilMode filename peer files).files files)).2) := by
  rw [taskDownloadFiles]
  generalize attempt evilMode filename peer files = r
  cases r with
  | tryAgain created diskFilename => exact .inr rfl
  | tooManyFiles | downloaded _ | running _ => exact .inl rfl

theorem mem_run_case {a : Attempted} (h : a ∈ (taskDownloadFiles evilMode filename peers files).1) :
    AttemptCase evilMode filename a.peer a.files a.ended := by
  induction peers generalizing files with
  | nil => exact absurd h List.not_mem_nil
  | cons peer peers ih =>
    rcases run_cons evilMode filename peer peers files with hrun | hrun
    · rw [hrun] at h
      rw [List.mem_singleton.mp h]
      exact attempt_case
    · rw [hrun] at h
      rcases List.mem_cons.mp h with rfl | h
      · exact attempt_case
      · exact ih h

theorem removesOwn_run (hstart : start ⊆ files)
    (hfine : ∀ a, a ∈ (taskDownloadFiles evilMode filename peers files).1 →
      ∀ name, OpenFails evilMode filename a.peer a.files name → name = []) :
    RemovesOwn start (taskDownloadFiles evilMode filename peers files) := by
  induction peers generalizing files with
  | nil => exact ⟨fun a ha => absurd ha List.not_mem_nil, hstart⟩
  | cons peer peers ih =>
    rcases run_cons evilMode filename peer peers files with hrun | hrun
    all_goals
      rw [hrun] at hfine ⊢
      obtain ⟨howns, hkept⟩ := attempt_case.removes_own (hfine _ List.mem_cons_self)
      have hlater := hstart.trans hkept
      have hfirst : ∀ name, (attempt evilMode filename peer files).unlinked = some name →
          (attempt evilMode filename peer files).created = some name ∧ name ∉ start :=
        fun name h => ⟨(howns name h).1, fun hmem => (howns name h).2 (hstart hmem)⟩
    · refine ⟨fun a ha => ?_, hlater⟩
      rw [List.mem_singleton.mp ha]
      exact hfirst
    · have hrest := ih hlater fun a ha => hfine a (List.mem_cons_of_mem _ ha)
      refine ⟨fun a ha => ?_, hrest.2⟩
      rcases List.mem_cons.mp ha with rfl | ha
      · exact hfirst
      · exact hrest.1 a ha

/-- A download removes only its own files exactly when no `open` fails with an error other than
`EEXIST`. -/
theorem removesOwn_iff : RemovesOwn files (taskDownloadFiles evilMode filename peers files) ↔
    ∀ a, a ∈ (taskDownloadFiles evilMode filename peers files).1 →
      ∀ name, OpenFails evilMode filename a.peer a.files name → name = [] := by
  constructor
  · intro howns a ha name hfails
    by_contra hne
    obtain ⟨hunlinked, hcreated⟩ := (mem_run_case ha).of_openFails hfails hne
    have hown := (howns.1 a ha name hunlinked).1
    rw [hcreated] at hown
    cases hown
  · exact removesOwn_run (Finset.Subset.refl _)

/-- `foo` is there and `open` fails, as it does when there are too many open files: `foo` is gone. -/
theorem failed_open_removes_file :
    taskDownloadFiles 0 (chars ['f', 'o', 'o'])
        [⟨false, [true], fun _ => true, fun _ => 0, []⟩] {chars ['f', 'o', 'o']} =
      ([⟨⟨false, [true], fun _ => true, fun _ => 0, []⟩, {chars ['f', 'o', 'o']},
        .tryAgain none (chars ['f', 'o', 'o'])⟩], ∅) ∧
      ¬ RemovesOwn {chars ['f', 'o', 'o']} (taskDownloadFiles 0 (chars ['f', 'o', 'o'])
        [⟨false, [true], fun _ => true, fun _ => 0, []⟩] {chars ['f', 'o', 'o']}) := by
  have hrun : taskDownloadFiles 0 (chars ['f', 'o', 'o'])
        [⟨false, [true], fun _ => true, fun _ => 0, []⟩] {chars ['f', 'o', 'o']} =
      ([⟨⟨false, [true], fun _ => true, fun _ => 0, []⟩, {chars ['f', 'o', 'o']},
        .tryAgain none (chars ['f', 'o', 'o'])⟩], ∅) := rfl
  refine ⟨hrun, fun howns => ?_⟩
  rw [hrun] at howns
  have hmem := howns.2 (Finset.mem_singleton_self (chars ['f', 'o', 'o']))
  exact absurd hmem (Finset.notMem_empty _)

end CS111.P2P
