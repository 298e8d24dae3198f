import CS111.P2P.MessageRoundTrip

/-!
# File names and their buffers

What `task_new`, `task_pop_peer`, `start_download`, `task_download` and the scan in `task_upload`
store into `t->filename` and `t->disk_filename`. The memory begins at `t->filename`, and
`t->disk_filename` follows it.
-/

namespace CS111.P2P

set_option autoImplicit false

open Memory Relation

inductive NameBuf where
  | filename
  | diskFilename
  deriving Repr, DecidableEq

def NameBuf.offset : NameBuf → Nat
  | .filename => 0
  | .diskFilename => FILENAMESIZ

structure NameStore where
  buf : NameBuf
  index : Nat
  byte : UInt8
  deriving Repr, DecidableEq

/-- The memory after some stores. -/
def after (g : Bytes) : List NameStore → Bytes
  | [] => g
  | st :: rest => after (fun a => if a = st.buf.offset + st.index then st.byte else g a) rest

/-- `strncpy`: the string, padded with NULs up to `n` bytes. -/
def strncpy (buf : NameBuf) (src : List UInt8) (n : Nat) : List NameStore :=
  (List.range n).map fun i => ⟨buf, i, src.getD i 0⟩

/-- What `sprintf` does with its result: the string and a NUL. -/
def putString (buf : NameBuf) (src : List UInt8) : List NameStore :=
  (List.range (src.length + 1)).map fun i => ⟨buf, i, src.getD i 0⟩

def taskNew : List NameStore :=
  strncpy .filename [] FILENAMESIZ ++ strncpy .diskFilename [] FILENAMESIZ

def taskPopPeer : List NameStore := strncpy .diskFilename [] FILENAMESIZ

/-- The length check looks at the empty name of the new task and lets every name pass. -/
def startDownload (filename : List UInt8) : List NameStore :=
  taskNew ++ strncpy .filename filename (FILENAMESIZ - 1) ++ [⟨.filename, FILENAMESIZ, 0⟩]

/-- What `open` with `O_EXCL` answers. -/
inductive OpenResult where
  | opened
  | exist
  | failed
  deriving Repr, DecidableEq

/-- The bytes of `%s~%d~`. -/
def suffixed (filename : List UInt8) (i : Nat) : List UInt8 := filename ++ 126 :: decimal i ++ [126]

def diskName (filename : List UInt8) (i : Nat) : List NameStore :=
  if i = 0 then strncpy .diskFilename filename FILENAMESIZ
  else putString .diskFilename (suffixed filename i)

/-- The loop over the local names, `n` rounds from `i` on. -/
def openLoop (filename : List UInt8) (opens : Nat → OpenResult) : Nat → Nat → List NameStore
  | 0, _ => []
  | n + 1, i =>
    diskName filename i ++
      match opens i with
      | .exist => openLoop filename opens n (i + 1)
      | .opened | .failed => []

/-- `filename` is the name in `t->filename`. -/
def taskDownload (filename : List UInt8) (opens : Nat → OpenResult) : List NameStore :=
  openLoop filename opens 50 0

/-- What a step of the scanner stores through a string argument. -/
def Scan.writes (m : Bytes) (len : Nat) (c : Scan) : List NameStore :=
  match c.mode with
  | .string str =>
    match peek m len c.pos with
    | none => [⟨.filename, str.length, 0⟩]
    | some b =>
      if isspace b then [⟨.filename, str.length, 0⟩]
      else [⟨.filename, str.length, (quotedAt m c.pos).getD b⟩]
  | .format | .quad _ _ _ | .decimal _ | .blanks | .exit => []

/-- A scan that stores into `t->filename`. -/
structure Upload where
  scan : Scan
  names : Bytes

def UploadStep (m : Bytes) (len : Nat) (u u' : Upload) : Prop :=
  u.scan.step m len = some u'.scan ∧ u'.names = after u.names (u.scan.writes m len)

/-- The states of `task_upload` on a request of `len` bytes. -/
def Uploads (m : Bytes) (len : Nat) (u : Upload) : Prop :=
  ∃ g, ReflTransGen (UploadStep m len) ⟨.start getFormat, after g taskNew⟩ u

/-- The name in `t->filename` ends inside the buffer. -/
def Terminated (names : Bytes) : Prop := ∃ k, k < FILENAMESIZ ∧ names k = 0

def InBounds (stores : List NameStore) : Prop := ∀ st, st ∈ stores → st.index < FILENAMESIZ

/-- The places that fill the buffers; a download gets its name from `start_download`. -/
inductive NameUse where
  | taskNew
  | taskPopPeer
  | upload (m : Bytes) (len : Nat)
  | startDownload (filename : List UInt8)
  | taskDownload (filename : List UInt8) (opens : Nat → OpenResult)

def NameUse.Fits : NameUse → Prop
  | .taskNew => InBounds CS111.P2P.taskNew
  | .taskPopPeer => InBounds CS111.P2P.taskPopPeer
  | .upload m len =>
    (∀ u, Uploads m len u → InBounds (u.scan.writes m len)) ∧
      ∀ u, Uploads m len u → u.scan.step m len = none → u.scan.ret ≥ 0 → Terminated u.names
  | .startDownload filename =>
    InBounds (CS111.P2P.startDownload filename) ∧
      ∀ g, Terminated (after g (CS111.P2P.startDownload filename))
  | .taskDownload filename opens =>
    InBounds (CS111.P2P.taskDownload (filename.take (FILENAMESIZ - 1)) opens) ∧
      ∀ g, Terminated (after (after g (CS111.P2P.startDownload filename))
        (CS111.P2P.taskDownload (filename.take (FILENAMESIZ - 1)) opens))

section Requests
variable (m : Bytes) (len : Nat)

/-- The name of a request begins at `p`: behind `GET` and some blanks. -/
structure NameAt (p : Nat) : Prop where
  behind : 4 ≤ p ∧ p ≤ len
  get : m 0 = 71 ∧ m 1 = 69 ∧ m 2 = 84
  blank : ∀ i, 3 ≤ i → i < p → isspace (m i) = true
  head : p < len → isspace (m p) = false

/-- Where character `k` of a name begins that begins at `p`: a quoted byte takes three. -/
def unitPos (p : Nat) : Nat → Nat
  | 0 => p
  | k + 1 => unitPos p k + if (quotedAt m (unitPos p k)).isSome then 3 else 1

/-- The name ends at `q`. -/
def NameEnds (q : Nat) : Prop := q = len ∨ isspace (m q) = true

end Requests

section Stores
variable {g : Bytes} {a i n : Nat} {buf : NameBuf} {src filename : List UInt8}
  {stores stores' : List NameStore} {opens : Nat → OpenResult} {st : NameStore}

end Stores

section Uploads
variable {m : Bytes} {len p k : Nat} {c c' : Scan} {u u' : Upload} {names : Bytes}

/-- Where the scan of a request is: in front of the name, in it, behind it, or given up. -/
inductive Getting (m : Bytes) (len : Nat) : Upload → Prop where
  | literal {k : Nat} {names : Bytes} (hk : k ≤ 3 ∧ k ≤ len)
      (get : (1 ≤ k → m 0 = 71) ∧ (2 ≤ k → m 1 = 69) ∧ (3 ≤ k → m 2 = 84)) :
      Getting m len ⟨⟨.format, getFormat.drop k, k, []⟩, names⟩
  | blanks {p : Nat} {names : Bytes} (behind : 3 ≤ p ∧ p ≤ len)
      (get : m 0 = 71 ∧ m 1 = 69 ∧ m 2 = 84)
      (blank : ∀ i, 3 ≤ i → i < p → isspace (m i) = true)
      (first : p = 3 → p < len ∧ isspace (m p) = true) :
      Getting m len ⟨⟨.blanks, getFormat.drop 3, p, []⟩, names⟩
  | name {p : Nat} {names : Bytes} (h : NameAt m len p) :
      Getting m len ⟨⟨.format, getFormat.drop 4, p, []⟩, names⟩
  | string {p : Nat} {str : List UInt8} {names : Bytes} (h : NameAt m len p)
      (before : ∀ k, k < str.length → ¬ NameEnds m len (unitPos m p k)) :
      Getting m len ⟨⟨.string str, getFormat.drop 4, unitPos m p str.length, []⟩, names⟩
  | behind {c : Scan} {names : Bytes} (hmode : c.mode = .format ∨ c.mode = .blanks)
      (plain : ∀ f, f ∈ c.format → f ≠ 37) (terminated : Terminated names) : Getting m len ⟨c, names⟩
  | failed {c : Scan} {names : Bytes} (hmode : c.mode = .exit) (hformat : c.format ≠ []) :
      Getting m len ⟨c, names⟩

theorem writes_nil (h : ∀ str, c.mode ≠ .string str) : c.writes m len = [] := by
  unfold Scan.writes
  split
  · rename_i str hmode
    exact absurd hmode (h str)
  all_goals rfl

theorem UploadStep.same_names (h : UploadStep m len u u') (hmode : ∀ str, u.scan.mode ≠ .string str) :
    u' = ⟨u'.scan, u.names⟩ := by
  have hnames := h.2
  rw [writes_nil hmode] at hnames
  exact congrArg (Upload.mk u'.scan) hnames

theorem literal_step (hk : k < 3) (hle : k ≤ len)
    (h : ScanStep m len ⟨.format, getFormat.drop k, k, []⟩ c') :
    (k < len ∧ m k = getFormat.getD k 0 ∧ c' = ⟨.format, getFormat.drop (k + 1), k + 1, []⟩) ∨
      c' = ⟨.exit, getFormat.drop k, k, []⟩ := by
  have hcons : getFormat.drop k = getFormat.getD k 0 :: getFormat.drop (k + 1) := by
    rw [List.getD_eq_getElem getFormat 0 (by simp [getFormat, chars]; omega)]
    exact List.drop_eq_getElem_cons (by simp [getFormat, chars]; omega)
  have hplain : getFormat.getD k 0 ≠ 37 ∧ isspace (getFormat.getD k 0) = false := by
    have hall : ∀ k, k < 3 → getFormat.getD k 0 ≠ 37 ∧ isspace (getFormat.getD k 0) = false := by decide
    exact hall k hk
  unfold ScanStep Scan.step Scan.formatStep at h
  simp only [hcons, directive_literal hplain.1 hplain.2] at h
  by_cases hcur : peek m len k = some (getFormat.getD k 0)
  · left
    rw [if_pos hcur] at h
    obtain ⟨hne, hbyte⟩ := peek_some hcur
    exact ⟨by omega, hbyte, (Option.some.inj h).symm⟩
  · right
    rw [if_neg hcur, ← hcons] at h
    exact (Option.some.inj h).symm

theorem string_step {str : List UInt8} {format : List UInt8} {pos : Nat} {st : List Stored} :
    Scan.step m len ⟨.string str, format, pos, st⟩ =
      some (Scan.stringStep (peek m len pos) (quotedAt m pos) ⟨.string str, format, pos, st⟩ str) := rfl

/-- At the end of the name the NUL is stored. -/
theorem string_end {pos : Nat} (str format : List UInt8) (st : List Stored) (hend : NameEnds m len pos) :
    Scan.step m len ⟨.string str, format, pos, st⟩ =
        some ⟨.format, format.drop 2, pos, st ++ [.string str]⟩ ∧
      Scan.writes m len ⟨.string str, format, pos, st⟩ = [⟨.filename, str.length, 0⟩] := by
  rw [string_step]
  unfold Scan.stringStep Scan.writes
  by_cases hlen : pos = len
  · have hpeek : peek m len pos = none := if_pos hlen
    simp only [hpeek, and_true]
    rfl
  · have hpeek : peek m len pos = some (m pos) := if_neg hlen
    have hsp : isspace (m pos) = true := hend.resolve_left hlen
    simp only [hpeek, if_pos hsp, and_true]
    rfl

/-- Before the end a character of the name is stored. -/
theorem string_more {str : List UInt8} (format : List UInt8) (st : List Stored)
    (hmore : ¬ NameEnds m len (unitPos m p str.length)) : ∃ b,
    Scan.step m len ⟨.string str, format, unitPos m p str.length, st⟩ =
        some ⟨.string (str ++ [b]), format, unitPos m p (str ++ [b]).length, st⟩ ∧
      Scan.writes m len ⟨.string str, format, unitPos m p str.length, st⟩ =
        [⟨.filename, str.length, b⟩] := by
  obtain ⟨hlen, hsp⟩ := not_or.mp hmore
  have hpeek : peek m len (unitPos m p str.length) = some (m (unitPos m p str.length)) := if_neg hlen
  rw [string_step]
  unfold Scan.stringStep Scan.writes
  simp only [hpeek, if_neg hsp, List.length_append, List.length_singleton, unitPos]
  cases quotedAt m (unitPos m p str.length) with
  | none => exact ⟨_, rfl, rfl⟩
  | some q => exact ⟨q, rfl, rfl⟩

theorem blanks_done_step {format : List UInt8} {st : List Stored}
    (hno : p < len → isspace (m p) = false) (hle : p ≤ len) :
    Scan.step m len ⟨.blanks, format, p, st⟩ = some ⟨.format, format.dropWhile isspace, p, st⟩ := by
  have hany : (peek m len p).any isspace = false := by
    unfold peek
    split
    · rfl
    · exact hno (by omega)
  unfold Scan.step Scan.blanksStep
  simp [hany]

theorem blank_step : Scan.step m len ⟨.format, getFormat.drop 3, 3, []⟩ =
    if (peek m len 3).any isspace then some ⟨.blanks, getFormat.drop 3, 3, []⟩
    else some ⟨.exit, getFormat.drop 3, 3, []⟩ := by
  have hcons : getFormat.drop 3 = 32 :: getFormat.drop 4 := rfl
  unfold Scan.step Scan.formatStep
  simp only [hcons, directive_blank (show isspace 32 = true from rfl)]
  split
  all_goals rfl

/-- Behind the name there is no conversion left in the format. -/
theorem behind_step (hmode : c.mode = .format ∨ c.mode = .blanks) (plain : ∀ f, f ∈ c.format → f ≠ 37)
    (h : c.step m len = some c') :
    ((c'.mode = .format ∨ c'.mode = .blanks) ∧ ∀ f, f ∈ c'.format → f ≠ 37) ∨
      (c'.mode = .exit ∧ c'.format ≠ []) := by
  unfold Scan.step at h
  rcases hmode with hmode | hmode
  · simp only [hmode] at h
    unfold Scan.formatStep at h
    cases hformat : c.format with
    | nil =>
      rw [hformat] at h
      exact absurd h (by simp [directive])
    | cons f format =>
      have hplain : f ≠ 37 := plain f (by rw [hformat]; exact List.mem_cons_self)
      rw [hformat, directive_plain hplain] at h
      by_cases hsp : isspace f = true
      · simp only [if_pos hsp] at h
        have hc' := Option.some.inj h
        split at hc'
        · left
          rw [← hc']
          exact ⟨.inr rfl, plain⟩
        · right
          rw [← hc']
          exact ⟨rfl, by rw [Scan.goto, hformat]; simp⟩
      · simp only [if_neg hsp] at h
        have hc' := Option.some.inj h
        split at hc'
        · left
          rw [← hc']
          apply And.intro (.inl hmode)
          intro f' hf'
          exact plain f' (by rw [hformat]; exact List.mem_cons_of_mem _ hf')
        · right
          rw [← hc']
          exact ⟨rfl, by rw [Scan.goto, hformat]; simp⟩
  · simp only [hmode] at h
    left
    have hc' := Option.some.inj h
    unfold Scan.blanksStep at hc'
    split at hc'
    · rw [← hc']
      exact ⟨.inr hmode, plain⟩
    · rw [← hc']
      apply And.intro (.inl rfl)
      intro f hf
      exact plain f (List.dropWhile_subset _ hf)

/-- The name ends within the buffer. -/
def NameShort (m : Bytes) (len : Nat) : Prop :=
  ∀ p, NameAt m len p → ∃ k, k < FILENAMESIZ ∧ NameEnds m len (unitPos m p k)

theorem NameShort.length_lt {str : List UInt8} (hshort : NameShort m len) (h : NameAt m len p)
    (before : ∀ k, k < str.length → ¬ NameEnds m len (unitPos m p k)) : str.length < FILENAMESIZ := by
  obtain ⟨k, hk, hend⟩ := hshort p h
  by_contra hlong
  exact before k (by omega) hend

theorem Getting.start (names : Bytes) : Getting m len ⟨.start getFormat, names⟩ := by
  have h : Getting m len ⟨⟨.format, getFormat.drop 0, 0, []⟩, names⟩ := by
    apply Getting.literal
    · omega
    · omega
  exact h

theorem Getting.step (hshort : NameShort m len) (h : Getting m len u) (hstep : UploadStep m len u u') :
    Getting m len u' := by
  cases h with
  | @literal k names hk get =>
    rw [hstep.same_names fun str hmode => absurd hmode (by simp)]
    have hscan := hstep.1
    by_cases h3 : k = 3
    · subst h3
      rw [blank_step] at hscan
      by_cases hany : (peek m len 3).any isspace = true
      · rw [if_pos hany] at hscan
        rw [← Option.some.inj hscan]
        obtain ⟨b, hb, hsp⟩ := (Option.any_eq_true _ _).mp hany
        obtain ⟨hne, hbyte⟩ := peek_some hb
        apply Getting.blanks
        · omega
        · exact ⟨get.1 (by omega), get.2.1 (by omega), get.2.2 (by omega)⟩
        · intro i h1 h2
          omega
        · intro _
          exact ⟨by omega, by rwa [hbyte]⟩
      · rw [if_neg hany] at hscan
        rw [← Option.some.inj hscan]
        exact .failed rfl (by decide)
    · rcases literal_step (by omega) hk.2 hscan with ⟨hlt, hbyte, hc'⟩ | hc'
      · rw [hc']
        apply Getting.literal
        · omega
        · obtain rfl | rfl | rfl : k = 0 ∨ k = 1 ∨ k = 2 := by omega
          · exact ⟨fun _ => hbyte, fun h => by omega, fun h => by omega⟩
          · exact ⟨fun _ => get.1 (by omega), fun _ => hbyte, fun h => by omega⟩
          · exact ⟨fun _ => get.1 (by omega), fun _ => get.2.1 (by omega), fun _ => hbyte⟩
      · rw [hc']
        apply Getting.failed rfl
        have hall : ∀ k, k < 4 → getFormat.drop k ≠ [] := by decide
        exact hall k (by omega)
  | @blanks p names behind get blank first =>
    rw [hstep.same_names fun str hmode => absurd hmode (by simp)]
    have hscan := hstep.1
    by_cases hmore : p < len ∧ isspace (m p) = true
    · have hpeek : peek m len p = some (m p) := if_neg (by omega)
      rw [← Option.some.inj ((blanks_step hpeek hmore.2).symm.trans hscan)]
      apply Getting.blanks
      · omega
      · exact get
      · intro i h1 h2
        by_cases hip : i = p
        · rw [hip]
          exact hmore.2
        · exact blank i h1 (by omega)
      · intro h
        omega
    · have hno : p < len → isspace (m p) = false := by
        intro hlt
        simpa [hlt] using hmore
      rw [← Option.some.inj ((blanks_done_step hno behind.2).symm.trans hscan)]
      apply Getting.name
      constructor
      · have hne : p ≠ 3 := fun h => hmore (first h)
        omega
      · exact get
      · exact blank
      · exact hno
  | @name p names hname =>
    rw [hstep.same_names fun str hmode => absurd hmode (by simp)]
    have hscan : some ⟨.string [], getFormat.drop 4, p, []⟩ = some u'.scan := hstep.1
    rw [← Option.some.inj hscan]
    have hbefore : ∀ k, k < ([] : List UInt8).length → ¬ NameEnds m len (unitPos m p k) := by
      intro k hk
      exact absurd hk (Nat.not_lt_zero k)
    exact .string hname hbefore
  | @string p str names hname before =>
    have hnames := hstep.2
    by_cases hend : NameEnds m len (unitPos m p str.length)
    · obtain ⟨hscan, hwrites⟩ := string_end str (getFormat.drop 4) [] hend
      rw [hwrites] at hnames
      have hc' := Option.some.inj (hscan.symm.trans hstep.1)
      have hplain : ∀ f, f ∈ (getFormat.drop 4).drop 2 → f ≠ 37 := by decide +kernel
      have hterm : Terminated u'.names := by
        apply Exists.intro str.length
        apply And.intro (hshort.length_lt hname before)
        rw [hnames]
        exact if_pos (by simp [NameBuf.offset])
      have hu' : u' = ⟨u'.scan, u'.names⟩ := rfl
      rw [hu', ← hc']
      exact .behind (.inl rfl) hplain hterm
    · obtain ⟨b, hscan, _⟩ := string_more (getFormat.drop 4) [] hend
      have hc' := Option.some.inj (hscan.symm.trans hstep.1)
      have hu' : u' = ⟨u'.scan, u'.names⟩ := rfl
      rw [hu', ← hc']
      apply Getting.string hname
      intro k hk
      rw [List.length_append, List.length_singleton] at hk
      by_cases hklast : k = str.length
      · rw [hklast]
        exact hend
      · exact before k (by omega)
  | @behind c names hmode plain terminated =>
    have hsame := hstep.same_names fun str hstr => by
      rcases hmode with hmode | hmode
      · exact absurd (hmode.symm.trans hstr) (by simp)
      · exact absurd (hmode.symm.trans hstr) (by simp)
    rw [hsame]
    rcases behind_step hmode plain hstep.1 with ⟨hmode', hplain'⟩ | ⟨hmode', hformat'⟩
    · exact .behind hmode' hplain' terminated
    · exact .failed hmode' hformat'
  | @failed c names hmode hformat =>
    have hnone : c.step m len = none := by
      unfold Scan.step
      simp only [hmode]
    exact absurd (hnone.symm.trans hstep.1) (by simp)

/-- A scan that reaches the end of the format is behind the name. -/
theorem Getting.terminated (h : Getting m len u) (hret : u.scan.ret ≥ 0) : Terminated u.names := by
  have hformat : u.scan.format = [] := by
    by_contra hne
    rw [Scan.ret, if_neg hne] at hret
    omega
  have hdrop : ∀ k, k < 5 → getFormat.drop k ≠ [] := by decide
  cases h with
  | @literal k names hk => exact absurd hformat (hdrop k (by omega))
  | blanks => exact absurd hformat (hdrop 3 (by omega))
  | name => exact absurd hformat (hdrop 4 (by omega))
  | string => exact absurd hformat (hdrop 4 (by omega))
  | behind _ _ terminated => exact terminated
  | failed _ hne => exact absurd hformat hne

theorem NameAt.scans (h : NameAt m len p) :
    Scans m len (.start getFormat) ⟨.string [], getFormat.drop 4, p, []⟩ := by
  have hbehind := h.behind
  have hget : Lies m len 0 [71, 69, 84] := by
    constructor
    · simp only [List.length_cons, List.length_nil]
      omega
    · intro i hi
      obtain rfl | rfl | rfl : i = 0 ∨ i = 1 ∨ i = 2 := by
        simp only [List.length_cons, List.length_nil] at hi
        omega
      · exact h.get.1
      · exact h.get.2.1
      · exact h.get.2.2
  have hword : Scans m len (.start getFormat) ⟨.format, getFormat.drop 3, 0 + 3, []⟩ := by
    apply scans_literals _ hget
    decide +kernel
  have hblanks : Scans m len ⟨.format, getFormat.drop 3, 0 + 3, []⟩
      ⟨.format, getFormat.drop 4, p, []⟩ := by
    apply scans_blanks rfl _ (by omega)
    · intro i h1 h2
      exact ⟨m i, if_neg (by omega), h.blank i h1 h2⟩
    · intro c hc
      obtain ⟨hne, hbyte⟩ := peek_some hc
      have hhead := h.head (by omega)
      rw [hbyte] at hhead
      simp only [hhead, Bool.not_false]
    · decide +kernel
  have hstart : ScanStep m len ⟨.format, getFormat.drop 4, p, []⟩
      ⟨.string [], getFormat.drop 4, p, []⟩ := rfl
  exact (hword.trans hblanks).tail hstart

end Uploads

end CS111.P2P
