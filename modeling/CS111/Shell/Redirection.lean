import CS111.Shell.OpenDescriptors

/-!
# Where a program reads and writes

The streams of a program are those of the innermost redirection or side of a pipeline around it. A
redirection that could not be opened leaves -1, which means that the stream is inherited.
-/

namespace CS111.Shell

set_option autoImplicit false

open Logged

variable {fds fds' : Descriptors} {n k : Nat} {d : Description} {w : World} {p p' : Process}
  {h : Header} {a b c : Command} {input output fd : Int} {calls : List Call} {o : Opened}
  {access : Access} {side : Call → Option Source} {src : Option Source} {call : Call}

/-! ## The programs of a tree -/

/-- Where a stream comes from, as the tree says it. -/
inductive Origin where
  | file (name : Word)
  | pipe
  deriving Repr, DecidableEq

/-- What a command, or a side of a pipeline, says about the streams of the programs in it. -/
structure Frame where
  input : Option Origin
  output : Option Origin
  deriving Repr, DecidableEq

def Header.frame (h : Header) : Frame := ⟨h.input.map .file, h.output.map .file⟩

/-- The program that a simple command starts, with its arguments. -/
def programOf (word : List Word) : List Word :=
  if word.head? = some execWord then word.tail else word

/-- The programs of a command, each with what is around it, from the inside out. -/
def Command.programs : Command → List Frame → List (List Frame × List Word)
  | .simple h word, frames => [(h.frame :: frames, programOf word)]
  | .sequence _ a b, frames => a.programs frames ++ b.programs frames
  | .pipe _ a b, frames =>
    a.programs (⟨none, some .pipe⟩ :: frames) ++ b.programs (⟨some .pipe, none⟩ :: frames)
  | .subshell h a, frames => a.programs (h.frame :: frames)
  | .loop _ h a b, frames | .ifThen h a b, frames =>
    a.programs (h.frame :: frames) ++ b.programs (h.frame :: frames)
  | .ifElse h a b c, frames =>
    a.programs (h.frame :: frames) ++ b.programs (h.frame :: frames) ++
      c.programs (h.frame :: frames)

def Source.origin : Source → Origin
  | .file name _ => .file name
  | .pipeEnd _ => .pipe

def Call.frame (call : Call) : Frame :=
  ⟨call.input.map Source.origin, call.output.map Source.origin⟩

/-- The innermost call that says where a stream comes from. -/
def governs (side : Call → Option Source) (calls : List Call) : Option Source :=
  calls.findSome? side

/-- What the source gives; nothing when the file could not be opened. -/
def Source.description (w : World) (access : Access) : Source → Option Description
  | .file name key => if w.opens key then some (.file name access) else none
  | .pipeEnd id => some (.pipe id access)

/-- What a program's stream has to refer to: without a source, what the shell's does. Nothing may
take the place of a file that could not be opened. -/
def wanted (w : World) (shell : Nat) (access : Access) : Option Source → Option Description
  | none => some (.given shell)
  | some s => s.description w access

/-- The program that is started is one of the tree, and the calls are what the tree has around it. -/
def Event.Placed (c : Command) (frames : List Frame) : Event → Prop
  | .start word _ calls _ _ => (calls.map Call.frame, word) ∈ c.programs frames
  | .colon _ _ | .loopEnd _ _ _ => True

def Event.StreamsProper (w : World) : Event → Prop
  | .start _ _ calls stdin stdout =>
    stdin = wanted w 0 .read (governs Call.input calls) ∧
      stdout = wanted w 1 .write (governs Call.output calls)
  | .colon _ _ | .loopEnd _ _ _ => True

/-- The program has been started with the streams that the tree wants. -/
def Event.Proper (w : World) (c : Command) (e : Event) : Prop := e.Placed c [] ∧ e.StreamsProper w

def Source.Opened (w : World) : Source → Prop
  | .file _ key => w.opens key = true
  | .pipeEnd _ => True

/-- The redirections that govern the program could be opened. -/
def Event.SourcesOpened (w : World) : Event → Prop
  | .start _ _ calls _ _ =>
    (∀ s, governs Call.input calls = some s → s.Opened w) ∧
      ∀ s, governs Call.output calls = some s → s.Opened w
  | .colon _ _ | .loopEnd _ _ _ => True

theorem wanted_eq_none_iff {shell : Nat} :
    wanted w shell access src = none ↔ ∃ s, src = some s ∧ ¬ s.Opened w := by
  cases src with
  | none => simp [wanted]
  | some s =>
    cases s with
    | pipeEnd id => simp [wanted, Source.description, Source.Opened]
    | file name key => simp [wanted, Source.description, Source.Opened]

/-! ## Descriptors and sources -/

/-- The descriptor `fd` is what the source gives, or -1 to inherit. -/
def Feeds (w : World) (fds : Descriptors) (access : Access) (fd : Int) (src : Option Source) :
    Prop :=
  match src.bind (Source.description w access) with
  | some d => ∃ n : Nat, fd = n ∧ 2 ≤ n ∧ lookup fds n = some d
  | none => fd = -1

structure Wired (w : World) (fds : Descriptors) (input output : Int) (calls : List Call) : Prop where
  stdin : lookup fds 0 = some (.given 0)
  stdout : lookup fds 1 = some (.given 1)
  input : Feeds w fds .read input (governs Call.input calls)
  output : Feeds w fds .write output (governs Call.output calls)

/-- What is open stays as it is. -/
def Keeps (fds fds' : Descriptors) : Prop := ∀ n d, lookup fds n = some d → lookup fds' n = some d

theorem Leaves.keeps {l : List Nat} (h : Leaves fds fds' l) : Keeps fds fds' := by
  intro n d hn
  have hmem : n ∉ l := by
    intro hmem
    rw [(h.opened n hmem).1] at hn
    cases hn
  rw [h.kept n hmem, hn]

theorem Feeds.keeps (h : Feeds w fds access fd src) (hk : Keeps fds fds') :
    Feeds w fds' access fd src := by
  unfold Feeds at h ⊢
  cases hd : src.bind (Source.description w access) with
  | none =>
    rw [hd] at h
    exact h
  | some d =>
    rw [hd] at h
    obtain ⟨n, rfl, hn, hlook⟩ := h
    exact ⟨n, rfl, hn, hk n d hlook⟩

theorem Wired.keeps (h : Wired w fds input output calls) (hk : Keeps fds fds') :
    Wired w fds' input output calls where
  stdin := hk 0 _ h.stdin
  stdout := hk 1 _ h.stdout
  input := h.input.keeps hk
  output := h.output.keeps hk

theorem governs_cons (side : Call → Option Source) (call : Call) (calls : List Call) :
    governs side (call :: calls) = (side call).or (governs side calls) := by
  unfold governs
  rw [List.findSome?_cons]
  cases side call <;> rfl

/-- The lowest free descriptor is not a standard stream. -/
theorem two_le_lowestFree (h0 : lookup fds 0 ≠ none) (h1 : lookup fds 1 ≠ none) :
    2 ≤ lowestFree fds := by
  have hfree := lookup_lowestFree fds
  by_contra hlt
  have hcases : lowestFree fds = 0 ∨ lowestFree fds = 1 := by omega
  rcases hcases with heq | heq
  · rw [heq] at hfree
    exact h0 hfree
  · rw [heq] at hfree
    exact h1 hfree

theorem redirect_feeds (w : World) (name : Option Word) (access : Access) (fd : Int) (p : Process)
    (h0 : lookup p.fds 0 ≠ none) (h1 : lookup p.fds 1 ≠ none) (h : Feeds w p.fds access fd src) :
    Feeds w (redirect w name access fd p).2.fds access (redirect w name access fd p).1
      ((name.map fun f => Source.file f p.key).or src) := by
  rcases redirect_cases w name access fd p with
    ⟨rfl, heq⟩ | ⟨f, rfl, hopen, heq⟩ | ⟨f, rfl, hopen, heq⟩
  · rw [heq]
    exact h
  · have hlook : lookup (p.allocate (.file f access)).fds (lowestFree p.fds) =
        some (.file f access) := by
      rw [Process.allocate, lookup_put, if_pos rfl]
    have hsource : (Source.file f p.key).description w access = some (.file f access) :=
      if_pos hopen
    rw [heq, Option.map_some, Option.some_or, Feeds, Option.bind_some, hsource]
    exact ⟨lowestFree p.fds, rfl, two_le_lowestFree h0 h1, hlook⟩
  · have hsource : (Source.file f p.key).description w access = none :=
      if_neg (by rw [hopen]; exact Bool.false_ne_true)
    rw [heq, Option.map_some, Option.some_or, Feeds, Option.bind_some, hsource]

theorem Wired.openRedirects (hw : Wired w p.fds input output calls) (h : Header) :
    Wired w (openRedirects w h input output p).process.fds (openRedirects w h input output p).input
      (openRedirects w h input output p).output
      ((openRedirects w h input output p).call :: calls) := by
  have hne : ∀ {n : Nat} {d : Description} {q : Descriptors}, lookup q n = some d → lookup q n ≠ none := by
    intro n d q hn
    rw [hn]
    exact Option.some_ne_none d
  have hfirst := (redirect_leaves w h.input .read input p).2.1.keeps
  have hsecond := (redirect_leaves w h.output .write output
    (redirect w h.input .read input p).2).2.1.keeps
  have hin := redirect_feeds w h.input .read input p (hne hw.stdin) (hne hw.stdout) hw.input
  have hmid := hw.keeps hfirst
  have hout := redirect_feeds w h.output .write output (redirect w h.input .read input p).2
    (hne hmid.stdin) (hne hmid.stdout) hmid.output
  have hend := hmid.keeps hsecond
  constructor
  · exact hend.stdin
  · exact hend.stdout
  · rw [governs_cons]
    exact hin.keeps hsecond
  · rw [governs_cons]
    exact hout

theorem frame_openRedirects (w : World) (h : Header) (input output : Int) (p : Process) :
    (openRedirects w h input output p).call.frame = h.frame := by
  obtain ⟨status, i, o⟩ := h
  cases i <;> cases o <;> rfl

theorem frames_openRedirects (w : World) (h : Header) (input output : Int) (p : Process)
    (calls : List Call) : ((openRedirects w h input output p).call :: calls).map Call.frame =
      h.frame :: calls.map Call.frame := by
  rw [List.map_cons, frame_openRedirects]

/-! ## Starting a program -/

theorem lookup_dup2 (hfd : fd = (n : Nat)) (hd : lookup fds n = some d) (new k : Nat) :
    lookup (dup2 fds fd new) k = if k = new then some d else lookup fds k := by
  subst hfd
  unfold dup2
  rw [if_neg (by omega), Int.toNat_natCast, hd]
  exact lookup_put _ _ _ _

/-- The table after a stream has been put on the standard descriptor `new`. -/
def afterDup (fds : Descriptors) (fd : Int) (new : Nat) : Descriptors :=
  if fd ≠ -1 then dup2 fds fd new else fds

theorem Feeds.afterDup (h : Feeds w fds access fd src) {new : Nat}
    (hnew : lookup fds new = some (.given new)) :
    lookup (afterDup fds fd new) new = some ((wanted w new access src).getD (.given new)) ∧
      ∀ k, k ≠ new → lookup (afterDup fds fd new) k = lookup fds k := by
  unfold Feeds at h
  unfold CS111.Shell.afterDup
  cases hd : src.bind (Source.description w access) with
  | none =>
    rw [hd] at h
    have hgiven : (wanted w new access src).getD (.given new) = .given new := by
      cases src with
      | none => rfl
      | some s =>
        have hnone : s.description w access = none := hd
        rw [wanted, hnone, Option.getD_none]
    rw [if_neg (by simp [h]), hgiven]
    exact ⟨hnew, fun _ _ => rfl⟩
  | some d =>
    rw [hd] at h
    obtain ⟨n, hfd, hn, hlook⟩ := h
    have hwanted : wanted w new access src = some d := by
      cases src with
      | none => cases hd
      | some s => exact hd
    rw [if_pos (by omega), hwanted, Option.getD_some]
    constructor
    · rw [lookup_dup2 hfd hlook, if_pos rfl]
    · intro k hk
      rw [lookup_dup2 hfd hlook, if_neg hk]

theorem Wired.programStreams (hw : Wired w o.process.fds o.input o.output calls) :
    programStreams o = (some ((wanted w 0 .read (governs Call.input calls)).getD (.given 0)),
      some ((wanted w 1 .write (governs Call.output calls)).getD (.given 1))) := by
  obtain ⟨hstdin, hrest⟩ := hw.input.afterDup hw.stdin
  have hout : Feeds w (afterDup o.process.fds o.input 0) .write o.output
      (governs Call.output calls) := by
    have hfeeds := hw.output
    unfold Feeds at hfeeds ⊢
    cases hd : (governs Call.output calls).bind (Source.description w .write) with
    | none =>
      rw [hd] at hfeeds
      exact hfeeds
    | some d =>
      rw [hd] at hfeeds
      obtain ⟨n, hfd, hn, hlook⟩ := hfeeds
      exact ⟨n, hfd, hn, by rw [hrest n (by omega), hlook]⟩
  have hone : lookup (afterDup o.process.fds o.input 0) 1 = some (.given 1) := by
    rw [hrest 1 (by omega), hw.stdout]
  obtain ⟨hstdout, hrest'⟩ := hout.afterDup hone
  have hkept := hrest' 0 (by omega)
  exact Prod.ext (hkept.trans hstdin) hstdout

/-- The event is one of the command, and its streams are the wanted ones exactly if their sources
could be opened. -/
structure Event.Judged (w : World) (c : Command) (frames : List Frame) (e : Event) : Prop where
  placed : e.Placed c frames
  streams : e.StreamsProper w ↔ e.SourcesOpened w

/-- A part of a command. -/
theorem Event.Judged.inside {c' : Command} {frames frames' : List Frame} {e : Event}
    (h : e.Judged w c frames) (hsub : c.programs frames ⊆ c'.programs frames') :
    e.Judged w c' frames' := by
  refine ⟨?_, h.streams⟩
  cases e with
  | start word status calls stdin stdout => exact hsub h.placed
  | colon | loopEnd => exact trivial

theorem streams_start (w : World) (word : List Word) (status : WaitStatus) (calls : List Call) :
    (Event.start word status calls
        (some ((wanted w 0 .read (governs Call.input calls)).getD (.given 0)))
        (some ((wanted w 1 .write (governs Call.output calls)).getD (.given 1)))).StreamsProper w ↔
      (Event.start word status calls
        (some ((wanted w 0 .read (governs Call.input calls)).getD (.given 0)))
        (some ((wanted w 1 .write (governs Call.output calls)).getD (.given 1)))).SourcesOpened w := by
  have hstream : ∀ (shell : Nat) (access : Access) (src : Option Source),
      some ((wanted w shell access src).getD (.given shell)) = wanted w shell access src ↔
        ∀ s, src = some s → s.Opened w := by
    intro shell access src
    constructor
    · intro hsome s hsrc
      by_contra hclosed
      rw [wanted_eq_none_iff.mpr ⟨s, hsrc, hclosed⟩] at hsome
      cases hsome
    · intro hopen
      cases hwanted : wanted w shell access src with
      | none =>
        obtain ⟨s, hsrc, hclosed⟩ := wanted_eq_none_iff.mp hwanted
        exact absurd (hopen s hsrc) hclosed
      | some d => rfl
  exact and_congr (hstream 0 .read _) (hstream 1 .write _)

theorem sat_startProgram_judged {frames : List Frame} (word : List Word) (status : WaitStatus)
    (calls : List Call) (hw : Wired w o.process.fds o.input o.output (o.call :: calls))
    (hplaced : ((o.call :: calls).map Call.frame, word) ∈ c.programs frames) :
    (startProgram word status calls o).Sat (Event.Judged w c frames) (fun _ => True)
      fun _ _ => True := by
  unfold startProgram
  rw [hw.programStreams]
  exact (sat_tell ⟨hplaced, streams_start w word status _⟩).mono (fun e he => he)
    fun _ _ _ => trivial

/-! ## Pipes -/

/-- The process with a new pipe. -/
def withPipe (p : Process) : Process :=
  ((p.allocate (.pipe p.key .read)).allocate (.pipe p.key .write)).tick

def readEnd (p : Process) : Nat := lowestFree p.fds

def writeEnd (p : Process) : Nat := lowestFree (p.allocate (.pipe p.key .read)).fds

theorem lookup_withPipe (p : Process) (k : Nat) : lookup (withPipe p).fds k =
    if k = writeEnd p then some (.pipe p.key .write)
    else if k = readEnd p then some (.pipe p.key .read) else lookup p.fds k := by
  have hlast := lookup_put (p.allocate (.pipe p.key .read)).fds (writeEnd p) k
    (some (.pipe p.key .write))
  have hfirst := lookup_put p.fds (readEnd p) k (some (.pipe p.key .read))
  exact hlast.trans (congrArg (fun d => if k = writeEnd p then some (.pipe p.key .write) else d) hfirst)

theorem writeEnd_ne_readEnd (p : Process) : writeEnd p ≠ readEnd p := by
  intro heq
  have hfree := lookup_lowestFree (p.allocate (.pipe p.key .read)).fds
  have hread := lookup_put p.fds (readEnd p) (writeEnd p) (some (.pipe p.key .read))
  rw [if_pos heq] at hread
  exact absurd (hread.symm.trans hfree) (by simp)

theorem lookup_readEnd (p : Process) : lookup p.fds (readEnd p) = none := lookup_lowestFree p.fds

theorem lookup_writeEnd (p : Process) : lookup p.fds (writeEnd p) = none := by
  have hfree := lookup_lowestFree (p.allocate (.pipe p.key .read)).fds
  have hfirst := lookup_put p.fds (readEnd p) (writeEnd p) (some (.pipe p.key .read))
  rw [if_neg (writeEnd_ne_readEnd p)] at hfirst
  exact hfirst.symm.trans hfree

/-- Closing one end of the new pipe keeps what was open before. -/
theorem keeps_closeEnd (p : Process) (hend : n = readEnd p ∨ n = writeEnd p) :
    Keeps p.fds (close (withPipe p).fds n) := by
  intro k d hk
  have hread : k ≠ readEnd p := by
    rintro rfl
    rw [lookup_readEnd] at hk
    cases hk
  have hwrite : k ≠ writeEnd p := by
    rintro rfl
    rw [lookup_writeEnd] at hk
    cases hk
  have hne : k ≠ n := by
    rcases hend with rfl | rfl
    · exact hread
    · exact hwrite
  rw [lookup_close, if_neg hne, lookup_withPipe, if_neg hwrite, if_neg hread, hk]

theorem Wired.ne_none (hw : Wired w fds input output calls) :
    lookup fds 0 ≠ none ∧ lookup fds 1 ≠ none := by
  rw [hw.stdin, hw.stdout]
  exact ⟨Option.some_ne_none _, Option.some_ne_none _⟩

theorem Wired.leftSide (hw : Wired w p.fds input output calls) :
    Wired w ((withPipe p).fork.close (readEnd p)).fds input (writeEnd p)
      (⟨none, some (.pipeEnd p.key)⟩ :: calls) := by
  have hkeep := hw.keeps (keeps_closeEnd p (.inl rfl))
  have hlook : lookup (close (withPipe p).fds (readEnd p)) (writeEnd p) = some (.pipe p.key .write) := by
    rw [lookup_close, if_neg (writeEnd_ne_readEnd p), lookup_withPipe, if_pos rfl]
  have htwo : 2 ≤ writeEnd p := by
    have hfirst : ∀ k, lookup p.fds k ≠ none →
        lookup (p.allocate (.pipe p.key .read)).fds k ≠ none := by
      intro k hk
      rw [Process.allocate, lookup_put]
      split
      · exact Option.some_ne_none _
      · exact hk
    exact two_le_lowestFree (hfirst 0 hw.ne_none.1) (hfirst 1 hw.ne_none.2)
  have hfds : ((withPipe p).fork.close (readEnd p)).fds = close (withPipe p).fds (readEnd p) := rfl
  rw [hfds]
  constructor
  · exact hkeep.stdin
  · exact hkeep.stdout
  · rw [governs_cons]
    exact hkeep.input
  · rw [governs_cons]
    exact ⟨writeEnd p, rfl, htwo, hlook⟩

theorem Wired.rightSide (hw : Wired w p.fds input output calls) :
    Wired w ((withPipe p).tick.fork.close (writeEnd p)).fds (readEnd p) output
      (⟨some (.pipeEnd p.key), none⟩ :: calls) := by
  have hkeep := hw.keeps (keeps_closeEnd p (.inr rfl))
  have hlook : lookup (close (withPipe p).fds (writeEnd p)) (readEnd p) = some (.pipe p.key .read) := by
    rw [lookup_close, if_neg (writeEnd_ne_readEnd p).symm, lookup_withPipe,
      if_neg (writeEnd_ne_readEnd p).symm, if_pos rfl]
  have hfds : ((withPipe p).tick.fork.close (writeEnd p)).fds =
      close (withPipe p).fds (writeEnd p) := rfl
  rw [hfds]
  constructor
  · exact hkeep.stdin
  · exact hkeep.stdout
  · rw [governs_cons]
    exact ⟨readEnd p, rfl, two_le_lowestFree hw.ne_none.1 hw.ne_none.2, hlook⟩
  · rw [governs_cons]
    exact hkeep.output

/-! ## The commands -/

/-- Running a command changes statuses only. -/
def SamePrograms (c' c : Command) : Prop := ∀ frames, c'.programs frames = c.programs frames

/-- What an execution of the command `c` under the given calls writes and delivers. -/
abbrev Judging (w : World) (c : Command) (calls : List Call)
    (x : Execution (Command × Process)) : Prop :=
  x.Sat (Event.Judged w c (calls.map Call.frame)) (fun _ => True) fun r _ => SamePrograms r.1 c

theorem judged_simple (h : Header) (word : List Word) (hw : Wired w p.fds input output calls) :
    Judging w (.simple h word) calls (executeSimple w h word input output calls p) := by
  have ho := hw.openRedirects h
  have hplaced : ∀ {program}, programOf word = program →
      (((openRedirects w h input output p).call :: calls).map Call.frame, program) ∈
        (Command.simple h word).programs (calls.map Call.frame) := by
    rintro _ rfl
    rw [frames_openRedirects]
    exact List.mem_singleton_self _
  unfold executeSimple
  by_cases hcolon : word.head? = some colonWord
  · simp only [hcolon, if_true]
    apply (sat_tell _).bind
    · intro _ _ _
      exact sat_pure fun _ => rfl
    · exact ⟨trivial, Iff.rfl⟩
  · simp only [if_neg hcolon]
    by_cases hexec : word.head? = some execWord
    · simp only [hexec, if_true]
      split
      · apply (sat_startProgram_judged _ _ _ ho (hplaced (if_pos hexec))).bind
        intro _ _ _
        exact sat_stop trivial
      · exact sat_stop trivial
    · simp only [if_neg hexec]
      apply (sat_startProgram_judged _ _ _ ho (hplaced (if_neg hexec))).bind
      intro _ _ _
      exact sat_pure fun _ => rfl

section Compound
variable {exec : Command → Int → Int → List Call → Process → Execution (Command × Process)}
  (hexec : ∀ c input output calls p, Wired w p.fds input output calls →
    (exec c input output calls p).Sat (Event.Judged w c (calls.map Call.frame)) (fun _ => True)
      fun r _ => SamePrograms r.1 c ∧ Keeps p.fds r.2.fds)
include hexec

/-- A command that is a part of another one. -/
theorem judged_part (whole : Command) (frames : List Frame) (c : Command)
    (hw : Wired w p.fds input output calls)
    (hsub : c.programs (calls.map Call.frame) ⊆ whole.programs frames) :
    (exec c input output calls p).Sat (Event.Judged w whole frames) (fun _ => True)
      fun r _ => SamePrograms r.1 c ∧ Keeps p.fds r.2.fds :=
  (hexec c input output calls p hw).mono (fun _ he => he.inside hsub) fun _ _ hr => hr

theorem judged_child (whole : Command) (frames : List Frame) (c : Command)
    (hw : Wired w p.fds input output calls)
    (hsub : c.programs (calls.map Call.frame) ⊆ whole.programs frames) :
    (child (exec c input output calls p)).Sat (Event.Judged w whole frames) (fun _ => True)
      fun _ _ => True := by
  unfold child
  apply (judged_part hexec whole frames c hw hsub).attempt.bind
  intro o _ _
  cases o with
  | ok r => exact sat_pure trivial
  | error status => exact sat_pure trivial

theorem judged_sequence (h : Header) (a b : Command) (hw : Wired w p.fds input output calls) :
    Judging w (.sequence h a b) calls (executeSequence exec h a b input output calls p) := by
  unfold executeSequence
  apply (judged_part hexec (.sequence h a b) _ a hw (List.subset_append_left _ _)).bind
  intro r _ hr
  apply (judged_part hexec (.sequence h a b) _ b (hw.keeps hr.2) (List.subset_append_right _ _)).bind
  intro r' _ hr'
  exact sat_pure fun frames => congrArg₂ (· ++ ·) (hr.1 frames) (hr'.1 frames)

theorem judged_subshell (h : Header) (body : Command) (hw : Wired w p.fds input output calls) :
    Judging w (.subshell h body) calls (executeSubshell w exec h body input output calls p) := by
  have hfork : Wired w (openRedirects w h input output p).process.fork.fds _ _ _ :=
    hw.openRedirects h
  unfold executeSubshell
  apply (judged_child hexec (.subshell h body) (calls.map Call.frame) body hfork ?_).bind
  · intro _ _ _
    exact sat_pure fun _ => rfl
  · rw [frames_openRedirects]
    exact List.Subset.refl _

/-- The tree of an `if` command. -/
def ifCommand (h : Header) (cond thenPart : Command) : Option Command → Command
  | none => .ifThen h cond thenPart
  | some c => .ifElse h cond thenPart c

theorem judged_if (h : Header) (cond thenPart : Command) (elsePart : Option Command)
    (hw : Wired w p.fds input output calls) :
    (executeIf w exec h cond thenPart elsePart input output calls p).Sat
      (Event.Judged w (ifCommand h cond thenPart elsePart) (calls.map Call.frame)) (fun _ => True)
      fun r _ => SamePrograms (ifCommand h r.1.2.1 r.1.2.2.1 r.1.2.2.2)
          (ifCommand h cond thenPart elsePart) ∧
        r.1.2.2.2.isSome = elsePart.isSome := by
  have ho := hw.openRedirects h
  have hframes := frames_openRedirects w h input output p calls
  have hparts : cond.programs (h.frame :: calls.map Call.frame) ⊆
        (ifCommand h cond thenPart elsePart).programs (calls.map Call.frame) ∧
      thenPart.programs (h.frame :: calls.map Call.frame) ⊆
        (ifCommand h cond thenPart elsePart).programs (calls.map Call.frame) := by
    cases elsePart with
    | none => exact ⟨List.subset_append_left _ _, List.subset_append_right _ _⟩
    | some c =>
      exact ⟨List.Subset.trans (List.subset_append_left _ _) (List.subset_append_left _ _),
        List.Subset.trans (List.subset_append_right _ _) (List.subset_append_left _ _)⟩
  unfold executeIf
  apply (judged_part hexec _ _ cond ho (hframes ▸ hparts.1)).bind
  intro r _ hr
  have hrest := ho.keeps hr.2
  by_cases hzero : r.1.status = 0
  · simp only [hzero, if_true]
    apply (judged_part hexec _ _ thenPart hrest (hframes ▸ hparts.2)).bind
    intro r' _ hr'
    refine sat_pure ⟨fun frames => ?_, rfl⟩
    cases elsePart <;> simp only [ifCommand, Command.programs, hr.1 (h.frame :: frames),
      hr'.1 (h.frame :: frames)]
  · simp only [if_neg hzero]
    cases elsePart with
    | none =>
      refine sat_pure ⟨fun frames => ?_, rfl⟩
      simp only [ifCommand, Command.programs, hr.1 (h.frame :: frames)]
    | some c =>
      apply (judged_part hexec _ _ c hrest (hframes ▸ List.subset_append_right _ _)).bind
      intro r' _ hr'
      refine sat_pure ⟨fun frames => ?_, rfl⟩
      simp only [ifCommand, Command.programs, hr.1 (h.frame :: frames), hr'.1 (h.frame :: frames)]

theorem judged_rounds (whole : Command) (frames : List Frame) (type : LoopType) (n : Nat)
    (bodyRan : Bool) (cond body : Command) (p : Process) (hw : Wired w p.fds input output calls)
    (hcond : cond.programs (calls.map Call.frame) ⊆ whole.programs frames)
    (hbody : body.programs (calls.map Call.frame) ⊆ whole.programs frames) :
    (loopRounds type (fun c p => exec c input output calls p) n bodyRan cond body p).Sat
      (Event.Judged w whole frames) (fun _ => True)
      fun r _ => SamePrograms r.1.2.1 cond ∧ SamePrograms r.1.2.2 body := by
  induction n generalizing bodyRan cond body p with
  | zero => exact sat_running
  | succ n ih =>
    rw [loopRounds]
    apply (judged_part hexec whole frames cond hw hcond).bind
    intro r _ hr
    have hrest := hw.keeps hr.2
    by_cases hgo : type.goesOn r.1.status = true
    · simp only [hgo, if_true]
      apply (judged_part hexec whole frames body hrest hbody).bind
      intro r' _ hr'
      apply (ih true r.1 r'.1 r'.2 (hrest.keeps hr'.2) (by rwa [hr.1]) (by rwa [hr'.1])).mono
        fun e he => he
      rintro q _ ⟨hc, hb⟩
      exact ⟨fun frames => (hc frames).trans (hr.1 frames),
        fun frames => (hb frames).trans (hr'.1 frames)⟩
    · simp only [hgo]
      exact sat_pure ⟨hr.1, fun _ => rfl⟩

theorem judged_loop (fuel : Nat) (type : LoopType) (h : Header) (cond body : Command)
    (hw : Wired w p.fds input output calls) :
    Judging w (.loop type h cond body) calls
      (executeLoop w exec fuel type h cond body input output calls p) := by
  have hframes := frames_openRedirects w h input output p calls
  unfold executeLoop
  apply (judged_rounds hexec (.loop type h cond body) (calls.map Call.frame) type fuel false cond body
    _ (hw.openRedirects h) (hframes ▸ List.subset_append_left _ _)
    (hframes ▸ List.subset_append_right _ _)).bind
  rintro r _ ⟨hc, hb⟩
  apply (sat_tell _).bind
  · intro _ _ _
    exact sat_pure fun frames => congrArg₂ (· ++ ·) (hc (h.frame :: frames)) (hb (h.frame :: frames))
  · exact ⟨trivial, Iff.rfl⟩

theorem judged_pipe (h : Header) (a b : Command) (hw : Wired w p.fds input output calls) :
    Judging w (.pipe h a b) calls (executePipe exec h a b input output calls p) := by
  unfold executePipe
  apply ((judged_child hexec (.pipe h a b) (calls.map Call.frame) a hw.leftSide
    (List.subset_append_left _ _)).both (judged_child hexec _ _ b hw.rightSide
      (List.subset_append_right _ _))).bind
  intro r _ _
  have hset : SamePrograms (b.setStatus r.2.value) b := by
    intro frames
    cases b <;> rfl
  exact sat_pure fun frames => congrArg _ (hset (⟨some .pipe, none⟩ :: frames))

end Compound

theorem judged_execute (w : World) (n : Nat) (c : Command) (input output : Int) (calls : List Call)
    (p : Process) (hw : Wired w p.fds input output calls) :
    (recursiveExecute w n c input output calls p).Sat (Event.Judged w c (calls.map Call.frame))
      (fun _ => True) fun r _ => SamePrograms r.1 c ∧ Keeps p.fds r.2.fds := by
  induction n generalizing c input output calls p with
  | zero => exact sat_running
  | succ n ih =>
    have hjudged : Judging w c calls (recursiveExecute w (n + 1) c input output calls p) := by
      cases c with
      | simple h word => exact judged_simple h word hw
      | sequence h a b => exact judged_sequence ih h a b hw
      | pipe h a b => exact judged_pipe ih h a b hw
      | subshell h a => exact judged_subshell ih h a hw
      | loop type h a b => exact judged_loop ih n type h a b hw
      | ifThen h a b =>
        apply (judged_if ih h a b none hw).bind
        rintro ⟨⟨status, a', b', c'⟩, q⟩ _ ⟨hsame, hnone⟩
        obtain rfl : c' = none := Option.not_isSome_iff_eq_none.mp (by simp [hnone])
        exact sat_pure hsame
      | ifElse h a b c =>
        apply (judged_if ih h a b (some c) hw).bind
        rintro ⟨⟨status, a', b', c'⟩, q⟩ _ ⟨hsame, hsome⟩
        obtain ⟨c', rfl⟩ := Option.isSome_iff_exists.mp hsome
        exact sat_pure hsame
    exact (hjudged.and (accounted_execute w (n + 1) c input output calls p)).mono
      (fun e he => he) fun _ _ hr => ⟨hr.1, hr.2.leaves.keeps⟩

/-- A program has the streams of the innermost redirections and pipes that the tree has around it
exactly if these redirections could be opened. -/
theorem streams_proper_iff (w : World) (fuel : Nat) (c : Command) (p : Process) (e : Event)
    (h0 : lookup p.fds 0 = some (.given 0)) (h1 : lookup p.fds 1 = some (.given 1))
    (he : e ∈ (executeCommand w fuel c p).log) : e.Proper w c ↔ e.SourcesOpened w := by
  have hw : Wired w p.fds (-1) (-1) [] := ⟨h0, h1, rfl, rfl⟩
  have hjudged := (judged_execute w fuel c (-1) (-1) [] p hw).events e he
  exact (and_iff_right hjudged.placed).trans hjudged.streams

/-- The program of the command `(a < f) > g`. -/
theorem streams_proper_iff_nested :
    (Event.start [[97]] (.exited 0)
        [⟨some (.file [102] [0, 1]), none⟩, ⟨none, some (.file [103] [0])⟩]
        (some (.file [102] .read)) (some (.file [103] .write))).Proper kindWorld
          (.subshell ⟨-1, none, some [103]⟩ (.simple ⟨-1, some [102], none⟩ [[97]])) ↔
      (Event.start [[97]] (.exited 0)
        [⟨some (.file [102] [0, 1]), none⟩, ⟨none, some (.file [103] [0])⟩]
        (some (.file [102] .read)) (some (.file [103] .write))).SourcesOpened kindWorld :=
  streams_proper_iff kindWorld 2
    (.subshell ⟨-1, none, some [103]⟩ (.simple ⟨-1, some [102], none⟩ [[97]])) freshShell _ rfl rfl
    (by decide +kernel)

/-- The command `a < f` where `f` cannot be opened: the program reads the input of the shell. -/
theorem failed_open_inherits : ∃ e,
    e ∈ (executeCommand ⟨fun _ => false, fun _ => .exited 0⟩ 1
      (.simple ⟨-1, some [102], none⟩ [[97]]) freshShell).log ∧
    ¬ e.Proper ⟨fun _ => false, fun _ => .exited 0⟩ (.simple ⟨-1, some [102], none⟩ [[97]]) := by
  refine ⟨.start [[97]] (.exited 0) [⟨some (.file [102] [0]), none⟩] (some (.given 0))
    (some (.given 1)), by decide +kernel, ?_⟩
  rintro ⟨_, hstdin, _⟩
  cases hstdin

end CS111.Shell
