import CS111.Shell.Execute

/-!
# Descriptors left open

A command closes what it has opened, except that `:` returns before it does. What a process has
open after a command is what it had open before and what its executions of `:` have opened.
-/

namespace CS111.Shell

set_option autoImplicit false

open Logged

variable {fds fds' fds'' : Descriptors} {l l' : List Nat} {n k : Nat} {d : Description} {w : World}
  {p p' : Process} {hd : Header} {a b c : Command} {input output : Int} {calls : List Call}
  {id : List Nat} {log log' : List Event} {name : Option Word} {access : Access} {fd : Int}

/-- The table `fds'` has the descriptors of `fds`, and those of `l` besides. -/
structure Leaves (fds fds' : Descriptors) (l : List Nat) : Prop where
  kept : ∀ n, n ∉ l → lookup fds' n = lookup fds n
  opened : ∀ n, n ∈ l → lookup fds n = none ∧ lookup fds' n ≠ none

theorem Leaves.refl (fds : Descriptors) : Leaves fds fds [] where
  kept := fun _ _ => rfl
  opened := fun _ hn => absurd hn (List.not_mem_nil)

theorem Leaves.trans (h : Leaves fds fds' l) (h' : Leaves fds' fds'' l') :
    Leaves fds fds'' (l ++ l') := by
  constructor
  · intro n hn
    rw [List.mem_append, not_or] at hn
    rw [h'.kept n hn.2, h.kept n hn.1]
  · intro n hn
    by_cases hl : n ∈ l
    · obtain ⟨hnone, hsome⟩ := h.opened n hl
      have hl' : n ∉ l' := fun hl' => hsome (h'.opened n hl').1
      rw [h'.kept n hl']
      exact ⟨hnone, hsome⟩
    · have hl' : n ∈ l' := (List.mem_append.mp hn).resolve_left hl
      obtain ⟨hnone, hsome⟩ := h'.opened n hl'
      rw [h.kept n hl] at hnone
      exact ⟨hnone, hsome⟩

/-- The descriptors `own` are opened before and closed behind. -/
theorem Leaves.closed {own : List Nat} {fds₁ fds₂ : Descriptors} (hown : Leaves fds fds₁ own)
    (hbody : Leaves fds₁ fds₂ l)
    (hclose : ∀ k, lookup fds' k = if k ∈ own then none else lookup fds₂ k) : Leaves fds fds' l := by
  constructor
  · intro k hk
    rw [hclose]
    by_cases hmem : k ∈ own
    · rw [if_pos hmem, (hown.opened k hmem).1]
    · rw [if_neg hmem, hbody.kept k hk, hown.kept k hmem]
  · intro k hk
    obtain ⟨hnone, hsome⟩ := hbody.opened k hk
    have hmem : k ∉ own := fun hmem => (hown.opened k hmem).2 hnone
    rw [hclose, if_neg hmem, ← hown.kept k hmem]
    exact ⟨hnone, hsome⟩

theorem leaves_allocate (p : Process) (d : Description) :
    Leaves p.fds (p.allocate d).fds [lowestFree p.fds] := by
  constructor
  · intro n hn
    rw [List.mem_singleton] at hn
    exact (lookup_put _ _ _ _).trans (if_neg hn)
  · intro n hn
    rw [List.mem_singleton.mp hn]
    apply And.intro (lookup_lowestFree p.fds)
    rw [Process.allocate, lookup_put, if_pos rfl]
    exact Option.some_ne_none d

theorem lookup_close (fds : Descriptors) (n k : Nat) :
    lookup (close fds n) k = if k = n then none else lookup fds k := by
  unfold close
  rw [if_neg (by omega), Int.toNat_natCast, lookup_put]

/-- What the redirection of one stream can do. -/
theorem redirect_cases (w : World) (name : Option Word) (access : Access) (fd : Int) (p : Process) :
    (name = none ∧ redirect w name access fd p = (fd, p)) ∨
      (∃ f, name = some f ∧ w.opens p.key = true ∧ redirect w name access fd p =
        ((lowestFree p.fds : Int), (p.allocate (.file f access)).tick)) ∨
      ∃ f, name = some f ∧ w.opens p.key = false ∧ redirect w name access fd p = (-1, p.tick) := by
  cases name with
  | none => exact .inl ⟨rfl, rfl⟩
  | some f =>
    right
    unfold redirect openFile
    by_cases hopen : w.opens p.key = true
    · left
      simp [hopen]
    · right
      simp [hopen]

theorem redirect_leaves (w : World) (name : Option Word) (access : Access) (fd : Int) (p : Process) :
    (redirect w name access fd p).2.id = p.id ∧
      Leaves p.fds (redirect w name access fd p).2.fds
        (ownDescriptor name (redirect w name access fd p).1) ∧
      ∀ p' k, lookup (closeRedirect name (redirect w name access fd p).1 p').fds k =
        if k ∈ ownDescriptor name (redirect w name access fd p).1 then none
        else lookup p'.fds k := by
  rcases redirect_cases w name access fd p with ⟨rfl, heq⟩ | ⟨f, rfl, _, heq⟩ | ⟨f, rfl, _, heq⟩
  · rw [heq]
    exact ⟨rfl, .refl _, fun _ _ => rfl⟩
  · have hne : (lowestFree p.fds : Int) ≠ -1 := by omega
    have hown : ownDescriptor (some f) (lowestFree p.fds) = [lowestFree p.fds] := by
      rw [ownDescriptor, if_pos ⟨Option.some_ne_none f, hne⟩, Int.toNat_natCast]
    rw [heq, hown]
    apply And.intro rfl
    apply And.intro (leaves_allocate p _)
    intro p' k
    rw [closeRedirect, if_pos (Option.some_ne_none f), Process.close, lookup_close]
    simp only [List.mem_singleton]
  · rw [heq]
    exact ⟨rfl, .refl _, fun _ _ => rfl⟩

theorem openRedirects_leaves (w : World) (h : Header) (input output : Int) (p : Process) :
    (openRedirects w h input output p).process.id = p.id ∧
      Leaves p.fds (openRedirects w h input output p).process.fds
        (ownDescriptors h (openRedirects w h input output p)) ∧
      ∀ p' k, lookup (closeRedirects h (openRedirects w h input output p) p').fds k =
        if k ∈ ownDescriptors h (openRedirects w h input output p) then none
        else lookup p'.fds k := by
  obtain ⟨hid, hleaves, hclose⟩ := redirect_leaves w h.input .read input p
  obtain ⟨hid', hleaves', hclose'⟩ :=
    redirect_leaves w h.output .write output (redirect w h.input .read input p).2
  apply And.intro (hid'.trans hid)
  apply And.intro (hleaves.trans hleaves')
  intro p' k
  unfold closeRedirects ownDescriptors openRedirects
  rw [hclose', hclose]
  simp only [List.mem_append]
  by_cases hout : k ∈ ownDescriptor h.output
      (redirect w h.output .write output (redirect w h.input .read input p).2).1
  · rw [if_pos hout, if_pos (.inr hout)]
  · rw [if_neg hout]
    by_cases hin : k ∈ ownDescriptor h.input (redirect w h.input .read input p).1
    · rw [if_pos hin, if_pos (.inl hin)]
    · rw [if_neg hin, if_neg (not_or.mpr ⟨hin, hout⟩)]

theorem closeRedirects_id (h : Header) (o : Opened) (p : Process) : (closeRedirects h o p).id = p.id := by
  unfold closeRedirects closeRedirect
  split <;> split <;> rfl

/-- The event is one of the process `id` or of a process below it. -/
def Event.Within (id : List Nat) : Event → Prop
  | .colon id' _ => id <:+ id'
  | .start _ _ _ _ _ | .loopEnd _ _ _ => True

/-- What an event leaves open in the process `id`. -/
def Event.leaves (id : List Nat) : Event → List Nat
  | .colon id' opened => if id' = id then opened else []
  | .start _ _ _ _ _ | .loopEnd _ _ _ => []

def leftOpen (id : List Nat) (log : List Event) : List Nat := log.flatMap (Event.leaves id)

theorem leftOpen_append : leftOpen id (log ++ log') = leftOpen id log ++ leftOpen id log' :=
  List.flatMap_append

/-- A child has an identity of its own. -/
theorem leftOpen_below (h : ∀ e, e ∈ log → e.Within (k :: id)) : leftOpen id log = [] := by
  rw [leftOpen, List.flatMap_eq_nil_iff]
  intro e he
  cases e with
  | colon id' opened =>
    have hwithin : k :: id <:+ id' := h _ he
    have hlength := hwithin.length_le
    apply if_neg
    intro heq
    rw [heq, List.length_cons] at hlength
    omega
  | start => rfl
  | loopEnd => rfl

theorem Event.Within.below {e : Event} (h : e.Within (k :: id)) : e.Within id := by
  cases e with
  | colon id' opened => exact (List.suffix_cons k id).trans h
  | start => trivial
  | loopEnd => trivial

/-- Over a run that writes `log`, the process only opens what `log` says. -/
structure OnlyLeaves (p p' : Process) (log : List Event) : Prop where
  same : p'.id = p.id
  leaves : Leaves p.fds p'.fds (leftOpen p.id log)

theorem OnlyLeaves.trans {p'' : Process} (h : OnlyLeaves p p' log) (h' : OnlyLeaves p' p'' log') :
    OnlyLeaves p p'' (log ++ log') := by
  constructor
  · exact h'.same.trans h.same
  · have hleaves := h'.leaves
    rw [h.same] at hleaves
    rw [leftOpen_append]
    exact h.leaves.trans hleaves

theorem OnlyLeaves.redirected (h : OnlyLeaves (openRedirects w hd input output p).process p' log) :
    OnlyLeaves p (closeRedirects hd (openRedirects w hd input output p) p') log := by
  obtain ⟨hid, hown, hclose⟩ := openRedirects_leaves w hd input output p
  have hbody := h.leaves
  rw [hid] at hbody
  constructor
  · rw [closeRedirects_id, h.same, hid]
  · exact hown.closed hbody (hclose p')

/-- What a command run by `exec` does to the descriptors. -/
abbrev Accounted {α : Type} (p : Process) (x : Execution (α × Process)) : Prop :=
  x.Sat (Event.Within p.id) (fun _ => True) fun r log => OnlyLeaves p r.2 log

theorem OnlyLeaves.quiet (p : Process) (h : leftOpen p.id log = []) : OnlyLeaves p p log := by
  constructor
  · rfl
  · rw [h]
    exact .refl p.fds

/-- The fields of a process other than its descriptors and identity do not matter. -/
theorem OnlyLeaves.of_eq {p'' : Process} (h : OnlyLeaves p p' log) (hid : p''.id = p'.id)
    (hfds : p''.fds = p'.fds) : OnlyLeaves p p'' log := by
  constructor
  · exact hid.trans h.same
  · rw [hfds]
    exact h.leaves

theorem sat_startProgram (id : List Nat) (word : List Word) (status : WaitStatus)
    (calls : List Call) (o : Opened) :
    (startProgram word status calls o).Sat (Event.Within id) (fun _ => True)
      fun _ log => leftOpen id log = [] := by
  apply (sat_tell _).mono
  · intro e he
    exact he
  · intro _ log hlog
    rw [hlog]
    rfl
  · trivial

theorem accounted_simple (w : World) (hd : Header) (word : List Word) (input output : Int)
    (calls : List Call) (p : Process) :
    Accounted p (executeSimple w hd word input output calls p) := by
  obtain ⟨hid, hown, _⟩ := openRedirects_leaves w hd input output p
  unfold executeSimple
  by_cases hcolon : word.head? = some colonWord
  · simp only [hcolon, if_true]
    apply (sat_tell _).bind
    · intro _ log hlog
      apply sat_pure
      constructor
      · exact hid
      · have hleft : leftOpen p.id (log ++ []) =
            ownDescriptors hd (openRedirects w hd input output p) := by
          rw [List.append_nil, hlog]
          simp [leftOpen, Event.leaves, hid]
        rw [hleft]
        exact hown
    · rw [hid]
      exact List.suffix_refl p.id
  · simp only [if_neg hcolon]
    by_cases hexec : word.head? = some execWord
    · simp only [hexec, if_true]
      have hstop : ∀ status : WaitStatus, Accounted p (Logged.stop status : Execution (Command × Process)) :=
        fun status => sat_stop trivial
      split
      · apply (sat_startProgram p.id _ _ _ _).bind
        intro _ log hlog
        exact sat_stop trivial
      · exact hstop _
    · simp only [if_neg hexec]
      apply (sat_startProgram p.id _ _ _ _).bind
      intro _ log hlog
      apply sat_pure
      rw [List.append_nil]
      apply OnlyLeaves.redirected
      have hquiet : OnlyLeaves (openRedirects w hd input output p).process
          (openRedirects w hd input output p).process log := by
        apply OnlyLeaves.quiet
        rw [hid]
        exact hlog
      exact hquiet.of_eq rfl rfl

section Compound
variable {exec : Command → Int → Int → List Call → Process → Execution (Command × Process)}
  (hexec : ∀ c input output calls p, Accounted p (exec c input output calls p))
include hexec

theorem accounted_sequence (hd : Header) (a b : Command) (input output : Int) (calls : List Call)
    (p : Process) : Accounted p (executeSequence exec hd a b input output calls p) := by
  apply (hexec a input output calls p).bind
  intro r log h
  rw [← h.same]
  apply (hexec b input output calls r.2).bind
  intro r' log' h'
  apply sat_pure
  rw [List.append_nil]
  exact h.trans h'

/-- What a child does is not seen in its parent. -/
theorem sat_child (c : Command) (input output : Int) (calls : List Call) (q : Process)
    (hq : q.id = k :: id) : (child (exec c input output calls q)).Sat (Event.Within id)
      (fun _ => True) fun _ log => leftOpen id log = [] := by
  have hrun : (exec c input output calls q).attempt.Sat (Event.Within q.id) (fun _ => True) _ :=
    (hexec c input output calls q).attempt
  rw [hq] at hrun
  have hbelow := hrun.withEvents.mono (fun e he => Event.Within.below he) fun _ _ h => h.2
  apply hbelow.bind
  intro o log hwithin
  have hleft : leftOpen id (log ++ []) = [] := by
    rw [List.append_nil]
    exact leftOpen_below hwithin
  cases o with
  | ok r => exact sat_pure hleft
  | error status => exact sat_pure hleft

theorem accounted_pipe (hd : Header) (a b : Command) (input output : Int) (calls : List Call)
    (p : Process) : Accounted p (executePipe exec hd a b input output calls p) := by
  unfold executePipe
  apply ((sat_child hexec a _ _ _ _ rfl).both (sat_child hexec b _ _ _ _ rfl)).bind
  intro r log hlog
  obtain ⟨log₁, log₂, rfl, hlog₁, hlog₂⟩ := hlog
  apply sat_pure
  have hleft : leftOpen p.id (log₁ ++ log₂ ++ []) = [] := by
    rw [List.append_nil, leftOpen_append, hlog₁, hlog₂]
    rfl
  constructor
  · simp only [Process.close_id, Process.tick_id, Process.allocate_id]
  · rw [hleft]
    have hown := (leaves_allocate p (.pipe p.key .read)).trans
      (leaves_allocate (p.allocate (.pipe p.key .read)) (.pipe p.key .write))
    apply hown.closed (.refl _)
    intro k
    simp only [Process.close_fds, Process.tick_fds, lookup_close, List.singleton_append,
      List.mem_cons, List.not_mem_nil, or_false]
    by_cases hwrite : k = lowestFree (p.allocate (.pipe p.key .read)).fds
    · rw [if_pos hwrite, if_pos (.inr hwrite)]
    · rw [if_neg hwrite]
      by_cases hread : k = lowestFree p.fds
      · rw [if_pos hread, if_pos (.inl hread)]
      · rw [if_neg hread, if_neg (not_or.mpr ⟨hread, hwrite⟩)]

theorem accounted_subshell (w : World) (hd : Header) (body : Command) (input output : Int)
    (calls : List Call) (p : Process) :
    Accounted p (executeSubshell w exec hd body input output calls p) := by
  obtain ⟨hid, _⟩ := openRedirects_leaves w hd input output p
  unfold executeSubshell
  rw [Accounted, ← hid]
  apply (sat_child hexec body _ _ _ _ rfl).bind
  intro status log hlog
  apply sat_pure
  rw [List.append_nil]
  have hquiet : OnlyLeaves (openRedirects w hd input output p).process
      (openRedirects w hd input output p).process.tick log := (OnlyLeaves.quiet _ hlog).of_eq rfl rfl
  exact hquiet.redirected

theorem accounted_if (w : World) (hd : Header) (cond thenPart : Command) (elsePart : Option Command)
    (input output : Int) (calls : List Call) (p : Process) :
    Accounted p (executeIf w exec hd cond thenPart elsePart input output calls p) := by
  obtain ⟨hid, _⟩ := openRedirects_leaves w hd input output p
  unfold executeIf
  rw [Accounted, ← hid]
  apply (hexec cond _ _ _ (openRedirects w hd input output p).process).bind
  intro r log h
  rw [← h.same]
  by_cases hzero : r.1.status = 0
  · simp only [hzero, if_true]
    apply (hexec thenPart _ _ _ r.2).bind
    intro r' log' h'
    apply sat_pure
    rw [List.append_nil]
    exact (h.trans h').redirected
  · simp only [if_neg hzero]
    cases elsePart with
    | none =>
      apply sat_pure
      rw [List.append_nil]
      exact h.redirected
    | some c =>
      apply (hexec c _ _ _ r.2).bind
      intro r' log' h'
      apply sat_pure
      rw [List.append_nil]
      exact (h.trans h').redirected

theorem accounted_rounds (type : LoopType) (input output : Int) (calls : List Call) (n : Nat)
    (bodyRan : Bool) (cond body : Command) (p : Process) :
    Accounted p (loopRounds type (fun c p => exec c input output calls p) n bodyRan cond body p) := by
  induction n generalizing bodyRan cond body p with
  | zero => exact sat_running
  | succ n ih =>
    rw [loopRounds]
    apply (hexec cond input output calls p).bind
    intro r log h
    rw [← h.same]
    by_cases hgo : type.goesOn r.1.status = true
    · simp only [hgo, if_true]
      apply (hexec body input output calls r.2).bind
      intro r' log' h'
      rw [← h'.same]
      apply (ih true r.1 r'.1 r'.2).mono
      · intro e he
        exact he
      · intro r'' log'' h''
        rw [← List.append_assoc]
        exact (h.trans h').trans h''
    · simp only [hgo]
      apply sat_pure
      rw [List.append_nil]
      exact h

theorem accounted_loop (w : World) (fuel : Nat) (type : LoopType) (hd : Header)
    (cond body : Command) (input output : Int) (calls : List Call) (p : Process) :
    Accounted p (executeLoop w exec fuel type hd cond body input output calls p) := by
  obtain ⟨hid, _⟩ := openRedirects_leaves w hd input output p
  unfold executeLoop
  rw [Accounted, ← hid]
  apply (accounted_rounds hexec type _ _ _ fuel false cond body _).bind
  intro r log h
  apply (sat_tell _).bind
  · intro _ log' hlog'
    apply sat_pure
    rw [List.append_nil, hlog']
    have hend : OnlyLeaves r.2 r.2 [.loopEnd r.1.1 r.1.2.2.status r.1.2.1.status] := .quiet r.2 rfl
    exact (h.trans hend).redirected
  · trivial

end Compound

theorem accounted_execute (w : World) (n : Nat) (c : Command) (input output : Int)
    (calls : List Call) (p : Process) :
    Accounted p (recursiveExecute w n c input output calls p) := by
  induction n generalizing c input output calls p with
  | zero => exact sat_running
  | succ n ih =>
    cases c with
    | simple hd word => exact accounted_simple w hd word input output calls p
    | sequence hd a b => exact accounted_sequence ih hd a b input output calls p
    | pipe hd a b => exact accounted_pipe ih hd a b input output calls p
    | subshell hd a => exact accounted_subshell ih w hd a input output calls p
    | loop type hd a b => exact accounted_loop ih w n type hd a b input output calls p
    | ifThen hd a b =>
      apply (accounted_if ih w hd a b none input output calls p).bind
      intro r log h
      apply sat_pure
      rw [List.append_nil]
      exact h
    | ifElse hd a b c =>
      apply (accounted_if ih w hd a b (some c) input output calls p).bind
      intro r log h
      apply sat_pure
      rw [List.append_nil]
      exact h

theorem Leaves.same_iff (h : Leaves fds fds' l) :
    (∀ n, (lookup fds' n).isSome = (lookup fds n).isSome) ↔ l = [] := by
  constructor
  · intro hsame
    rw [List.eq_nil_iff_forall_not_mem]
    intro n hn
    obtain ⟨hnone, hsome⟩ := h.opened n hn
    have hn := hsame n
    rw [hnone, Option.isSome_none, Option.isSome_eq_false_iff, Option.isNone_iff_eq_none] at hn
    exact hsome hn
  · intro hnil n
    rw [h.kept n (by rw [hnil]; exact List.not_mem_nil)]

/-- The shell has the same descriptors open as before exactly if it has not executed a `:` with a
redirection that could be opened. -/
theorem open_descriptors_kept_iff (w : World) (fuel : Nat) (c : Command) (input output : Int)
    (calls : List Call) (p : Process) (log : List Event) (c' : Command) (p' : Process)
    (h : recursiveExecute w fuel c input output calls p = ⟨log, some (.ok (c', p'))⟩) :
    (∀ n, (lookup p'.fds n).isSome = (lookup p.fds n).isSome) ↔ ∀ e, e ∈ log → e.leaves p.id = [] := by
  have hrun := (accounted_execute w fuel c input output calls p).value (c', p') (by rw [h])
  rw [h] at hrun
  rw [hrun.leaves.same_iff, leftOpen, List.flatMap_eq_nil_iff]

/-- The command `a > f`. -/
theorem open_descriptors_kept_iff_redirected :
    (∀ n, (lookup [some (.given 0), some (.given 1), some (.given 2), none] n).isSome =
        (lookup freshShell.fds n).isSome) ↔
      ∀ e, e ∈ [Event.start [[97]] (.exited 0) [⟨none, some (.file [102] [0])⟩] (some (.given 0))
        (some (.file [102] .write))] → e.leaves freshShell.id = [] :=
  open_descriptors_kept_iff kindWorld 1 (.simple ⟨-1, none, some [102]⟩ [[97]]) (-1) (-1) []
    freshShell _ (.simple ⟨0, none, some [102]⟩ [[97]])
    ⟨[some (.given 0), some (.given 1), some (.given 2), none], [], 2⟩ (by decide +kernel)

/-- The command `: > f` leaves descriptor 3 open. -/
theorem colon_leaves_descriptor : ∃ log c' p',
    recursiveExecute kindWorld 1 (.simple ⟨-1, none, some [102]⟩ [colonWord]) (-1) (-1) []
      freshShell = ⟨log, some (.ok (c', p'))⟩ ∧
    ¬ ∀ n, (lookup p'.fds n).isSome = (lookup freshShell.fds n).isSome := by
  have hrun : recursiveExecute kindWorld 1 (.simple ⟨-1, none, some [102]⟩ [colonWord]) (-1) (-1) []
      freshShell = ⟨[.colon [] [3]], some (.ok (.simple ⟨0, none, some [102]⟩ [colonWord],
        ⟨[some (.given 0), some (.given 1), some (.given 2), some (.file [102] .write)], [], 1⟩))⟩ := by
    decide +kernel
  refine ⟨_, _, _, hrun, fun h => ?_⟩
  exact absurd (h 3) (by decide)

end CS111.Shell
