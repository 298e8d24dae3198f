import Mathlib.Algebra.Order.Group.Int
import CS111.Shell.Execute

/-!
# Statuses

`Reference` is the meaning of a command without any statuses kept in the tree. An execution agrees
with it as long as no loop that ends without having run its body finds an old status there.
-/

namespace CS111.Shell

set_option autoImplicit false

open Logged

/-- A run of a program, in a pipeline or not, and the status that it ended with. -/
structure ProgramRun where
  inPipe : Bool
  word : List Word
  status : Int
  deriving Repr, DecidableEq

/-- The command runs these programs and has this status. For a loop that is under way, the optional
status is that of the last body. -/
inductive Reference : Bool → Option Int → Command → List ProgramRun → Int → Prop
  | colon {q : Bool} {h : Header} {word : List Word} :
      word.head? = some colonWord → Reference q none (.simple h word) [] 0
  | simple {q : Bool} {h : Header} {word : List Word} {s : Int} :
      word.head? ≠ some colonWord → Reference q none (.simple h word) [⟨q, word, s⟩] s
  | sequence {q : Bool} {h : Header} {a b : Command} {xs ys : List ProgramRun} {s t : Int} :
      Reference q none a xs s → Reference q none b ys t →
      Reference q none (.sequence h a b) (xs ++ ys) t
  | pipe {q : Bool} {h : Header} {a b : Command} {xs ys : List ProgramRun} {s t : Int} :
      Reference true none a xs s → Reference true none b ys t →
      Reference q none (.pipe h a b) (xs ++ ys) t
  | subshell {q : Bool} {h : Header} {a : Command} {xs : List ProgramRun} {s : Int} :
      Reference q none a xs s → Reference q none (.subshell h a) xs s
  | thenTrue {q : Bool} {h : Header} {a b : Command} {xs ys : List ProgramRun} {t : Int} :
      Reference q none a xs 0 → Reference q none b ys t →
      Reference q none (.ifThen h a b) (xs ++ ys) t
  | thenFalse {q : Bool} {h : Header} {a b : Command} {xs : List ProgramRun} {s : Int} :
      Reference q none a xs s → s ≠ 0 → Reference q none (.ifThen h a b) xs s
  | elseTrue {q : Bool} {h : Header} {a b c : Command} {xs ys : List ProgramRun} {t : Int} :
      Reference q none a xs 0 → Reference q none b ys t →
      Reference q none (.ifElse h a b c) (xs ++ ys) t
  | elseFalse {q : Bool} {h : Header} {a b c : Command} {xs ys : List ProgramRun} {s t : Int} :
      Reference q none a xs s → s ≠ 0 → Reference q none c ys t →
      Reference q none (.ifElse h a b c) (xs ++ ys) t
  | loopEnd {q : Bool} {last : Option Int} {type : LoopType} {h : Header} {a b : Command}
      {xs : List ProgramRun} {s : Int} :
      Reference q none a xs s → type.goesOn s = false →
      Reference q last (.loop type h a b) xs (last.getD s)
  | loopAgain {q : Bool} {last : Option Int} {type : LoopType} {h : Header} {a b : Command}
      {xs ys zs : List ProgramRun} {s t u : Int} :
      Reference q none a xs s → type.goesOn s = true → Reference q none b ys t →
      Reference q (some t) (.loop type h a b) zs u →
      Reference q last (.loop type h a b) (xs ++ ys ++ zs) u

section Unique
variable {q : Bool} {last : Option Int} {c : Command} {xs ys zs zs' : List ProgramRun} {s t : Int}

theorem split_runs {xs' ys' : List ProgramRun}
    (h : ((xs ++ ys) ++ zs).map ProgramRun.status = ((xs' ++ ys') ++ zs').map ProgramRun.status) :
    (xs ++ (ys ++ zs)).map ProgramRun.status = (xs' ++ (ys' ++ zs')).map ProgramRun.status := by
  rwa [List.append_assoc, List.append_assoc] at h

theorem rest_runs (h : (xs ++ ys).map ProgramRun.status = (xs ++ zs).map ProgramRun.status) :
    ys.map ProgramRun.status = zs.map ProgramRun.status := by
  rw [List.map_append, List.map_append] at h
  exact List.append_cancel_left h

/-- The statuses of the programs determine the execution, whatever follows it. -/
theorem Reference.unique (h : Reference q last c xs s) (h' : Reference q last c ys t)
    (hsame : (xs ++ zs).map ProgramRun.status = (ys ++ zs').map ProgramRun.status) : xs = ys ∧ s = t := by
  induction h generalizing ys t zs zs' with
  | colon hcolon =>
    cases h' with
    | colon => exact ⟨rfl, rfl⟩
    | simple hne => exact absurd hcolon hne
  | simple hne =>
    cases h' with
    | colon hcolon => exact absurd hcolon hne
    | simple =>
      obtain rfl := (List.cons.inj hsame).1
      exact ⟨rfl, rfl⟩
  | sequence _ _ iha ihb =>
    cases h' with
    | sequence ha hb =>
      have hsplit := split_runs hsame
      obtain ⟨rfl, rfl⟩ := iha ha hsplit
      obtain ⟨rfl, rfl⟩ := ihb hb (rest_runs hsplit)
      exact ⟨rfl, rfl⟩
  | pipe _ _ iha ihb =>
    cases h' with
    | pipe ha hb =>
      have hsplit := split_runs hsame
      obtain ⟨rfl, rfl⟩ := iha ha hsplit
      obtain ⟨rfl, rfl⟩ := ihb hb (rest_runs hsplit)
      exact ⟨rfl, rfl⟩
  | subshell _ ih =>
    cases h' with
    | subshell ha => exact ih ha hsame
  | thenTrue _ _ iha ihb =>
    cases h' with
    | thenTrue ha hb =>
      have hsplit := split_runs hsame
      obtain ⟨rfl, _⟩ := iha ha hsplit
      obtain ⟨rfl, rfl⟩ := ihb hb (rest_runs hsplit)
      exact ⟨rfl, rfl⟩
    | thenFalse ha hne =>
      have hsplit := hsame
      rw [List.append_assoc] at hsplit
      exact absurd (iha ha hsplit).2.symm hne
  | thenFalse _ hne iha =>
    cases h' with
    | thenTrue ha hb =>
      rw [List.append_assoc] at hsame
      exact absurd (iha ha hsame).2 hne
    | thenFalse ha _ => exact iha ha hsame
  | elseTrue _ _ iha ihb =>
    cases h' with
    | elseTrue ha hb =>
      have hsplit := split_runs hsame
      obtain ⟨rfl, _⟩ := iha ha hsplit
      obtain ⟨rfl, rfl⟩ := ihb hb (rest_runs hsplit)
      exact ⟨rfl, rfl⟩
    | elseFalse ha hne _ => exact absurd (iha ha (split_runs hsame)).2.symm hne
  | elseFalse _ hne _ iha ihc =>
    cases h' with
    | elseTrue ha _ => exact absurd (iha ha (split_runs hsame)).2 hne
    | elseFalse ha _ hc =>
      have hsplit := split_runs hsame
      obtain ⟨rfl, _⟩ := iha ha hsplit
      obtain ⟨rfl, rfl⟩ := ihc hc (rest_runs hsplit)
      exact ⟨rfl, rfl⟩
  | loopEnd _ hstop iha =>
    cases h' with
    | loopEnd ha _ =>
      obtain ⟨rfl, rfl⟩ := iha ha hsame
      exact ⟨rfl, rfl⟩
    | loopAgain ha hgo _ _ =>
      rw [List.append_assoc, List.append_assoc] at hsame
      obtain ⟨_, rfl⟩ := iha ha hsame
      rw [hstop] at hgo
      cases hgo
  | loopAgain _ hgo _ _ iha ihb ihl =>
    cases h' with
    | loopEnd ha hstop =>
      rw [List.append_assoc, List.append_assoc] at hsame
      obtain ⟨_, rfl⟩ := iha ha hsame
      rw [hstop] at hgo
      cases hgo
    | loopAgain ha _ hb hl =>
      rw [List.append_assoc, List.append_assoc, List.append_assoc, List.append_assoc] at hsame
      obtain ⟨rfl, _⟩ := iha ha hsame
      have hbody := rest_runs hsame
      obtain ⟨rfl, rfl⟩ := ihb hb hbody
      obtain ⟨rfl, rfl⟩ := ihl hl (rest_runs hbody)
      exact ⟨rfl, rfl⟩

theorem Reference.status_unique (h : Reference q last c xs s) (h' : Reference q last c ys t)
    (hsame : xs.map ProgramRun.status = ys.map ProgramRun.status) : s = t := by
  have hpadded : (xs ++ []).map ProgramRun.status = (ys ++ []).map ProgramRun.status := by
    rw [List.append_nil, List.append_nil]
    exact hsame
  exact (h.unique h' hpadded).2

end Unique

/-- The tree with every status at -1, as the parser builds it. -/
def Command.erase : Command → Command
  | .simple h word => .simple { h with status := -1 } word
  | .sequence h a b => .sequence { h with status := -1 } a.erase b.erase
  | .pipe h a b => .pipe { h with status := -1 } a.erase b.erase
  | .subshell h a => .subshell { h with status := -1 } a.erase
  | .loop type h a b => .loop type { h with status := -1 } a.erase b.erase
  | .ifThen h a b => .ifThen { h with status := -1 } a.erase b.erase
  | .ifElse h a b c => .ifElse { h with status := -1 } a.erase b.erase c.erase

def Command.NoExec : Command → Prop
  | .simple _ word => word.head? ≠ some execWord
  | .sequence _ a b | .pipe _ a b | .loop _ _ a b | .ifThen _ a b => a.NoExec ∧ b.NoExec
  | .subshell _ a => a.NoExec
  | .ifElse _ a b c => a.NoExec ∧ b.NoExec ∧ c.NoExec

instance decidableNoExec : DecidablePred Command.NoExec
  | .simple _ word => inferInstanceAs (Decidable (word.head? ≠ some execWord))
  | .sequence _ a b | .pipe _ a b | .loop _ _ a b | .ifThen _ a b =>
    @instDecidableAnd _ _ (decidableNoExec a) (decidableNoExec b)
  | .subshell _ a => decidableNoExec a
  | .ifElse _ a b c =>
    @instDecidableAnd _ _ (decidableNoExec a)
      (@instDecidableAnd _ _ (decidableNoExec b) (decidableNoExec c))

theorem noExec_erase (c : Command) : c.erase.NoExec ↔ c.NoExec := by
  induction c with
  | simple => exact Iff.rfl
  | sequence _ _ _ iha ihb => exact and_congr iha ihb
  | pipe _ _ _ iha ihb => exact and_congr iha ihb
  | subshell _ _ ih => exact ih
  | loop _ _ _ _ iha ihb => exact and_congr iha ihb
  | ifThen _ _ _ iha ihb => exact and_congr iha ihb
  | ifElse _ _ _ _ iha ihb ihc => exact and_congr iha (and_congr ihb ihc)

theorem Command.NoExec.of_erase {c c' : Command} (h : c.NoExec) (he : c'.erase = c.erase) :
    c'.NoExec := by
  rw [← noExec_erase, he]
  exact (noExec_erase c).mpr h

theorem erase_setStatus (s : Int) (c : Command) : (c.setStatus s).erase = c.erase := by
  cases c <;> rfl

def Source.isPipe : Source → Bool
  | .pipeEnd _ => true
  | .file _ _ => false

def Call.inPipe (call : Call) : Bool :=
  call.input.any Source.isPipe || call.output.any Source.isPipe

def Event.run : Event → Option ProgramRun
  | .start word status calls _ _ => some ⟨calls.any Call.inPipe, word, status.value⟩
  | .colon _ _ | .loopEnd _ _ _ => none

def runs (log : List Event) : List ProgramRun := log.filterMap Event.run

/-- A loop that has not run its body finds no status there that could be taken for its own. -/
def Event.Clean : Event → Prop
  | .loopEnd bodyRan body cond => bodyRan = true ∨ body = -1 ∨ body = cond
  | .start _ _ _ _ _ | .colon _ _ => True

instance : DecidablePred Event.Clean
  | .loopEnd bodyRan body cond =>
    inferInstanceAs (Decidable (bodyRan = true ∨ body = -1 ∨ body = cond))
  | .start _ _ _ _ _ | .colon _ _ => isTrue trivial

def Clean (log : List Event) : Prop := ∀ e, e ∈ log → e.Clean

section Logs
variable {log log' : List Event}

theorem runs_append : runs (log ++ log') = runs log ++ runs log' := List.filterMap_append

theorem Clean.split (h : Clean (log ++ log')) : Clean log ∧ Clean log' :=
  ⟨fun e he => h e (List.mem_append_left log' he), fun e he => h e (List.mem_append_right log he)⟩

end Logs

def IsStatus (s : Int) : Prop := 0 ≤ s ∧ s < 256

theorem isStatus_value (status : WaitStatus) : IsStatus status.value := by
  cases status with
  | exited n => exact ⟨Int.natCast_nonneg _, by have := n.toNat_lt; simp only [WaitStatus.value]; omega⟩
  | signaled n => exact ⟨Int.natCast_nonneg _, by have := n.toNat_lt; simp only [WaitStatus.value]; omega⟩
  | stopped n => exact ⟨Int.natCast_nonneg _, by have := n.toNat_lt; simp only [WaitStatus.value]; omega⟩

theorem exitWith_value {s : Int} (h : IsStatus s) : (exitWith s).value = s := by
  obtain ⟨hlow, hhigh⟩ := h
  have hmod : s % 256 = s := Int.emod_eq_of_lt hlow hhigh
  rw [exitWith, hmod, WaitStatus.value, UInt8.toNat_ofNat']
  omega

/-- What an execution that writes `log` has made of the command `c`. -/
structure Agrees (q : Bool) (c : Command) (r : Command × Process) (log : List Event) : Prop where
  same : r.1.erase = c.erase
  meaning : Clean log → IsStatus r.1.status ∧ Reference q none c.erase (runs log) r.1.status

abbrev FollowsReference (q : Bool) (c : Command) (x : Execution (Command × Process)) : Prop :=
  x.Sat (fun _ => True) (fun _ => False) (Agrees q c)

section Compound
variable {w : World} {a b c : Command} {calls : List Call} {input output : Int} {p : Process}

theorem inPipe_opened (w : World) (h : Header) (input output : Int) (calls : List Call)
    (p : Process) :
    ((openRedirects w h input output p).call :: calls).any Call.inPipe = calls.any Call.inPipe := by
  have hfile : ∀ (name : Option Word) (key : List Nat),
      (name.map fun f => Source.file f key).any Source.isPipe = false := by
    intro name key
    cases name <;> rfl
  rw [List.any_cons, Call.inPipe, openRedirects]
  dsimp only
  rw [hfile, hfile]
  rfl

theorem follows_simple (w : World) (h : Header) (word : List Word) (input output : Int)
    (calls : List Call) (p : Process) (hno : (Command.simple h word).NoExec) :
    FollowsReference (calls.any Call.inPipe) (.simple h word)
      (executeSimple w h word input output calls p) := by
  unfold executeSimple
  by_cases hcolon : word.head? = some colonWord
  · simp only [hcolon, if_true]
    apply (sat_tell trivial).bind
    intro _ log hlog
    apply sat_pure
    rw [hlog]
    constructor
    · rfl
    · intro _
      exact ⟨isStatus_value (.exited 0), .colon hcolon⟩
  · simp only [if_neg hcolon]
    rw [if_neg hno]
    apply (sat_tell trivial).bind
    intro _ log hlog
    apply sat_pure
    rw [hlog]
    constructor
    · rfl
    · intro _
      apply And.intro (isStatus_value _)
      have hsimple : Reference (calls.any Call.inPipe) none (Command.simple h word).erase
          [⟨calls.any Call.inPipe, word, (w.ends (openRedirects w h input output p).process.key).value⟩]
          (w.ends (openRedirects w h input output p).process.key).value := .simple hcolon
      rw [← inPipe_opened w h input output calls p] at hsimple ⊢
      exact hsimple

variable {exec : Command → Int → Int → List Call → Process → Execution (Command × Process)}
  (hexec : ∀ c input output calls p, c.NoExec →
    FollowsReference (calls.any Call.inPipe) c (exec c input output calls p))
include hexec

theorem follows_sequence (h : Header) (input output : Int) (calls : List Call) (p : Process)
    (hno : (Command.sequence h a b).NoExec) :
    FollowsReference (calls.any Call.inPipe) (.sequence h a b)
      (executeSequence exec h a b input output calls p) := by
  apply (hexec a input output calls p hno.1).bind
  intro r log hr
  apply (hexec b input output calls r.2 hno.2).bind
  intro r' log' hr'
  apply sat_pure
  rw [List.append_nil]
  constructor
  · simp only [Command.erase, hr.same, hr'.same]
  · intro hclean
    obtain ⟨hstatus, hrest⟩ := hr'.meaning hclean.split.2
    apply And.intro hstatus
    rw [runs_append]
    exact .sequence (hr.meaning hclean.split.1).2 hrest

/-- The exit status of a child is the status of its command. -/
theorem follows_child (c : Command) (input output : Int) (calls : List Call) (p : Process)
    (hno : c.NoExec) :
    (child (exec c input output calls p)).Sat (fun _ => True) (fun _ => False) fun status log =>
      Clean log → Reference (calls.any Call.inPipe) none c.erase (runs log) status.value := by
  apply (hexec c input output calls p hno).attempt.bind
  intro o log hr
  cases o with
  | error status => exact hr.elim
  | ok r =>
    apply sat_pure
    intro hclean
    rw [List.append_nil] at hclean ⊢
    obtain ⟨hstatus, hmeaning⟩ := hr.meaning hclean
    rw [exitWith_value hstatus]
    exact hmeaning

theorem follows_subshell (w : World) (h : Header) (input output : Int) (calls : List Call)
    (p : Process) (hno : (Command.subshell h a).NoExec) :
    FollowsReference (calls.any Call.inPipe) (.subshell h a)
      (executeSubshell w exec h a input output calls p) := by
  unfold executeSubshell
  apply (follows_child hexec a _ _ _ _ hno).bind
  intro status log hmeaning
  apply sat_pure
  rw [List.append_nil]
  constructor
  · rfl
  · intro hclean
    have ha := hmeaning hclean
    rw [inPipe_opened] at ha
    exact ⟨isStatus_value status, .subshell ha⟩

theorem follows_pipe (h : Header) (input output : Int) (calls : List Call) (p : Process)
    (hno : (Command.pipe h a b).NoExec) :
    FollowsReference (calls.any Call.inPipe) (.pipe h a b)
      (executePipe exec h a b input output calls p) := by
  unfold executePipe
  apply ((follows_child hexec a _ _ _ _ hno.1).both (follows_child hexec b _ _ _ _ hno.2)).bind
  intro r log hlog
  obtain ⟨log₁, log₂, rfl, hleft, hright⟩ := hlog
  apply sat_pure
  rw [List.append_nil]
  constructor
  · simp only [Command.erase, erase_setStatus]
  · intro hclean
    apply And.intro (isStatus_value _)
    rw [runs_append]
    exact .pipe (hleft hclean.split.1) (hright hclean.split.2)

/-- The tree of an `if` command. -/
def ifTree (h : Header) (a b : Command) : Option Command → Command
  | none => .ifThen h a b
  | some c => .ifElse h a b c

theorem follows_if (w : World) (h : Header) (a b : Command) (c : Option Command)
    (input output : Int) (calls : List Call) (p : Process) (hno : (ifTree h a b c).NoExec) :
    (executeIf w exec h a b c input output calls p).Sat (fun _ => True) (fun _ => False)
      fun r log => Agrees (calls.any Call.inPipe) (ifTree h a b c)
        (ifTree { h with status := r.1.1 } r.1.2.1 r.1.2.2.1 r.1.2.2.2, r.2) log := by
  have hab : a.NoExec ∧ b.NoExec := by
    cases c with
    | none => exact hno
    | some c => exact ⟨hno.1, hno.2.1⟩
  unfold executeIf
  apply (hexec a _ _ _ _ hab.1).bind
  intro r log hr
  by_cases hzero : r.1.status = 0
  · simp only [hzero, if_true]
    apply (hexec b _ _ _ _ hab.2).bind
    intro r' log' hr'
    apply sat_pure
    rw [List.append_nil]
    constructor
    · cases c <;> simp only [ifTree, Command.erase, hr.same, hr'.same]
    · intro hclean
      have hcond := (hr.meaning hclean.split.1).2
      obtain ⟨hstatus, hthen⟩ := hr'.meaning hclean.split.2
      rw [inPipe_opened, hzero] at hcond
      rw [inPipe_opened] at hthen
      rw [runs_append]
      cases c with
      | none => exact ⟨hstatus, .thenTrue hcond hthen⟩
      | some c => exact ⟨hstatus, .elseTrue hcond hthen⟩
  · simp only [if_neg hzero]
    cases c with
    | none =>
      apply sat_pure
      rw [List.append_nil]
      constructor
      · simp only [ifTree, Command.erase, hr.same]
      · intro hclean
        obtain ⟨hstatus, hcond⟩ := hr.meaning hclean
        rw [inPipe_opened] at hcond
        exact ⟨hstatus, .thenFalse hcond hzero⟩
    | some c =>
      apply (hexec c _ _ _ _ hno.2.2).bind
      intro r' log' hr'
      apply sat_pure
      rw [List.append_nil]
      constructor
      · simp only [ifTree, Command.erase, hr.same, hr'.same]
      · intro hclean
        have hcond := (hr.meaning hclean.split.1).2
        obtain ⟨hstatus, helse⟩ := hr'.meaning hclean.split.2
        rw [inPipe_opened] at hcond helse
        rw [runs_append]
        exact ⟨hstatus, .elseFalse hcond hzero helse⟩

/-- What the rounds of a loop that starts in the state `r` make of it. -/
structure Rounds (q : Bool) (type : LoopType) (h : Header) (r r' : Bool × Command × Command)
    (log : List Event) : Prop where
  sameCond : r'.2.1.erase = r.2.1.erase
  sameBody : r'.2.2.erase = r.2.2.erase
  meaning : Clean log → (r.1 = true → IsStatus r.2.2.status) →
    IsStatus r'.2.1.status ∧ (r'.1 = true → IsStatus r'.2.2.status) ∧
      Reference q (if r.1 then some r.2.2.status else none)
        (.loop type h r.2.1.erase r.2.2.erase) (runs log)
        (if r'.1 then r'.2.2.status else r'.2.1.status)

theorem follows_rounds (type : LoopType) (h : Header) (input output : Int) (calls : List Call)
    (n : Nat) (bodyRan : Bool) (a b : Command) (p : Process) (ha : a.NoExec) (hb : b.NoExec) :
    (loopRounds type (fun c p => exec c input output calls p) n bodyRan a b p).Sat (fun _ => True)
      (fun _ => False)
      fun r log => Rounds (calls.any Call.inPipe) type h (bodyRan, a, b) r.1 log := by
  induction n generalizing bodyRan a b p with
  | zero => exact sat_running
  | succ n ih =>
    rw [loopRounds]
    apply (hexec a input output calls p ha).bind
    intro r log hr
    by_cases hgo : type.goesOn r.1.status = true
    · simp only [hgo, if_true]
      apply (hexec b input output calls r.2 hb).bind
      intro r' log' hr'
      apply (ih true r.1 r'.1 r'.2 (ha.of_erase hr.same) (hb.of_erase hr'.same)).mono
      · intro e he
        exact he
      · intro r'' log'' hr''
        constructor
        · exact hr''.sameCond.trans hr.same
        · exact hr''.sameBody.trans hr'.same
        · intro hclean _
          have hcond := (hr.meaning hclean.split.1).2
          obtain ⟨hstatus, hbody⟩ := hr'.meaning hclean.split.2.split.1
          obtain ⟨hstatus', hran, hrest⟩ := hr''.meaning hclean.split.2.split.2 fun _ => hstatus
          apply And.intro hstatus'
          apply And.intro hran
          dsimp only at hrest
          rw [hr.same, hr'.same, if_pos rfl] at hrest
          rw [runs_append, runs_append, ← List.append_assoc]
          exact .loopAgain hcond hgo hbody hrest
    · simp only [hgo]
      apply sat_pure
      rw [List.append_nil]
      constructor
      · exact hr.same
      · rfl
      · intro hclean hran
        obtain ⟨hstatus, hcond⟩ := hr.meaning hclean
        apply And.intro hstatus
        apply And.intro hran
        have hend : Reference (calls.any Call.inPipe) (if bodyRan then some b.status else none)
            (.loop type h a.erase b.erase) (runs log) _ := .loopEnd hcond (Bool.eq_false_iff.mpr hgo)
        cases bodyRan with
        | false => exact hend
        | true => exact hend

theorem follows_loop (w : World) (fuel : Nat) (type : LoopType) (h : Header) (input output : Int)
    (calls : List Call) (p : Process) (hno : (Command.loop type h a b).NoExec) :
    FollowsReference (calls.any Call.inPipe) (.loop type h a b)
      (executeLoop w exec fuel type h a b input output calls p) := by
  unfold executeLoop
  apply (follows_rounds hexec type { h with status := -1 } _ _ _ fuel false a b _ hno.1 hno.2).bind
  intro r log hr
  apply (sat_tell trivial).bind
  intro _ log' hlog'
  apply sat_pure
  rw [List.append_nil, hlog']
  constructor
  · simp only [Command.erase, hr.sameCond, hr.sameBody]
  · intro hclean
    obtain ⟨hcond, hbody, hmeaning⟩ := hr.meaning hclean.split.1 fun h => by cases h
    have hend : Event.Clean (.loopEnd r.1.1 r.1.2.2.status r.1.2.1.status) :=
      hclean.split.2 _ (List.mem_singleton.mpr rfl)
    have hfound : (if r.1.2.2.status ≠ -1 then r.1.2.2.status else r.1.2.1.status) =
        if r.1.1 then r.1.2.2.status else r.1.2.1.status := by
      cases hran : r.1.1 with
      | true =>
        have hne : r.1.2.2.status ≠ -1 := by
          have hlow := (hbody hran).1
          omega
        rw [if_pos hne]
        rfl
      | false =>
        rcases hend with htrue | hold | hsame
        · rw [hran] at htrue
          cases htrue
        · rw [hold]
          rfl
        · rw [hsame, ite_self]
          rfl
    change IsStatus (if r.1.2.2.status ≠ -1 then r.1.2.2.status else r.1.2.1.status) ∧
      Reference _ _ _ _ (if r.1.2.2.status ≠ -1 then r.1.2.2.status else r.1.2.1.status)
    rw [hfound]
    constructor
    · cases hran : r.1.1 with
      | true => exact hbody hran
      | false => exact hcond
    · rw [inPipe_opened] at hmeaning
      rw [runs_append, show runs [Event.loopEnd _ _ _] = [] from rfl, List.append_nil]
      exact hmeaning

end Compound

theorem follows_execute (w : World) (n : Nat) (c : Command) (input output : Int) (calls : List Call)
    (p : Process) (hno : c.NoExec) :
    FollowsReference (calls.any Call.inPipe) c (recursiveExecute w n c input output calls p) := by
  induction n generalizing c input output calls p with
  | zero => exact sat_running
  | succ n ih =>
    cases c with
    | simple h word => exact follows_simple w h word input output calls p hno
    | sequence h a b => exact follows_sequence ih h input output calls p hno
    | pipe h a b => exact follows_pipe ih h input output calls p hno
    | subshell h a => exact follows_subshell ih w h input output calls p hno
    | loop type h a b => exact follows_loop ih w n type h input output calls p hno
    | ifThen h a b =>
      apply (follows_if ih w h a b none input output calls p hno).bind
      intro r log hr
      apply sat_pure
      obtain ⟨⟨s, a', b', c'⟩, p'⟩ := r
      rw [List.append_nil]
      cases c' with
      | none => exact hr
      | some c' => cases hr.same
    | ifElse h a b c =>
      apply (follows_if ih w h a b (some c) input output calls p hno).bind
      intro r log hr
      apply sat_pure
      obtain ⟨⟨s, a', b', c'⟩, p'⟩ := r
      rw [List.append_nil]
      cases c' with
      | none => cases hr.same
      | some c' => exact hr

/-- The oracle gives these runs their statuses, in order. -/
def Obeys (oracle : Nat → Int) (l : List ProgramRun) : Prop :=
  l.map ProgramRun.status = (List.range l.length).map oracle

theorem Obeys.extend {oracle : Nat → Int} {l : List ProgramRun} (h : Obeys oracle l) (n : Nat) :
    ∃ l', (l ++ l').map ProgramRun.status = (List.range (l.length + n)).map oracle := by
  refine ⟨(List.range n).map fun i => ⟨false, [], oracle (l.length + i)⟩, ?_⟩
  rw [List.map_append, h, List.range_add, List.map_append, List.map_map, List.map_map]
  rfl

/-- Without loops that find an old status in a body that they have not run, the execution is the one
that the reference meaning has under the same statuses. -/
theorem execution_follows_reference (w : World) (fuel : Nat) (c c' : Command) (input output : Int)
    (calls : List Call) (p p' : Process) (log : List Event) (oracle : Nat → Int)
    (hfresh : c.erase = c) (hno : c.NoExec)
    (h : recursiveExecute w fuel c input output calls p = ⟨log, some (.ok (c', p'))⟩)
    (horacle : Obeys oracle (runs log)) (hclean : Clean log) :
    Reference (calls.any Call.inPipe) none c (runs log) c'.status ∧
      ∀ l s, Reference (calls.any Call.inPipe) none c l s → Obeys oracle l →
        l = runs log ∧ s = c'.status := by
  have hrun := (follows_execute w fuel c input output calls p hno).value (c', p') (by rw [h])
  rw [h] at hrun
  have hmeaning := (hrun.meaning hclean).2
  rw [hfresh] at hmeaning
  apply And.intro hmeaning
  intro l s hl hobeys
  obtain ⟨zs, hzs⟩ := hobeys.extend (runs log).length
  obtain ⟨zs', hzs'⟩ := horacle.extend l.length
  apply hl.unique hmeaning
  rw [hzs, hzs', Nat.add_comm]

/-- Programs end with these statuses, one after the other. -/
def worldOf (statuses : List UInt8) : World :=
  ⟨fun _ => true, fun key => .exited (statuses.getD (key.headD 0) 0)⟩

/-- The command `while a; do b; done`. -/
def plainLoop : Command :=
  .loop .whileCommand .fresh (.simple .fresh [[97]]) (.simple .fresh [[98]])

theorem execution_follows_reference_loop :
    Reference false none plainLoop [⟨false, [[97]], 0⟩, ⟨false, [[98]], 3⟩, ⟨false, [[97]], 1⟩] 3 ∧
      ∀ l s, Reference false none plainLoop l s → Obeys (fun i => [0, 3, 1].getD i 0) l →
        l = [⟨false, [[97]], 0⟩, ⟨false, [[98]], 3⟩, ⟨false, [[97]], 1⟩] ∧ s = 3 :=
  execution_follows_reference (worldOf [0, 3, 1]) 4 plainLoop
    (.loop .whileCommand ⟨3, none, none⟩ (.simple ⟨1, none, none⟩ [[97]])
      (.simple ⟨3, none, none⟩ [[98]])) (-1) (-1) [] freshShell
    ⟨[some (.given 0), some (.given 1), some (.given 2)], [], 3⟩
    (recursiveExecute (worldOf [0, 3, 1]) 4 plainLoop (-1) (-1) [] freshShell).log _ rfl
    (by decide) (by decide +kernel) (by unfold Obeys; decide +kernel)
    (by unfold Clean; decide +kernel)

/-- The command `while a; do while b; do c; done; done`. -/
def nestedLoops : Command :=
  .loop .whileCommand .fresh (.simple .fresh [[97]])
    (.loop .whileCommand .fresh (.simple .fresh [[98]]) (.simple .fresh [[99]]))

/-- In its second execution the inner loop does not run its body and takes the status 5 that is left
there from the first one. -/
theorem old_status_taken : ∃ log c' p',
    recursiveExecute (worldOf [0, 0, 5, 1, 0, 1, 1]) 5 nestedLoops (-1) (-1) [] freshShell =
      ⟨log, some (.ok (c', p'))⟩ ∧
    nestedLoops.erase = nestedLoops ∧ nestedLoops.NoExec ∧
    ¬ Reference false none nestedLoops (runs log) c'.status := by
  have hrun : recursiveExecute (worldOf [0, 0, 5, 1, 0, 1, 1]) 5 nestedLoops (-1) (-1) []
      freshShell = ⟨(recursiveExecute (worldOf [0, 0, 5, 1, 0, 1, 1]) 5 nestedLoops (-1) (-1) []
        freshShell).log, some (.ok
          (.loop .whileCommand ⟨5, none, none⟩ (.simple ⟨1, none, none⟩ [[97]])
            (.loop .whileCommand ⟨5, none, none⟩ (.simple ⟨1, none, none⟩ [[98]])
              (.simple ⟨5, none, none⟩ [[99]])),
          ⟨[some (.given 0), some (.given 1), some (.given 2)], [], 7⟩))⟩ := by
    decide +kernel
  refine ⟨_, _, _, hrun, rfl, by decide, fun h => ?_⟩
  have hrunsOnce : ∀ (c : Word) (s : Int), some c ≠ some colonWord →
      Reference false none (.simple .fresh [c]) [⟨false, [c], s⟩] s :=
    fun c s hc => .simple hc
  have ha := fun s => hrunsOnce [97] s (by decide)
  have hb := fun s => hrunsOnce [98] s (by decide)
  have hc := fun s => hrunsOnce [99] s (by decide)
  have hfirst : Reference false none
      (.loop .whileCommand .fresh (.simple .fresh [[98]]) (.simple .fresh [[99]]))
      [⟨false, [[98]], 0⟩, ⟨false, [[99]], 5⟩, ⟨false, [[98]], 1⟩] 5 :=
    .loopAgain (hb 0) rfl (hc 5) (.loopEnd (hb 1) rfl)
  have hsecond : Reference false none
      (.loop .whileCommand .fresh (.simple .fresh [[98]]) (.simple .fresh [[99]]))
      [⟨false, [[98]], 1⟩] 1 := .loopEnd (hb 1) rfl
  have hreference : Reference false none nestedLoops _ 1 :=
    .loopAgain (ha 0) rfl hfirst (.loopAgain (ha 0) rfl hsecond (.loopEnd (ha 1) rfl))
  exact absurd (h.status_unique hreference (by decide +kernel)) (by decide)

end CS111.Shell
