import CS111.Shell.Token

/-!
# Command trees

`struct command` of `command-internals.h`, as far as the parser fills it in.
-/

namespace CS111.Shell

set_option autoImplicit false

structure Header where
  status : Int
  input : Option Word
  output : Option Word
  deriving Repr, DecidableEq

/-- A command that has not run, without redirections. -/
def Header.fresh : Header := ⟨-1, none, none⟩

inductive LoopType where
  | whileCommand | untilCommand
  deriving Repr, DecidableEq

/-- An `IF_COMMAND` is `ifThen` where the third child is null, and `ifElse` otherwise. -/
inductive Command where
  | simple (h : Header) (word : List Word)
  | sequence (h : Header) (first second : Command)
  | pipe (h : Header) (first second : Command)
  | subshell (h : Header) (body : Command)
  | loop (type : LoopType) (h : Header) (cond body : Command)
  | ifThen (h : Header) (cond thenPart : Command)
  | ifElse (h : Header) (cond thenPart elsePart : Command)
  deriving Repr, DecidableEq

def LoopType.keyword : LoopType → TokenType
  | .whileCommand => .tokWhile
  | .untilCommand => .tokUntil

/-- No sequence (or, for `tokPipe`, no pipeline) outside a compound command. -/
def Command.free (sep : TokenType) : Command → Prop
  | .sequence _ a b => sep ≠ .tokSc ∧ a.free sep ∧ b.free sep
  | .pipe _ a b => sep ≠ .tokPipe ∧ a.free sep ∧ b.free sep
  | _ => True

def Command.isSequence : Command → Bool
  | .sequence _ _ _ => true
  | _ => false

def Command.isPipe : Command → Bool
  | .pipe _ _ _ => true
  | _ => false

/-- The trees that the parser is meant to build. -/
def Command.Normal : Command → Prop
  | .simple h word => h.status = -1 ∧ word ≠ []
  | .sequence h a b => h = .fresh ∧ a.Normal ∧ b.Normal ∧ b.isSequence = false
  | .pipe h a b =>
    h = .fresh ∧ a.Normal ∧ b.Normal ∧ a.free .tokSc ∧ b.free .tokSc ∧ b.isPipe = false
  | .subshell h a => h.status = -1 ∧ a.Normal
  | .loop _ h a b => h.status = -1 ∧ a.Normal ∧ b.Normal
  | .ifThen h a b => h.status = -1 ∧ a.Normal ∧ b.Normal
  | .ifElse h a b c => h.status = -1 ∧ a.Normal ∧ b.Normal ∧ c.Normal

theorem Command.Normal.free_sc {c : Command} (hc : c.Normal) (h : c.isSequence = false) :
    c.free .tokSc := by
  cases c with
  | sequence => cases h
  | pipe => exact ⟨by decide, hc.2.2.2.1, hc.2.2.2.2.1⟩
  | _ => exact trivial

theorem Command.free_pipe {c : Command} (hsc : c.free .tokSc) (h : c.isPipe = false) :
    c.free .tokPipe := by
  cases c with
  | sequence => exact absurd rfl hsc.1
  | pipe => cases h
  | _ => exact trivial

end CS111.Shell
