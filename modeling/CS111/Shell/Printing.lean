import CS111.Shell.Rendering
import CS111.Shell.Tokenizer

/-!
# One-line scripts

How a command tree is printed on one line. Blanks may stand around every lexeme, and one has to
stand between two words or keywords.
-/

namespace CS111.Shell

set_option autoImplicit false

/-- The text of a keyword or sign. -/
def TokenType.text (t : TokenType) : Word :=
  match tokAssociations.find? fun assoc => assoc.1 = t with
  | some assoc => assoc.2
  | none => []

def TokenType.isKeyword : TokenType → Bool
  | .tokIf | .tokThen | .tokFi | .tokElse | .tokWhile | .tokUntil | .tokDo | .tokDone => true
  | _ => false

def TokenType.isRedirect : TokenType → Bool
  | .tokLab | .tokRab => true
  | _ => false

def TokenType.isDelimiter : TokenType → Bool
  | .tokSc | .tokPipe | .tokLparen | .tokRparen => true
  | _ => false

def Lexeme.text : Lexeme → Word
  | .word w => w
  | .mark t => t.text

def isBlank (c : UInt8) : Bool := c = chr ' ' ∨ c = chr '\t'

def isWordChar (c : UInt8) : Bool := isalnum c ∨ c ∈ wordPunctuation

def ValidWord (w : Word) : Prop := w ≠ [] ∧ ∀ c ∈ w, isWordChar c = true

def reservedWords : List Word :=
  [TokenType.tokIf, .tokThen, .tokFi, .tokElse, .tokWhile, .tokUntil, .tokDo, .tokDone].map (·.text)

def Header.Printable (h : Header) : Prop :=
  (∀ w, h.input = some w → ValidWord w) ∧ ∀ w, h.output = some w → ValidWord w

/-- The words are made of the characters of words, and command words are not reserved. -/
def Command.Printable : Command → Prop
  | .simple h word =>
    h.Printable ∧ (∀ w ∈ word, ValidWord w) ∧ ∀ w, word.head? = some w → w ∉ reservedWords
  | .sequence _ a b | .pipe _ a b => a.Printable ∧ b.Printable
  | .subshell h a => h.Printable ∧ a.Printable
  | .loop _ h a b | .ifThen h a b => h.Printable ∧ a.Printable ∧ b.Printable
  | .ifElse h a b c => h.Printable ∧ a.Printable ∧ b.Printable ∧ c.Printable

/-- The bytes spell the lexemes. The flag says that a word or keyword stands directly before. -/
inductive Spells : Bool → List Lexeme → List UInt8 → Prop
  | nil (b : Bool) : Spells b [] []
  | blank {b : Bool} {ls : List Lexeme} {bs : List UInt8} {c : UInt8} :
      isBlank c = true → Spells false ls bs → Spells b ls (c :: bs)
  | word {ls : List Lexeme} {bs : List UInt8} {w : Word} :
      Spells true ls bs → Spells false (.word w :: ls) (w ++ bs)
  | keyword {ls : List Lexeme} {bs : List UInt8} {t : TokenType} :
      t.isKeyword = true → Spells true ls bs → Spells false (.mark t :: ls) (t.text ++ bs)
  | sign {b : Bool} {ls : List Lexeme} {bs : List UInt8} {t : TokenType} :
      t.isRedirect = true ∨ t.isDelimiter = true → Spells false ls bs →
      Spells b (.mark t :: ls) (t.text ++ bs)

/-- The script has one line for each tree. -/
inductive Prints : List Command → List UInt8 → Prop
  | nil : Prints [] []
  | line {c : Command} {cs : List Command} {ls : List Lexeme} {bs rest : List UInt8} :
      Renders exactSeparators c ls → Spells false ls bs → Prints cs rest →
      Prints (c :: cs) (bs ++ chr '\n' :: rest)

end CS111.Shell
