import CS111.Shell.Printing

/-!
# Printing command trees

`print-command.c`, and the loop of `main` for the option `-t`.
-/

namespace CS111.Shell

set_option autoImplicit false

/-- `%*s` with the empty string. -/
def blanks (indent : Nat) : List UInt8 := List.replicate indent (chr ' ')

def printRedirects (h : Header) : List UInt8 :=
  h.input.elim [] (chr '<' :: ·) ++ h.output.elim [] (chr '>' :: ·)

/-- `" \\\n%*s%c\n"`. -/
def printSeparator (indent : Nat) (separator : UInt8) : List UInt8 :=
  [chr ' ', chr '\\', chr '\n'] ++ blanks indent ++ [separator, chr '\n']

/-- The words up to the null pointer. A simple command has one word at least. -/
def printWords : List Word → List UInt8
  | [] => []
  | w :: ws => w ++ ws.flatMap fun w => chr ' ' :: w

/-- A keyword on a line of its own, between two newlines. -/
def printBetween (indent : Nat) (t : TokenType) : List UInt8 :=
  chr '\n' :: (blanks indent ++ t.text ++ [chr '\n'])

def commandIndentedPrint (indent : Nat) : Command → List UInt8
  | .ifThen h a b =>
    blanks indent ++ TokenType.tokIf.text ++ [chr '\n'] ++ commandIndentedPrint (indent + 2) a ++
      printBetween indent .tokThen ++ commandIndentedPrint (indent + 2) b ++
      chr '\n' :: (blanks indent ++ TokenType.tokFi.text ++ printRedirects h)
  | .ifElse h a b c =>
    blanks indent ++ TokenType.tokIf.text ++ [chr '\n'] ++ commandIndentedPrint (indent + 2) a ++
      printBetween indent .tokThen ++ commandIndentedPrint (indent + 2) b ++
      printBetween indent .tokElse ++ commandIndentedPrint (indent + 2) c ++
      chr '\n' :: (blanks indent ++ TokenType.tokFi.text ++ printRedirects h)
  | .loop t h a b =>
    blanks indent ++ t.keyword.text ++ [chr '\n'] ++ commandIndentedPrint (indent + 2) a ++
      printBetween indent .tokDo ++ commandIndentedPrint (indent + 2) b ++
      chr '\n' :: (blanks indent ++ TokenType.tokDone.text ++ printRedirects h)
  | .sequence h a b =>
    commandIndentedPrint (if a.isSequence then indent else indent + 2) a ++
      printSeparator indent (chr ';') ++
      commandIndentedPrint (if b.isSequence then indent else indent + 2) b ++ printRedirects h
  | .pipe h a b =>
    commandIndentedPrint (if a.isPipe then indent else indent + 2) a ++
      printSeparator indent (chr '|') ++
      commandIndentedPrint (if b.isPipe then indent else indent + 2) b ++ printRedirects h
  | .simple h word => blanks indent ++ printWords word ++ printRedirects h
  | .subshell h a =>
    blanks indent ++ [chr '(', chr '\n'] ++ commandIndentedPrint (indent + 1) a ++
      chr '\n' :: (blanks indent ++ [chr ')'] ++ printRedirects h)

def printCommand (c : Command) : List UInt8 := commandIndentedPrint 2 c ++ [chr '\n']

/-- `%d`. -/
def decimalText (n : Nat) : Word := (Nat.toDigits 10 n).map chr

/-- The trees from the number `commandNumber` on. -/
def printTrees : Nat → List Command → List UInt8
  | _, [] => []
  | commandNumber, c :: cs =>
    [chr '#', chr ' '] ++ decimalText commandNumber ++ [chr '\n'] ++ printCommand c ++
      printTrees (commandNumber + 1) cs

end CS111.Shell
