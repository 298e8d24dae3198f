import CS111.Shell.LexerReads
import CS111.Shell.LexemeScanner
import CS111.Shell.ParserComplete
import CS111.Shell.PrintCommand

/-!
# Printed trees

What `-t` prints tells the trees apart. Read without its blanks, newlines and backslashes, the text of
a tree spells the tree, with no `;` in front of `then`, `else`, `fi`, `do` and `done`; and the parser
makes one tree only of such lexemes.
-/

namespace CS111.Shell

set_option autoImplicit false

variable {c c' : Command} {h : Header} {first : Bool} {w pending : Word} {ws : List Word}
  {bs rest e : List UInt8} {t : TokenType} {indent : Nat} {ls : List Lexeme}

/-! ## Reading the text -/

/-- The lexeme under way; the first word of a line may be a keyword. -/
def finished (first : Bool) (pending : Word) : List Lexeme :=
  if pending = [] then [] else [Lexeme.read (!first) pending]

/-- The lexemes of a text up to the next `#`. -/
def reading (first : Bool) (pending : Word) : List UInt8 → List Lexeme
  | [] => finished first pending
  | b :: bs =>
    if isWordChar b then reading first (pending ++ [b]) bs
    else if b = chr '\n' then finished first pending ++ reading true [] bs
    else if b = chr '#' then finished first pending
    else if b = chr ' ' ∨ b = chr '\\' then
      finished first pending ++ reading (first && pending.isEmpty) [] bs
    else finished first pending ++ Lexeme.read false [b] :: reading false [] bs

theorem reading_word (hw : ∀ b ∈ w, isWordChar b = true) :
    reading first pending (w ++ bs) = reading first (pending ++ w) bs := by
  induction w generalizing pending with
  | nil => rw [List.append_nil, List.nil_append]
  | cons b w ih =>
    obtain ⟨hb, hw⟩ := List.forall_mem_cons.mp hw
    rw [List.cons_append, reading, if_pos hb, ih hw, List.append_assoc]
    rfl

theorem reading_newline :
    reading first pending (chr '\n' :: bs) = finished first pending ++ reading true [] bs := rfl

theorem reading_blank : reading first pending (chr ' ' :: bs) =
    finished first pending ++ reading (first && pending.isEmpty) [] bs := rfl

theorem reading_blanks (first : Bool) (indent : Nat) (bs : List UInt8) :
    reading first [] (blanks indent ++ bs) = reading first [] bs := by
  induction indent with
  | zero => rfl
  | succ indent ih =>
    rw [blanks, List.replicate_succ, List.cons_append, reading_blank, List.isEmpty_nil, Bool.and_true]
    exact ih

theorem finished_word (hw : ValidWord w) : finished false w = [.word w] := by
  rw [finished, if_neg hw.1]
  rfl

theorem finished_command (hw : ValidWord w) (hfree : w ∉ reservedWords) :
    finished true w = [.word w] := by
  have htype := (Follows.commandWord hw hfree).assigned (.inl rfl)
  change w ≠ [] ∧ assignedType false w = .tokWord ∧ _ at htype
  rw [finished, if_neg hw.1, Bool.not_true, Lexeme.read, htype.2.1]
  rfl

theorem keyword_text (ht : t.isKeyword = true) :
    (∀ b ∈ t.text, isWordChar b = true) ∧ finished true t.text = [.mark t] := by
  cases t <;> simp [TokenType.isKeyword] at ht <;> exact ⟨List.all_eq_true.mp (by decide), by decide⟩

/-! ## The lexemes of a tree -/

def redirectLexemes (h : Header) : List Lexeme :=
  h.input.elim [] (fun w => [.mark .tokLab, .word w]) ++
    h.output.elim [] (fun w => [.mark .tokRab, .word w])

def treeLexemes : Command → List Lexeme
  | .simple h word => word.map .word ++ redirectLexemes h
  | .sequence _ a b => treeLexemes a ++ .mark .tokSc :: treeLexemes b
  | .pipe _ a b => treeLexemes a ++ .mark .tokPipe :: treeLexemes b
  | .subshell h a =>
    .mark .tokLparen :: (treeLexemes a ++ [] ++ .mark .tokRparen :: redirectLexemes h)
  | .loop t h a b =>
    .mark t.keyword :: (treeLexemes a ++ [] ++
      .mark .tokDo :: (treeLexemes b ++ [] ++ .mark .tokDone :: redirectLexemes h))
  | .ifThen h a b =>
    .mark .tokIf :: (treeLexemes a ++ [] ++
      .mark .tokThen :: (treeLexemes b ++ [] ++ .mark .tokFi :: redirectLexemes h))
  | .ifElse h a b c =>
    .mark .tokIf :: (treeLexemes a ++ [] ++ .mark .tokThen :: (treeLexemes b ++ [] ++
      .mark .tokElse :: (treeLexemes c ++ [] ++ .mark .tokFi :: redirectLexemes h)))

/-- Nothing stands in front of the tokens that close a part. -/
def noSeparators (_ : TokenType) (s : List Lexeme) : Prop := s = []

theorem renders_redirects (h : Header) : RendersRedirects h.input h.output (redirectLexemes h) := by
  obtain ⟨status, input, output⟩ := h
  cases input <;> cases output <;> constructor

theorem treeLexemes_renders (c : Command) : Renders noSeparators c (treeLexemes c) := by
  induction c with
  | simple h word => exact .simple (renders_redirects h)
  | sequence h a b iha ihb => exact .sequence iha ihb
  | pipe h a b iha ihb => exact .pipe iha ihb
  | subshell h a iha => exact .subshell iha rfl (renders_redirects h)
  | loop t h a b iha ihb => exact .loop iha rfl ihb rfl (renders_redirects h)
  | ifThen h a b iha ihb => exact .ifThen iha rfl ihb rfl (renders_redirects h)
  | ifElse h a b c iha ihb ihc => exact .ifElse iha rfl ihb rfl ihc rfl (renders_redirects h)

/-! ## The text of a tree -/

/-- What stands behind a printed tree. -/
def TextEnd (e : List UInt8) : Prop := e = [chr '\n'] ∨ e = [chr ' ', chr '\\', chr '\n']

theorem reading_end (he : TextEnd e) :
    reading first pending (e ++ bs) = finished first pending ++ reading true [] bs := by
  rcases he with rfl | rfl
  · rfl
  · rfl

theorem reading_sign (ht : t.isDelimiter = true ∨ t.isRedirect = true) :
    reading first pending (t.text ++ bs) = finished first pending ++ .mark t :: reading false [] bs := by
  cases t <;> simp [TokenType.isDelimiter, TokenType.isRedirect] at ht <;> rfl

theorem reading_keyword (ht : t.isKeyword = true) :
    reading true [] (blanks indent ++ (t.text ++ chr '\n' :: bs)) = .mark t :: reading true [] bs := by
  obtain ⟨hchars, hmark⟩ := keyword_text ht
  rw [reading_blanks, reading_word hchars, reading_newline, List.nil_append, hmark]
  rfl

/-- The target of a redirection, with what stands in front of it. -/
theorem reading_target (ht : t.isRedirect = true) (hw : ValidWord w) :
    reading first pending (t.text ++ (w ++ bs)) = finished first pending ++ .mark t ::
      reading false w bs := by
  rw [reading_sign (.inr ht), reading_word hw.2, List.nil_append]

theorem reading_redirects (hh : h.Printable) (he : TextEnd e) :
    reading first pending (printRedirects h ++ (e ++ bs)) =
      finished first pending ++ (redirectLexemes h ++ reading true [] bs) := by
  obtain ⟨status, input, output⟩ := h
  obtain ⟨hinput, houtput⟩ := hh
  have hlast {first : Bool} {pending : Word} :
      reading first pending (output.elim [] (chr '>' :: ·) ++ (e ++ bs)) = finished first pending ++
        (output.elim [] (fun w => [.mark .tokRab, .word w]) ++ reading true [] bs) := by
    cases output with
    | none => exact reading_end he
    | some o =>
      have ho := houtput o rfl
      have htarget : reading first pending (TokenType.tokRab.text ++ (o ++ (e ++ bs))) =
          finished first pending ++ .mark .tokRab :: reading false o (e ++ bs) :=
        reading_target rfl ho
      change reading first pending (TokenType.tokRab.text ++ (o ++ (e ++ bs))) = _
      rw [htarget, reading_end he, finished_word ho]
      rfl
  cases input with
  | none => exact hlast
  | some i =>
    have hi := hinput i rfl
    have htarget (bs : List UInt8) : reading first pending (TokenType.tokLab.text ++ (i ++ bs)) =
        finished first pending ++ .mark .tokLab :: reading false i bs := reading_target rfl hi
    have htext : printRedirects ⟨status, some i, output⟩ ++ (e ++ bs) =
        TokenType.tokLab.text ++ (i ++ (output.elim [] (chr '>' :: ·) ++ (e ++ bs))) := by
      simp [printRedirects, TokenType.text, tokAssociations]
    rw [htext, htarget, hlast, finished_word hi]
    rfl

/-- The words behind the first one, and the redirections. -/
theorem reading_arguments (hpending : pending ≠ []) (hws : ∀ w ∈ ws, ValidWord w)
    (hh : h.Printable) (he : TextEnd e) :
    reading first pending ((ws.flatMap fun w => chr ' ' :: w) ++ (printRedirects h ++ (e ++ bs))) =
      finished first pending ++ (ws.map .word ++ (redirectLexemes h ++ reading true [] bs)) := by
  induction ws generalizing first pending with
  | nil => exact reading_redirects hh he
  | cons w ws ih =>
    obtain ⟨hw, hws⟩ := List.forall_mem_cons.mp hws
    have hnot : pending.isEmpty = false := by simpa using hpending
    rw [List.flatMap_cons, List.cons_append, List.cons_append, reading_blank, hnot, Bool.and_false,
      List.append_assoc, reading_word hw.2, List.nil_append, ih hw.1 hws, finished_word hw]
    rfl

/-- The text of the tree spells its lexemes, with any end behind it. -/
def ReadsBack (c : Command) : Prop :=
  ∀ (indent : Nat) (e bs : List UInt8), TextEnd e →
    reading true [] (commandIndentedPrint indent c ++ (e ++ bs)) = treeLexemes c ++ reading true [] bs

theorem ReadsBack.newline (hc : ReadsBack c) (indent : Nat) (bs : List UInt8) :
    reading true [] (commandIndentedPrint indent c ++ chr '\n' :: bs) =
      treeLexemes c ++ reading true [] bs :=
  hc indent [chr '\n'] bs (.inl rfl)

/-- A part of a compound command, with the keyword behind it. -/
theorem ReadsBack.part (hc : ReadsBack c) (ht : t.isKeyword = true) (inner indent : Nat)
    (bs : List UInt8) :
    reading true [] (commandIndentedPrint inner c ++ (printBetween indent t ++ bs)) =
      treeLexemes c ++ .mark t :: reading true [] bs := by
  have htext : printBetween indent t ++ bs =
      chr '\n' :: (blanks indent ++ (t.text ++ chr '\n' :: bs)) := by
    simp [printBetween]
  rw [htext, hc.newline, reading_keyword ht]

/-- The last part, with the keyword and the redirections behind it. -/
theorem ReadsBack.last (hc : ReadsBack c) (ht : t.isKeyword = true) (hh : h.Printable) (he : TextEnd e)
    (inner indent : Nat) (bs : List UInt8) :
    reading true [] (commandIndentedPrint inner c ++
      chr '\n' :: (blanks indent ++ (t.text ++ (printRedirects h ++ (e ++ bs))))) =
        treeLexemes c ++ .mark t :: (redirectLexemes h ++ reading true [] bs) := by
  obtain ⟨hchars, hmark⟩ := keyword_text ht
  rw [hc.newline, reading_blanks, reading_word hchars, reading_redirects hh he, List.nil_append, hmark]
  rfl

/-- A member of a sequence or pipeline, with the separator behind it. -/
theorem ReadsBack.member (hc : ReadsBack c) (ht : t.isDelimiter = true) {b : UInt8}
    (htext : t.text = [b]) (inner indent : Nat) (bs : List UInt8) :
    reading true [] (commandIndentedPrint inner c ++ (printSeparator indent b ++ bs)) =
      treeLexemes c ++ .mark t :: reading true [] bs := by
  have hsep : printSeparator indent b ++ bs =
      [chr ' ', chr '\\', chr '\n'] ++ (blanks indent ++ (t.text ++ chr '\n' :: bs)) := by
    simp [printSeparator, htext]
  rw [hsep, hc inner _ _ (.inr rfl), reading_blanks, reading_sign (.inl ht)]
  rfl

theorem printRedirects_fresh : printRedirects .fresh = [] := rfl

theorem readsBack (hc : c.Normal) (hp : c.Printable) : ReadsBack c := by
  induction c with
  | simple h word =>
    intro indent e bs he
    obtain ⟨hh, hwords, hfree⟩ := hp
    cases word with
    | nil => exact absurd rfl hc.2
    | cons w ws =>
      obtain ⟨hw, hws⟩ := List.forall_mem_cons.mp hwords
      have htext : commandIndentedPrint indent (.simple h (w :: ws)) ++ (e ++ bs) = blanks indent ++
          (w ++ ((ws.flatMap fun w => chr ' ' :: w) ++ (printRedirects h ++ (e ++ bs)))) := by
        simp [commandIndentedPrint, printWords]
      rw [htext, reading_blanks, reading_word hw.2, List.nil_append,
        reading_arguments hw.1 hws hh he, finished_command hw (hfree w rfl)]
      simp [treeLexemes]
  | sequence h a b iha ihb =>
    intro indent e bs he
    obtain ⟨rfl, ha, hb, _⟩ := hc
    rw [commandIndentedPrint, printRedirects_fresh, List.append_nil, List.append_assoc,
      List.append_assoc, (iha ha hp.1).member (t := .tokSc) rfl rfl, ihb hb hp.2 _ _ _ he]
    simp [treeLexemes]
  | pipe h a b iha ihb =>
    intro indent e bs he
    obtain ⟨rfl, ha, hb, _⟩ := hc
    rw [commandIndentedPrint, printRedirects_fresh, List.append_nil, List.append_assoc,
      List.append_assoc, (iha ha hp.1).member (t := .tokPipe) rfl rfl, ihb hb hp.2 _ _ _ he]
    simp [treeLexemes]
  | subshell h a iha =>
    intro indent e bs he
    have htext : commandIndentedPrint indent (.subshell h a) ++ (e ++ bs) = blanks indent ++
        (TokenType.tokLparen.text ++ chr '\n' :: (commandIndentedPrint (indent + 1) a ++
          chr '\n' :: (blanks indent ++ (TokenType.tokRparen.text ++
            (printRedirects h ++ (e ++ bs)))))) := by
      simp [commandIndentedPrint, TokenType.text, tokAssociations]
    rw [htext, reading_blanks, reading_sign (.inl rfl), reading_newline, (iha hc.2 hp.2).newline,
      reading_blanks, reading_sign (.inl rfl), reading_redirects hp.1 he]
    simp [treeLexemes, finished]
  | loop t h a b iha ihb =>
    intro indent e bs he
    obtain ⟨_, ha, hb⟩ := hc
    obtain ⟨hh, hpa, hpb⟩ := hp
    have hkeyword : t.keyword.isKeyword = true := by cases t <;> rfl
    have htext : commandIndentedPrint indent (.loop t h a b) ++ (e ++ bs) = blanks indent ++
        (t.keyword.text ++ chr '\n' :: (commandIndentedPrint (indent + 2) a ++
          (printBetween indent .tokDo ++ (commandIndentedPrint (indent + 2) b ++
            chr '\n' :: (blanks indent ++ (TokenType.tokDone.text ++
              (printRedirects h ++ (e ++ bs)))))))) := by
      simp [commandIndentedPrint]
    rw [htext, reading_keyword hkeyword, (iha ha hpa).part rfl, (ihb hb hpb).last rfl hh he]
    simp [treeLexemes]
  | ifThen h a b iha ihb =>
    intro indent e bs he
    obtain ⟨_, ha, hb⟩ := hc
    obtain ⟨hh, hpa, hpb⟩ := hp
    have htext : commandIndentedPrint indent (.ifThen h a b) ++ (e ++ bs) = blanks indent ++
        (TokenType.tokIf.text ++ chr '\n' :: (commandIndentedPrint (indent + 2) a ++
          (printBetween indent .tokThen ++ (commandIndentedPrint (indent + 2) b ++
            chr '\n' :: (blanks indent ++ (TokenType.tokFi.text ++
              (printRedirects h ++ (e ++ bs)))))))) := by
      simp [commandIndentedPrint]
    rw [htext, reading_keyword rfl, (iha ha hpa).part rfl, (ihb hb hpb).last rfl hh he]
    simp [treeLexemes]
  | ifElse h a b c iha ihb ihc =>
    intro indent e bs he
    obtain ⟨_, ha, hb, hc⟩ := hc
    obtain ⟨hh, hpa, hpb, hpc⟩ := hp
    have htext : commandIndentedPrint indent (.ifElse h a b c) ++ (e ++ bs) = blanks indent ++
        (TokenType.tokIf.text ++ chr '\n' :: (commandIndentedPrint (indent + 2) a ++
          (printBetween indent .tokThen ++ (commandIndentedPrint (indent + 2) b ++
            (printBetween indent .tokElse ++ (commandIndentedPrint (indent + 2) c ++
              chr '\n' :: (blanks indent ++ (TokenType.tokFi.text ++
                (printRedirects h ++ (e ++ bs)))))))))) := by
      simp [commandIndentedPrint]
    rw [htext, reading_keyword rfl, (iha ha hpa).part rfl, (ihb hb hpb).part rfl,
      (ihc hc hpc).last rfl hh he]
    simp [treeLexemes]

/-! ## One tree only -/

/-- The tokens of some lexemes, with their texts one behind the other from `offset` on. -/
def layOut : Nat → List Lexeme → List Token
  | _, [] => []
  | offset, l :: ls => ⟨l.type, offset, 1⟩ :: layOut (offset + l.text.length + 1) ls

def tokenListOf (ls : List Lexeme) : TokenList :=
  ⟨ls.flatMap fun l => l.text ++ [0], layOut 0 ls⟩

theorem holds_layOut {tl : TokenList} {done : List Token} {before : List UInt8}
    (htokens : tl.tokens = done ++ layOut before.length ls)
    (hbuffer : tl.tokenBuffer = before ++ ls.flatMap fun l => l.text ++ [0])
    (hls : ∀ l ∈ ls, 0 ∉ l.text) : tl.Holds done.length ls := by
  induction ls generalizing done before with
  | nil => trivial
  | cons l ls ih =>
    obtain ⟨hzero, hls⟩ := List.forall_mem_cons.mp hls
    refine ⟨⟨⟨l.type, before.length, 1⟩, ?_, ?_⟩, ?_⟩
    · rw [readToken, htokens]
      simp [layOut]
    · have htext : tl.text ⟨l.type, before.length, 1⟩ = l.text := by
        have htake : (l.text ++ ([0] ++ ls.flatMap fun l : Lexeme => l.text ++ [0])).takeWhile
            (· ≠ 0) = l.text := by
          rw [List.takeWhile_append_of_pos, List.singleton_append,
            List.takeWhile_cons_of_neg (by simp), List.append_nil]
          intro b hb
          exact decide_eq_true fun h => hzero (h ▸ hb)
        rw [TokenList.text, cstring, hbuffer, List.drop_left, List.flatMap_cons, List.append_assoc]
        exact htake
      cases l with
      | word w => exact ⟨rfl, htext⟩
      | mark t => rfl
    · have htokens' : tl.tokens = (done ++ [⟨l.type, before.length, 1⟩]) ++
          layOut (before ++ l.text ++ [0]).length ls := by
        rw [htokens, layOut]
        simp [Nat.add_assoc]
      have hnext := ih htokens' (by rw [hbuffer]; simp) hls
      rwa [List.length_append] at hnext

theorem mark_text_ne_zero (t : TokenType) : 0 ∉ t.text := by
  cases t <;> decide

theorem ValidWord.ne_zero (hw : ValidWord w) : 0 ∉ w := fun h =>
  Bool.false_ne_true (hw.2 0 h)

theorem redirectLexemes_text (hh : h.Printable) : ∀ l ∈ redirectLexemes h, 0 ∉ l.text := by
  obtain ⟨status, input, output⟩ := h
  obtain ⟨hinput, houtput⟩ := hh
  cases input <;> cases output <;>
    simp_all [redirectLexemes, Lexeme.text, mark_text_ne_zero, ValidWord.ne_zero]

theorem treeLexemes_text (hp : c.Printable) : ∀ l ∈ treeLexemes c, 0 ∉ l.text := by
  have hmark (t : TokenType) : 0 ∉ (Lexeme.mark t).text := mark_text_ne_zero t
  induction c with
  | simple h word =>
    obtain ⟨hh, hwords, _⟩ := hp
    intro l hl
    rcases List.mem_append.mp hl with hword | hredirect
    · obtain ⟨w, hw, rfl⟩ := List.mem_map.mp hword
      exact (hwords w hw).ne_zero
    · exact redirectLexemes_text hh l hredirect
  | sequence h a b iha ihb | pipe h a b iha ihb =>
    have ha := iha hp.1
    have hb := ihb hp.2
    simp only [treeLexemes, List.mem_append, List.mem_cons]
    rintro l (hl | rfl | hl)
    · exact ha l hl
    · exact hmark _
    · exact hb l hl
  | subshell h a iha =>
    have ha := iha hp.2
    have hh := redirectLexemes_text hp.1
    simp only [treeLexemes, List.append_nil, List.mem_append, List.mem_cons]
    rintro l (rfl | hl | rfl | hl)
    · exact hmark _
    · exact ha l hl
    · exact hmark _
    · exact hh l hl
  | loop t h a b iha ihb | ifThen h a b iha ihb =>
    have ha := iha hp.2.1
    have hb := ihb hp.2.2
    have hh := redirectLexemes_text hp.1
    simp only [treeLexemes, List.append_nil, List.mem_append, List.mem_cons]
    rintro l (rfl | hl | rfl | hl | rfl | hl)
    · exact hmark _
    · exact ha l hl
    · exact hmark _
    · exact hb l hl
    · exact hmark _
    · exact hh l hl
  | ifElse h a b c iha ihb ihc =>
    have ha := iha hp.2.1
    have hb := ihb hp.2.2.1
    have hc := ihc hp.2.2.2
    have hh := redirectLexemes_text hp.1
    simp only [treeLexemes, List.append_nil, List.mem_append, List.mem_cons]
    rintro l (rfl | hl | rfl | hl | rfl | hl | rfl | hl)
    · exact hmark _
    · exact ha l hl
    · exact hmark _
    · exact hb l hl
    · exact hmark _
    · exact hc l hl
    · exact hmark _
    · exact hh l hl

/-- The parser gives the tree back from its lexemes. -/
theorem parse_treeLexemes (hc : c.Normal) (hp : c.Printable) :
    parse (treeLexemes c).length (tokenListOf (treeLexemes c ++ [.mark .tokNl])) 0
      (treeLexemes c).length = .ok c := by
  have htext : ∀ l ∈ treeLexemes c ++ [.mark .tokNl], 0 ∉ l.text := by
    intro l hl
    rcases List.mem_append.mp hl with hl | hl
    · exact treeLexemes_text hp l hl
    · obtain rfl := List.mem_singleton.mp hl
      exact mark_text_ne_zero .tokNl
  have hholds : (tokenListOf (treeLexemes c ++ [.mark .tokNl])).Holds ([] : List Token).length
      (treeLexemes c ++ [.mark .tokNl]) := holds_layOut (List.nil_append _).symm (List.nil_append _).symm htext
  obtain ⟨hls, hnl⟩ := holds_append.mp hholds
  have hparse := parses_renders (fun hs => .inl hs) (treeLexemes_renders c) hc _ _ (Nat.le_refl _) hls
    (stops_of_holds_mark hnl (by decide))
  rwa [List.length_nil, Nat.zero_add] at hparse

theorem treeLexemes_inj (hc : c.Normal) (hp : c.Printable) (hc' : c'.Normal) (hp' : c'.Printable)
    (h : treeLexemes c = treeLexemes c') : c = c' := by
  have hparse := parse_treeLexemes hc hp
  rw [h, parse_treeLexemes hc' hp'] at hparse
  exact (Except.ok.inj hparse).symm

theorem printTrees_cons (n : Nat) (c : Command) (cs : List Command) : printTrees n (c :: cs) =
    [chr '#', chr ' '] ++ decimalText n ++ [chr '\n'] ++
      (printCommand c ++ printTrees (n + 1) cs) := by
  rw [printTrees, List.append_assoc]

/-- The next tree starts with its number. -/
theorem reading_printCommand (hc : c.Normal) (hp : c.Printable) (n : Nat) (cs : List Command) :
    reading true [] (printCommand c ++ printTrees n cs) = treeLexemes c := by
  have hstop : reading true [] (printTrees n cs) = [] := by
    cases cs <;> rfl
  rw [printCommand, List.append_assoc, List.singleton_append, (readsBack hc hp).newline, hstop,
    List.append_nil]

theorem printTrees_inj {cs cs' : List Command} (n : Nat) (hcs : ∀ c ∈ cs, c.Normal ∧ c.Printable)
    (hcs' : ∀ c ∈ cs', c.Normal ∧ c.Printable) (h : printTrees n cs = printTrees n cs') :
    cs = cs' := by
  induction cs generalizing cs' n with
  | nil =>
    cases cs' with
    | nil => rfl
    | cons c' cs' => exact absurd h (by simp [printTrees])
  | cons c cs ih =>
    cases cs' with
    | nil => exact absurd h (by simp [printTrees])
    | cons c' cs' =>
      obtain ⟨⟨hc, hp⟩, hrest⟩ := List.forall_mem_cons.mp hcs
      obtain ⟨⟨hc', hp'⟩, hrest'⟩ := List.forall_mem_cons.mp hcs'
      rw [printTrees_cons, printTrees_cons, List.append_cancel_left_eq] at h
      have hsame : treeLexemes c = treeLexemes c' := by
        rw [← reading_printCommand hc hp (n + 1) cs, h, reading_printCommand hc' hp']
      obtain rfl := treeLexemes_inj hc hp hc' hp' hsame
      rw [ih (n + 1) hrest hrest' (List.append_cancel_left h)]

/-- What `-t` prints tells any two lists of trees apart. -/
theorem printed_trees_eq_iff {cs cs' : List Command} (hcs : ∀ c ∈ cs, c.Normal ∧ c.Printable)
    (hcs' : ∀ c ∈ cs', c.Normal ∧ c.Printable) (commandNumber : Nat) :
    printTrees commandNumber cs = printTrees commandNumber cs' ↔ cs = cs' :=
  ⟨printTrees_inj commandNumber hcs hcs', congrArg (printTrees commandNumber)⟩

/-- `a ; b ; c` has one tree, and `( a ; b ) ; c` another one. -/
theorem printed_trees_eq_iff_subshell :
    let a : Command := .simple .fresh [[chr 'a']]
    let b : Command := .simple .fresh [[chr 'b']]
    printTrees 1 [.sequence .fresh (.sequence .fresh a b) a] ≠
      printTrees 1 [.sequence .fresh (.subshell .fresh (.sequence .fresh a b)) a] := by
  intro a b
  have hprintable (w : UInt8) (hw : isWordChar w = true) (hfree : [w] ∉ reservedWords) :
      (Command.simple .fresh [[w]]).Printable := by
    refine ⟨⟨nofun, nofun⟩, ?_, ?_⟩
    · simpa [ValidWord] using hw
    · simpa using hfree
  have ha : a.Printable := hprintable _ (by decide) (by decide)
  have hb : b.Printable := hprintable _ (by decide) (by decide)
  have hna : a.Normal := ⟨rfl, by decide⟩
  have hnb : b.Normal := ⟨rfl, by decide⟩
  have hplain : ∀ c ∈ [Command.sequence .fresh (.sequence .fresh a b) a], c.Normal ∧ c.Printable := by
    simpa using ⟨⟨rfl, ⟨rfl, hna, hnb, rfl⟩, hna, rfl⟩, ⟨ha, hb⟩, ha⟩
  have hnested : ∀ c ∈ [Command.sequence .fresh (.subshell .fresh (.sequence .fresh a b)) a],
      c.Normal ∧ c.Printable := by
    simpa using ⟨⟨rfl, ⟨rfl, rfl, hna, hnb, rfl⟩, hna, rfl⟩, ⟨⟨nofun, nofun⟩, ha, hb⟩, ha⟩
  rw [ne_eq, printed_trees_eq_iff hplain hnested 1]
  decide

end CS111.Shell
