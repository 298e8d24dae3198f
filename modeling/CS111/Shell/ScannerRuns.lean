import Mathlib.Data.List.Infix
import CS111.Shell.ScannerState

/-!
# Runs of the scanner

The steps of the scanner depend on the last characters at a few places only: at a `#`, in front of
a sign and at a newline.
-/

namespace CS111.Shell

set_option autoImplicit false

open Fallible

/-- What `get_next_byte` delivers before the end of the file. -/
def readBytes (script : List UInt8) : List UInt8 := script.takeWhile (· ≠ 255)

theorem readBytes_cons {c : UInt8} {cs : List UInt8} (hc : c ≠ 255) :
    readBytes (c :: cs) = c :: readBytes cs := List.takeWhile_cons_of_pos (decide_eq_true hc)

theorem readBytes_append {bs cs : List UInt8} (h : 255 ∉ bs) :
    readBytes (bs ++ cs) = bs ++ readBytes cs := by
  refine List.takeWhile_append_of_pos fun c hc => decide_eq_true ?_
  rintro rfl
  exact h hc

theorem readBytes_append_eof {bs cs : List UInt8} (h : 255 ∈ bs) :
    readBytes (bs ++ cs) = readBytes bs := by
  induction bs with
  | nil => cases h
  | cons c bs ih =>
    by_cases hc : c = 255
    · rw [hc]
      rfl
    · rw [List.cons_append, readBytes_cons hc, readBytes_cons hc,
        ih ((List.mem_cons.mp h).resolve_left (Ne.symm hc))]

namespace Scanner

variable {a b : Scanner} {c d e : UInt8} {t : TokenType} {P : Scanner → UInt8 → Prop}
  {bs cs : List UInt8} {ls : List Lexeme}

/-- `P` holds of every state of the run and the character that is read in it. -/
def Throughout (P : Scanner → UInt8 → Prop) : Scanner → List UInt8 → Prop
  | _, [] => True
  | a, c :: cs => P a c ∧ ∀ b, a.next c = .ok b → Throughout P b cs

instance decidableThroughout [∀ a c, Decidable (P a c)] :
    ∀ (a : Scanner) (cs : List UInt8), Decidable (a.Throughout P cs)
  | _, [] => .isTrue trivial
  | a, c :: cs =>
    match h : a.next c with
    | .ok b =>
      have := decidableThroughout b cs
      decidable_of_iff (P a c ∧ b.Throughout P cs) (by simp [Throughout, h])
    | .error _ => decidable_of_iff (P a c) (by simp [Throughout, h])

instance (a : Scanner) : Decidable a.Drops :=
  decidable_of_iff (a.runsOn = true ∨ ∃ last ∈ a.atLineEnd.lexemes.getLast?,
    a.atLineEnd.swallows last) Iff.rfl

def withLast (a : Scanner) (d e : UInt8) : Scanner := { a with lastC := d, lastSpecial := e }

@[simp] theorem withLast_self (a : Scanner) : a.withLast a.lastC a.lastSpecial = a := rfl

@[simp] theorem withLast_lexemes : (a.withLast d e).lexemes = a.lexemes := rfl

@[simp] theorem withLast_pending : (a.withLast d e).pending = a.pending := rfl

@[simp] theorem withLast_inComment : (a.withLast d e).inComment = a.inComment := rfl

@[simp] theorem withLast_lastC : (a.withLast d e).lastC = d := rfl

@[simp] theorem withLast_lastSpecial : (a.withLast d e).lastSpecial = e := rfl

@[simp] theorem withLast_flush : (a.withLast d e).flush = a.flush.withLast d e := by
  unfold flush
  change (if a.pending = [] then _ else _) = _
  split
  · rfl
  · rfl

@[simp] theorem withLast_emit : (a.withLast d e).emit t = (a.emit t).withLast d e := by
  unfold emit
  rw [withLast_flush]
  rfl

@[simp] theorem withLast_atLineEnd : (a.withLast d e).atLineEnd = a.atLineEnd.withLast d e := by
  have hflush := withLast_flush (a := { a with inComment := false }) (d := d) (e := e)
  exact congrArg (fun b => setSimple b false) hflush

theorem withLast_after : (a.withLast d e).after c =
    (a.after c).withLast c (if strchr [chr ' ', chr '\t', chr '\n'] c then e else c) := rfl

/-! ## Lexemes -/

theorem flush_grows (a : Scanner) : a.lexemes <+: a.flush.lexemes := by
  rcases flush_cases a with ⟨_, heq⟩ | ⟨_, heq⟩
  · rw [heq]
  · rw [heq]
    exact List.prefix_append _ _

theorem atLineEnd_eq (a : Scanner) :
    a.atLineEnd = { a.flush with simple := false, inComment := false } := by
  unfold atLineEnd setSimple flush
  dsimp only
  split
  · rfl
  · rfl

theorem atLineEnd_lexemes (a : Scanner) : a.atLineEnd.lexemes = a.flush.lexemes := by
  rw [atLineEnd_eq]

theorem emit_grows (a : Scanner) (t : TokenType) : a.lexemes <+: (a.emit t).lexemes :=
  a.flush_grows.trans (List.prefix_append _ _)

/-- Lexemes are only added. -/
theorem Reads.grows (h : Reads a c b) : a.lexemes <+: b.lexemes := by
  have hline : a.lexemes <+: a.atLineEnd.lexemes := by
    rw [atLineEnd_lexemes]
    exact a.flush_grows
  cases h with
  | skip | comment | word => exact List.prefix_refl _
  | blank | nul => exact a.flush_grows
  | @redirect _ t | @delimiter _ t => exact a.emit_grows t
  | dropped => exact hline
  | separator => exact hline.trans (a.atLineEnd.emit_grows .tokSc)
  | ended => exact hline.trans (a.atLineEnd.emit_grows .tokNl)

theorem scan_grows (h : a.scan bs = .ok b) : a.lexemes <+: b.lexemes := by
  induction bs generalizing a with
  | nil =>
    cases h
    exact List.prefix_refl _
  | cons c bs ih =>
    obtain ⟨a', hnext, hrest⟩ := bind_eq_ok.mp h
    exact (reads_of_next hnext).grows.trans (ih hrest)

theorem scan_append_eq_ok :
    a.scan (bs ++ cs) = .ok b ↔ ∃ a', a.scan bs = .ok a' ∧ a'.scan cs = .ok b := by
  rw [scan, List.foldlM_append]
  exact bind_eq_ok

theorem Throughout.append (h : a.Throughout P (bs ++ cs)) :
    a.Throughout P bs ∧ ∀ b, a.scan bs = .ok b → b.Throughout P cs := by
  induction bs generalizing a with
  | nil =>
    refine ⟨trivial, fun b hb => ?_⟩
    cases hb
    exact h
  | cons c bs ih =>
    obtain ⟨hc, hrest⟩ := h
    refine ⟨⟨hc, fun b hnext => (ih (hrest b hnext)).1⟩, fun b hb => ?_⟩
    obtain ⟨a', hnext, hscan⟩ := bind_eq_ok.mp hb
    exact (ih (hrest a' hnext)).2 b hscan

theorem scan_cons_eq_ok : a.scan (c :: bs) = .ok b ↔ ∃ a', a.next c = .ok a' ∧ a'.scan bs = .ok b :=
  bind_eq_ok

/-- A newline is dropped, or leaves a `;` or a newline token. -/
theorem next_newline_eq_ok_iff : a.next (chr '\n') = .ok b ↔
    (a.afterRedirect = true → a.lastC = 0) ∧
      (a.Drops ∧ b = a.atLineEnd.after (chr '\n') ∨
        ¬ a.Drops ∧ a.atLineEnd.lexemes ≠ [] ∧
          (0 < a.atLineEnd.depth ∧ b = (a.atLineEnd.emit .tokSc).after (chr '\n') ∨
            a.atLineEnd.depth ≤ 0 ∧ a.afterRedirect = false ∧
              b = (a.atLineEnd.emit .tokNl).after (chr '\n'))) := by
  constructor
  · intro h
    rw [next, if_neg (by simp), switch_newline] at h
    obtain ⟨b', hnewline, h⟩ := bind_eq_ok.mp h
    cases h
    obtain ⟨hafter, ⟨hdrops, rfl⟩ | ⟨hdrops, hne, ⟨hdeep, rfl⟩ | ⟨hdeep, hline, rfl⟩⟩⟩ :=
      newline_eq_ok_iff.mp hnewline
    · exact ⟨hafter, .inl ⟨hdrops, rfl⟩⟩
    · exact ⟨hafter, .inr ⟨hdrops, hne, .inl ⟨hdeep, rfl⟩⟩⟩
    · exact ⟨hafter, .inr ⟨hdrops, hne, .inr ⟨hdeep, hline, rfl⟩⟩⟩
  · rintro ⟨hafter, ⟨hdrops, rfl⟩ | ⟨hdrops, hne, ⟨hdeep, rfl⟩ | ⟨hdeep, hline, rfl⟩⟩⟩
    · exact next_of_reads (.dropped hafter hdrops)
    · exact next_of_reads (.separator hafter hdrops hne hdeep)
    · exact next_of_reads (.ended hdrops hne hdeep hline)

theorem emit_line_lexemes (a : Scanner) (t : TokenType) :
    (a.atLineEnd.emit t).lexemes = a.flush.lexemes ++ [.mark t] := by
  have hpending : a.atLineEnd.pending = [] := flush_pending _
  rw [emit, flush_of_nil hpending, atLineEnd_lexemes]

theorem sign_not_blank (ht : t.isRedirect = true ∨ t.isDelimiter = true) (htext : t.text = [c]) :
    strchr [chr ' ', chr '\t', chr '\n'] c ≠ true := by
  have hc : c ∈ [chr '>', chr '<', chr '|', chr ';', chr '(', chr ')'] := by
    rcases ht with ht | ht
    · rcases (isRedirect_text ht htext).1 with rfl | rfl
      · decide
      · decide
    · rcases (isDelimiter_text ht htext).1 with rfl | rfl | rfl | rfl
      · decide
      · decide
      · decide
      · decide
  simp only [List.mem_cons, List.not_mem_nil, or_false] at hc
  rcases hc with rfl | rfl | rfl | rfl | rfl | rfl <;> decide

/-- Only words consist of the characters of words. -/
theorem read_ne_mark {simple : Bool} {w : Word} (hw : ∀ c ∈ w, isWordChar c = true)
    (hd : isWordChar d = false) (ht : d ∈ t.text) : Lexeme.read simple w ≠ .mark t := by
  intro h
  have htext := Lexeme.read_text simple w
  rw [h] at htext
  have hchar := hw d (by rw [← htext]; exact ht)
  rw [hd] at hchar
  cases hchar

theorem read_not_redirect {simple : Bool} {w : Word} (hw : ∀ c ∈ w, isWordChar c = true) :
    (Lexeme.read simple w).type.isRedirect = false := by
  have hlab : Lexeme.read simple w ≠ .mark .tokLab :=
    read_ne_mark (d := chr '<') hw (by decide) (by decide)
  have hrab : Lexeme.read simple w ≠ .mark .tokRab :=
    read_ne_mark (d := chr '>') hw (by decide) (by decide)
  cases hread : Lexeme.read simple w with
  | word text => rfl
  | mark t =>
    rw [hread] at hlab hrab
    cases t with
    | tokLab => exact absurd rfl hlab
    | tokRab => exact absurd rfl hrab
    | _ => rfl

theorem scriptScan_eq_ok {script : List UInt8} : scriptScan script = .ok ls ↔
    ∃ a b, start.scan (readBytes script) = .ok a ∧ a.next 0 = .ok b ∧ b.lexemes = ls := by
  constructor
  · intro h
    obtain ⟨a, hscan, h⟩ := bind_eq_ok.mp h
    obtain ⟨b, hnext, h⟩ := bind_eq_ok.mp h
    exact ⟨a, b, hscan, hnext, Except.ok.inj h⟩
  · rintro ⟨a, b, hscan, hnext, rfl⟩
    exact bind_eq_ok.mpr ⟨a, hscan, bind_eq_ok.mpr ⟨b, hnext, rfl⟩⟩

end Scanner

end CS111.Shell
