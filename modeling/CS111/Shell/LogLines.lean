import Mathlib.Data.List.Forall2
import CS111.Shell.WriteLog

/-!
# The lines of the profiling log

What the first `write` of a call gets is the line cut at the size of the buffer. The lock keeps the
two writes of a call together, so that the log is made of pieces, one for each call in the order in
which the calls got the lock.
-/

namespace CS111.Shell

set_option autoImplicit false

open Memory

/-! ## The text of a line -/

def ProfileTimes.text (pt : ProfileTimes) : Word :=
  pt.times ++ match pt.command with
    | none => pidText pt.pid
    | some (w, ws) => w ++ ws.flatMap fun w => chr ' ' :: w

/-- The NUL at the end of the buffer is part of a line that is too long. -/
def cutLine (text : Word) : List UInt8 :=
  if text.length < 1023 then text else text.take 1022 ++ [0]

variable {buf : Nat → UInt8} {numChars n k : Nat} {text more : Word} {stale : Nat → Int}

/-- `numChars` is the length of the text, or anything above when the text is too long. -/
structure Filled (buf : Nat → UInt8) (numChars : Nat) (text : Word) : Prop where
  fits : numChars < 1023 → text.length = numChars ∧ load buf 0 numChars = text
  full : 1023 ≤ numChars → 1023 ≤ text.length ∧ load buf 0 1023 = text.take 1022 ++ [0]

theorem filled_nil (buf : Nat → UInt8) : Filled buf 0 [] where
  fits _ := ⟨rfl, rfl⟩
  full h := absurd h (by decide)

/-- A text printed behind the one in the buffer. -/
theorem Filled.snprintf (h : Filled buf numChars text) (hroom : numChars < 1023) :
    Filled (snprintf buf numChars (1023 - numChars) more).1 (numChars + more.length)
      (text ++ more) := by
  obtain ⟨hlength, hload⟩ := h.fits hroom
  have hbehind : load (store buf numChars (more.take (1023 - numChars - 1) ++ [0])) 0
      (numChars + (more.take (1023 - numChars - 1) ++ [0]).length) =
        text ++ (more.take (1023 - numChars - 1) ++ [0]) := by
    rw [load_store_append, hload]
  unfold CS111.Shell.snprintf
  rw [if_neg (by omega)]
  dsimp only
  constructor
  · intro hfits
    have hall : more.take (1023 - numChars - 1) = more := List.take_of_length_le (by omega)
    rw [hall, ← List.append_assoc, List.length_append, ← Nat.add_assoc, List.length_singleton,
      load_succ] at hbehind
    refine ⟨by rw [List.length_append, hlength], ?_⟩
    rw [hall]
    exact (List.append_inj' hbehind rfl).1
  · intro hfull
    have hlast : numChars + (more.take (1023 - numChars - 1) ++ [0]).length = 1023 := by
      rw [List.length_append, List.length_take, List.length_singleton]
      omega
    rw [hlast] at hbehind
    refine ⟨by rw [List.length_append]; omega, ?_⟩
    have htext : text.take 1022 = text := List.take_of_length_le (by omega)
    rw [hbehind, List.take_append, htext, List.append_assoc, hlength, Nat.sub_right_comm]

/-- Nothing is printed into the full buffer. -/
theorem Filled.beyond (h : Filled buf numChars text) (hfull : 1023 ≤ numChars) (k : Nat)
    (more : Word) : Filled buf (numChars + k) (text ++ more) where
  fits hfits := absurd hfits (by omega)
  full _ := by
    obtain ⟨hlength, hload⟩ := h.full hfull
    refine ⟨by rw [List.length_append]; omega, ?_⟩
    rw [hload, List.take_append_of_le_length (by omega)]

theorem Filled.putArguments {i : Nat} {ws : List Word} {buf' : Nat → UInt8} {numChars' : Nat}
    (h : Filled buf numChars text)
    (hput : putArguments stale i ws buf numChars = some (buf', numChars')) :
    Filled buf' numChars' (text ++ ws.flatMap fun w => chr ' ' :: w) := by
  induction ws generalizing i buf numChars text with
  | nil =>
    cases hput
    rwa [List.flatMap_nil, List.append_nil]
  | cons w ws ih =>
    rw [List.flatMap_cons, ← List.append_assoc]
    unfold CS111.Shell.putArguments at hput
    split at hput
    · next hroom => exact ih (h.snprintf hroom) hput
    · next hfull =>
      split at hput
      · cases hput
      · exact ih (h.beyond (Nat.le_of_not_lt hfull) _ _) hput

theorem Filled.bytes (h : Filled buf numChars text) :
    load buf 0 (if numChars > 1023 then 1023 else numChars) = cutLine text := by
  unfold cutLine
  rcases Nat.lt_or_ge numChars 1023 with hfits | hfull
  · obtain ⟨hlength, hload⟩ := h.fits hfits
    rw [if_neg (by omega), hload, if_pos (by omega)]
  · obtain ⟨hlength, hload⟩ := h.full hfull
    have hmin : (if numChars > 1023 then 1023 else numChars) = 1023 := by
      split <;> omega
    rw [hmin, hload, if_neg (by omega)]

/-- Whatever was in the buffer and in `added`, the first `write` gets the line, if it comes to
one. -/
theorem logBytes_eq {pt : ProfileTimes} {bytes : List UInt8} (h : logBytes stale buf pt = some bytes) :
    bytes = cutLine pt.text := by
  have hfirst (text : Word) : Filled (snprintf buf 0 1023 text).1 text.length text := by
    have hfilled : Filled (snprintf buf 0 (1023 - 0) text).1 (0 + text.length) ([] ++ text) :=
      (filled_nil buf).snprintf (by decide)
    rwa [Nat.zero_add] at hfilled
  unfold logBytes at h
  unfold ProfileTimes.text
  cases hcommand : pt.command with
  | none =>
    simp only [hcommand] at h ⊢
    obtain rfl := Option.some.inj h
    exact (hfirst _).bytes
  | some words =>
    obtain ⟨w, ws⟩ := words
    simp only [hcommand] at h ⊢
    obtain ⟨⟨buf', numChars'⟩, hput, hbytes⟩ := Option.bind_eq_some_iff.mp h
    obtain rfl := Option.some.inj hbytes
    rw [← List.append_assoc]
    exact ((hfirst _).putArguments hput).bytes

/-! ## The pieces of the log -/

/-- The processes whose calls of `write_log` have got the lock, with what they log. -/
def LogAction.call? : LogAction → Option ProfileTimes
  | .call _ pt _ _ => some pt
  | _ => none

def logged (as : List LogAction) : List ProfileTimes := as.filterMap LogAction.call?

/-- No `write` has taken less than all its bytes. -/
def LogAction.Whole : LogAction → Prop
  | .writeText _ answer | .writeNewline _ answer => answer = .all
  | _ => True

/-- What a call adds to the log; it is the line, if all is written. -/
def PieceOf (whole : Prop) (pt : ProfileTimes) (piece : List UInt8) : Prop :=
  ∃ first second : WriteAnswer, piece = first.taken (cutLine pt.text) ++ second.taken [10] ∧
    (whole → first = .all ∧ second = .all)

variable {file : List UInt8} {whole : Prop} {pts : List ProfileTimes} {pt : ProfileTimes}
  {pieces : List (List UInt8)} {as : List LogAction} {s t : LogState} {shell : Nat}

/-- How far the log has come, when the process with the lock is at a stage. -/
def Progress (file : List UInt8) (whole : Prop) (pts : List ProfileTimes) :
    LogStage → List UInt8 → Prop
  | .outside, log | .done, log =>
    ∃ pieces, List.Forall₂ (PieceOf whole) pts pieces ∧ log = file ++ pieces.flatten
  | .locked bytes, log => ∃ before pt pieces, pts = before ++ [pt] ∧ bytes = cutLine pt.text ∧
      List.Forall₂ (PieceOf whole) before pieces ∧ log = file ++ pieces.flatten
  | .wrote _, log => ∃ before pt pieces, ∃ answer : WriteAnswer, pts = before ++ [pt] ∧
      (whole → answer = .all) ∧ List.Forall₂ (PieceOf whole) before pieces ∧
      log = file ++ pieces.flatten ++ answer.taken (cutLine pt.text)

/-- The process with the lock is the only one that is not outside of `write_log`. -/
structure LogSound (file : List UInt8) (whole : Prop) (pts : List ProfileTimes) (s : LogState) :
    Prop where
  free : s.holder = none → Progress file whole pts .outside s.file
  held : ∀ p, s.holder = some p →
    ∃ l, s.proc p = some l ∧ l.stage ≠ .outside ∧ Progress file whole pts l.stage s.file
  others : ∀ q l, s.proc q = some l → l.stage ≠ .outside → s.holder = some q

theorem logSound_start : LogSound file whole [] (.start file shell) where
  free _ := ⟨[], .nil, (List.append_nil file).symm⟩
  held p hp := nomatch hp
  others q l hq hstage := by
    unfold LogState.start at hq
    dsimp only at hq
    split at hq
    · obtain rfl := Option.some.inj hq
      exact absurd rfl hstage
    · cases hq

/-- The process that has the lock goes on. -/
theorem LogSound.holds (h : LogSound file whole pts s) {p : Nat} {l : Logger}
    (hp : s.proc p = some l) (hstage : l.stage ≠ .outside) :
    s.holder = some p ∧ Progress file whole pts l.stage s.file := by
  have hholder := h.others p l hp hstage
  obtain ⟨l', hp', _, hprogress⟩ := h.held p hholder
  obtain rfl := Option.some.inj (hp.symm.trans hp')
  exact ⟨hholder, hprogress⟩

section Steps
variable {p q : Nat} {l l' : Logger} {a : LogAction}

theorem setProc_self (s : LogState) (p : Nat) (l : Option Logger) : (s.setProc p l).proc p = l :=
  if_pos rfl

theorem setProc_other (s : LogState) (l : Option Logger) (h : q ≠ p) :
    (s.setProc p l).proc q = s.proc q :=
  if_neg h

/-- The process with the lock comes to its next stage. -/
theorem LogSound.advance (h : LogSound file whole pts s) (hp : s.holder = some p)
    (ht : t.proc = (s.setProc p (some l)).proc) (hholder : t.holder = s.holder)
    (hstage : l.stage ≠ .outside) (hprogress : Progress file whole pts l.stage t.file) :
    LogSound file whole pts t where
  free hfree := by
    rw [hholder, hp] at hfree
    cases hfree
  held q hq := by
    rw [hholder, hp] at hq
    obtain rfl := Option.some.inj hq
    exact ⟨l, by rw [ht, setProc_self], hstage, hprogress⟩
  others q lq hq hlq := by
    rw [hholder]
    by_cases hqp : q = p
    · rw [hqp, hp]
    · rw [ht, setProc_other s _ hqp] at hq
      exact h.others q lq hq hlq

/-- A process outside of `write_log` comes or goes. -/
theorem LogSound.bystander (h : LogSound file whole pts s)
    (hbefore : ∀ l, s.proc p = some l → l.stage = .outside) {new : Option Logger}
    (hafter : ∀ l, new = some l → l.stage = .outside) : LogSound file whole pts (s.setProc p new) where
  free := h.free
  held q hq := by
    obtain ⟨l, hl, hstage, hprogress⟩ := h.held q hq
    have hqp : q ≠ p := by
      rintro rfl
      exact hstage (hbefore l hl)
    exact ⟨l, by rw [setProc_other s _ hqp, hl], hstage, hprogress⟩
  others q l hq hstage := by
    by_cases hqp : q = p
    · rw [hqp, setProc_self] at hq
      exact absurd (hafter l hq) hstage
    · rw [setProc_other s _ hqp] at hq
      exact h.others q l hq hstage

/-- A process gets the lock. -/
theorem LogSound.enter (h : LogSound file whole pts s) (hfree : s.holder = none) :
    LogSound file whole (pts ++ [pt])
      { s.setProc p (some ⟨true, .locked (cutLine pt.text)⟩) with holder := some p } where
  free hp := nomatch hp
  held q hq := by
    obtain rfl := Option.some.inj hq
    obtain ⟨pieces, hall, hfile⟩ := h.free hfree
    exact ⟨_, setProc_self s p _, LogStage.noConfusion, pts, pt, pieces, rfl, rfl, hall, hfile⟩
  others q l hq hstage := by
    by_cases hqp : q = p
    · rw [hqp]
    · have hq' : s.proc q = some l := by rwa [← setProc_other s _ hqp]
      rw [h.others q l hq' hstage] at hfree
      cases hfree

/-- A process gives the lock back. -/
theorem LogSound.leave (h : LogSound file whole pts s) (hp : s.holder = some p)
    (hprogress : Progress file whole pts .done s.file) (canWrite : Bool) :
    LogSound file whole pts
      { s.setProc p (some ⟨canWrite, .outside⟩) with holder := none } where
  free _ := hprogress
  held q hq := nomatch hq
  others q l hq hstage := by
    by_cases hqp : q = p
    · have hself : some ⟨canWrite, .outside⟩ = some l := by
        rw [← hq, hqp]
        exact (setProc_self s p _).symm
      obtain rfl := Option.some.inj hself
      exact absurd rfl hstage
    · have hq' : s.proc q = some l := by rwa [← setProc_other s _ hqp]
      have hholder := h.others q l hq' hstage
      rw [hp] at hholder
      exact absurd (Option.some.inj hholder).symm hqp

theorem LogSound.step (h : LogSound file whole pts s) (hwhole : whole → a.Whole)
    (hstep : LogStep s a t) : LogSound file whole (pts ++ a.call?.toList) t := by
  unfold LogStep LogState.next at hstep
  cases a with
  | call p pt stale buf =>
    dsimp only at hstep
    split at hstep
    · next hp hfree hbytes =>
      obtain rfl := Option.some.inj hstep
      rw [logBytes_eq hbytes]
      exact h.enter hfree
    · cases hstep
  | writeText p answer =>
    change LogSound file whole (pts ++ []) t
    rw [List.append_nil]
    dsimp only at hstep
    split at hstep
    · next canWrite bytes hp =>
      obtain rfl := Option.some.inj hstep
      obtain ⟨hholder, before, pt, pieces, hpts, rfl, hall, hfile⟩ := h.holds hp LogStage.noConfusion
      refine h.advance hholder rfl rfl LogStage.noConfusion
        ⟨before, pt, pieces, answer, hpts, hwhole, hall, ?_⟩
      rw [← hfile]
      rfl
    · cases hstep
  | writeNewline p answer =>
    change LogSound file whole (pts ++ []) t
    rw [List.append_nil]
    dsimp only at hstep
    split at hstep
    · next canWrite all hp =>
      obtain rfl := Option.some.inj hstep
      obtain ⟨hholder, before, pt, pieces, first, rfl, hfirst, hall, hfile⟩ :=
        h.holds hp LogStage.noConfusion
      have hpiece : PieceOf whole pt (first.taken (cutLine pt.text) ++ answer.taken [10]) :=
        ⟨first, answer, rfl, fun hw => ⟨hfirst hw, hwhole hw⟩⟩
      refine h.advance hholder rfl rfl LogStage.noConfusion
        ⟨pieces ++ [_], List.rel_append hall (.cons hpiece .nil), ?_⟩
      rw [List.flatten_append, List.flatten_singleton, ← List.append_assoc, ← List.append_assoc,
        ← hfile]
      rfl
    · cases hstep
  | unlock p =>
    change LogSound file whole (pts ++ []) t
    rw [List.append_nil]
    dsimp only at hstep
    split at hstep
    · next canWrite hp =>
      obtain rfl := Option.some.inj hstep
      obtain ⟨hholder, hprogress⟩ := h.holds hp LogStage.noConfusion
      exact h.leave hholder hprogress canWrite
    · cases hstep
  | fork p child =>
    change LogSound file whole (pts ++ []) t
    rw [List.append_nil]
    dsimp only at hstep
    split at hstep
    · next canWrite hp hchild =>
      obtain rfl := Option.some.inj hstep
      refine h.bystander (fun l hl => ?_) (fun l hl => ?_)
      · cases hchild.symm.trans hl
      · obtain rfl := Option.some.inj hl
        rfl
    · cases hstep
  | exit p =>
    change LogSound file whole (pts ++ []) t
    rw [List.append_nil]
    dsimp only at hstep
    split at hstep
    · next canWrite hp =>
      obtain rfl := Option.some.inj hstep
      refine h.bystander (fun l hl => ?_) (fun l hl => nomatch hl)
      obtain rfl := Option.some.inj (hp.symm.trans hl)
      rfl
    · cases hstep

end Steps

theorem logged_append (as : List LogAction) (a : LogAction) :
    logged (as ++ [a]) = logged as ++ a.call?.toList := by
  rw [logged, List.filterMap_append]
  cases a <;> rfl

theorem LogSound.run (hrun : Run LogStep (.start file shell) as s)
    (hwhole : whole → ∀ a ∈ as, a.Whole) : LogSound file whole (logged as) s := by
  induction hrun with
  | start => exact logSound_start
  | snoc _ hstep ih =>
    rw [logged_append]
    have hbefore := ih fun hw a ha => hwhole hw a (List.mem_append_left _ ha)
    exact hbefore.step (fun hw => hwhole hw _ (by simp)) hstep

/-- Where all is written, the pieces are the lines. -/
theorem flatten_pieces (hwhole : whole) (h : List.Forall₂ (PieceOf whole) pts pieces) :
    pieces.flatten = pts.flatMap fun pt => cutLine pt.text ++ [10] := by
  induction h with
  | nil => rfl
  | cons hpiece _ ih =>
    obtain ⟨first, second, rfl, hall⟩ := hpiece
    obtain ⟨rfl, rfl⟩ := hall hwhole
    rw [List.flatten_cons, List.flatMap_cons, ih]
    rfl

/-- However the processes of a shell take turns: whenever none of them has the lock, the log has one
piece behind the other for the calls that have got it, in that order. If no `write` has fallen short,
the pieces are the lines. -/
theorem profile_log_lines (hrun : Run LogStep (.start file shell) as s) (hfree : s.holder = none) :
    (∃ pieces, List.Forall₂ (PieceOf False) (logged as) pieces ∧ s.file = file ++ pieces.flatten) ∧
      ((∀ a ∈ as, a.Whole) →
        s.file = file ++ (logged as).flatMap fun pt => cutLine pt.text ++ [10]) := by
  constructor
  · have hsound : LogSound file False (logged as) s := LogSound.run hrun False.elim
    exact hsound.free hfree
  · intro hwhole
    obtain ⟨pieces, hall, hfile⟩ := (LogSound.run hrun fun _ : True => hwhole).free hfree
    rw [hfile, flatten_pieces trivial hall]

/-- The shell starts a child, and both log. -/
def twoLoggers : List LogAction :=
  let pt (w : Word) : ProfileTimes := ⟨[chr '1', chr ' '], some (w, [[chr 'x']]), 0⟩
  [.fork 0 1, .call 1 (pt [chr 'b']) (fun _ => 0) (fun _ => 7), .writeText 1 .all,
    .writeNewline 1 .all, .unlock 1, .call 0 (pt [chr 'a']) (fun _ => 0) (fun _ => 7),
    .writeText 0 .all, .writeNewline 0 .all, .unlock 0]

theorem profile_log_lines_two : ∃ s, Run LogStep (.start [] 0) twoLoggers s ∧
    s.file = (logged twoLoggers).flatMap fun pt => cutLine pt.text ++ [10] := by
  obtain ⟨s, hrun, hs⟩ := Run.of_guarded LogState.next (fun _ _ => True) (fun s => s.holder = none)
    (.start [] 0) twoLoggers (by decide +kernel)
  have hrun := hrun.mono (r := LogStep) And.left
  have hwhole : ∀ a ∈ twoLoggers, a.Whole := by simp [twoLoggers, LogAction.Whole]
  exact ⟨s, hrun, (profile_log_lines hrun hs).2 hwhole⟩

end CS111.Shell
