import CS111.P2P.TaskBuffer
import CS111.P2P.WriteScan

/-!
# Responses of the tracker

`read_tracker_response` searches the buffer after every read, from where the search before stopped.
It passes the terminator line if that line is in the buffer without its end.
-/

namespace CS111.P2P

set_option autoImplicit false

open Memory

/-- A line starts at `pos`, with three digits. -/
def markAt (buf : Nat → UInt8) (pos : Nat) : Bool :=
  (pos == 0 || buf (pos - 1) == 10) && isdigit (buf pos) && isdigit (buf (pos + 1)) &&
    isdigit (buf (pos + 2))

inductive Check where
  | found (splitPos : Nat)
  | more (pos : Nat) (splitPos : Option Nat)
  deriving Repr, DecidableEq

/-- The search over the `left` positions from `pos` on. `split_pos` is `none` as long as it is
`(size_t) -1`. -/
def checkBuffer (t : Task) : Nat → Nat → Option Nat → Check
  | 0, pos, splitPos => .more pos splitPos
  | left + 1, pos, splitPos =>
    if markAt t.buf pos then
      let split := splitPos.getD pos
      if t.tail ≤ pos + 4 then .more pos (some split)
      else if isspace (t.buf (pos + 3)) ∧ t.buf (t.tail - 1) = 10 then .found split
      else checkBuffer t left (pos + 1) (some split)
    else checkBuffer t left (pos + 1) splitPos

/-- `reading` is a call of `read` behind the listed ones. -/
inductive TrackerRead where
  | returned (splitPos : Nat) (t : Task) (unread : List ReadCall)
  | died
  | reading

def trackerLoop : List ReadCall → Task → Nat → Option Nat → TrackerRead
  | [], t, pos, splitPos =>
    match checkBuffer t (t.tail - (pos + 3)) pos splitPos with
    | .found split => .returned split { t with buf := store t.buf t.tail [0] } []
    | .more _ _ => .reading
  | fd :: calls, t, pos, splitPos =>
    match checkBuffer t (t.tail - (pos + 3)) pos splitPos with
    | .found split => .returned split { t with buf := store t.buf t.tail [0] } (fd :: calls)
    | .more pos splitPos =>
      let (ret, t) := readToTaskbuf fd t
      if ret = .tbufError ∨ ret = .tbufEnd then .died else trackerLoop calls t pos splitPos

def readTrackerResponse (calls : List ReadCall) (t : Task) : TrackerRead :=
  trackerLoop calls { t with head := 0, tail := 0 } 0 none

/-- A call of `read` that finds these bytes. -/
def deliver (bytes : List UInt8) : ReadCall where
  transfer n := .ok (bytes.take n)
  le_asked := by
    rintro n bs h
    cases h
    exact List.length_take_le _ _

/-! ## Responses -/

/-- Lines with their newlines. -/
def portion (lines : List (List UInt8)) : List UInt8 := lines.flatMap (· ++ [10])

structure Response where
  data : List (List UInt8)
  context : List (List UInt8)
  terminator : List UInt8

/-- A line with three digits and `c`, and a text behind. -/
def Coded (c : UInt8) (line : List UInt8) : Prop :=
  ∃ d₁ d₂ d₃ text, line = d₁ :: d₂ :: d₃ :: c :: text ∧
    isdigit d₁ = true ∧ isdigit d₂ = true ∧ isdigit d₃ = true

structure Response.WellFormed (r : Response) : Prop where
  lines : ∀ line ∈ r.data ++ r.context ++ [r.terminator], 10 ∉ line
  data : ∀ line ∈ r.data, ∀ c ∈ line.head?, isdigit c = false
  context : ∀ line ∈ r.context, Coded 45 line
  terminator : ∃ c, isspace c = true ∧ Coded c r.terminator

def Response.bytes (r : Response) : List UInt8 :=
  portion (r.data ++ r.context ++ [r.terminator])

/-- The place of the first line that starts with three digits. -/
def Response.splitPos (r : Response) : Nat := (portion r.data).length

def Response.terminatorPos (r : Response) : Nat := (portion (r.data ++ r.context)).length

variable {lines more : List (List UInt8)} {line : List UInt8} {i n q pos left first last : Nat}
  {f : Nat → UInt8} {t : Task} {split : Option Nat} {c : UInt8} {r : Response}
  {parts : List (List UInt8)}

def byteAt (bytes : List UInt8) (i : Nat) : UInt8 := bytes.getD i 0

theorem portion_append : portion (lines ++ more) = portion lines ++ portion more :=
  List.flatMap_append

theorem portion_cons : portion (line :: lines) = line ++ 10 :: portion lines := by
  rw [portion, List.flatMap_cons, List.append_assoc]
  rfl

theorem byteAt_left {bs cs : List UInt8} (h : i < bs.length) : byteAt (bs ++ cs) i = byteAt bs i :=
  List.getD_append _ _ _ _ h

theorem byteAt_right {bs cs : List UInt8} : byteAt (bs ++ cs) (bs.length + i) = byteAt cs i := by
  rw [byteAt, List.getD_append_right _ _ _ _ (Nat.le_add_right _ _), Nat.add_sub_cancel_left]
  rfl

/-- A line starts where the lines before it end. -/
theorem line_of_start (hlines : ∀ line ∈ lines, 10 ∉ line) (hq : q < (portion lines).length)
    (hstart : q = 0 ∨ byteAt (portion lines) (q - 1) = 10) :
    ∃ front line back, lines = front ++ line :: back ∧ q = (portion front).length := by
  induction lines generalizing q with
  | nil => exact absurd hq (Nat.not_lt_zero q)
  | cons line lines ih =>
    obtain ⟨hline, hlines⟩ := List.forall_mem_cons.mp hlines
    by_cases hzero : q = 0
    · exact ⟨[], line, lines, rfl, hzero⟩
    have hstart := hstart.resolve_left hzero
    rw [portion_cons] at hq hstart
    rw [List.length_append, List.length_cons] at hq
    rcases Nat.lt_or_ge (q - 1) line.length with hin | hbehind
    · rw [byteAt_left hin, byteAt, List.getD_eq_getElem _ _ hin] at hstart
      exact absurd (hstart ▸ List.getElem_mem hin) hline
    · obtain ⟨k, rfl⟩ : ∃ k, q = line.length + (1 + k) := ⟨q - line.length - 1, by omega⟩
      have hk : k = 0 ∨ byteAt (portion lines) (k - 1) = 10 := by
        refine or_iff_not_imp_left.mpr fun hk => ?_
        obtain ⟨j, rfl⟩ := Nat.exists_eq_succ_of_ne_zero hk
        have hj : line.length + (1 + (j + 1)) - 1 = line.length + (j + 1) := by omega
        rw [Nat.succ_eq_add_one, hj, byteAt_right] at hstart
        exact hstart
      obtain ⟨front, line', back, rfl, hfront⟩ := ih hlines (by omega) hk
      refine ⟨line :: front, line', back, rfl, ?_⟩
      rw [portion_cons, List.length_append, List.length_cons, hfront]
      omega

/-- The bytes of a line, from the place where it starts. -/
theorem byteAt_line {front back : List (List UInt8)} : byteAt (portion (front ++ line :: back))
    ((portion front).length + i) = byteAt (line ++ 10 :: portion back) i := by
  rw [portion_append, byteAt_right, portion_cons]

/-- The lines of a response that start with three digits, as the search finds them. -/
structure Marked (f : Nat → UInt8) (n first last : Nat) : Prop where
  first_mark : markAt f first = true
  first_le : first ≤ last
  before : ∀ q < first, markAt f q = false
  last_mark : markAt f last = true
  blank : isspace (f (last + 3)) = true
  others : ∀ q < last, markAt f q = true → isspace (f (q + 3)) = false
  end_le : last + 5 ≤ n
  newline : f (n - 1) = 10
  text : ∀ i, last ≤ i → i + 1 < n → f i ≠ 10

theorem markAt_iff : markAt f pos = true ↔ (pos = 0 ∨ f (pos - 1) = 10) ∧
    isdigit (f pos) = true ∧ isdigit (f (pos + 1)) = true ∧ isdigit (f (pos + 2)) = true := by
  simp [markAt, and_assoc]

/-- A line that no response has in front of its code. -/
theorem line_before {front back : List (List UInt8)} (hlines : ∀ line ∈ front, 10 ∉ line)
    (hq : q < (portion front).length) (hmark : markAt (byteAt (portion (front ++ back))) q = true) :
    ∃ line ∈ front, (∀ i, i ≤ line.length →
      byteAt (portion (front ++ back)) (q + i) = byteAt (line ++ [10]) i) := by
  obtain ⟨hstart, _⟩ := markAt_iff.mp hmark
  have hstart' : q = 0 ∨ byteAt (portion front) (q - 1) = 10 := by
    refine hstart.imp_right fun hprev => ?_
    rwa [portion_append, byteAt_left (by omega)] at hprev
  obtain ⟨xs, line, ys, rfl, rfl⟩ := line_of_start hlines hq hstart'
  refine ⟨line, List.mem_append_right _ List.mem_cons_self, fun i hi => ?_⟩
  rw [List.append_assoc, List.cons_append, byteAt_line, List.append_cons, byteAt_left]
  rw [List.length_append, List.length_singleton]
  omega

theorem Coded.bytes (h : Coded c line) {k : Nat → UInt8}
    (hk : ∀ i, i ≤ line.length → k i = byteAt (line ++ [10]) i) :
    isdigit (k 0) = true ∧ isdigit (k 1) = true ∧ isdigit (k 2) = true ∧ k 3 = c := by
  obtain ⟨d₁, d₂, d₃, text, rfl, h₁, h₂, h₃⟩ := h
  simp only [List.length_cons] at hk
  refine ⟨?_, ?_, ?_, ?_⟩
  · rw [hk 0 (by omega)]
    exact h₁
  · rw [hk 1 (by omega)]
    exact h₂
  · rw [hk 2 (by omega)]
    exact h₃
  · rw [hk 3 (by omega)]
    rfl

theorem not_mark_data (h : ∀ c ∈ line.head?, isdigit c = false)
    (hq : ∀ i, i ≤ line.length → f (q + i) = byteAt (line ++ [10]) i) : markAt f q = false := by
  rw [Bool.eq_false_iff]
  intro hmark
  have hdigit := (markAt_iff.mp hmark).2.1
  have hfirst := hq 0 (Nat.zero_le _)
  rw [Nat.add_zero] at hfirst
  rw [hfirst] at hdigit
  cases line with
  | nil => cases hdigit
  | cons c text =>
    have hc := h c rfl
    exact Bool.false_ne_true (hc.symm.trans hdigit)

theorem mark_coded (h : Coded c line) (hstart : q = 0 ∨ f (q - 1) = 10)
    (hq : ∀ i, i ≤ line.length → f (q + i) = byteAt (line ++ [10]) i) :
    markAt f q = true ∧ f (q + 3) = c := by
  obtain ⟨h₁, h₂, h₃, hc⟩ := h.bytes hq
  exact ⟨markAt_iff.mpr ⟨hstart, h₁, h₂, h₃⟩, hc⟩

theorem portion_start (front back : List (List UInt8)) :
    (portion front).length = 0 ∨
      byteAt (portion (front ++ back)) ((portion front).length - 1) = 10 := by
  rcases List.eq_nil_or_concat front with rfl | ⟨xs, line, rfl⟩
  · exact .inl rfl
  · refine .inr ?_
    rw [List.concat_eq_append, List.append_assoc, List.singleton_append]
    have hlength : (portion (xs ++ [line])).length - 1 = (portion xs).length + (line.length + 0) := by
      rw [portion_append, List.length_append, portion_cons, List.length_append, List.length_cons]
      simp [portion]
    rw [hlength, byteAt_line, byteAt_right]
    rfl

/-- A line of the response with its neighbours. -/
theorem byteAt_middle (front back : List (List UInt8)) (hi : i ≤ line.length) :
    byteAt (portion (front ++ line :: back)) ((portion front).length + i) =
      byteAt (line ++ [10]) i := by
  rw [byteAt_line, List.append_cons, byteAt_left]
  rw [List.length_append, List.length_singleton]
  omega

theorem Response.WellFormed.marked (h : r.WellFormed) :
    Marked (byteAt r.bytes) r.bytes.length r.splitPos r.terminatorPos := by
  obtain ⟨c, hblank, hcode⟩ := h.terminator
  have hlines := h.lines
  have hterm := mark_coded hcode (portion_start (r.data ++ r.context) [r.terminator])
    fun i hi => byteAt_middle _ [] hi
  have hlength : r.bytes.length = r.terminatorPos + (r.terminator.length + 1) := by
    rw [Response.bytes, portion_append, List.length_append, portion_cons, List.length_append]
    rfl
  have hlong : 4 ≤ r.terminator.length := by
    obtain ⟨_, _, _, text, heq, _⟩ := hcode
    rw [heq]
    simp
  have hbytes : ∀ i ≤ r.terminator.length, byteAt r.bytes (r.terminatorPos + i) =
      byteAt (r.terminator ++ [10]) i := fun i hi => byteAt_middle _ [] hi
  refine ⟨?_, ?_, ?_, hterm.1, ?_, ?_, by omega, ?_, ?_⟩
  · cases hcontext : r.context with
    | nil =>
      have hsame : r.splitPos = r.terminatorPos := by
        rw [Response.splitPos, Response.terminatorPos, hcontext, List.append_nil]
      rw [hsame]
      exact hterm.1
    | cons line lines =>
      have heq : r.bytes = portion (r.data ++ line :: (lines ++ [r.terminator])) := by
        rw [Response.bytes, hcontext, List.append_assoc, List.cons_append]
      have hline : line ∈ r.context := by
        rw [hcontext]
        exact List.mem_cons_self
      rw [heq]
      exact (mark_coded (h.context line hline) (portion_start _ _)
        fun i hi => byteAt_middle _ _ hi).1
  · rw [Response.splitPos, Response.terminatorPos, portion_append, List.length_append]
    exact Nat.le_add_right _ _
  · intro q hq
    rw [Bool.eq_false_iff]
    intro hmark
    rw [Response.bytes, List.append_assoc] at hmark
    obtain ⟨line, hline, hq⟩ := line_before (fun line hline => hlines line (by simp [hline])) hq hmark
    exact Bool.false_ne_true ((not_mark_data (h.data line hline) hq).symm.trans hmark)
  · rw [Response.bytes, Response.terminatorPos, hterm.2]
    exact hblank
  · intro q hq hmark
    obtain ⟨line, hline, hq⟩ :=
      line_before (fun line hline => hlines line (List.mem_append_left _ hline)) hq hmark
    rcases List.mem_append.mp hline with hdata | hcontext
    · exact absurd ((not_mark_data (h.data line hdata) hq).symm.trans hmark) Bool.false_ne_true
    · rw [Response.bytes, ((h.context line hcontext).bytes hq).2.2.2]
      rfl
  · have hend : r.bytes.length - 1 = r.terminatorPos + r.terminator.length := by omega
    rw [hend, hbytes _ (Nat.le_refl _), ← Nat.add_zero r.terminator.length, byteAt_right]
    rfl
  · intro i hle hlt hnewline
    obtain ⟨k, rfl⟩ := Nat.exists_eq_add_of_le hle
    have hk : k < r.terminator.length := by omega
    rw [hbytes k (Nat.le_of_lt hk), byteAt_left hk, byteAt, List.getD_eq_getElem _ _ hk] at hnewline
    exact hlines r.terminator (by simp) (hnewline ▸ List.getElem_mem hk)

/-! ## The search -/

/-- `split_pos` is the place of the first mark, if one has been passed. -/
def SplitOk (first pos : Nat) (split : Option Nat) : Prop :=
  split = some first ∨ split = none ∧ pos ≤ first

theorem SplitOk.getD (h : SplitOk first pos split) (hM : Marked f n first last)
    (hmark : markAt f pos = true) : split.getD pos = first := by
  rcases h with rfl | ⟨rfl, hle⟩
  · rfl
  · refine Nat.le_antisymm hle (Nat.le_of_not_lt fun hlt => ?_)
    rw [hM.before pos hlt] at hmark
    cases hmark

theorem SplitOk.next (h : SplitOk first pos split) (hM : Marked f n first last)
    (hmark : markAt f pos = false) : SplitOk first (pos + 1) split := by
  refine h.imp_right fun ⟨hnone, hle⟩ => ⟨hnone, Nat.lt_of_le_of_ne hle ?_⟩
  rintro rfl
  exact Bool.false_ne_true (hmark.symm.trans hM.first_mark)

theorem Marked.behind (hM : Marked f n first last) (hlast : last < q) (hq : q < n) :
    markAt f q = false := by
  rw [Bool.eq_false_iff]
  intro hmark
  have hprev := (markAt_iff.mp hmark).1.resolve_left (by omega)
  exact hM.text (q - 1) (by omega) (by omega) hprev

section Search
variable (hM : Marked f n first last) (hbuf : ∀ i < t.tail, t.buf i = f i)
include hbuf

theorem markAt_buf (hpos : pos + 3 < t.tail) : markAt t.buf pos = markAt f pos := by
  unfold markAt
  rw [hbuf (pos - 1) (by omega), hbuf pos (by omega), hbuf (pos + 1) (by omega),
    hbuf (pos + 2) (by omega)]

include hM

/-- Behind the terminator line nothing is found. -/
theorem check_behind (htail : t.tail ≤ n) (hlast : last < pos) (hleft : left = t.tail - (pos + 3)) :
    ∃ pos', checkBuffer t left pos split = .more pos' split ∧ last < pos' := by
  induction left generalizing pos with
  | zero => exact ⟨pos, rfl, hlast⟩
  | succ left ih =>
    have hmark : markAt t.buf pos = false := by
      rw [markAt_buf hbuf (by omega)]
      exact hM.behind hlast (by omega)
    rw [checkBuffer, hmark, if_neg Bool.false_ne_true]
    exact ih (by omega) (by omega)

/-- Before five bytes of the terminator line are there, the search stops at it or before. -/
theorem check_early (hearly : t.tail < last + 5) (hpos : pos ≤ last) (hsplit : SplitOk first pos split)
    (hleft : left = t.tail - (pos + 3)) : ∃ pos' split',
      checkBuffer t left pos split = .more pos' split' ∧ pos' ≤ last ∧ SplitOk first pos' split' := by
  induction left generalizing pos split with
  | zero => exact ⟨pos, split, rfl, hpos, hsplit⟩
  | succ left ih =>
    rw [checkBuffer, markAt_buf hbuf (by omega)]
    split
    · next hmark =>
      rw [hsplit.getD hM hmark]
      dsimp only
      split
      · exact ⟨pos, some first, rfl, hpos, .inl rfl⟩
      · next hroom =>
        have hspace : isspace (t.buf (pos + 3)) = false := by
          rw [hbuf _ (by omega)]
          exact hM.others pos (by omega) hmark
        rw [hspace, if_neg (by simp)]
        exact ih (by omega) (.inl rfl) (by omega)
    · next hmark =>
      have hmark := Bool.eq_false_iff.mpr hmark
      have hne : pos ≠ last := by
        rintro rfl
        exact Bool.false_ne_true (hmark.symm.trans hM.last_mark)
      exact ih (by omega) (hsplit.next hM hmark) (by omega)

/-- Once they are there, the search comes to the terminator line. -/
theorem check_reaches (hlate : last + 5 ≤ t.tail) (hpos : pos ≤ last)
    (hsplit : SplitOk first pos split) (hleft : left = t.tail - (pos + 3)) : ∃ split',
      SplitOk first last split' ∧
        checkBuffer t left pos split = checkBuffer t (t.tail - (last + 3)) last split' := by
  induction left generalizing pos split with
  | zero => omega
  | succ left ih =>
    rcases Nat.eq_or_lt_of_le hpos with rfl | hlt
    · exact ⟨split, hsplit, by rw [hleft]⟩
    rw [checkBuffer, markAt_buf hbuf (by omega)]
    split
    · next hmark =>
      have hspace : isspace (t.buf (pos + 3)) = false := by
        rw [hbuf _ (by omega)]
        exact hM.others pos hlt hmark
      rw [hsplit.getD hM hmark, hspace]
      dsimp only
      rw [if_neg (by omega), if_neg (by simp)]
      exact ih (by omega) (.inl rfl) (by omega)
    · next hmark =>
      exact ih (by omega) (hsplit.next hM (Bool.eq_false_iff.mpr hmark)) (by omega)

/-- There it finds the end of the response, or passes the line. -/
theorem check_late (htail : t.tail ≤ n) (hlate : last + 5 ≤ t.tail) (hpos : pos ≤ last)
    (hsplit : SplitOk first pos split) :
    (t.tail = n → checkBuffer t (t.tail - (pos + 3)) pos split = .found first) ∧
      (t.tail < n → ∃ pos' split', checkBuffer t (t.tail - (pos + 3)) pos split = .more pos' split' ∧
        last < pos') := by
  obtain ⟨split', hsplit', heq⟩ := check_reaches hM hbuf hlate hpos hsplit rfl
  obtain ⟨left, hleft⟩ : ∃ left, t.tail - (last + 3) = left + 1 := ⟨t.tail - (last + 4), by omega⟩
  have hmark : markAt t.buf last = true := by
    rw [markAt_buf hbuf (by omega)]
    exact hM.last_mark
  have hspace : isspace (t.buf (last + 3)) = true := by
    rw [hbuf _ (by omega)]
    exact hM.blank
  have hend : t.buf (t.tail - 1) = f (t.tail - 1) := hbuf _ (by omega)
  rw [heq, hleft, checkBuffer, hmark, if_pos rfl, hsplit'.getD hM hM.last_mark, hspace, hend]
  dsimp only
  rw [if_neg (by omega)]
  constructor
  · intro hfull
    rw [if_pos ⟨rfl, by rw [hfull]; exact hM.newline⟩]
  · intro hpart
    have htext : f (t.tail - 1) ≠ 10 := hM.text _ (by omega) (by omega)
    rw [if_neg fun h => htext h.2]
    have hleft' : left = t.tail - (last + 1 + 3) := by omega
    obtain ⟨pos', hcheck, hpos'⟩ := check_behind hM hbuf htail (Nat.lt_succ_self last) hleft'
    exact ⟨pos', some first, hcheck, hpos'⟩

end Search

/-! ## The reads -/

/-- The buffer holds the first `tail` bytes of the response. -/
structure Holds (t : Task) (bytes : List UInt8) : Prop where
  head : t.head = 0
  tail_le : t.tail ≤ bytes.length
  buf : ∀ i < t.tail, t.buf i = byteAt bytes i

variable {bytes part : List UInt8} {calls : List ReadCall}

theorem readToTaskbuf_deliver (ht : t.head = 0) (hlen : t.tail + part.length < TASKBUFSIZ)
    (hne : part ≠ []) : readToTaskbuf (deliver part) t =
      (.tbufOk, { t with buf := store t.buf t.tail part, tail := t.tail + part.length }) := by
  have htail : t.tail % TASKBUFSIZ = t.tail := Nat.mod_eq_of_lt (by omega)
  have hregion : readRegion t = ⟨t.tail, TASKBUFSIZ - t.tail⟩ := by
    unfold readRegion
    rw [ht, htail]
    dsimp only
    rw [if_pos (by rcases Nat.eq_zero_or_pos t.tail with h | h <;> simp [h, TASKBUFSIZ])]
  have hlength : part.length ≠ 0 := fun h => hne (List.length_eq_zero_iff.mp h)
  have hsize : t.tail + part.length < 4294967296 := by
    unfold TASKBUFSIZ at hlen
    omega
  unfold readToTaskbuf deliver
  rw [hregion]
  dsimp only
  rw [List.take_of_length_le (by omega), if_neg hlength, u32_of_lt hsize]

theorem Holds.read (h : Holds t bytes) {rest : List UInt8}
    (hbytes : bytes.drop t.tail = part ++ rest) :
    Holds { t with buf := store t.buf t.tail part, tail := t.tail + part.length } bytes ∧
      bytes.drop (t.tail + part.length) = rest := by
  have hdrop : bytes.drop (t.tail + part.length) = rest := by
    rw [← List.drop_drop, hbytes, List.drop_left]
  have hlength := congrArg List.length hbytes
  rw [List.length_drop, List.length_append] at hlength
  have htail := h.tail_le
  refine ⟨⟨h.head, by dsimp only; omega, fun i hi => ?_⟩, hdrop⟩
  dsimp only at hi ⊢
  rcases Nat.lt_or_ge i t.tail with hlt | hge
  · rw [store_outside (.inl hlt)]
    exact h.buf i hlt
  · obtain ⟨k, rfl⟩ := Nat.exists_eq_add_of_le hge
    have hk : k < part.length := by omega
    rw [store_inside hk, byteAt, List.getD_eq_getElem?_getD, ← List.getElem?_drop, hbytes,
      List.getElem?_append_left hk, List.getElem?_eq_getElem hk]
    rfl

/-- A part of the response is read behind a search that found nothing. -/
theorem trackerLoop_more {pos' : Nat} {split' : Option Nat} (h : Holds t bytes)
    (hlen : bytes.length < TASKBUFSIZ) (hne : part ≠ [])
    (hrest : bytes.drop t.tail = (part :: parts).flatten)
    (hcheck : checkBuffer t (t.tail - (pos + 3)) pos split = .more pos' split') :
    ∃ t', Holds t' bytes ∧ t'.tail = t.tail + part.length ∧ bytes.drop t'.tail = parts.flatten ∧
      trackerLoop (deliver part :: calls) t pos split = trackerLoop calls t' pos' split' := by
  rw [List.flatten_cons] at hrest
  obtain ⟨hholds, hdrop⟩ := h.read hrest
  have hroom : t.tail + part.length < TASKBUFSIZ := by
    have := hholds.tail_le
    dsimp only at this
    omega
  refine ⟨_, hholds, rfl, hdrop, ?_⟩
  rw [trackerLoop, hcheck]
  dsimp only
  rw [readToTaskbuf_deliver h.head hroom hne]
  rfl

section Reads
variable (hM : Marked (byteAt bytes) bytes.length first last) (hlen : bytes.length < TASKBUFSIZ)
include hM hlen

/-- Once the search has passed the terminator line, the function reads on. -/
theorem trackerLoop_behind (h : Holds t bytes) (hparts : ∀ part ∈ parts, part ≠ [])
    (hrest : bytes.drop t.tail = parts.flatten) (hpos : last < pos) :
    trackerLoop (parts.map deliver) t pos split = .reading := by
  induction parts generalizing t pos split with
  | nil =>
    obtain ⟨pos', hcheck, _⟩ : ∃ pos', checkBuffer t (t.tail - (pos + 3)) pos split =
        .more pos' split ∧ last < pos' := check_behind hM h.buf h.tail_le hpos rfl
    rw [List.map_nil, trackerLoop, hcheck]
  | cons part parts ih =>
    obtain ⟨hne, hparts⟩ := List.forall_mem_cons.mp hparts
    obtain ⟨pos', hcheck, hpos'⟩ : ∃ pos', checkBuffer t (t.tail - (pos + 3)) pos split =
        .more pos' split ∧ last < pos' := check_behind hM h.buf h.tail_le hpos rfl
    obtain ⟨t', hholds, _, hrest', heq⟩ := trackerLoop_more h hlen hne hrest hcheck
    rw [List.map_cons, heq]
    exact ih hholds hparts hrest' hpos'

/-- The function returns behind the last part exactly if no other part ends in the terminator line
behind its fourth byte. -/
theorem trackerLoop_iff (h : Holds t bytes) (hparts : ∀ part ∈ parts, part ≠ [])
    (hrest : bytes.drop t.tail = parts.flatten) (hpos : pos ≤ last) (hearly : t.tail < last + 5)
    (hsplit : SplitOk first pos split) :
    (∃ t', trackerLoop (parts.map deliver) t pos split = .returned first t' []) ↔
      t.tail + parts.dropLast.flatten.length < last + 5 := by
  induction parts generalizing t pos split with
  | nil =>
    have hlength := congrArg List.length hrest
    rw [List.length_drop, List.flatten_nil, List.length_nil] at hlength
    have hend := hM.end_le
    omega
  | cons part parts ih =>
    obtain ⟨hne, hparts⟩ := List.forall_mem_cons.mp hparts
    obtain ⟨pos', split', hcheck, hpos', hsplit'⟩ := check_early hM h.buf hearly hpos hsplit rfl
    obtain ⟨t', hholds, htail, hrest', heq⟩ := trackerLoop_more h hlen hne hrest hcheck
    rw [List.map_cons, heq]
    have hend := hM.end_le
    have htail_le := hholds.tail_le
    have hlength := congrArg List.length hrest'
    rw [List.length_drop] at hlength
    cases parts with
    | nil =>
      rw [List.flatten_nil, List.length_nil] at hlength
      have hfound := (check_late hM hholds.buf htail_le (by omega) hpos' hsplit').1 (by omega)
      rw [List.map_nil, trackerLoop, hfound]
      exact iff_of_true ⟨_, rfl⟩ hearly
    | cons next parts =>
      have hnext : next.length ≠ 0 := fun h => (List.forall_mem_cons.mp hparts).1
        (List.length_eq_zero_iff.mp h)
      rw [List.dropLast_cons_cons, List.flatten_cons, List.length_append, ← Nat.add_assoc, ← htail]
      rcases Nat.lt_or_ge t'.tail (last + 5) with hagain | hlate
      · exact ih hholds hparts hrest' hpos' hagain hsplit'
      · refine iff_of_false ?_ (by omega)
        rw [List.flatten_cons, List.length_append] at hlength
        obtain ⟨pos'', split'', hmore, hbehind⟩ :=
          (check_late hM hholds.buf htail_le hlate hpos' hsplit').2 (by omega)
        obtain ⟨t'', hholds'', _, hrest'', heq'⟩ := trackerLoop_more hholds hlen
          (List.forall_mem_cons.mp hparts).1 hrest' hmore
        rw [List.map_cons, heq', trackerLoop_behind hM hlen hholds''
          (List.forall_mem_cons.mp hparts).2 hrest'' hbehind]
        rintro ⟨_, hreading⟩
        cases hreading

end Reads

/-- The function returns the place of the first line that starts with three digits, behind the last
read and not before, exactly if the other reads end in front of the fifth byte of the terminator
line. -/
theorem tracker_response_read_iff (hr : r.WellFormed) (hlen : r.bytes.length < TASKBUFSIZ)
    (hparts : ∀ part ∈ parts, part ≠ []) (hsplit : parts.flatten = r.bytes) (t : Task) :
    (∃ t', readTrackerResponse (parts.map deliver) t = .returned r.splitPos t' []) ↔
      parts.dropLast.flatten.length < r.terminatorPos + 5 := by
  have hholds : Holds { t with head := 0, tail := 0 } r.bytes :=
    ⟨rfl, Nat.zero_le _, fun i hi => absurd hi (Nat.not_lt_zero i)⟩
  have hiff := trackerLoop_iff hr.marked hlen hholds hparts hsplit.symm (Nat.zero_le _)
    (Nat.succ_pos _) (.inr ⟨rfl, Nat.zero_le _⟩)
  rwa [Nat.zero_add] at hiff

/-- The response `200 a`. -/
def shortResponse : Response := ⟨[], [], [50, 48, 48, 32, 97]⟩

theorem shortResponse_wellFormed : shortResponse.WellFormed := by
  refine ⟨?_, ?_, ?_, 32, rfl, 50, 48, 48, [97], rfl, rfl, rfl, rfl⟩
  · intro line hline
    obtain rfl := List.mem_singleton.mp hline
    decide
  · intro line hline
    cases hline
  · intro line hline
    cases hline

theorem tracker_response_read_iff_two : ∃ t', readTrackerResponse
    [deliver [50, 48, 48], deliver [32, 97, 10]] ⟨fun _ => 0, 0, 0, 0⟩ = .returned 0 t' [] := by
  have hsplit : [[50, 48, 48], [32, 97, 10]].flatten = shortResponse.bytes := rfl
  exact (tracker_response_read_iff shortResponse_wellFormed (by decide) (by decide +kernel) hsplit
    _).mpr (by decide)

/-- The search passes the line when its newline comes in a read of its own. -/
theorem terminator_line_passed : shortResponse.WellFormed ∧
    [[50, 48, 48, 32, 97], [10]].flatten = shortResponse.bytes ∧
    readTrackerResponse [deliver [50, 48, 48, 32, 97], deliver [10]] ⟨fun _ => 0, 0, 0, 0⟩ =
      .reading :=
  ⟨shortResponse_wellFormed, rfl, rfl⟩

end CS111.P2P
