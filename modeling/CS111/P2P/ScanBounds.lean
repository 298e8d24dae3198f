import CS111.P2P.WriteScan

/-!
# Where the scanner reads

The test for a quoted byte looks at the two bytes behind a `%` without a test for the end of the
message, and may carry the position past it.
-/

namespace CS111.P2P

set_option autoImplicit false

open Memory Relation

variable {m m' : Bytes} {len k pos : Nat} {c c' : Scan} {s format : List UInt8}

section Steps

theorem peek_congr (h : pos ≠ len → m' pos = m pos) : peek m' len pos = peek m len pos := by
  unfold peek
  split
  · rfl
  · rename_i hne
    rw [h hne]

theorem quotedAt_congr (h0 : m' pos = m pos) (h : ∀ k, k ∈ quoteReads m pos → m' k = m k) :
    quotedAt m' pos = quotedAt m pos := by
  unfold quoteReads at h
  unfold quotedAt
  rw [h0]
  by_cases hp : m pos = 37
  · rw [if_neg (by simpa using hp)] at h
    by_cases hx : isxdigit (m (pos + 1)) = true
    · rw [if_pos hx] at h
      rw [h (pos + 1) (by simp), h (pos + 2) (by simp)]
    · rw [if_neg hx] at h
      rw [h (pos + 1) (by simp)]
      simp [hx]
  · simp [hp]

theorem formatStep_congr {cur cur' : Option UInt8} (h : c.formatReads = true → cur' = cur) :
    c.formatStep cur' = c.formatStep cur := by
  unfold Scan.formatReads at h
  unfold Scan.formatStep
  cases hd : directive c.format with
  | none => rfl
  | some d =>
    obtain ⟨d, format⟩ := d
    rw [hd] at h
    cases d with
    | string => rfl
    | addr => rfl
    | count => rfl
    | int => rw [h rfl]
    | blank => rw [h rfl]
    | literal f => rw [h rfl]

/-- A step depends on what it reads only. -/
theorem step_congr (h : ∀ k, k ∈ c.reads m len → m' k = m k) : c.step m' len = c.step m len := by
  unfold Scan.reads at h
  by_cases hend : c.pos = len
  · have hpeek : peek m' len c.pos = peek m len c.pos := peek_congr fun hne => absurd hend hne
    have hnone : peek m len c.pos = none := if_pos hend
    unfold Scan.step
    rw [hpeek, hnone]
    cases c.mode <;> rfl
  · rw [if_neg hend] at h
    have hsome : peek m len c.pos = some (m c.pos) := if_neg hend
    unfold Scan.step
    cases hmode : c.mode with
    | format =>
      simp only [hmode] at h ⊢
      apply formatStep_congr
      intro hr
      rw [if_pos hr] at h
      exact peek_congr fun _ => h c.pos (by simp)
    | string str =>
      simp only [hmode] at h ⊢
      have hcur : m' c.pos = m c.pos := by
        apply h
        split <;> simp
      rw [peek_congr fun _ => hcur, hsome]
      by_cases hsp : isspace (m c.pos) = true
      · simp only [Scan.stringStep, if_pos hsp]
      · rw [if_neg hsp] at h
        rw [quotedAt_congr hcur fun k hk => h k (List.mem_cons_of_mem _ hk)]
    | quad i x value =>
      simp only [hmode] at h ⊢
      rw [peek_congr fun _ => h c.pos (by simp)]
    | decimal value =>
      simp only [hmode] at h ⊢
      rw [peek_congr fun _ => h c.pos (by simp)]
    | blanks =>
      simp only [hmode] at h ⊢
      rw [peek_congr fun _ => h c.pos (by simp)]
    | exit => rfl

/-- The scanner is at a `%` and tests for hexadecimal digits behind the end. -/
def Scan.LooksPast (m : Bytes) (len : Nat) (c : Scan) : Prop :=
  (∃ str, c.mode = .string str) ∧ c.pos < len ∧ m c.pos = 37 ∧
    (c.pos + 1 = len ∨ (c.pos + 2 = len ∧ isxdigit (m (c.pos + 1)) = true))

theorem isspace_percent : isspace 37 = false := rfl

theorem Scan.LooksPast.reads_len (h : c.LooksPast m len) : len ∈ c.reads m len := by
  obtain ⟨⟨str, hmode⟩, hlt, hp, h⟩ := h
  unfold Scan.reads quoteReads
  simp only [hmode, if_neg (Nat.ne_of_lt hlt), hp, isspace_percent, ne_eq, not_true_eq_false]
  rcases h with h | ⟨h, hx⟩
  · simp only [Bool.false_eq_true, ite_false, List.mem_cons]
    right
    split <;> simp [h]
  · simp [hx, h]

variable (hle : c.pos ≤ len) (hsafe : ¬ c.LooksPast m len)
include hle hsafe

theorem reads_lt (hk : k ∈ c.reads m len) : k < len := by
  unfold Scan.reads at hk
  split at hk
  · exact absurd hk (List.not_mem_nil)
  · rename_i hne
    have hlt : c.pos < len := by omega
    split at hk
    · split at hk
      · rw [List.mem_singleton.mp hk]
        exact hlt
      · exact absurd hk (List.not_mem_nil)
    · rename_i str hmode
      split at hk
      · rw [List.mem_singleton.mp hk]
        exact hlt
      · rcases List.mem_cons.mp hk with rfl | hk
        · exact hlt
        · unfold quoteReads at hk
          split at hk
          · exact absurd hk (List.not_mem_nil)
          · rename_i hp
            have hp : m c.pos = 37 := by simpa using hp
            have h1 : c.pos + 1 ≠ len := fun h => hsafe ⟨⟨str, hmode⟩, hlt, hp, .inl h⟩
            split at hk
            · rename_i hx
              have h2 : c.pos + 2 ≠ len := fun h => hsafe ⟨⟨str, hmode⟩, hlt, hp, .inr ⟨h, hx⟩⟩
              rcases List.mem_pair.mp hk with rfl | rfl <;> omega
            · rw [List.mem_singleton.mp hk]
              omega
    all_goals
      first
      | exact absurd hk (List.not_mem_nil)
      | rw [List.mem_singleton.mp hk]; exact hlt

end Steps

section Progress

def Mode.rank : Mode → Nat
  | .format => 2
  | .exit => 0
  | _ => 1

theorem Mode.rank_le (mode : Mode) : mode.rank ≤ 2 := by
  cases mode <;> simp [rank]

theorem Mode.rank_pos {mode : Mode} (h : mode ≠ .exit) : 0 < mode.rank := by
  cases mode with
  | exit => exact absurd rfl h
  | _ => simp [rank]

/-- In the loops. -/
theorem Mode.rank_loop {mode : Mode} (h1 : mode ≠ .format) (h2 : mode ≠ .exit) : mode.rank = 1 := by
  cases mode with
  | format => exact absurd rfl h1
  | exit => exact absurd rfl h2
  | _ => rfl

/-- What is left to do; it decreases in every step. -/
def Scan.left (len : Nat) (c : Scan) : Nat :=
  10 * c.format.length + (len - c.pos) + c.mode.rank

/-- The position is in the message, and the conversion or blank that a loop works on is at the head
of the format. -/
structure Scan.Within (len : Nat) (c : Scan) : Prop where
  pos_le : c.pos ≤ len
  format_ne : c.mode ≠ .format → c.mode ≠ .exit → c.format ≠ []
  blank : c.mode = .blanks → ∃ f format, c.format = f :: format ∧ isspace f = true

/-- The state behind a step is in the message, and nearer to the end. -/
structure Scan.Advances (len : Nat) (c c' : Scan) : Prop where
  within : c'.Within len
  left_lt : c'.left len < c.left len

theorem directive_format {d : Directive} {format rest : List UInt8}
    (h : directive format = some (d, rest)) :
    rest.length < format.length ∧ (d = .blank → ∃ f, format = f :: rest ∧ isspace f = true) := by
  have two : ∀ (a b : UInt8) (l : List UInt8), l.length < (a :: b :: l).length := by
    intro a b l
    simp only [List.length_cons]
    omega
  unfold directive at h
  split at h
  · exact absurd h (by simp)
  · obtain ⟨rfl, rfl⟩ := Prod.mk.inj (Option.some.inj h)
    exact ⟨two _ _ _, fun hd => absurd hd (by decide)⟩
  · obtain ⟨rfl, rfl⟩ := Prod.mk.inj (Option.some.inj h)
    exact ⟨two _ _ _, fun hd => absurd hd (by decide)⟩
  · obtain ⟨rfl, rfl⟩ := Prod.mk.inj (Option.some.inj h)
    exact ⟨two _ _ _, fun hd => absurd hd (by decide)⟩
  · obtain ⟨rfl, rfl⟩ := Prod.mk.inj (Option.some.inj h)
    exact ⟨two _ _ _, fun hd => absurd hd (by decide)⟩
  · obtain ⟨rfl, rfl⟩ := Prod.mk.inj (Option.some.inj h)
    exact ⟨two _ _ _, fun hd => absurd hd (by decide)⟩
  · rename_i f format _ _ _ _ _
    obtain ⟨rfl, rfl⟩ := Prod.mk.inj (Option.some.inj h)
    constructor
    · exact Nat.lt_succ_self _
    · intro hd
      refine ⟨f, rfl, ?_⟩
      by_contra hf
      rw [if_neg hf] at hd
      exact absurd hd (by simp)

theorem Scan.Within.goto_exit (h : c.Within len) : (c.goto .exit).Within len := by
  constructor
  · exact h.pos_le
  · intro _ hne
    exact absurd rfl hne
  · intro hmode
    exact absurd hmode (by simp [Scan.goto])

theorem Scan.Within.advances_exit (h : c.Within len) (hmode : c.mode ≠ .exit) :
    c.Advances len (c.goto .exit) := by
  constructor
  · exact h.goto_exit
  · have hrank := Mode.rank_pos hmode
    exact Nat.add_lt_add_left hrank _

/-- The end of a conversion. -/
theorem Scan.Within.advances_store (h : c.Within len) (hne : c.format ≠ []) (v : Stored) :
    c.Advances len (c.store v) := by
  have hpos := List.length_pos_iff.mpr hne
  constructor
  · constructor
    · exact h.pos_le
    · intro hmode
      exact absurd rfl hmode
    · intro hmode
      exact absurd hmode (by simp [Scan.store])
  · have hrank := Mode.rank_le .format
    unfold Scan.left Scan.store
    simp only [List.length_drop]
    omega

/-- A round of a loop that moves the position by one. -/
theorem Scan.Within.advances_pos {mode : Mode} (h : c.Within len) {n : Nat} (hn : 0 < n)
    (hle : c.pos + n ≤ len) (h1 : c.mode ≠ .format) (h2 : c.mode ≠ .exit) (h3 : mode ≠ .format)
    (h4 : mode ≠ .exit) (h5 : mode = .blanks → c.mode = .blanks) :
    c.Advances len { c with mode := mode, pos := c.pos + n } := by
  have hpos := h.pos_le
  constructor
  · constructor
    · exact hle
    · intro _ _
      exact h.format_ne h1 h2
    · intro hb
      exact h.blank (h5 hb)
  · have hold := Mode.rank_loop h1 h2
    have hnew := Mode.rank_loop h3 h4
    unfold Scan.left
    simp only [hold, hnew]
    omega

theorem peek_some {b : UInt8} (h : peek m len pos = some b) : pos ≠ len ∧ m pos = b := by
  unfold peek at h
  split at h
  · exact absurd h (by simp)
  · rename_i hne
    exact ⟨hne, Option.some.inj h⟩

theorem formatStep_advances (h : c.Within len) (hmode : c.mode = .format)
    (hstep : c.formatStep (peek m len c.pos) = some c') : c.Advances len c' := by
  have hle := h.pos_le
  have hexit : c.Advances len (c.goto .exit) := h.advances_exit (by rw [hmode]; simp)
  have hloop : ∀ mode : Mode, mode ≠ .format → mode ≠ .exit → c.format ≠ [] →
      (mode = .blanks → ∃ f format, c.format = f :: format ∧ isspace f = true) →
      c.Advances len (c.goto mode) := by
    intro mode h1 h2 hne hb
    constructor
    · constructor
      · exact hle
      · intro _ _
        exact hne
      · exact hb
    · have hrank := Mode.rank_loop h1 h2
      have hfirst : Mode.format.rank = 2 := rfl
      unfold Scan.left Scan.goto
      simp only [hmode]
      omega
  unfold Scan.formatStep at hstep
  cases hd : directive c.format with
  | none =>
    rw [hd] at hstep
    exact absurd hstep (by simp)
  | some d =>
    obtain ⟨d, format⟩ := d
    obtain ⟨hlen, hblank⟩ := directive_format hd
    have hne : c.format ≠ [] := by
      intro hnil
      rw [hnil] at hlen
      exact absurd hlen (Nat.not_lt_zero _)
    rw [hd] at hstep
    cases d with
    | string =>
      rw [← Option.some.inj hstep]
      exact hloop _ (by simp) (by simp) hne (by simp)
    | addr =>
      rw [← Option.some.inj hstep]
      exact hloop _ (by simp) (by simp) hne (by simp)
    | int =>
      rw [← Option.some.inj hstep]
      split
      · exact hloop _ (by simp) (by simp) hne (by simp)
      · exact hexit
    | count =>
      rw [← Option.some.inj hstep]
      exact h.advances_store hne _
    | blank =>
      rw [← Option.some.inj hstep]
      split
      · apply hloop _ (by simp) (by simp) hne
        intro _
        obtain ⟨f, hf⟩ := hblank rfl
        exact ⟨f, format, hf⟩
      · exact hexit
    | literal f =>
      rw [← Option.some.inj hstep]
      split
      · rename_i hcur
        have hne := (peek_some hcur).1
        constructor
        · constructor
          · simp only
            omega
          · intro hm
            exact absurd hmode hm
          · intro hm
            exact absurd (hmode.symm.trans hm) (by simp)
        · unfold Scan.left
          simp only [hmode]
          omega
      · exact hexit

theorem step_advances (h : c.Within len) (hsafe : ¬ c.LooksPast m len)
    (hstep : c.step m len = some c') : c.Advances len c' := by
  have hle := h.pos_le
  unfold Scan.step at hstep
  cases hmode : c.mode with
  | format =>
    simp only [hmode] at hstep
    exact formatStep_advances h hmode hstep
  | string str =>
    simp only [hmode, Option.some.injEq] at hstep
    have h1 : c.mode ≠ .format := by rw [hmode]; simp
    have h2 : c.mode ≠ .exit := by rw [hmode]; simp
    have hstore := h.advances_store (h.format_ne h1 h2) (.string str)
    rw [← hstep]
    unfold Scan.stringStep
    cases hcur : peek m len c.pos with
    | none => exact hstore
    | some b =>
      obtain ⟨hne, hb⟩ := peek_some hcur
      simp only
      split
      · exact hstore
      · cases hq : quotedAt m c.pos with
        | none => exact h.advances_pos (by omega) (by omega) h1 h2 (by simp) (by simp) (by simp)
        | some q =>
          -- all three bytes lie in the message
          unfold quotedAt at hq
          split at hq
          · rename_i hquoted
            have h3 : c.pos + 3 ≤ len := by
              by_contra hlt
              apply hsafe
              refine ⟨⟨str, hmode⟩, by omega, hquoted.1, ?_⟩
              by_cases h1 : c.pos + 1 = len
              · exact .inl h1
              · exact .inr ⟨by omega, hquoted.2.1⟩
            exact h.advances_pos (by omega) h3 h1 h2 (by simp) (by simp) (by simp)
          · exact absurd hq (by simp)
  | quad i x value =>
    simp only [hmode, Option.some.injEq] at hstep
    have h1 : c.mode ≠ .format := by rw [hmode]; simp
    have h2 : c.mode ≠ .exit := by rw [hmode]; simp
    rw [← hstep]
    unfold Scan.quadStep
    split
    · rename_i b hcur
      have hne := (peek_some (Option.filter_eq_some_iff.mp hcur).1).1
      exact h.advances_pos (by omega) (by omega) h1 h2 (by simp) (by simp) (by simp)
    · split
      · exact h.advances_exit h2
      · rename_i hgo
        split
        · rename_i hi
          have hdot : peek m len c.pos = some 46 := by
            by_contra hne
            exact hgo (.inr (.inr ⟨hi, hne⟩))
          have hne := (peek_some hdot).1
          exact h.advances_pos (by omega) (by omega) h1 h2 (by simp) (by simp) (by simp)
        · exact h.advances_store (h.format_ne h1 h2) _
  | decimal value =>
    simp only [hmode, Option.some.injEq] at hstep
    have h1 : c.mode ≠ .format := by rw [hmode]; simp
    have h2 : c.mode ≠ .exit := by rw [hmode]; simp
    rw [← hstep]
    unfold Scan.decimalStep
    split
    · rename_i b hcur
      have hne := (peek_some (Option.filter_eq_some_iff.mp hcur).1).1
      split
      · exact h.advances_pos (by omega) (by omega) h1 h2 (by simp) (by simp) (by simp)
      · exact h.advances_exit h2
    · exact h.advances_store (h.format_ne h1 h2) _
  | blanks =>
    simp only [hmode, Option.some.injEq] at hstep
    have h1 : c.mode ≠ .format := by rw [hmode]; simp
    have h2 : c.mode ≠ .exit := by rw [hmode]; simp
    rw [← hstep]
    unfold Scan.blanksStep
    split
    · rename_i hcur
      obtain ⟨b, hb, _⟩ := (Option.any_eq_true _ _).mp hcur
      have hne := (peek_some hb).1
      exact h.advances_pos Nat.one_pos (by omega) h1 h2 h1 h2 id
    · obtain ⟨f, format, hformat, hf⟩ := h.blank hmode
      have hdrop : (c.format.dropWhile isspace).length ≤ format.length := by
        rw [hformat, List.dropWhile_cons, if_pos hf]
        exact (List.dropWhile_sublist _).length_le
      constructor
      · constructor
        · exact hle
        · intro hm
          exact absurd rfl hm
        · intro hm
          exact absurd hm (by simp)
      · have hrank := Mode.rank_le .format
        have hlen := congrArg List.length hformat
        rw [List.length_cons] at hlen
        unfold Scan.left
        simp only
        omega
  | exit =>
    simp only [hmode] at hstep
    exact absurd hstep (by simp)

end Progress

section Runs

/-- The message is `s`; what comes after it is not known. -/
def Contains (m : Bytes) (s : List UInt8) : Prop := ∀ i, (h : i < s.length) → m i = s[i]

/-- The message with zeros behind it. -/
def padded (s : List UInt8) : Bytes := fun i => s.getD i 0

theorem padded_contains (s : List UInt8) : Contains (padded s) s := by
  intro i h
  exact List.getD_eq_getElem s 0 h

theorem Contains.agree (h : Contains m s) (h' : Contains m' s) (hk : k < s.length) : m' k = m k := by
  rw [h k hk, h' k hk]

/-- The scanner stays inside the message, whatever lies behind it. -/
structure StaysInside (s format : List UInt8) : Prop where
  returns : ∀ m, Contains m s → ∃ c, Returns m s.length format c
  inside : ∀ m c k, Contains m s → Scans m s.length (.start format) c → k ∈ c.reads m s.length →
    k < s.length
  independent : ∀ m m' c, Contains m s → Contains m' s → Returns m s.length format c →
    Returns m' s.length format c

/-- In a scan of the message `s`, no test for a quoted byte starts at its last byte, or at the last
but one when a hexadecimal digit follows. -/
def NeverLooksPast (s format : List UInt8) : Prop :=
  ∀ c, Scans (padded s) s.length (.start format) c → ¬ c.LooksPast (padded s) s.length

theorem Scan.LooksPast.padded (hm : Contains m s) (h : c.LooksPast m s.length) :
    c.LooksPast (padded s) s.length := by
  have hp := padded_contains s
  obtain ⟨hmode, hlt, hpercent, h⟩ := h
  refine ⟨hmode, hlt, ?_, ?_⟩
  · rw [hm.agree hp hlt, hpercent]
  · rcases h with h | ⟨h, hx⟩
    · exact .inl h
    · right
      rw [hm.agree hp (by omega)]
      exact ⟨h, hx⟩

theorem start_within (format : List UInt8) : (Scan.start format).Within len := by
  constructor
  · exact Nat.zero_le len
  · intro h
    exact absurd rfl h
  · intro h
    exact absurd h (by simp [Scan.start])

variable (hsafe : NeverLooksPast s format)
include hsafe

/-- Every state is one of the scan of the message alone. -/
theorem NeverLooksPast.scans (hm : Contains m s) (h : Scans m s.length (.start format) c) :
    c.Within s.length ∧ Scans (padded s) s.length (.start format) c := by
  induction h with
  | refl => exact ⟨start_within format, .refl⟩
  | @tail c c' _ hstep ih =>
    obtain ⟨hw, hscan⟩ := ih
    have hlook := hsafe c hscan
    have hsame : c.step m s.length = c.step (padded s) s.length := by
      apply step_congr
      intro k hk
      exact (padded_contains s).agree hm (reads_lt hw.pos_le hlook hk)
    have hstep' : c.step (padded s) s.length = some c' := hsame.symm.trans hstep
    exact ⟨(step_advances hw hlook hstep').within, hscan.tail hstep'⟩

theorem NeverLooksPast.same_step (hm : Contains m s) (h : Scans (padded s) s.length (.start format) c) :
    c.step m s.length = c.step (padded s) s.length := by
  apply step_congr
  intro k hk
  have hw := (hsafe.scans (padded_contains s) h).1
  exact (padded_contains s).agree hm (reads_lt hw.pos_le (hsafe c h) hk)

theorem NeverLooksPast.scans_back (hm : Contains m s)
    (h : Scans (padded s) s.length (.start format) c) : Scans m s.length (.start format) c := by
  induction h with
  | refl => exact .refl
  | tail h hstep ih => exact ih.tail ((hsafe.same_step hm h).trans hstep)

theorem NeverLooksPast.ends (n : Nat) (hscan : Scans (padded s) s.length (.start format) c)
    (hn : c.left s.length ≤ n) :
    ∃ c', Scans (padded s) s.length c c' ∧ c'.step (padded s) s.length = none := by
  induction n generalizing c with
  | zero =>
    cases hstep : c.step (padded s) s.length with
    | none => exact ⟨c, .refl, hstep⟩
    | some c₁ =>
      have hw := (hsafe.scans (padded_contains s) hscan).1
      have := (step_advances hw (hsafe c hscan) hstep).left_lt
      omega
  | succ n ih =>
    cases hstep : c.step (padded s) s.length with
    | none => exact ⟨c, .refl, hstep⟩
    | some c₁ =>
      have hw := (hsafe.scans (padded_contains s) hscan).1
      have hlt := (step_advances hw (hsafe c hscan) hstep).left_lt
      obtain ⟨c', hscan', hend⟩ := ih (hscan.tail hstep) (by omega)
      exact ⟨c', .head hstep hscan', hend⟩

theorem NeverLooksPast.returns_iff (hm : Contains m s) :
    Returns m s.length format c ↔ Returns (padded s) s.length format c := by
  constructor
  · rintro ⟨hscan, hend⟩
    have hscan' := (hsafe.scans hm hscan).2
    exact ⟨hscan', (hsafe.same_step hm hscan').symm.trans hend⟩
  · rintro ⟨hscan, hend⟩
    exact ⟨hsafe.scans_back hm hscan, (hsafe.same_step hm hscan).trans hend⟩

end Runs

theorem StaysInside.neverLooksPast (h : StaysInside s format) : NeverLooksPast s format := by
  intro c hscan hlook
  have hlt := h.inside (padded s) c s.length (padded_contains s) hscan hlook.reads_len
  exact Nat.lt_irrefl _ hlt

/-- The scanner stays inside exactly the messages in which no `%s` meets a `%` too close to the
end. -/
theorem scanner_stays_inside_iff (s format : List UInt8) :
    StaysInside s format ↔ NeverLooksPast s format := by
  constructor
  · exact StaysInside.neverLooksPast
  · intro hsafe
    constructor
    · intro m hm
      obtain ⟨c, hscan, hend⟩ := hsafe.ends _ .refl (Nat.le_refl _)
      exact ⟨c, (hsafe.returns_iff hm).mpr ⟨hscan, hend⟩⟩
    · intro m c k hm hscan hk
      obtain ⟨hw, hscan'⟩ := hsafe.scans hm hscan
      exact reads_lt hw.pos_le (fun hlook => hsafe c hscan' (hlook.padded hm)) hk
    · intro m m' c hm hm' hret
      exact (hsafe.returns_iff hm').mpr ((hsafe.returns_iff hm).mp hret)

/-- The states of a run are scanned states. -/
theorem scans_run (n : Nat) (c : Scan) : Scans m len c (c.run m len n) := by
  induction n generalizing c with
  | zero => exact .refl
  | succ n ih =>
    rw [Scan.run]
    cases hstep : c.step m len with
    | none => exact .refl
    | some c' => exact .head hstep (ih c')

/-- The request `GET %` without an end of line: both bytes behind the `%` are looked at. -/
theorem percent_at_end_reads_past :
    ¬ StaysInside (chars ['G', 'E', 'T', ' ', '%']) getFormat := by
  intro h
  have hscan : Scans (padded (chars ['G', 'E', 'T', ' ', '%'])) 5 _ _ := scans_run 7 (.start getFormat)
  exact h.neverLooksPast _ hscan ⟨⟨[], by decide⟩, by decide, by decide, .inl (by decide)⟩

end CS111.P2P
