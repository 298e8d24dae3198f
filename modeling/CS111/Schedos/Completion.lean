import CS111.Schedos.Turns

/-!
# The end of the SchedOS applications under round robin

However the clock divides the time, the applications come to their end, when each executes an instruction
whenever it is its turn.
-/

namespace CS111.Schedos

set_option autoImplicit false

variable {lockedWrite : Bool} {blank : Nat → UInt16} {m m' : Machine Pid} {k : Kernel}
  {s s' : System} {instrs : List Instr} {n : Nat}

/-- Whoever is inside gets his turn within `d` turns. -/
def Awaits (k : Kernel) (m : Machine Pid) (d : Nat) : Prop :=
  ∀ p, (m.app p).point.inside → ∃ j ≤ d, p = RoundRobin.ahead k.current j

theorem awaits_round : Awaits k m 5 := by
  intro p _
  obtain ⟨j, hj, rfl⟩ := RoundRobin.exists_ahead k.current p
  exact ⟨j + 1, hj, rfl⟩

/-- The work that is left, and how long it may take until some of it is done. -/
def Rank (lockedWrite : Bool) (blank : Nat → UInt16) (s : System) (n : Nat) : Prop :=
  Attended lockedWrite blank s.machine ∧
    match s.kernel with
    | some k => Serving 0 k s.machine ∧ ∃ d ≤ 5, n = 6 * s.machine.work + d ∧ Awaits k s.machine d
    | none => ∀ p, p ≠ 0 → (s.machine.app p).point = .exited

/-- After some work the wait for the next may be as long as it can. -/
theorem Rank.of_work {left : Option Kernel} {w d : Nat} (hm : Attended lockedWrite blank m)
    (hleft : (∃ k', left = some k' ∧ Serving 0 k' m) ∨
      left = none ∧ ∀ p, p ≠ 0 → (m.app p).point = .exited) (hw : m.work < w) :
    ∃ n < 6 * w + d, Rank lockedWrite blank ⟨left, m⟩ n := by
  rcases hleft with ⟨k', rfl, hk'⟩ | ⟨rfl, hexited⟩
  · exact ⟨6 * m.work + 5, by omega, hm, hk', 5, Nat.le_refl 5, rfl, awaits_round⟩
  · exact ⟨0, by omega, hm, hexited⟩

/-- A round of vain attempts brings the turn of the one inside nearer. -/
theorem Awaits.next {d : Nat} {q : Pid} (h : Awaits k m d) (hk : Serving 0 k m)
    (hpoint : (m.app k.current).point = .acquire) (hlocked : ∃ p, (m.app p).point.inside)
    (hzero : (m.app 0).point = .test)
    (hnext : RoundRobin.IsNext k.runnable k.current q) : ∃ d' < d, Awaits (run k q) m d' := by
  have hcomes : ∀ p, (m.app p).point.inside → ∃ j' < d, p = RoundRobin.ahead q j' := by
    intro p hp
    obtain ⟨j, hj, rfl⟩ := h p hp
    have hpos : 0 < j := by
      apply Nat.pos_of_ne_zero
      rintro rfl
      rw [RoundRobin.ahead_zero, hpoint] at hp
      exact hp
    have hrunnable : k.runnable (RoundRobin.ahead k.current j) = true := by
      refine (hk.alive _).mpr ⟨fun heq => ?_, fun hexited => ?_⟩
      · rw [heq, hzero] at hp
        exact hp
      · rw [hexited] at hp
        exact hp
    obtain ⟨b, hb, heq⟩ := hnext.nearer hpos hrunnable
    exact ⟨b, by omega, heq⟩
  obtain ⟨p, hp⟩ := hlocked
  obtain ⟨j, hj, -⟩ := hcomes p hp
  refine ⟨d - 1, by omega, fun q hq => ?_⟩
  obtain ⟨j', hj', heq⟩ := hcomes q hq
  exact ⟨j', by omega, heq⟩

theorem Rank.turn (h : Rank lockedWrite blank s n) (hturn : Turn lockedWrite s instrs s') :
    ∃ n' < n, Rank lockedWrite blank s' n' := by
  obtain ⟨hm, hk⟩ := h
  cases hturn with
  | @called k m m₁ m' _ call left hexec hcall hleft =>
    obtain ⟨hk, d, -, rfl, -⟩ := hk
    obtain ⟨hm₁, hk₁, hwork⟩ := hm.executes hk hexec
    have hle : m₁.work ≤ m.work := by
      rcases hwork with hlt | ⟨hsame, -⟩
      · exact Nat.le_of_lt hlt
      · exact Nat.le_of_eq (work_congr hsame)
    have happ : AppStep lockedWrite printChar m₁ k.current (some call) m' := .of_trap hcall
    obtain ⟨owners, hprinting⟩ := hm₁.printing
    have hless : m'.work < m₁.work := by
      rcases happ.work hprinting with hlt | ⟨hpoint, -⟩
      · exact hlt
      · cases happ with
        | yield hp _ => cases hpoint.symm.trans hp
        | leave hp _ => cases hpoint.symm.trans hp
    refine Rank.of_work (hm₁.step happ ((hk₁.alive _).mp hk₁.current).1) ?_ (hless.trans_le hle)
    refine (hk₁.trap hcall hleft).imp_left ?_
    rintro ⟨k₁, q, -, -, hleft, hk'⟩
    exact ⟨_, hleft, hk'⟩
  | @interrupted k m m' _ left hexec hsome hleft =>
    obtain ⟨hk, d, hd, rfl, hawaits⟩ := hk
    obtain ⟨hm', hk', hwork⟩ := hm.executes hk hexec
    obtain ⟨q, hnext, rfl, hk₁⟩ := hk'.clock hleft
    rcases hwork with hless | ⟨hsame, htried⟩
    · exact Rank.of_work hm' (.inl ⟨_, rfl, hk₁⟩) hless
    · obtain ⟨hpoint, hlock⟩ := htried hsome
      obtain ⟨owners, hprinting⟩ := hm'.printing
      have hawaits : Awaits k m' d := fun p hp => hawaits p (hsame ▸ hp)
      obtain ⟨d', hd', hawaits'⟩ := hawaits.next hk' (hsame ▸ hpoint)
        (hprinting.exclusive.held_iff.mp hlock) (congrArg App.point hm'.unused) hnext
      exact ⟨6 * m'.work + d', by rw [work_congr hsame]; omega, hm', hk₁, d', by omega, rfl, hawaits'⟩

theorem boot_attended : Attended lockedWrite blank (boot 0 blank).machine :=
  ⟨⟨[], begin_printing⟩, rfl⟩

theorem boot_work : (boot 0 blank).machine.work = 5 * (8 * runCount + 7) := by
  simp [Machine.work, boot, begin, App.work, Point.rank]

theorem boot_rank : Rank lockedWrite blank (boot 0 blank) (6 * (5 * (8 * runCount + 7)) + 5) := by
  refine ⟨boot_attended, ⟨.inl rfl, start_booted 0, rfl, fun p => ?_⟩, 5, Nat.le_refl 5, ?_, awaits_round⟩
  · show (start 0).runnable p = true ↔ p ≠ 0 ∧ Point.test ≠ .exited
    revert p
    decide
  · rw [boot_work]

/-- Under round robin, with any division of the time that leaves every application an instruction in each
of its turns, there is a bound for the number of turns; nothing but the end of all the applications
ends them; and then the console shows 320 times the character of each. -/
theorem round_robin_finishes (lockedWrite : Bool) (blank : Nat → UInt16)
    (turns : List (List Instr)) (s : System) (h : Run (Turn lockedWrite) (boot 0 blank) turns s) :
    turns.length ≤ 77015 ∧
    (s.kernel ≠ none → ∃ instrs s', Turn lockedWrite s instrs s') ∧
    (s.kernel = none → s.machine.cursorpos = 1280 ∧
      ((List.range 1280).map s.machine.screen).Perm (wholeOutput.map printChar) ∧
      ∀ k, 1280 ≤ k → s.machine.screen k = blank k) := by
  obtain ⟨n, hrank, hle⟩ := h.length_le_rank (R := Rank lockedWrite blank) Rank.turn boot_rank
  obtain ⟨left, m⟩ := s
  obtain ⟨hm, hk⟩ := hrank
  refine ⟨by unfold runCount at hle; omega, fun hsome => ?_, fun hnone => ?_⟩
  · obtain ⟨k, rfl⟩ := Option.ne_none_iff_exists'.mp hsome
    exact exists_turn hk.1
  · subst hnone
    have hcursor : m.cursorpos = 1280 := (hm.exited hk).1
    have hrest := (hm.exited hk).2
    rw [hcursor] at hrest
    exact ⟨hcursor, hrest⟩

/-- After a turn of process 1 the system is not at its end. -/
theorem round_robin_goes_on : ∃ s : System,
    Run (Turn true) (boot 0 fun _ => 0) [[.next, .next]] s ∧
      ∃ instrs s', Turn true s instrs s' := by
  have hexec : ∃ m, Executes true (start 0) (begin fun _ => 0) [.next, .next] m :=
    ⟨_, Run.of_foldlM rfl⟩
  obtain ⟨m, hexec⟩ := hexec
  have hclock : ∃ k, Step (start 0) .clock k := ⟨_, 5, rfl⟩
  obtain ⟨k, hk⟩ := hclock
  have hrun : Run (Turn true) (boot 0 fun _ => 0) [[.next, .next]] ⟨some k, m⟩ :=
    .single (.interrupted hexec (List.cons_ne_nil _ _) (.runs hk))
  exact ⟨_, hrun, (round_robin_finishes true _ _ _ hrun).2.1 nofun⟩

end CS111.Schedos
