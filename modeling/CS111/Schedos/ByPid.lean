import Mathlib.Data.List.Sort
import CS111.Schedos.Turns

/-!
# The SchedOS applications under algorithm 1

The kernel always runs the first process that has not exited. However the clock divides the time, the
applications print one after the other.
-/

namespace CS111.Schedos

set_option autoImplicit false

variable {lockedWrite : Bool} {blank : Nat → UInt16} {m m' : Machine Pid} {k : Kernel}
  {s s' : System} {owners : List Pid} {p : Pid} {a : Action}

/-- All before `p` have exited, and nobody behind `p` has begun. -/
structure UpTo (m : Machine Pid) (owners : List Pid) (p : Pid) : Prop where
  before : ∀ q, q ≠ 0 → q < p → (m.app q).point = .exited
  behind : ∀ q, p < q → m.app q = ⟨0, .test, none⟩
  sorted : owners.Pairwise (· ≤ ·)
  upTo : ∀ q ∈ owners, q ≤ p

/-- The machine under algorithm 1; `p` is the one who runs, or the last one. -/
structure InOrder (lockedWrite : Bool) (blank : Nat → UInt16) (m : Machine Pid) (p : Pid) : Prop where
  printing : ∃ owners, Printing lockedWrite printChar blank m owners ∧ UpTo m owners p
  unused : m.app 0 = ⟨0, .test, none⟩

theorem UpTo.step {more : List Pid} {t : Option Trap} (h : UpTo m owners p)
    (hstep : AppStep lockedWrite printChar m p t m') (hmore : ∀ q ∈ more, q = p) :
    UpTo m' (owners ++ more) p where
  before q hq hlt := by
    rw [hstep.frame (ne_of_lt hlt)]
    exact h.before q hq hlt
  behind q hlt := (hstep.frame (ne_of_gt hlt)).trans (h.behind q hlt)
  sorted := by
    refine List.pairwise_append.mpr ⟨h.sorted, ?_, fun q hq r hr => ?_⟩
    · refine List.pairwise_of_forall_mem_list fun q hq r hr => ?_
      rw [hmore q hq, hmore r hr]
    · rw [hmore r hr]
      exact h.upTo q hq
  upTo q hq := by
    rcases List.mem_append.mp hq with hq | hq
    · exact h.upTo q hq
    · exact le_of_eq (hmore q hq)

/-- The next one, when all before him have exited. -/
theorem UpTo.next {q : Pid} (h : UpTo m owners p) (hle : p ≤ q)
    (hexited : ∀ r, r ≠ 0 → r < q → (m.app r).point = .exited) : UpTo m owners q where
  before := hexited
  behind r hr := h.behind r (lt_of_le_of_lt hle hr)
  sorted := h.sorted
  upTo r hr := le_trans (h.upTo r hr) hle

theorem outputOf_sorted {l : List Pid} (h : l.Pairwise (· < ·)) :
    (outputOf l).Pairwise (· ≤ ·) := by
  refine List.pairwise_flatMap.mpr ⟨fun q _ => List.pairwise_replicate.mpr (.inr le_rfl), ?_⟩
  refine h.imp fun {q r} hlt x hx y hy => ?_
  rw [List.eq_of_mem_replicate hx, List.eq_of_mem_replicate hy]
  exact le_of_lt hlt

theorem processes_sorted : processes.Pairwise (· < ·) := by decide

theorem printed_le (hprinting : Printing lockedWrite printChar blank m owners) (p : Pid) :
    (m.app p).printed ≤ runCount := by
  have hsound := hprinting.sound p
  unfold App.Sound at hsound
  unfold App.printed
  cases hpoint : (m.app p).point with
  | test | leave | exited =>
    rw [hpoint] at hsound
    have := hsound.1
    simp only [Point.reserved]
    omega
  | acquire | load | write | advance | release | yield =>
    rw [hpoint] at hsound
    have := hsound.1
    simp only [Point.reserved]
    omega

/-- What `p` and those behind him have still to print. -/
def toCome (m : Machine Pid) (p : Pid) : List Pid :=
  List.replicate (runCount - (m.app p).printed) p ++ outputOf (processes.filter (p < ·))

theorem mem_of_mem_outputOf {l : List Pid} {q : Pid} (h : q ∈ outputOf l) : q ∈ l := by
  obtain ⟨r, hr, hq⟩ := List.mem_flatMap.mp h
  rwa [List.eq_of_mem_replicate hq]

theorem le_of_mem_toCome {q : Pid} (h : q ∈ toCome m p) : p ≤ q := by
  rcases List.mem_append.mp h with hq | hq
  · exact le_of_eq (List.eq_of_mem_replicate hq).symm
  · exact le_of_lt (of_decide_eq_true (List.mem_filter.mp (mem_of_mem_outputOf hq)).2)

theorem toCome_sorted : (toCome m p).Pairwise (· ≤ ·) := by
  refine List.pairwise_append.mpr ⟨List.pairwise_replicate.mpr (.inr le_rfl),
    outputOf_sorted (processes_sorted.filter _), fun q hq r hr => ?_⟩
  rw [List.eq_of_mem_replicate hq]
  exact le_of_lt (of_decide_eq_true (List.mem_filter.mp (mem_of_mem_outputOf hr)).2)

theorem count_toCome (q : Pid) : (toCome m p).count q =
    (if q = p then runCount - (m.app p).printed else 0) + if p < q then runCount else 0 := by
  have hbehind : ∀ p q : Pid, (processes.filter (p < ·)).count q = if p < q then 1 else 0 := by
    decide
  rw [toCome, List.count_append, List.count_replicate, count_outputOf, hbehind]
  simp only [beq_iff_eq, eq_comm (a := p), mul_ite, mul_one, mul_zero]

/-- What has been printed is the beginning of the whole output. -/
theorem UpTo.isPrefix (h : UpTo m owners p)
    (hprinting : Printing lockedWrite printChar blank m owners)
    (hunused : m.app 0 = ⟨0, .test, none⟩) (hp : p ≠ 0) : owners <+: wholeOutput := by
  have hperm : (owners ++ toCome m p).Perm wholeOutput := by
    refine List.perm_iff_count.mpr fun q => ?_
    rw [List.count_append, hprinting.counts, count_toCome, count_wholeOutput]
    rcases lt_trichotomy q p with hlt | rfl | hgt
    · rw [if_neg (ne_of_lt hlt), if_neg (lt_asymm hlt)]
      by_cases hzero : q = 0
      · rw [hzero, hunused]
        rfl
      · obtain ⟨hi, -⟩ := hprinting.sound_at (h.before q hzero hlt)
        rw [App.printed, h.before q hzero hlt, hi, if_neg hzero]
        rfl
    · have := printed_le hprinting q
      rw [if_pos rfl, if_neg (lt_irrefl q), if_neg hp]
      omega
    · have hzero : q ≠ 0 := ne_of_gt (lt_of_le_of_lt (Fin.zero_le p) hgt)
      rw [if_neg (ne_of_gt hgt), if_pos hgt, if_neg hzero, h.behind q hgt]
      exact Nat.zero_add _
  have hwhole : owners ++ toCome m p = wholeOutput := by
    refine hperm.eq_of_pairwise' ?_ (outputOf_sorted processes_sorted)
    refine List.pairwise_append.mpr ⟨h.sorted, toCome_sorted, fun q hq r hr => ?_⟩
    exact le_trans (h.upTo q hq) (le_of_mem_toCome hr)
  exact ⟨toCome m p, hwhole⟩

theorem InOrder.step {t : Option Trap} (h : InOrder lockedWrite blank m p)
    (hstep : AppStep lockedWrite printChar m p t m') (hp : p ≠ 0) :
    InOrder lockedWrite blank m' p := by
  obtain ⟨owners, hprinting, hupTo⟩ := h.printing
  obtain ⟨more, hmore, hprinting'⟩ := hprinting.step hstep
  exact ⟨⟨owners ++ more, hprinting', hupTo.step hstep hmore⟩, (hstep.frame hp.symm).trans h.unused⟩

/-- The search finds the first one who has not exited. -/
theorem InOrder.picks {q : Pid} (h : InOrder lockedWrite blank m p) (hk : Serving 1 (run k q) m)
    (hq : Picks 1 k q) : q ≠ 0 ∧ InOrder lockedWrite blank m q := by
  have halive : ∀ r, k.runnable r = true ↔ r ≠ 0 ∧ (m.app r).point ≠ .exited := hk.alive
  obtain ⟨hzero, hpresent⟩ := (halive q).mp hq.runnable
  obtain ⟨-, hfirst⟩ : k.runnable q = true ∧ ∀ r, k.runnable r = true → q ≤ r := hq
  obtain ⟨owners, hprinting, hupTo⟩ := h.printing
  have hle : p ≤ q := le_of_not_gt fun hlt => hpresent (hupTo.before q hzero hlt)
  refine ⟨hzero, ⟨owners, hprinting, hupTo.next hle fun r hr hlt => ?_⟩, h.unused⟩
  apply Classical.not_not.mp
  intro hr'
  exact absurd (hfirst r ((halive r).mpr ⟨hr, hr'⟩)) (not_le_of_gt hlt)

/-- What holds of the system under algorithm 1. -/
def ByPid (lockedWrite : Bool) (blank : Nat → UInt16) (s : System) : Prop :=
  ∃ p, p ≠ 0 ∧ InOrder lockedWrite blank s.machine p ∧
    match s.kernel with
    | some k => k.current = p ∧ Serving 1 k s.machine
    | none => ∀ q, q ≠ 0 → (s.machine.app q).point = .exited

theorem ByPid.step (h : ByPid lockedWrite blank s) (hstep : SystemStep lockedWrite s a s') :
    ByPid lockedWrite blank s' := by
  obtain ⟨p, hp, horder, hk⟩ := h
  cases hstep with
  | exec hexec =>
    obtain ⟨rfl, hk⟩ := hk
    have happ := AppStep.of_exec hexec
    exact ⟨_, hp, horder.step happ hp, rfl, hk.congr (happ.present hk.present nofun)⟩
  | clock hleft =>
    obtain ⟨rfl, hk⟩ := hk
    obtain ⟨q, hq, rfl, hk'⟩ := hk.clock hleft
    obtain ⟨hzero, horder'⟩ := horder.picks hk' hq
    exact ⟨q, hzero, horder', rfl, hk'⟩
  | trap hcall hleft =>
    obtain ⟨rfl, hk⟩ := hk
    have horder' := horder.step (AppStep.of_trap hcall) hp
    rcases hk.trap hcall hleft with ⟨k₁, q, -, hq, rfl, hk'⟩ | ⟨rfl, hexited⟩
    · obtain ⟨hzero, hnext⟩ := horder'.picks hk' hq
      exact ⟨q, hzero, hnext, rfl, hk'⟩
    · exact ⟨_, hp, horder', hexited⟩

theorem boot_byPid : ByPid lockedWrite blank (boot 1 blank) := by
  refine ⟨1, by decide, ⟨⟨[], begin_printing, ?_⟩, rfl⟩, rfl, .inr rfl, start_booted 1, rfl, fun p => ?_⟩
  · have hnone : ∀ q : Pid, q ≠ 0 → ¬ q < 1 := by decide
    exact ⟨fun q hq hlt => absurd hlt (hnone q hq), fun _ _ => rfl, .nil, nofun⟩
  · show (start 1).runnable p = true ↔ p ≠ 0 ∧ Point.test ≠ .exited
    revert p
    decide

/-- Under algorithm 1, however often the clock interrupts, the console shows the characters of process 1,
then those of process 2, and so on; in the end, all of them. -/
theorem prints_in_order (lockedWrite : Bool) (blank : Nat → UInt16) (actions : List Action)
    (s : System) (h : Run (SystemStep lockedWrite) (boot 1 blank) actions s) :
    ((∀ p, (s.machine.app p).pending = none) →
      (List.range s.machine.cursorpos).map s.machine.screen <+: wholeOutput.map printChar) ∧
    (s.kernel = none →
      (List.range 1280).map s.machine.screen = wholeOutput.map printChar) := by
  obtain ⟨p, hp, horder, hk⟩ : ByPid lockedWrite blank s := h.invariant ByPid.step boot_byPid
  obtain ⟨owners, hprinting, hupTo⟩ := horder.printing
  have hprefix := hupTo.isPrefix hprinting horder.unused hp
  refine ⟨fun hstored => ?_, fun hnone => ?_⟩
  · rw [hprinting.shown hstored]
    exact hprefix.map printChar
  · rw [hnone] at hk
    have hattended : Attended lockedWrite blank s.machine := ⟨⟨owners, hprinting⟩, horder.unused⟩
    obtain ⟨hcursor, hperm, -⟩ := hattended.exited hk
    have hcursor : s.machine.cursorpos = 1280 := hcursor
    have howners : owners = wholeOutput := by
      refine hprefix.eq_of_length ?_
      rw [← hprinting.cursor, hcursor, length_wholeOutput]
      rfl
    rw [← hcursor, hprinting.shown (hattended.stored hk), howners]

/-- After the first character of process 1. -/
theorem prints_in_order_first : ∃ s : System, s.machine.cursorpos = 1 ∧
    (List.range s.machine.cursorpos).map s.machine.screen <+: wholeOutput.map printChar := by
  obtain ⟨s, hrun, hs⟩ := Run.of_guarded (System.next true 5) (fun _ _ => True)
    (fun s => (∀ p, (s.machine.app p).pending = none) ∧ s.machine.cursorpos = 1)
    (boot 1 fun _ => 0) [.exec .next, .exec .next, .exec .next, .clock, .exec .next, .exec .store]
    (by decide +kernel)
  have hrun : Run (SystemStep true) (boot 1 fun _ => 0) _ s :=
    hrun.mono fun hstep => .of_next hstep.1
  exact ⟨s, hs.2, (prints_in_order true _ _ s hrun).1 hs.1⟩

end CS111.Schedos
