import CS111.Schedos.Dispatch
import CS111.Schedos.Priorities

/-!
# Proportional shares in SchedOS

Algorithm 3 counts the runs of a process in `p_share_runs`, and resets the counter in the call of
`schedule` that finds the share used up. The dispatches of a run fall into blocks, each of them the
share of one process.
-/

namespace CS111.Schedos

set_option autoImplicit false

variable {k k' k₁ : Kernel} {p q pid : Pid} {fuel : Nat} {e : Event} {share : Pid → Int}
  {slices : List Slice} {slice : Slice}

/-! ## Blocks of dispatches -/

/-- The boot under algorithm 3, with shares that are set before the first process runs. -/
def startShares (share : Pid → Int) : Kernel :=
  { start 3 with
    procArray := fun p => { (start 3).procArray p with share := if p = 0 then 0 else share p } }

def Event.exits : Event → Bool
  | .exit _ => true
  | _ => false

/-- An interrupt that enters `schedule`. -/
def ShareStep (k : Kernel) (slice : Slice) (k' : Kernel) : Prop :=
  SliceStep k slice k' ∧ (slice.event.yields = true ∨ slice.event.exits = true)

/-- `p` is a process that has not exited yet. -/
def stillRunnable (slices : List Slice) (p : Pid) : Bool :=
  p ≠ 0 && slices.all fun slice => slice.pid ≠ p || !slice.event.exits

/-- What `p` has of the processor in one turn: its share, or less when it exits. -/
structure IsBlock (share : Pid → Int) (p : Pid) (block : List Slice) : Prop where
  pids : ∀ slice ∈ block, slice.pid = p
  ne_nil : block ≠ []
  stays : ∀ slice ∈ block.dropLast, slice.event.exits = false
  whole : (∀ slice ∈ block, slice.event.exits = false) → (block.length : Int) = share p
  le : (block.length : Int) ≤ share p

/-- The dispatches are whole blocks, in the round of the processes still runnable, and the next block
is one of `p`. -/
inductive SharedOut (share : Pid → Int) : List Slice → Pid → Prop
  | start : SharedOut share [] 1
  | next {slices block : List Slice} {p q : Pid} (before : SharedOut share slices p)
      (isBlock : IsBlock share p block)
      (isNext : RoundRobin.IsNext (stillRunnable (slices ++ block)) p q) :
      SharedOut share (slices ++ block) q

/-! ## One entry of `schedule` -/

/-- The counters of the runnable processes are reset, except that of `p` if there is one. -/
structure Kernel.SharesAt (k : Kernel) (share : Pid → Int) (p : Option Pid) : Prop where
  algorithm : k.schedulingAlgorithm = 3
  unused : k.runnable 0 = false
  shares : ∀ q, q ≠ 0 → k.share q = share q
  bounded : ∀ q, k.shareRuns q ≤ k.share q
  reset : ∀ q, p ≠ some q → k.runnable q = true → k.shareRuns q = 0

theorem schedule_share (h : k.schedulingAlgorithm = 3) :
    schedule (fuel + 1) k = byShare (fuel + 1) k k.current := by
  simp only [schedule, h]
  rfl

/-- With all counters reset the search is a round robin. -/
theorem byShare_reset (hreset : ∀ p, k.runnable p = true → k.shareRuns p = 0 ∧ 0 < k.share p) :
    byShare fuel k (pid + 1) =
      (RoundRobin.seek k.runnable fuel pid).map fun q => run (k.setShareRuns q 1) q := by
  induction fuel generalizing pid with
  | zero => rfl
  | succ fuel ih =>
    simp only [byShare, RoundRobin.seek]
    by_cases hrunnable : k.runnable (pid + 1) = true
    · obtain ⟨hzero, hpos⟩ := hreset (pid + 1) hrunnable
      simp only [hrunnable, if_true, hzero, if_neg (Int.not_le.mpr hpos)]
      rfl
    · simp only [if_neg hrunnable]
      exact ih

namespace Kernel.SharesAt

theorem ne_zero {o : Option Pid} (h : k.SharesAt share o) (hp : k.runnable p = true) : p ≠ 0 := by
  rintro rfl
  rw [h.unused] at hp
  cases hp

theorem run_setShareRuns {o : Option Pid} {v : Int} (h : k.SharesAt share o)
    (ho : ∀ q, o = some q → q = p) (hv : v ≤ k.share p) :
    (run (k.setShareRuns p v) p).SharesAt share (some p) where
  algorithm := h.algorithm
  unused := (runnable_setShareRuns (p := p) (v := v)).trans h.unused
  shares q hq := (share_setShareRuns (p := p) (v := v)).trans (h.shares q hq)
  bounded q := by
    show (k.setShareRuns p v).shareRuns q ≤ (k.setShareRuns p v).share q
    simp only [shareRuns_setShareRuns, share_setShareRuns]
    split
    · next hq => exact hq ▸ hv
    · exact h.bounded q
  reset q hq hrunnable := by
    have hne : q ≠ p := fun heq => hq (congrArg some heq.symm)
    show (k.setShareRuns p v).shareRuns q = 0
    simp only [shareRuns_setShareRuns, if_neg hne]
    apply h.reset q
    · intro heq
      exact hne (ho q heq)
    · exact (runnable_setShareRuns (p := p) (v := v)).symm.trans hrunnable

theorem runnable_run_setShareRuns {v : Int} : (run (k.setShareRuns p v) p).runnable = k.runnable := by
  funext q
  exact runnable_setShareRuns

theorem shareRuns_run_setShareRuns {v : Int} : (run (k.setShareRuns p v) p).shareRuns p = v := by
  show (k.setShareRuns p v).shareRuns p = v
  rw [shareRuns_setShareRuns, if_pos rfl]

/-- The running process has had a part of its share and goes on. -/
theorem again (h : k.SharesAt share (some k.current)) (hc : k.runnable k.current = true)
    (hlt : k.shareRuns k.current < k.share k.current) (hs : schedule fuel k = some k') :
    k'.current = k.current ∧ k'.SharesAt share (some k'.current) ∧ k'.runnable = k.runnable ∧
      k'.shareRuns k'.current = k.shareRuns k.current + 1 := by
  cases fuel with
  | zero => cases hs
  | succ fuel =>
    simp only [schedule_share h.algorithm, byShare, hc, if_true, if_neg (Int.not_le.mpr hlt),
      Option.some.injEq] at hs
    subst hs
    refine ⟨rfl, h.run_setShareRuns (fun q hq => (Option.some.inj hq).symm) hlt, ?_, ?_⟩
    · exact runnable_run_setShareRuns
    · exact shareRuns_run_setShareRuns

/-- The search goes on behind `pid`. -/
theorem next (h : k.SharesAt share none) (hpos : ∀ q, q ≠ 0 → 0 < share q)
    (hs : byShare fuel k (pid + 1) = some k') :
    RoundRobin.IsNext k.runnable pid k'.current ∧ k'.SharesAt share (some k'.current) ∧
      k'.runnable = k.runnable ∧ k'.shareRuns k'.current = 1 := by
  have hready : ∀ q, k.runnable q = true → k.shareRuns q = 0 ∧ 0 < k.share q := by
    intro q hq
    have hne := h.ne_zero hq
    exact ⟨h.reset q (Option.some_ne_none q).symm hq, h.shares q hne ▸ hpos q hne⟩
  rw [byShare_reset hready] at hs
  obtain ⟨q, hq, rfl⟩ := Option.map_eq_some_iff.mp hs
  have hnext := RoundRobin.seek_isNext hq
  refine ⟨hnext, h.run_setShareRuns (fun q hq => absurd hq.symm (Option.some_ne_none q)) ?_, ?_, ?_⟩
  · exact (hready q hnext.holds).2
  · exact runnable_run_setShareRuns
  · exact shareRuns_run_setShareRuns

/-- The share is used up: the counter is reset. -/
theorem usedUp (h : k.SharesAt share (some k.current)) (hle : 0 ≤ k.share k.current) :
    (k.setShareRuns k.current 0).SharesAt share none where
  algorithm := h.algorithm
  unused := runnable_setShareRuns.trans h.unused
  shares q hq := share_setShareRuns.trans (h.shares q hq)
  bounded q := by
    simp only [shareRuns_setShareRuns, share_setShareRuns]
    split
    · next hq => exact hq ▸ hle
    · exact h.bounded q
  reset q _ hrunnable := by
    rw [runnable_setShareRuns] at hrunnable
    rw [shareRuns_setShareRuns]
    split
    · rfl
    · next hne => exact h.reset q (fun heq => hne (Option.some.inj heq).symm) hrunnable

/-- As long as a process is runnable, one is dispatched. -/
theorem dispatches {o : Option Pid} (h : k.SharesAt share o) (hpos : ∀ q, q ≠ 0 → 0 < share q)
    (hp : k.runnable p = true) : ∃ fuel k', schedule fuel k = some k' := by
  have hne := h.ne_zero hp
  have hshare : 0 < k.share p := h.shares p hne ▸ hpos p hne
  have hout : SharesOut k k.current := byShare_finds hp hshare
  obtain ⟨fuel, k', hs⟩ := hout
  cases fuel with
  | zero => cases hs
  | succ fuel => exact ⟨fuel + 1, k', (schedule_share h.algorithm).trans hs⟩

end Kernel.SharesAt

/-- The counter of a process that exits is left as it is. -/
theorem Kernel.SharesAt.exited {v : UInt32} (h : k.SharesAt share (some k.current))
    (he : entered k (.exit v) = some k₁) : k₁.SharesAt share none := by
  have hrunnable := @runnable_exit k k₁
  have hkept : ∀ q, k₁.share q = k.share q ∧ k₁.shareRuns q = k.shareRuns q := by
    intro q
    cases he
    simp only [Kernel.share, Kernel.shareRuns, Kernel.modify]
    split <;> exact ⟨rfl, rfl⟩
  refine ⟨?_, ?_, ?_, ?_, ?_⟩
  · cases he
    exact h.algorithm
  · rw [hrunnable he, h.unused, Bool.and_false]
  · intro q hq
    exact (hkept q).1.trans (h.shares q hq)
  · intro q
    rw [(hkept q).1, (hkept q).2]
    exact h.bounded q
  · intro q _ hq
    rw [hrunnable he] at hq
    obtain ⟨hne, hq⟩ := Bool.and_eq_true_iff.mp hq
    rw [(hkept q).2]
    exact h.reset q (fun heq => of_decide_eq_true hne (Option.some.inj heq).symm) hq

/-! ## Runs -/

theorem stillRunnable_snoc : stillRunnable (slices ++ [slice]) p =
    (stillRunnable slices p && (slice.pid ≠ p || !slice.event.exits)) := by
  simp only [stillRunnable, List.all_append, List.all_cons, List.all_nil, Bool.and_true,
    Bool.and_assoc]

theorem exits_of_yields (h : e.yields = true) : e.exits = false := by
  cases e with
  | yield | clock => rfl
  | exit | priority | share | queue => cases h

/-- The slices of a run up to now: the blocks that are done, and the one under way. -/
structure Progress (share : Pid → Int) (slices : List Slice) (k : Kernel) : Prop where
  state : k.SharesAt share (some k.current)
  current : k.runnable k.current = true
  runnable : k.runnable = stillRunnable slices
  blocks : ∃ done underWay, slices = done ++ underWay ∧ SharedOut share done k.current ∧
    (∀ slice ∈ underWay, slice.pid = k.current ∧ slice.event.exits = false) ∧
    k.shareRuns k.current = underWay.length + 1

namespace Progress

theorem start (hpos : ∀ q, q ≠ 0 → 0 < share q) : Progress share [] (startShares share) where
  state := by
    refine ⟨rfl, rfl, ?_, ?_, ?_⟩
    · intro q hq
      exact if_neg hq
    · intro q
      show (if q = 1 then (1 : Int) else 0) ≤ if q = 0 then 0 else share q
      split
      · next hq =>
        subst hq
        exact hpos 1 (by decide)
      · split
        · exact Int.le_refl 0
        · next hq => exact Int.le_of_lt (hpos q hq)
    · intro q hq _
      exact if_neg fun hone => hq (congrArg some hone.symm)
  current := rfl
  runnable := by
    funext q
    show ((if q = 0 then ProcState.empty else ProcState.runnable) == .runnable) = _
    by_cases hq : q = 0
    · subst hq
      rfl
    · simp only [stillRunnable, hq, ne_eq, not_false_eq_true, decide_true, List.all_nil,
        Bool.and_self]
      rfl
  blocks := by
    refine ⟨[], [], rfl, .start, ?_, rfl⟩
    intro s hs
    cases hs

/-- The interrupt ends a block, and the next process comes to run. -/
theorem endBlock (h : Progress share slices k) (hpos : ∀ q, q ≠ 0 → 0 < share q)
    (hslice : slice.pid = k.current) (hk₁ : k₁.SharesAt share none)
    (hrunnable : k₁.runnable = stillRunnable (slices ++ [slice]))
    (hwhole : slice.event.exits = false → k.share k.current ≤ k.shareRuns k.current)
    (hs : byShare fuel k₁ (k.current + 1) = some k') : Progress share (slices ++ [slice]) k' := by
  obtain ⟨done, underWay, rfl, hdone, hunder, hcount⟩ := h.blocks
  obtain ⟨hnext, hk', hkept, hone⟩ := hk₁.next hpos hs
  have hshare : k.share k.current = share k.current :=
    h.state.shares _ (h.state.ne_zero h.current)
  have hblock : IsBlock share k.current (underWay ++ [slice]) := by
    have hlength : ((underWay ++ [slice]).length : Int) = k.shareRuns k.current := by
      rw [hcount, List.length_append]
      rfl
    refine ⟨?_, ?_, ?_, ?_, ?_⟩
    · intro s hs
      rcases List.mem_append.mp hs with hs | hs
      · exact (hunder s hs).1
      · rw [List.mem_singleton.mp hs]
        exact hslice
    · exact List.append_ne_nil_of_right_ne_nil _ (List.cons_ne_nil _ _)
    · intro s hs
      rw [List.dropLast_concat] at hs
      exact (hunder s hs).2
    · intro hstays
      have hle := hwhole (hstays slice (List.mem_append_right _ List.mem_cons_self))
      rw [hlength, ← hshare]
      exact Int.le_antisymm (h.state.bounded _) hle
    · rw [hlength, ← hshare]
      exact h.state.bounded _
  rw [List.append_assoc] at hrunnable ⊢
  rw [hrunnable] at hnext
  refine ⟨hk', ?_, ?_, ?_⟩
  · rw [hkept, hrunnable]
    exact hnext.holds
  · rw [hkept, hrunnable]
  · refine ⟨done ++ (underWay ++ [slice]), [], (List.append_nil _).symm, hdone.next hblock hnext,
      ?_, hone⟩
    intro s hs
    cases hs

theorem yields (h : Progress share slices k) (hpos : ∀ q, q ≠ 0 → 0 < share q)
    (hslice : slice.pid = k.current) (hyields : slice.event.yields = true)
    (hs : schedule fuel k = some k') : Progress share (slices ++ [slice]) k' := by
  have hstays := exits_of_yields hyields
  have hrunnable : k.runnable = stillRunnable (slices ++ [slice]) := by
    funext q
    rw [stillRunnable_snoc, ← h.runnable, hstays, Bool.not_false, Bool.or_true, Bool.and_true]
  by_cases hlt : k.shareRuns k.current < k.share k.current
  · obtain ⟨hsame, hk', hkept, hcount'⟩ := h.state.again h.current hlt hs
    obtain ⟨done, underWay, hsplit, hdone, hunder, hcount⟩ := h.blocks
    refine ⟨hk', ?_, ?_, done, underWay ++ [slice], ?_, ?_, ?_, ?_⟩
    · rw [hsame, hkept]
      exact h.current
    · rw [hkept, hrunnable]
    · rw [hsplit, List.append_assoc]
    · rw [hsame]
      exact hdone
    · intro s hs
      rw [hsame]
      rcases List.mem_append.mp hs with hs | hs
      · exact hunder s hs
      · rw [List.mem_singleton.mp hs]
        exact ⟨hslice, hstays⟩
    · rw [hcount', hcount, List.length_append]
      rfl
  · have hle := Int.not_lt.mp hlt
    cases fuel with
    | zero => cases hs
    | succ fuel =>
      simp only [schedule_share h.state.algorithm, byShare, h.current, if_true, if_pos hle] at hs
      have hshare := h.state.shares _ (h.state.ne_zero h.current)
      have hshare : 0 ≤ k.share k.current := by
        rw [hshare]
        exact Int.le_of_lt (hpos _ (h.state.ne_zero h.current))
      refine h.endBlock hpos hslice (h.state.usedUp hshare) ?_ (fun _ => hle) hs
      rw [← hrunnable]
      funext q
      exact runnable_setShareRuns

theorem exits {v : UInt32} (h : Progress share slices k) (hpos : ∀ q, q ≠ 0 → 0 < share q)
    (hslice : slice.pid = k.current) (hevent : slice.event = .exit v)
    (he : entered k (.exit v) = some k₁) (hs : schedule fuel k₁ = some k') :
    Progress share (slices ++ [slice]) k' := by
  have hk₁ := h.state.exited he
  have hcurrent : k₁.current = k.current := by
    cases he
    rfl
  cases fuel with
  | zero => cases hs
  | succ fuel =>
    have hended : k₁.runnable k.current = false := by
      simp only [runnable_exit he, ne_eq, not_true_eq_false, decide_false, Bool.false_and]
    simp only [schedule_share hk₁.algorithm, byShare, hcurrent, hended, Bool.false_eq_true,
      if_false] at hs
    refine h.endBlock hpos hslice hk₁ ?_ ?_ hs
    · funext q
      rw [runnable_exit he, stillRunnable_snoc, ← h.runnable, hslice, hevent, Bool.and_comm]
      simp only [Event.exits, Bool.not_true, Bool.or_false, ne_eq, eq_comm]
    · intro hstays
      rw [hevent] at hstays
      cases hstays

theorem step (h : Progress share slices k) (hpos : ∀ q, q ≠ 0 → 0 < share q)
    (hs : ShareStep k slice k') : Progress share (slices ++ [slice]) k' := by
  obtain ⟨⟨hslice, hs⟩, hyields | hexits⟩ := hs
  · obtain ⟨fuel, hs⟩ := step_of_yields hyields hs
    exact h.yields hpos hslice hyields hs
  · obtain ⟨pid, e⟩ := slice
    cases e with
    | exit v =>
      obtain ⟨fuel, hs⟩ := hs
      have hs : (entered k (.exit v)).bind (schedule fuel) = some k' := hs
      obtain ⟨k₁, he, hs⟩ := Option.bind_eq_some_iff.mp hs
      exact h.exits hpos hslice rfl he hs
    | yield | clock | priority | share | queue => cases hexits

end Progress

/-- The dispatches of a run are whole shares of the runnable processes, in their round, and a part of
one more. No counter exceeds the share, and as long as a process is runnable one is dispatched. -/
theorem shares_are_exact (share : Pid → Int) (hpos : ∀ p, p ≠ 0 → 0 < share p)
    (slices : List Slice) (k : Kernel) (hrun : Run ShareStep (startShares share) slices k) :
    (∃ done underWay, slices = done ++ underWay ∧ SharedOut share done k.current ∧
      (∀ slice ∈ underWay, slice.pid = k.current ∧ slice.event.exits = false) ∧
      (underWay.length : Int) + 1 ≤ share k.current) ∧
    (∀ p, k.shareRuns p ≤ k.share p) ∧ (∀ p, p ≠ 0 → k.share p = share p) ∧
    k.runnable = stillRunnable slices ∧
    ∀ e k₁, entered k e = some k₁ → (∃ p, k₁.runnable p = true) → ∃ k', Step k e k' := by
  have h : Progress share slices k :=
    hrun.invariant_history (P := Progress share) (fun h hs => h.step hpos hs) (.start hpos)
  have hshare := h.state.shares _ (h.state.ne_zero h.current)
  refine ⟨?_, h.state.bounded, h.state.shares, h.runnable, ?_⟩
  · obtain ⟨done, underWay, hsplit, hdone, hunder, hcount⟩ := h.blocks
    refine ⟨done, underWay, hsplit, hdone, hunder, ?_⟩
    rw [← hcount, ← hshare]
    exact h.state.bounded _
  · intro e k₁ he hp
    obtain ⟨p, hp⟩ := hp
    cases e with
    | yield | clock =>
      cases he
      obtain ⟨fuel, k', hs⟩ := h.state.dispatches hpos hp
      exact ⟨k', fuel, hs⟩
    | exit v =>
      obtain ⟨fuel, k', hs⟩ := (h.state.exited he).dispatches hpos hp
      exact ⟨k', fuel, Option.bind_eq_some_iff.mpr ⟨k₁, he, hs⟩⟩
    | priority | share | queue => cases he

/-- Process 1 has a share of 2 and uses it up, process 2 exits in its first run, and process 3 is next. -/
def shares2312 : Pid → Int
  | 1 => 2
  | 2 => 3
  | 3 => 1
  | _ => 2

theorem shares_are_exact_exit : ∃ k : Kernel,
    Run ShareStep (startShares shares2312) [⟨1, .yield⟩, ⟨1, .clock⟩, ⟨2, .exit 0⟩] k ∧
      (∃ done underWay, [⟨1, .yield⟩, ⟨1, .clock⟩, ⟨2, .exit 0⟩] = done ++ underWay ∧
        SharedOut shares2312 done k.current ∧
        (∀ slice ∈ underWay, slice.pid = k.current ∧ slice.event.exits = false) ∧
        (underWay.length : Int) + 1 ≤ shares2312 k.current) := by
  obtain ⟨k, hrun, -⟩ := Run.of_guarded (fun k (slice : Slice) => interrupt 9 k slice.event)
    (fun k slice => slice.pid = k.current ∧ (slice.event.yields = true ∨ slice.event.exits = true))
    (fun k => k.current = 3) (startShares shares2312)
    [⟨1, .yield⟩, ⟨1, .clock⟩, ⟨2, .exit 0⟩] (by decide +kernel)
  have hrun : Run ShareStep (startShares shares2312) [⟨1, .yield⟩, ⟨1, .clock⟩, ⟨2, .exit 0⟩] k :=
    hrun.mono fun h => ⟨⟨h.2.1, 9, h.1⟩, h.2.2⟩
  exact ⟨k, hrun, (shares_are_exact shares2312 (by decide) _ k hrun).1⟩

end CS111.Schedos
