import CS111.Lib.Turns
import CS111.Ramdisk.WakeUps

/-!
# Whose turn it is

While the tickets fit into an `int`, `can_run_ticket` gives the turn to the first ticket from
`ticket_tail` on that is not terminated, however far the tail has been moved by then. Files may be
open for reading and writing, so that a process can wait with a ticket that has been served.
-/

namespace CS111.Ramdisk

set_option autoImplicit false

/-- The ticket stands in the list of terminated tickets. -/
def Device.Struck (d : Device) (ticket : Nat) : Prop := (ticket : Int) ∈ d.terminatedTickets

structure Device.Ranged (d : Device) : Prop where
  sorted : d.terminatedTickets.Pairwise (· ≤ ·)
  listed : ∀ x ∈ d.terminatedTickets, 0 ≤ x ∧ x < d.ticketHead
  tail_le : d.ticketTail ≤ d.ticketHead
  head_lt : d.ticketHead < 2147483648

variable {d d' : Device} {k : Kind} {f : FileId} {p : Pid} {t u n : Nat} {r : Request}

section Turns

theorem Device.Ranged.struck_lt (hd : d.Ranged) (h : d.Struck u) : u < d.ticketHead := by
  have hx := (hd.listed _ h).2
  omega

theorem Device.Ranged.exists_turn (hd : d.Ranged) (tail : Nat) : ∃ n, Turn d.Struck tail n :=
  Turn.exists_of_bounded (fun _ h => hd.struck_lt h) tail

theorem Device.Ranged.turn_le (hd : d.Ranged) (h : Turn d.Struck d.ticketTail n) :
    n ≤ d.ticketHead := by
  by_contra hlt
  exact Nat.lt_irrefl _ (hd.struck_lt (h.before d.ticketHead hd.tail_le (Nat.not_le.mp hlt)))

theorem struck_terminate (hu : u < 2147483648) (a : Nat) :
    (terminateTicket d u).Struck a ↔ a = u ∨ d.Struck a := by
  have hmem : (a : Int) ∈ d.terminatedTickets.orderedInsert (· ≤ ·) (toInt32 u) ↔
      (a : Int) = toInt32 u ∨ (a : Int) ∈ d.terminatedTickets := List.mem_orderedInsert (· ≤ ·)
  rw [toInt32_of_lt hu, Int.ofNat_inj] at hmem
  unfold Device.Struck terminateTicket
  rw [toInt32_of_lt hu]
  exact hmem

/-- Where a look from a ticket that is not terminated leaves the tail. -/
theorem skip_of_turn (hd : d.Ranged) (h : Turn d.Struck d.ticketTail n) (hu : u < 2147483648)
    (hnot : ¬ d.Struck u) : skipTerminated (toInt32 u) d.terminatedTickets d.ticketTail =
      if n ≤ u then n else d.ticketTail := by
  have hhead := hd.head_lt
  rw [toInt32_of_lt hu]
  by_cases hle : n ≤ u
  · rw [if_pos hle]
    refine skipTerminated_eq hd.sorted (fun x hx => ?_) hle hu h.le h.before (.inr h.here)
    have hx := hd.listed x hx
    omega
  · rw [if_neg hle]
    have hlt := h.not_between hnot (Nat.not_le.mp hle)
    refine skip_settled fun c hc hcu => ?_
    have hrange := hd.listed c hc
    rw [ofInt32_of_lt hrange.1 (by omega)]
    omega

theorem canRun_iff_turn (hd : d.Ranged) (h : Turn d.Struck d.ticketTail n) (hu : u < 2147483648)
    (hnot : ¬ d.Struck u) : (canRunTicket d u).1 = true ↔ u = n := by
  unfold canRunTicket
  rw [skip_of_turn hd h hu hnot, beq_iff_eq]
  split
  · exact Iff.rfl
  · next hle =>
    have hlt := h.not_between hnot (Nat.not_le.mp hle)
    constructor <;> intro heq <;> omega

theorem turn_looked (hd : d.Ranged) (h : Turn d.Struck d.ticketTail n) (hu : u < 2147483648)
    (hnot : ¬ d.Struck u) : Turn d.Struck (ready k d u).2.ticketTail n := by
  rcases ready_tail k d u with htail | htail
  · rw [htail]
    exact h
  · rw [htail, skip_of_turn hd h hu hnot]
    split
    · exact h.advance h.le (Nat.le_refl n)
    · exact h

end Turns

section Numbers
variable {req req' : Requests}

/-- Every process in its ioctl has a ticket of its own, which is not terminated. -/
structure Numbered (d : Device) (req : Requests) : Prop where
  sorted : d.terminatedTickets.Pairwise (· ≤ ·)
  listed : ∀ x ∈ d.terminatedTickets, 0 ≤ x ∧ x < d.ticketHead
  live : ∀ {p k f t}, req p = some (k, f, t) → t < d.ticketHead ∧ ¬ d.Struck t
  distinct : ∀ {p q k k' f f' t}, req p = some (k, f, t) → req q = some (k', f', t) → p = q

namespace Numbered

/-- No process takes over a ticket. -/
theorem keep (hn : Numbered d req) (hhead : d'.ticketHead = d.ticketHead)
    (hlist : d'.terminatedTickets = d.terminatedTickets)
    (hreq : ∀ p k f t, req' p = some (k, f, t) → ∃ k' f', req p = some (k', f', t)) :
    Numbered d' req' where
  sorted := by rw [hlist]; exact hn.sorted
  listed := by rw [hlist, hhead]; exact hn.listed
  live := by
    intro p k f t h
    obtain ⟨k', f', h⟩ := hreq p k f t h
    unfold Device.Struck
    rw [hlist, hhead]
    exact hn.live h
  distinct := by
    intro p q k k' f f' t h h'
    obtain ⟨_, _, h⟩ := hreq p k f t h
    obtain ⟨_, _, h'⟩ := hreq q k' f' t h'
    exact hn.distinct h h'

theorem same (hn : Numbered d req) (hhead : d'.ticketHead = d.ticketHead)
    (hlist : d'.terminatedTickets = d.terminatedTickets) : Numbered d' req :=
  hn.keep hhead hlist fun _ k f _ h => ⟨k, f, h⟩

theorem issue (hn : Numbered d req) (hfew : d.ticketHead + 1 < 2147483648)
    (hreq : ∀ q k f t, req' q = some (k, f, t) →
      (q = p ∧ t = d.ticketHead) ∨ (q ≠ p ∧ req q = some (k, f, t))) :
    Numbered { d with ticketHead := u32 (d.ticketHead + 1) } req' := by
  rw [u32_of_lt (by omega)]
  constructor
  · exact hn.sorted
  · intro x hx
    have hrange := hn.listed x hx
    dsimp only
    omega
  · intro q k f t h
    change t < d.ticketHead + 1 ∧ ¬ d.Struck t
    rcases hreq q k f t h with ⟨_, rfl⟩ | ⟨_, h⟩
    · refine ⟨Nat.lt_succ_self _, fun hstruck => ?_⟩
      have hrange := hn.listed _ hstruck
      omega
    · obtain ⟨hlt, hnot⟩ := hn.live h
      exact ⟨Nat.lt_succ_of_lt hlt, hnot⟩
  · intro q q' k k' f f' t h h'
    rcases hreq q k f t h with ⟨hq, ht⟩ | ⟨_, hold⟩ <;>
      rcases hreq q' k' f' t h' with ⟨hq', ht'⟩ | ⟨_, hold'⟩
    · exact hq.trans hq'.symm
    · have hlt := (hn.live hold').1
      omega
    · have hlt := (hn.live hold).1
      omega
    · exact hn.distinct hold hold'

theorem terminate (hn : Numbered d req) (hfew : d.ticketHead < 2147483648)
    (hp : req p = some (k, f, u)) :
    Numbered (terminateTicket d u) (Function.update req p none) := by
  have hlt := (hn.live hp).1
  constructor
  · exact hn.sorted.orderedInsert _ _
  · intro x hx
    rcases (List.mem_orderedInsert (· ≤ ·)).mp hx with rfl | hx
    · rw [toInt32_of_lt (by omega)]
      change 0 ≤ (u : Int) ∧ (u : Int) < d.ticketHead
      omega
    · exact hn.listed x hx
  · intro q k' f' t h
    obtain ⟨hqp, h⟩ := Queue.of_update h
    obtain ⟨ht, hnot⟩ := hn.live h
    refine ⟨ht, fun hstruck => ?_⟩
    rcases (struck_terminate (by omega) t).mp hstruck with rfl | hold
    · exact hqp (hn.distinct h hp)
    · exact hnot hold
  · intro q q' k' k'' f' f'' t h h'
    exact hn.distinct (Queue.of_update h).2 (Queue.of_update h').2

end Numbered

end Numbers

section Runs
variable {s t : State} {a : Action} {as : List Action}

theorem inside_of_update {x y : Option (Kind × FileId × Nat)} {req : Requests} {q : Pid}
    (h : Function.update req p x q = y) : (q = p ∧ x = y) ∨ (q ≠ p ∧ req q = y) := by
  by_cases hqp : q = p
  · subst q
    rw [Function.update_self] at h
    exact .inl ⟨rfl, h⟩
  · rw [Function.update_of_ne hqp] at h
    exact .inr ⟨hqp, h⟩

/-- A process goes on with the ticket it has, or with none. -/
theorem Numbered.goto {x : Option (Kind × FileId × Nat)} (hs : Numbered s.dev s.inside)
    (hhead : d'.ticketHead = s.dev.ticketHead)
    (hlist : d'.terminatedTickets = s.dev.terminatedTickets)
    (hx : ∀ k f u, x = some (k, f, u) → ∃ k' f', s.inside p = some (k', f', u)) :
    Numbered d' (Function.update s.inside p x) := by
  refine hs.keep hhead hlist fun q k f u h => ?_
  rcases inside_of_update h with ⟨rfl, hsome⟩ | ⟨_, hold⟩
  · exact hx k f u hsome
  · exact ⟨k, f, hold⟩

theorem numbered_step (hs : Numbered s.dev s.inside) (h : Step s a t)
    (hfew : s.dev.ticketHead < 2147483648) (hfew' : t.dev.ticketHead < 2147483648) :
    Numbered t.dev t.inside := by
  have hissued : u32 (s.dev.ticketHead + 1) < 2147483648 → s.dev.ticketHead + 1 < 2147483648 := by
    rw [u32_of_lt (by omega)]
    exact id
  have hdrop : ∀ file q, Numbered (dropLock file q s.dev) s.inside := fun file q =>
    hs.same (dropLock_tickets file q s.dev).1 (dropLock_tickets file q s.dev).2.2
  have hlooked : ∀ k u, (s.looked k u).dev.ticketHead = s.dev.ticketHead ∧
      (s.looked k u).dev.terminatedTickets = s.dev.terminatedTickets := by
    intro k u
    unfold State.looked
    rw [ready_eq_advance]
    exact ⟨rfl, rfl⟩
  cases h.effect with
  | opened | closed => exact hs
  | @refused r p f _ _ =>
    have hissue : Numbered s.issue.dev
        (Function.update s.inside p (some (.read, f, s.dev.ticketHead))) := by
      refine hs.issue (p := p) (hissued hfew') fun q k g u h => ?_
      rcases inside_of_update h with ⟨hq, hsome⟩ | hold
      · cases hsome
        exact .inl ⟨hq, rfl⟩
      · exact .inr hold
    have hend := hissue.terminate hfew' (Function.update_self _ _ _)
    rw [Function.update_idem] at hend
    rw [inside_abandon, inside_issue]
    exact hend
  | @issued r p f _ _ _ =>
    refine hs.issue (p := p) (hissued hfew') fun q k g u h => ?_
    rw [inside_goto, inside_issue] at h
    rcases inside_of_update h with ⟨hq, hpart⟩ | hold
    · exact .inl ⟨hq, (inside_writePart hpart).1⟩
    · exact .inr hold
  | notLocked =>
    rw [inside_goto]
    exact hs.goto rfl rfl (by simp [Point.inside])
  | @released p f _ _ =>
    rw [inside_goto, inside_unlock]
    obtain ⟨hhead, _, hlist⟩ := dropLock_tickets (s.files f) p s.dev
    exact hs.goto hhead hlist (by simp [Point.inside])
  | @closedLocked p f _ _ _ =>
    have hinside := inside_unlock s p f
    exact hinside.symm ▸ hdrop (s.files f) p
  | checked hp _ =>
    rw [inside_goto, inside_stay (.inl hp) rfl]
    exact hs
  | @gaveUp p k f ticket errno hp =>
    have hin : s.inside p = some (k, f, ticket) := by
      rcases hp with hp | ⟨hp | hp, _⟩ <;> simp [State.inside, hp, Point.inside]
    rw [inside_abandon]
    exact hs.terminate hfew hin
  | @busy p k f ticket hp _ =>
    have hin : s.inside p = some (k, f, ticket) := by simp [State.inside, hp, Point.inside]
    obtain ⟨hhead, hlist⟩ := hlooked k ticket
    rw [inside_abandon, inside_looked]
    exact (hs.same hhead hlist).terminate (hhead ▸ hfew) hin
  | @granted r p k f ticket hp _ =>
    have hin : s.inside p = some (k, f, ticket) := by
      rcases hp with ⟨hp, _⟩ | ⟨hp, _⟩ <;> simp [State.inside, hp, Point.inside]
    obtain ⟨hhead, hlist⟩ := hlooked k ticket
    rw [inside_grant, inside_looked]
    change Numbered (getLock k p (s.looked k ticket).dev) _
    refine hs.goto ?_ ?_ fun k' f' u hafter => ?_
    · rw [← hhead]
      cases k <;> rfl
    · rw [← hlist]
      cases k <;> rfl
    · rw [inside_afterGrant hafter]
      exact ⟨k, f, hin⟩
  | @blocked p k f ticket hp _ =>
    obtain ⟨hhead, hlist⟩ := hlooked k ticket
    rw [inside_goto, inside_looked, inside_stay (.inr (.inl hp)) rfl]
    exact hs.same hhead hlist
  | @evaluated p k f ticket pending hp =>
    obtain ⟨hhead, hlist⟩ := hlooked k ticket
    rw [inside_goto, inside_looked, inside_stay (.inr (.inr ⟨_, hp⟩))]
    · exact hs.same hhead hlist
    · split
      · rfl
      · split <;> rfl
  | signalled hp =>
    rw [inside_goto, inside_stay (.inr (.inr ⟨_, hp⟩)) rfl]
    exact hs

/-- What holds in every state before the tickets outgrow an `int`. -/
structure Queued (s : State) : Prop where
  tickets : Tickets s
  numbered : Numbered s.dev s.inside
  few : s.issued < 2147483648

namespace Queued

theorem head_lt (hs : Queued s) : s.dev.ticketHead < 2147483648 := by
  rw [hs.tickets.head_eq]
  exact hs.few

theorem ranged (hs : Queued s) : s.dev.Ranged :=
  ⟨hs.numbered.sorted, hs.numbered.listed, hs.tickets.tail_le, hs.head_lt⟩

theorem step (hs : Queued s) (h : Step s a t) (hfew : t.issued < 2147483648) : Queued t := by
  obtain ⟨henabled, rfl⟩ := h
  have htickets := hs.tickets.next henabled (Nat.lt_trans hfew (by decide))
  refine ⟨htickets, numbered_step hs.numbered ⟨henabled, rfl⟩ hs.head_lt ?_, hfew⟩
  rw [htickets.head_eq]
  exact hfew

theorem init : Queued State.init where
  tickets := tickets_init
  numbered := {
    sorted := List.Pairwise.nil
    listed := fun x hx => by simp [State.init, osprdSetup] at hx
    live := fun h => by simp [State.inside, State.init, Point.inside] at h
    distinct := fun h => by simp [State.inside, State.init, Point.inside] at h }
  few := by decide

end Queued

/-- Steps that leave fewer than `n` tickets issued. -/
def StepBelow (n : Nat) (s : State) (a : Action) (t : State) : Prop := Step s a t ∧ t.issued < n

theorem run_below {n : Nat} (h : Run Step s as t) (hfew : t.issued < n) :
    Run (StepBelow n) s as t := by
  induction h with
  | start => exact .start _
  | @snoc u _ as a _ hstep ih =>
    obtain ⟨henabled, rfl⟩ := hstep
    have hbefore : u.issued < n := Nat.lt_of_le_of_lt (issued_le_next u a) hfew
    exact .snoc (ih hbefore) ⟨⟨henabled, rfl⟩, hfew⟩

theorem run_queued (h : Run Step State.init as s) (hfew : s.issued < 2147483648) : Queued s :=
  (run_below h hfew).invariant (fun hs hstep => hs.step hstep.1 hstep.2) Queued.init

theorem run_words (h : Run Step State.init as s) : Words s.dev :=
  (h.invariant (P := fun s => Words s.dev ∧ SmallTickets s)
    (fun hs hstep => words_step hs.1 hs.2 hstep) words_init).1

end Runs

end CS111.Ramdisk
