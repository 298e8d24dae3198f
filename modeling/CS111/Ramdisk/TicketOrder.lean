import CS111.Ramdisk.LockExclusion

/-!
# Locks are granted in the order of their tickets

Everything below `ticket_tail` has been granted or terminated, and a grant needs a ticket equal
to `ticket_tail`. This holds until the 32-bit counters wrap.
-/

namespace CS111.Ramdisk

set_option autoImplicit false

/-- Whenever a lock is granted for ticket `b`, every earlier ticket has been granted or
terminated before, and `b` has not been granted before. -/
def InTicketOrder (log : List Event) : Prop :=
  ∀ pre b post, log = pre ++ .granted b :: post →
    (∀ a, a < b → .granted a ∈ pre ∨ .terminated a ∈ pre) ∧ .granted b ∉ pre

structure Tickets (s : State) : Prop where
  head_eq : s.dev.ticketHead = s.issued
  tail_le : s.dev.ticketTail ≤ s.dev.ticketHead
  listed : ∀ x ∈ s.dev.terminatedTickets,
    ofInt32 x < s.dev.ticketHead ∧ .terminated (ofInt32 x) ∈ s.log
  point_lt : ∀ p k f t, (s.procs p).inside = some (k, f, t) → t < s.dev.ticketHead
  behind : ∀ a, a < s.dev.ticketTail → .granted a ∈ s.log ∨ .terminated a ∈ s.log
  granted_lt : ∀ a, .granted a ∈ s.log → a < s.dev.ticketTail
  in_order : InTicketOrder s.log
  /-- In the read part on a file open for writing, the ticket has been served before. -/
  written : ∀ p f t, (s.procs p).inside = some (.read, f, t) →
    (s.files f).writable = true → t < s.dev.ticketTail

variable {s : State} {p : Pid} {f : FileId} {k : Kind} {r : Request} {ticket : Nat}

theorem tickets_init : Tickets State.init where
  head_eq := rfl
  tail_le := Nat.le_refl _
  listed := by simp [State.init, osprdSetup]
  point_lt := by simp [State.init, Point.inside]
  behind := by simp [State.init, osprdSetup]
  granted_lt := by simp [State.init]
  in_order := by simp [InTicketOrder, State.init]
  written := by simp [State.init, Point.inside]

theorem inTicketOrder_snoc {log : List Event} {e : Event} (h : InTicketOrder log)
    (he : ∀ b, e = .granted b →
      (∀ a, a < b → .granted a ∈ log ∨ .terminated a ∈ log) ∧ .granted b ∉ log) :
    InTicketOrder (log ++ [e]) := by
  intro pre b post hsplit
  rcases List.eq_nil_or_concat post with rfl | ⟨rest, last, rfl⟩
  · obtain ⟨hpre, hlast⟩ := List.append_inj' hsplit rfl
    subst pre
    exact he b (by simpa using hlast)
  · have hsplit' : log ++ [e] = (pre ++ .granted b :: rest) ++ [last] := by simpa using hsplit
    exact h pre b rest (List.append_inj' hsplit' rfl).1

@[simp] theorem isIssue_issued (t : Nat) : (Event.issued t).isIssue = true := rfl

@[simp] theorem isIssue_granted (t : Nat) : (Event.granted t).isIssue = false := rfl

@[simp] theorem isIssue_terminated (t : Nat) : (Event.terminated t).isIssue = false := rfl

@[simp] theorem issued_snoc (s : State) (e : Event) (d : Device) (fs : FileId → File)
    (ps : Pid → Point) : State.issued ⟨d, fs, ps, s.log ++ [e]⟩ =
      s.issued + if e.isIssue then 1 else 0 := by
  cases e <;> simp [State.issued, List.countP_append]

/-- What the loop of `can_run_ticket` does to `ticket_tail`. -/
theorem skipTerminated_spec {t : Int} {l : List Int} {tail bound : Nat}
    (hbound : bound < 4294967296) (htail : tail ≤ bound) (hl : ∀ x ∈ l, ofInt32 x < bound) :
    tail ≤ skipTerminated t l tail ∧ skipTerminated t l tail ≤ bound ∧
      ∀ a, tail ≤ a → a < skipTerminated t l tail → ∃ x ∈ l, ofInt32 x = a := by
  induction l generalizing tail with
  | nil =>
    simp only [skipTerminated]
    exact ⟨Nat.le_refl _, htail, fun a h1 h2 => by omega⟩
  | cons curr rest ih =>
    have hcurr := hl curr List.mem_cons_self
    have hrest : ∀ x ∈ rest, ofInt32 x < bound := fun x hx => hl x (List.mem_cons_of_mem _ hx)
    simp only [skipTerminated]
    split
    · split
      · rename_i heq
        have hwrap : u32 (tail + 1) = tail + 1 := u32_of_lt (by omega)
        rw [hwrap]
        have hnext : tail + 1 ≤ bound := by omega
        obtain ⟨h1, h2, h3⟩ := ih hnext hrest
        refine ⟨by omega, h2, ?_⟩
        intro a ha1 ha2
        by_cases hat : a = tail
        · exact ⟨curr, List.mem_cons_self, heq.trans hat.symm⟩
        · obtain ⟨x, hx, hxa⟩ := h3 a (by omega) ha2
          exact ⟨x, List.mem_cons_of_mem _ hx, hxa⟩
      · obtain ⟨h1, h2, h3⟩ := ih htail hrest
        refine ⟨h1, h2, ?_⟩
        intro a ha1 ha2
        obtain ⟨x, hx, hxa⟩ := h3 a ha1 ha2
        exact ⟨x, List.mem_cons_of_mem _ hx, hxa⟩
    · exact ⟨Nat.le_refl _, htail, fun a h1 h2 => by omega⟩

theorem ready_eq_advance (k : Kind) (d : Device) (ticket : Nat) :
    (ready k d ticket).2 = { d with ticketTail := (ready k d ticket).2.ticketTail } := by
  unfold ready canRunTicket
  split <;> rfl

theorem ready_tail (k : Kind) (d : Device) (ticket : Nat) :
    (ready k d ticket).2.ticketTail = d.ticketTail ∨
      (ready k d ticket).2.ticketTail =
        skipTerminated (toInt32 ticket) d.terminatedTickets d.ticketTail := by
  unfold ready canRunTicket
  split
  · exact .inr rfl
  · exact .inl rfl

theorem tail_eq_of_ready {d : Device} (h : (ready k d ticket).1 = true) :
    ticket = (ready k d ticket).2.ticketTail := by
  unfold ready canRunTicket at h ⊢
  split at h
  · rename_i havail
    simpa [havail] using h
  · simp at h

theorem Tickets.tail_advance (hs : Tickets s) (hfew : s.issued < 4294967296) (k : Kind)
    (ticket : Nat) :
    s.dev.ticketTail ≤ (ready k s.dev ticket).2.ticketTail ∧
      (ready k s.dev ticket).2.ticketTail ≤ s.dev.ticketHead ∧
      ∀ a, a < (ready k s.dev ticket).2.ticketTail →
        .granted a ∈ s.log ∨ .terminated a ∈ s.log := by
  rcases ready_tail k s.dev ticket with h | h
  · rw [h]
    exact ⟨Nat.le_refl _, hs.tail_le, hs.behind⟩
  · rw [h]
    have hhead := hs.head_eq
    obtain ⟨h1, h2, h3⟩ := skipTerminated_spec (t := toInt32 ticket) (by omega) hs.tail_le
      (fun x hx => (hs.listed x hx).1)
    refine ⟨h1, h2, ?_⟩
    intro a ha
    by_cases hold : a < s.dev.ticketTail
    · exact hs.behind a hold
    · obtain ⟨x, hx, rfl⟩ := h3 a (by omega) ha
      exact .inr (hs.listed x hx).2

theorem Tickets.ready (hs : Tickets s) (hfew : s.issued < 4294967296) :
    Tickets { s with dev := (ready k s.dev ticket).2 } := by
  obtain ⟨hle, hbound, hbehind⟩ := hs.tail_advance hfew k ticket
  rw [ready_eq_advance]
  exact {
    head_eq := hs.head_eq
    tail_le := hbound
    listed := hs.listed
    point_lt := hs.point_lt
    behind := hbehind
    granted_lt := fun a ha => Nat.lt_of_lt_of_le (hs.granted_lt a ha) hle
    in_order := hs.in_order
    written := fun p f t h hw => Nat.lt_of_lt_of_le (hs.written p f t h hw) hle }

theorem Tickets.goto {pt : Point} (hs : Tickets s)
    (hlt : ∀ k f t, pt.inside = some (k, f, t) → t < s.dev.ticketHead)
    (hwritten : ∀ f t, pt.inside = some (.read, f, t) → (s.files f).writable = true →
      t < s.dev.ticketTail) : Tickets (s.goto p pt) where
  head_eq := hs.head_eq
  tail_le := hs.tail_le
  listed := hs.listed
  point_lt := by
    intro q k f t hq
    by_cases hqp : q = p
    · subst q
      exact hlt k f t (by simpa using hq)
    · exact hs.point_lt q k f t (by simpa [hqp] using hq)
  behind := hs.behind
  granted_lt := hs.granted_lt
  in_order := hs.in_order
  written := by
    intro q f t hq hw
    by_cases hqp : q = p
    · subst q
      exact hwritten f t (by simpa using hq) hw
    · exact hs.written q f t (by simpa [hqp] using hq) hw

theorem Tickets.user {ret : Int} (hs : Tickets s) : Tickets (s.goto p (.user ret)) :=
  hs.goto (by simp [Point.inside]) (by simp [Point.inside])

/-- A process may move between the points of one lock part. -/
theorem Tickets.stay {pt : Point} (hs : Tickets s) (h : pt.inside = (s.procs p).inside) :
    Tickets (s.goto p pt) :=
  hs.goto (fun k f t ht => hs.point_lt p k f t (h ▸ ht))
    (fun f t ht hw => hs.written p f t (h ▸ ht) hw)

theorem Tickets.abandon {errno : Int} (hs : Tickets s) (hfew : s.issued < 4294967296)
    (ht : ticket < s.dev.ticketHead) : Tickets (s.abandon p ticket errno) := by
  have hgoto : Tickets (s.goto p (.user (-errno))) := hs.user
  have hhead := hs.head_eq
  refine {
    head_eq := ?_
    tail_le := hs.tail_le
    listed := ?_
    point_lt := hgoto.point_lt
    behind := fun a ha => (hs.behind a ha).imp
      (List.mem_append_left _) (List.mem_append_left _)
    granted_lt := ?_
    in_order := inTicketOrder_snoc hs.in_order (by simp)
    written := hgoto.written }
  · change s.dev.ticketHead = _
    simp [State.abandon, hhead]
  · intro x hx
    change x ∈ s.dev.terminatedTickets.orderedInsert (· ≤ ·) (toInt32 ticket) at hx
    change ofInt32 x < s.dev.ticketHead ∧ _ ∈ s.log ++ [Event.terminated ticket]
    rcases (List.mem_orderedInsert (· ≤ ·)).mp hx with rfl | hx
    · rw [ofInt32_toInt32 (by omega)]
      exact ⟨ht, by simp⟩
    · exact ⟨(hs.listed x hx).1, List.mem_append_left _ (hs.listed x hx).2⟩
  · intro a ha
    change _ ∈ s.log ++ [Event.terminated ticket] at ha
    exact hs.granted_lt a (by simpa using ha)

theorem inside_lockPart : (lockPart r k f ticket).inside = some (k, f, ticket) := by
  cases r <;> rfl

theorem inside_readPart {file : File} {k' : Kind} {f' : FileId} {t : Nat}
    (h : (readPart r file f ticket).inside = some (k', f', t)) :
    k' = .read ∧ f' = f ∧ t = ticket := by
  unfold readPart at h
  split at h
  · rw [inside_lockPart] at h
    simp only [Option.some.injEq, Prod.mk.injEq] at h
    exact ⟨h.1.symm, h.2.1.symm, h.2.2.symm⟩
  · simp [Point.inside] at h

theorem inside_writePart {file : File} {k' : Kind} {f' : FileId} {t : Nat}
    (h : (writePart r file f ticket).inside = some (k', f', t)) :
    t = ticket ∧ (k' = .read → f' = f ∧ file.writable = false) := by
  unfold writePart at h
  split at h
  · rw [inside_lockPart] at h
    simp only [Option.some.injEq, Prod.mk.injEq] at h
    exact ⟨h.2.2.symm, fun hk => by simp [hk] at h⟩
  · rename_i hw
    obtain ⟨_, hf, ht⟩ := inside_readPart h
    exact ⟨ht, fun _ => ⟨hf, by simpa using hw⟩⟩

theorem inside_afterGrant {file : File} {k' : Kind} {f' : FileId} {t : Nat}
    (h : (afterGrant r k file f ticket).inside = some (k', f', t)) : t = ticket := by
  cases k with
  | write => exact (inside_readPart h).2.2
  | read => simp [afterGrant, Point.inside] at h

theorem Tickets.beginLock (hs : Tickets s) (hfew : (s.beginLock r p f).issued < 4294967296) :
    Tickets (s.beginLock r p f) := by
  have hhead := hs.head_eq
  have hcount : (s.beginLock r p f).issued = s.issued + 1 := by
    unfold State.beginLock
    simp only []
    split <;> simp [State.abandon, State.goto, State.issued, List.countP_append, List.countP_cons]
  have hwrap : u32 (s.dev.ticketHead + 1) = s.dev.ticketHead + 1 := u32_of_lt (by omega)
  have hissued : Tickets { s with
      dev := { s.dev with ticketHead := u32 (s.dev.ticketHead + 1) }
      log := s.log ++ [Event.issued s.dev.ticketHead] } := by
    rw [hwrap]
    exact {
      head_eq := by simp [hhead]
      tail_le := Nat.le_succ_of_le hs.tail_le
      listed := fun x hx => ⟨Nat.lt_succ_of_lt (hs.listed x hx).1,
        List.mem_append_left _ (hs.listed x hx).2⟩
      point_lt := fun p k f t h => Nat.lt_succ_of_lt (hs.point_lt p k f t h)
      behind := fun a ha => (hs.behind a ha).imp
        (List.mem_append_left _) (List.mem_append_left _)
      granted_lt := fun a ha => hs.granted_lt a (by simpa using ha)
      in_order := inTicketOrder_snoc hs.in_order (by simp)
      written := hs.written }
  unfold State.beginLock
  simp only []
  split
  · refine hissued.abandon (by simp; omega) ?_
    change s.dev.ticketHead < u32 (s.dev.ticketHead + 1)
    omega
  · refine hissued.goto ?_ ?_
    · intro k f' t h
      change t < u32 (s.dev.ticketHead + 1)
      have := (inside_writePart h).1
      omega
    · intro f' t h hw
      obtain ⟨rfl, hfile⟩ := (inside_writePart h).2 rfl
      change (s.files f').writable = true at hw
      simp [hw] at hfile

theorem Tickets.grant (hs : Tickets s) (hfew : s.issued < 4294967296)
    (hlt : ticket < s.dev.ticketHead) (htail : ticket = s.dev.ticketTail) :
    Tickets (s.grant r k p f ticket) := by
  have hhead := hs.head_eq
  have hwrap : u32 (s.dev.ticketTail + 1) = s.dev.ticketTail + 1 := u32_of_lt (by omega)
  have hdev : (getLock k p s.dev).ticketTail = s.dev.ticketTail + 1 ∧
      (getLock k p s.dev).ticketHead = s.dev.ticketHead ∧
      (getLock k p s.dev).terminatedTickets = s.dev.terminatedTickets := by
    cases k <;> exact ⟨hwrap, rfl, rfl⟩
  obtain ⟨hdtail, hdhead, hdlist⟩ := hdev
  have hpoint : ∀ q k' f' t, ((s.grant r k p f ticket).procs q).inside = some (k', f', t) →
      (q = p ∧ t = ticket) ∨ (s.procs q).inside = some (k', f', t) := by
    intro q k' f' t hq
    by_cases hqp : q = p
    · subst q
      change (((s.setLocked f true).goto p _).procs p).inside = _ at hq
      rw [goto_self] at hq
      exact .inl ⟨rfl, inside_afterGrant hq⟩
    · change (((s.setLocked f true).goto p _).procs q).inside = _ at hq
      rw [goto_other hqp] at hq
      exact .inr hq
  refine {
    head_eq := ?_
    tail_le := ?_
    listed := ?_
    point_lt := ?_
    behind := ?_
    granted_lt := ?_
    in_order := ?_
    written := ?_ }
  · change (getLock k p s.dev).ticketHead = _
    simp [State.grant, hdhead, hhead]
  · change (getLock k p s.dev).ticketTail ≤ (getLock k p s.dev).ticketHead
    omega
  · intro x hx
    change x ∈ (getLock k p s.dev).terminatedTickets at hx
    rw [hdlist] at hx
    change ofInt32 x < (getLock k p s.dev).ticketHead ∧ _ ∈ s.log ++ _
    rw [hdhead]
    exact ⟨(hs.listed x hx).1, List.mem_append_left _ (hs.listed x hx).2⟩
  · intro q k' f' t hq
    change t < (getLock k p s.dev).ticketHead
    rw [hdhead]
    rcases hpoint q k' f' t hq with ⟨_, rfl⟩ | hq
    · exact hlt
    · exact hs.point_lt q k' f' t hq
  · intro a ha
    change a < (getLock k p s.dev).ticketTail at ha
    change _ ∈ s.log ++ [Event.granted ticket] ∨ _ ∈ s.log ++ [Event.granted ticket]
    by_cases hat : a = ticket
    · exact .inl (by simp [hat])
    · exact (hs.behind a (by omega)).imp (List.mem_append_left _) (List.mem_append_left _)
  · intro a ha
    change Event.granted a ∈ s.log ++ [Event.granted ticket] at ha
    change a < (getLock k p s.dev).ticketTail
    rcases List.mem_append.mp ha with ha | ha
    · have := hs.granted_lt a ha
      omega
    · have hat : a = ticket := by simpa using ha
      omega
  · apply inTicketOrder_snoc hs.in_order
    intro b hb
    obtain rfl : ticket = b := by simpa using hb
    refine ⟨fun a ha => hs.behind a (by omega), fun hmem => ?_⟩
    have := hs.granted_lt ticket hmem
    omega
  · intro q f' t hq hw
    change t < (getLock k p s.dev).ticketTail
    change ((s.setLocked f true).files f').writable = true at hw
    rw [writable_setLocked] at hw
    rcases hpoint q .read f' t hq with ⟨_, rfl⟩ | hq
    · omega
    · have := hs.written q f' t hq hw
      omega

@[simp] theorem inside_awake (pt : Point) : pt.awake.inside = pt.inside := by
  cases pt <;> rfl

theorem dropLock_tickets (file : File) (p : Pid) (d : Device) :
    (dropLock file p d).ticketHead = d.ticketHead ∧
      (dropLock file p d).ticketTail = d.ticketTail ∧
      (dropLock file p d).terminatedTickets = d.terminatedTickets := by
  unfold dropLock
  cases file.writable <;> cases file.readable <;> exact ⟨rfl, rfl, rfl⟩

theorem Tickets.unlock (hs : Tickets s) : Tickets (s.unlock p f) := by
  obtain ⟨hhead, htail, hlist⟩ := dropLock_tickets (s.files f) p s.dev
  refine {
    head_eq := hhead.trans hs.head_eq
    tail_le := ?_
    listed := ?_
    point_lt := ?_
    behind := ?_
    granted_lt := ?_
    in_order := hs.in_order
    written := ?_ }
  · change (dropLock (s.files f) p s.dev).ticketTail ≤ (dropLock (s.files f) p s.dev).ticketHead
    rw [hhead, htail]
    exact hs.tail_le
  · intro x hx
    change x ∈ (dropLock (s.files f) p s.dev).terminatedTickets at hx
    change ofInt32 x < (dropLock (s.files f) p s.dev).ticketHead ∧ _
    rw [hlist] at hx
    rw [hhead]
    exact hs.listed x hx
  · intro q k f' t hq
    change t < (dropLock (s.files f) p s.dev).ticketHead
    rw [hhead]
    change (s.procs q).awake.inside = _ at hq
    rw [inside_awake] at hq
    exact hs.point_lt q k f' t hq
  · intro a ha
    change a < (dropLock (s.files f) p s.dev).ticketTail at ha
    rw [htail] at ha
    exact hs.behind a ha
  · intro a ha
    change a < (dropLock (s.files f) p s.dev).ticketTail
    rw [htail]
    exact hs.granted_lt a ha
  · intro q f' t hq hw
    change t < (dropLock (s.files f) p s.dev).ticketTail
    rw [htail]
    change (s.procs q).awake.inside = _ at hq
    change ((s.setLocked f false).files f').writable = true at hw
    rw [inside_awake] at hq
    rw [writable_setLocked] at hw
    exact hs.written q f' t hq hw

theorem Tickets.setFile {file : File} (hs : Tickets s)
    (hfile : file.writable = true → (s.files f).writable = true ∨ s.Unused f) :
    Tickets { s with files := Function.update s.files f file } where
  head_eq := hs.head_eq
  tail_le := hs.tail_le
  listed := hs.listed
  point_lt := hs.point_lt
  behind := hs.behind
  granted_lt := hs.granted_lt
  in_order := hs.in_order
  written := by
    intro q f' t hq hw
    change (s.procs q).inside = _ at hq
    change (Function.update s.files f file f').writable = true at hw
    by_cases heq : f' = f
    · subst f'
      rw [Function.update_self] at hw
      rcases hfile hw with hold | hunused
      · exact hs.written q f t hq hold
      · exact absurd rfl (hunused q .read f t hq)
    · rw [Function.update_of_ne heq] at hw
      exact hs.written q f' t hq hw

theorem Tickets.runSection (hs : Tickets s) (hfew : s.issued < 4294967296) :
    Tickets (s.runSection p) := by
  have hready : ∀ {k ticket}, Tickets { s with dev := (Ramdisk.ready k s.dev ticket).2 } :=
    hs.ready hfew
  unfold State.runSection
  split
  · exact hs
  · exact hs
  · rename_i k f ticket hpoint
    have hinside : (s.procs p).inside = some (k, f, ticket) := by simp [hpoint, Point.inside]
    split
    · exact hs.abandon hfew (hs.point_lt p k f ticket hinside)
    · exact hs.stay hinside.symm
  · rename_i k f ticket hpoint
    have hinside : (s.procs p).inside = some (k, f, ticket) := by simp [hpoint, Point.inside]
    simp only []
    split
    · rename_i hnow
      exact hready.grant hfew (hready.point_lt p k f ticket hinside) (tail_eq_of_ready hnow)
    · exact hready.stay hinside.symm
  · rename_i k f ticket hpoint
    have hinside : (s.procs p).inside = some (k, f, ticket) := by simp [hpoint, Point.inside]
    exact hs.abandon hfew (hs.point_lt p k f ticket hinside)
  · rename_i k f ticket hpoint
    have hinside : (s.procs p).inside = some (k, f, ticket) := by simp [hpoint, Point.inside]
    split
    · exact hs.abandon hfew (hs.point_lt p k f ticket hinside)
    · simp only []
      split
      · rename_i hnow
        exact hready.grant hfew (hready.point_lt p k f ticket hinside) (tail_eq_of_ready hnow)
      · exact hready.abandon hfew (hready.point_lt p k f ticket hinside)

theorem Tickets.evaluate {signalPending : Bool} (hs : Tickets s) (hfew : s.issued < 4294967296) :
    Tickets (s.evaluate p signalPending) := by
  unfold State.evaluate
  split
  · rename_i k f ticket asleep hpoint
    have hinside : (s.procs p).inside = some (k, f, ticket) := by simp [hpoint, Point.inside]
    refine (hs.ready hfew).stay ?_
    change _ = (s.procs p).inside
    rw [hinside]
    split
    · rfl
    · split <;> rfl
  · exact hs

theorem issued_le_next (s : State) (a : Action) : s.issued ≤ (next s a).issued := by
  have hlog : ∃ l, (next s a).log = s.log ++ l := by
    cases a with
    | openFile f r w => exact ⟨[], (List.append_nil _).symm⟩
    | request r p f =>
      simp only [next, State.beginLock]
      split
      · exact ⟨[.issued s.dev.ticketHead, .terminated s.dev.ticketHead],
          by simp [State.abandon]⟩
      · exact ⟨[.issued s.dev.ticketHead], rfl⟩
    | release p f =>
      simp only [next, State.release]
      split <;> exact ⟨[], (List.append_nil _).symm⟩
    | closeLast p f =>
      simp only [next, State.closeLast]
      split <;> exact ⟨[], (List.append_nil _).symm⟩
    | runSection p =>
      simp only [next, State.runSection]
      split
      · exact ⟨[], (List.append_nil _).symm⟩
      · exact ⟨[], (List.append_nil _).symm⟩
      · split
        · exact ⟨_, rfl⟩
        · exact ⟨[], (List.append_nil _).symm⟩
      · split
        · exact ⟨_, rfl⟩
        · exact ⟨[], (List.append_nil _).symm⟩
      · exact ⟨_, rfl⟩
      · split
        · exact ⟨_, rfl⟩
        · split <;> exact ⟨_, rfl⟩
    | evaluate p b =>
      simp only [next, State.evaluate]
      split <;> exact ⟨[], (List.append_nil _).symm⟩
    | signal p => exact ⟨[], (List.append_nil _).symm⟩
  obtain ⟨l, hl⟩ := hlog
  simp [State.issued, hl, List.countP_append]

theorem Tickets.next {a : Action} (hs : Tickets s) (henabled : Enabled s a)
    (hfew : (next s a).issued < 4294967296) : Tickets (next s a) := by
  have hbefore : s.issued < 4294967296 := Nat.lt_of_le_of_lt (issued_le_next s a) hfew
  cases a with
  | openFile f r w => exact hs.setFile fun _ => .inr henabled.2
  | request r p f => exact hs.beginLock hfew
  | release p f =>
    simp only [Ramdisk.next, State.release]
    split
    · exact hs.unlock.user
    · exact hs.user
  | closeLast p f =>
    simp only [Ramdisk.next, State.closeLast]
    split
    · exact hs.unlock.setFile fun h => .inl h
    · exact hs.setFile fun h => .inl h
  | runSection p => exact hs.runSection hbefore
  | evaluate p b => exact hs.evaluate hbefore
  | signal p => exact hs.stay (inside_awake _)

theorem run_tickets {as : List Action} (h : Run Step State.init as s)
    (hfew : s.issued < 4294967296) : Tickets s := by
  refine Run.invariant (P := fun s => s.issued < 4294967296 → Tickets s) ?_
    (fun _ => tickets_init) h hfew
  rintro t a r ht ⟨henabled, rfl⟩ hr
  exact (ht (Nat.lt_of_le_of_lt (issued_le_next t a) hr)).next henabled hr

/-- As long as no counter has wrapped, no read lock is granted to a file open for writing. -/
theorem Tickets.not_grantsReadToWriter (hs : Tickets s) (hfew : s.issued < 4294967296)
    (a : Action) : ¬ GrantsReadToWriter s a := by
  rintro ⟨p, f, ticket, _, hpoint, hw, hnow⟩
  have hinside : (s.procs p).inside = some (.read, f, ticket) := by
    rcases hpoint with h | h <;> simp [h, Point.inside]
  have hserved := hs.written p f ticket hinside hw
  have htail := tail_eq_of_ready hnow
  have hle := (hs.tail_advance hfew .read ticket).1
  omega

/-- For runs in which fewer than `2 ^ 32` tickets are issued, in any interleaving. -/
theorem locks_granted_in_ticket_order {as : List Action} (h : Run Step State.init as s)
    (hfew : s.issued < 4294967296) : InTicketOrder s.log :=
  (run_tickets h hfew).in_order

theorem locks_granted_in_ticket_order_two_files :
    ∃ as s, Run Step State.init as s ∧ Event.granted 1 ∈ s.log ∧ InTicketOrder s.log :=
  let as : List Action := [.openFile 1 false true, .openFile 2 true false,
    .request .acquire 1 1, .runSection 1, .runSection 1, .request .acquire 2 2,
    .runSection 2, .runSection 2, .release 1 1, .evaluate 2 false, .runSection 2]
  have hrun : Run Step State.init as (as.foldl next State.init) :=
    Run.of_allEnabled ⟨⟨rfl, fun _ _ _ _ h => by cases h⟩, ⟨rfl, fun _ _ _ _ h => by cases h⟩,
      ⟨rfl, rfl⟩, rfl, rfl, ⟨rfl, rfl⟩, rfl, rfl, ⟨rfl, rfl⟩, ⟨.read, 2, 1, rfl⟩, rfl, trivial⟩
  ⟨as, _, hrun, by decide, locks_granted_in_ticket_order hrun (by decide)⟩

end CS111.Ramdisk
