import CS111.Ramdisk.Effects

/-!
# The queue of tickets has no gap

Between `ticket_tail` and `ticket_head` every ticket belongs to a process that is still in its
ioctl or stands in the sorted list of terminated tickets, so the loop of `can_run_ticket` moves
the tail on to the smallest ticket that is still waited for.
-/

namespace CS111.Ramdisk

set_option autoImplicit false

section Skip

theorem toInt32_of_lt {n : Nat} (h : n < 2147483648) : toInt32 n = n := if_pos h

theorem ofInt32_of_lt {x : Int} (h0 : 0 ≤ x) (h : x < 2147483648) : ofInt32 x = x.toNat := by
  unfold ofInt32
  rw [Int.emod_eq_of_lt h0 (by omega)]

/-- The tail passes the terminated tickets before it and stops at the first other one. -/
theorem skipTerminated_eq {l : List Int} {tail m ticket : Nat} (hsorted : l.Pairwise (· ≤ ·))
    (hl : ∀ x ∈ l, 0 ≤ x ∧ x < 2147483648) (hm : m ≤ ticket) (hlt : ticket < 2147483648)
    (hle : tail ≤ m) (hall : ∀ a : Nat, tail ≤ a → a < m → (a : Int) ∈ l)
    (hstop : m = ticket ∨ (m : Int) ∉ l) : skipTerminated ticket l tail = m := by
  induction l generalizing tail with
  | nil =>
    by_contra hne
    have hmem := hall tail (Nat.le_refl _) (by simp only [skipTerminated] at hne; omega)
    simp at hmem
  | cons curr rest ih =>
    obtain ⟨hfirst, hsorted'⟩ := List.pairwise_cons.mp hsorted
    obtain ⟨h0, h1⟩ := hl curr List.mem_cons_self
    have hl' : ∀ x ∈ rest, 0 ≤ x ∧ x < 2147483648 := fun x hx => hl x (List.mem_cons_of_mem _ hx)
    have hstop' : m = ticket ∨ (m : Int) ∉ rest :=
      hstop.imp_right fun h hx => h (List.mem_cons_of_mem _ hx)
    rw [skipTerminated, ofInt32_of_lt h0 h1]
    split
    · next hcurr =>
      split
      · next heq =>
        have hne : tail ≠ m := by
          rintro rfl
          rcases hstop with h | h
          · omega
          · exact h (by rw [← heq, Int.toNat_of_nonneg h0]; exact List.mem_cons_self)
        rw [u32_of_lt (by omega)]
        apply ih hsorted' hl' (by omega) ?_ hstop'
        intro a ha1 ha2
        rcases List.mem_cons.mp (hall a (by omega) ha2) with h | h
        · omega
        · exact h
      · next hne =>
        apply ih hsorted' hl' hle ?_ hstop'
        intro a ha1 ha2
        rcases List.mem_cons.mp (hall a ha1 ha2) with h | h
        · rcases List.mem_cons.mp (hall tail (Nat.le_refl _) (by omega)) with h' | h'
          · omega
          · have := hfirst _ h'
            omega
        · exact h
    · next hcurr =>
      by_contra hne
      rcases List.mem_cons.mp (hall tail (Nat.le_refl _) (by omega)) with h | h
      · omega
      · have := hfirst _ h
        omega

end Skip

section Queue

/-- The lock request each process is in, as `State.inside` gives it. -/
abbrev Requests := Pid → Option (Kind × FileId × Nat)

/-- Some process holds the ticket and has neither been granted its lock nor given up. -/
def Pending (req : Requests) (ticket : Nat) : Prop := ∃ p k f, req p = some (k, f, ticket)

structure Queue (d : Device) (req : Requests) : Prop where
  sorted : d.terminatedTickets.Pairwise (· ≤ ·)
  listed : ∀ x ∈ d.terminatedTickets, 0 ≤ x ∧ x < d.ticketHead
  tail_le : d.ticketTail ≤ d.ticketHead
  covered : ∀ t, d.ticketTail ≤ t → t < d.ticketHead →
    Pending req t ∨ (t : Int) ∈ d.terminatedTickets
  waiting : ∀ {p k f t}, req p = some (k, f, t) →
    d.ticketTail ≤ t ∧ t < d.ticketHead ∧ (t : Int) ∉ d.terminatedTickets
  distinct : ∀ {p q k k' f f' t}, req p = some (k, f, t) → req q = some (k', f', t) → p = q

namespace Queue
variable {d d' : Device} {req : Requests} {p : Pid} {k : Kind} {f : FileId} {ticket t : Nat}

theorem congr (hq : Queue d req) (hhead : d'.ticketHead = d.ticketHead)
    (htail : d'.ticketTail = d.ticketTail)
    (hlist : d'.terminatedTickets = d.terminatedTickets) : Queue d' req where
  sorted := by rw [hlist]; exact hq.sorted
  listed := by rw [hlist, hhead]; exact hq.listed
  tail_le := by rw [htail, hhead]; exact hq.tail_le
  covered := by rw [htail, hhead, hlist]; exact hq.covered
  waiting := by rw [htail, hhead, hlist]; exact hq.waiting
  distinct := hq.distinct

/-- Any waiting ticket makes the tail move to the smallest one. -/
theorem skip_eq (hq : Queue d req) (hfew : d.ticketHead < 2147483648) {m : Nat}
    (hm : Pending req m) (hleast : ∀ u, Pending req u → m ≤ u) (ht : Pending req t) :
    skipTerminated (toInt32 t) d.terminatedTickets d.ticketTail = m := by
  obtain ⟨p, k, f, hp⟩ := ht
  obtain ⟨q, k', f', hq'⟩ := hm
  obtain ⟨hm1, hm2, hm3⟩ := hq.waiting hq'
  have ht2 := (hq.waiting hp).2.1
  rw [toInt32_of_lt (by omega)]
  apply skipTerminated_eq hq.sorted _ (hleast t ⟨p, k, f, hp⟩) (by omega) hm1 _ (.inr hm3)
  · intro x hx
    have := hq.listed x hx
    omega
  · intro a ha1 ha2
    rcases hq.covered a ha1 (by omega) with h | h
    · have := hleast a h
      omega
    · exact h

theorem exists_least (h : Pending req t) :
    ∃ m, Pending req m ∧ m ≤ t ∧ ∀ u, Pending req u → m ≤ u := by
  classical
  exact ⟨Nat.find ⟨t, h⟩, Nat.find_spec ⟨t, h⟩, Nat.find_min' _ h, fun u hu => Nat.find_min' _ hu⟩

theorem canRun_least (hq : Queue d req) (hfew : d.ticketHead < 2147483648)
    (ht : Pending req t) (hleast : ∀ u, Pending req u → t ≤ u) : (canRunTicket d t).1 = true := by
  rw [canRunTicket]
  exact beq_iff_eq.mpr (hq.skip_eq hfew ht hleast ht).symm

theorem canRun_later (hq : Queue d req) (hfew : d.ticketHead < 2147483648)
    (ht : Pending req t) {u : Nat} (hu : Pending req u) (hlt : u < t) :
    (canRunTicket d t).1 = false := by
  obtain ⟨m, hm, _, hleast⟩ := exists_least ht
  have hmu := hleast u hu
  rw [canRunTicket]
  simp only [hq.skip_eq hfew hm hleast ht, beq_eq_false_iff_ne]
  omega

/-- Looking at a condition leaves the queue as it is, with the tail moved on. -/
theorem look (hq : Queue d req) (hfew : d.ticketHead < 2147483648)
    (hp : req p = some (k, f, ticket)) : Queue (ready k d ticket).2 req := by
  rw [ready_eq_advance]
  rcases ready_tail k d ticket with h | h
  · rw [h]
    exact hq.congr rfl rfl rfl
  · obtain ⟨m, hm, hmt, hleast⟩ := exists_least (⟨p, k, f, hp⟩ : Pending req ticket)
    rw [h, hq.skip_eq hfew hm hleast ⟨p, k, f, hp⟩]
    obtain ⟨q, k', f', hq'⟩ := hm
    obtain ⟨hm1, hm2, _⟩ := hq.waiting hq'
    exact {
      sorted := hq.sorted
      listed := hq.listed
      tail_le := Nat.le_of_lt hm2
      covered := fun t ht => hq.covered t (Nat.le_trans hm1 ht)
      waiting := fun hp => ⟨hleast _ ⟨_, _, _, hp⟩, (hq.waiting hp).2⟩
      distinct := hq.distinct }

theorem pending_update (hp : req p = some (k, f, ticket)) {u : Nat} (hu : Pending req u) :
    u = ticket ∨ Pending (Function.update req p none) u := by
  obtain ⟨q, k', f', hq'⟩ := hu
  by_cases hqp : q = p
  · subst q
    rw [hp] at hq'
    simp only [Option.some.injEq, Prod.mk.injEq] at hq'
    exact .inl hq'.2.2.symm
  · exact .inr ⟨q, k', f', by rw [Function.update_of_ne hqp]; exact hq'⟩

theorem of_update {q : Pid} {x : Kind × FileId × Nat}
    (h : Function.update req p none q = some x) : q ≠ p ∧ req q = some x := by
  by_cases hqp : q = p
  · subst q
    simp at h
  · rw [Function.update_of_ne hqp] at h
    exact ⟨hqp, h⟩

/-- A ticket that is given up goes into the list. -/
theorem terminate (hq : Queue d req) (hfew : d.ticketHead < 2147483648)
    (hp : req p = some (k, f, ticket)) :
    Queue (terminateTicket d ticket) (Function.update req p none) := by
  obtain ⟨ht1, ht2, ht3⟩ := hq.waiting hp
  have hint : toInt32 ticket = ticket := toInt32_of_lt (by omega)
  have hmem : ∀ x, x ∈ (terminateTicket d ticket).terminatedTickets ↔
      x = ticket ∨ x ∈ d.terminatedTickets := by
    intro x
    rw [← hint]
    exact List.mem_orderedInsert (· ≤ ·)
  constructor
  · exact hq.sorted.orderedInsert _ _
  · intro x hx
    rcases (hmem x).mp hx with rfl | hx
    · change 0 ≤ (ticket : Int) ∧ (ticket : Int) < d.ticketHead
      omega
    · exact hq.listed x hx
  · exact hq.tail_le
  · intro t h1 h2
    rcases hq.covered t h1 h2 with h | h
    · rcases pending_update hp h with rfl | h
      · exact .inr ((hmem _).mpr (.inl rfl))
      · exact .inl h
    · exact .inr ((hmem _).mpr (.inr h))
  · intro q k' f' t h
    obtain ⟨hqp, h⟩ := of_update h
    obtain ⟨h1, h2, h3⟩ := hq.waiting h
    refine ⟨h1, h2, fun hx => ?_⟩
    rcases (hmem _).mp hx with hx | hx
    · have htt : t = ticket := by omega
      subst htt
      exact hqp (hq.distinct h hp)
    · exact h3 hx
  · intro q q' k' k'' f' f'' t h h'
    exact hq.distinct (of_update h).2 (of_update h').2

/-- A granted ticket is the one at the tail. -/
theorem serve (hq : Queue d req) (hfew : d.ticketHead < 2147483648)
    (hp : req p = some (k, f, ticket)) (htail : ticket = d.ticketTail) :
    Queue (getLock k p d) (Function.update req p none) := by
  obtain ⟨ht1, ht2, ht3⟩ := hq.waiting hp
  have hwrap : u32 (d.ticketTail + 1) = d.ticketTail + 1 := u32_of_lt (by omega)
  have hdev : (getLock k p d).ticketTail = d.ticketTail + 1 ∧
      (getLock k p d).ticketHead = d.ticketHead ∧
      (getLock k p d).terminatedTickets = d.terminatedTickets := by
    cases k <;> exact ⟨hwrap, rfl, rfl⟩
  obtain ⟨h1, h2, h3⟩ := hdev
  constructor
  · rw [h3]
    exact hq.sorted
  · rw [h2, h3]
    exact hq.listed
  · omega
  · intro t hlo hhi
    rw [h1] at hlo
    rw [h2] at hhi
    rw [h3]
    apply (hq.covered t (by omega) hhi).imp_left
    intro h
    rcases pending_update hp h with heq | h
    · omega
    · exact h
  · intro q k' f' t h
    obtain ⟨hqp, h⟩ := of_update h
    obtain ⟨hlo, hhi, hnot⟩ := hq.waiting h
    rw [h1, h2, h3]
    refine ⟨?_, hhi, hnot⟩
    by_contra hlt
    have htt : t = ticket := by omega
    subst htt
    exact hqp (hq.distinct h hp)
  · intro q q' k' k'' f' f'' t h h'
    exact hq.distinct (of_update h).2 (of_update h').2

/-- A new ticket goes to a process that is in no request. -/
theorem issue (hq : Queue d req) (hfew : d.ticketHead < 2147483648) (hp : req p = none) :
    Queue { d with ticketHead := u32 (d.ticketHead + 1) }
      (Function.update req p (some (k, f, d.ticketHead))) := by
  have hwrap : u32 (d.ticketHead + 1) = d.ticketHead + 1 := u32_of_lt (by omega)
  rw [hwrap]
  have hnew : ∀ {q k' f' t}, Function.update req p (some (k, f, d.ticketHead)) q =
      some (k', f', t) → (q = p ∧ t = d.ticketHead) ∨ (q ≠ p ∧ req q = some (k', f', t)) := by
    intro q k' f' t h
    by_cases hqp : q = p
    · subst q
      rw [Function.update_self] at h
      simp only [Option.some.injEq, Prod.mk.injEq] at h
      exact .inl ⟨rfl, h.2.2.symm⟩
    · rw [Function.update_of_ne hqp] at h
      exact .inr ⟨hqp, h⟩
  constructor
  · exact hq.sorted
  · intro x hx
    have := hq.listed x hx
    change 0 ≤ x ∧ x < ((d.ticketHead + 1 : Nat) : Int)
    omega
  · exact Nat.le_succ_of_le hq.tail_le
  · intro t hlo hhi
    change t < d.ticketHead + 1 at hhi
    by_cases ht : t = d.ticketHead
    · subst ht
      exact .inl ⟨p, k, f, Function.update_self _ _ _⟩
    · apply (hq.covered t hlo (by omega)).imp_left
      rintro ⟨q, k', f', h⟩
      have hqp : q ≠ p := by
        rintro rfl
        rw [hp] at h
        simp at h
      exact ⟨q, k', f', by rw [Function.update_of_ne hqp]; exact h⟩
  · intro q k' f' t h
    change d.ticketTail ≤ t ∧ t < d.ticketHead + 1 ∧ (t : Int) ∉ d.terminatedTickets
    rcases hnew h with ⟨_, rfl⟩ | ⟨_, h⟩
    · refine ⟨hq.tail_le, by omega, fun hx => ?_⟩
      have := hq.listed _ hx
      omega
    · obtain ⟨h1, h2, h3⟩ := hq.waiting h
      exact ⟨h1, by omega, h3⟩
  · intro q q' k' k'' f' f'' t h h'
    rcases hnew h with ⟨h1, h2⟩ | ⟨_, h1⟩ <;> rcases hnew h' with ⟨h3, h4⟩ | ⟨_, h3⟩
    · exact h1.trans h3.symm
    · have := (hq.waiting h3).2.1
      omega
    · have := (hq.waiting h1).2.1
      omega
    · exact hq.distinct h1 h3

end Queue

end Queue

section Runs
variable {s t : State} {a : Action} {as : List Action} {p : Pid} {k : Kind} {f : FileId} {u : Nat}

/-- Files are opened either for reading or for writing. -/
def SingleMode : Action → Prop
  | .openFile _ r w => r ≠ w
  | _ => True

/-- A terminated ticket stays in the list. -/
def Recorded (d : Device) (log : List Event) : Prop :=
  ∀ u, Event.terminated u ∈ log → u < 2147483648 → (u : Int) ∈ d.terminatedTickets

structure Ordered (s : State) : Prop where
  queue : Queue s.dev s.inside
  inUse : InUse s
  oneMode : ∀ f, (s.files f).opened = true → (s.files f).readable ≠ (s.files f).writable
  recorded : Recorded s.dev s.log

theorem ordered_init : Ordered State.init where
  queue := {
    sorted := List.Pairwise.nil
    listed := fun x hx => by simp [State.init, osprdSetup] at hx
    tail_le := Nat.le_refl _
    covered := fun t _ ht => absurd ht (Nat.not_lt_zero _)
    waiting := fun h => by simp [State.inside, State.init, Point.inside] at h
    distinct := fun h => by simp [State.inside, State.init, Point.inside] at h }
  inUse := inUse_init
  oneMode := fun f h => by simp [State.init] at h
  recorded := fun u h => by simp [State.init] at h

/-- With one mode the ioctl of a granted request is over. -/
theorem afterGrant_user {r : Request} {file : File} (hserves : file.serves k = true)
    (hmode : file.opened = true → file.readable ≠ file.writable) :
    (afterGrant r k file f u).inside = none := by
  cases k with
  | read => rfl
  | write =>
    simp only [File.serves, Bool.and_eq_true] at hserves
    have hr : file.readable = false := by
      have hne := hmode hserves.1
      rw [hserves.2] at hne
      exact Bool.eq_false_of_not_eq_true hne
    simp only [afterGrant, readPart, hr, Bool.false_eq_true, if_false]
    rfl

/-- With one mode a request has exactly one lock part. -/
theorem writePart_inside {r : Request} {file : File} (ho : file.opened = true)
    (hmode : file.opened = true → file.readable ≠ file.writable) :
    ∃ k, (writePart r file f u).inside = some (k, f, u) := by
  unfold writePart
  cases hw : file.writable with
  | true =>
    rw [if_pos rfl]
    exact ⟨_, inside_lockPart⟩
  | false =>
    have hr : file.readable = true := by
      have hne := hmode ho
      rw [hw] at hne
      exact Bool.eq_true_of_not_eq_false hne
    rw [if_neg (by simp), readPart, if_pos hr]
    exact ⟨_, inside_lockPart⟩

theorem modes_step (h : Step s a t) (hmode : SingleMode a)
    (hs : ∀ f, (s.files f).opened = true → (s.files f).readable ≠ (s.files f).writable) (g : FileId)
    (hg : (t.files g).opened = true) : (t.files g).readable ≠ (t.files g).writable := by
  have hset : ∀ {s' : State} {f : FileId} {b : Bool}, s'.files = s.files →
      ((s'.setLocked f b).files g).opened = true →
      ((s'.setLocked f b).files g).readable ≠ ((s'.setLocked f b).files g).writable := by
    intro s' f b heq ho
    by_cases hgf : g = f
    · subst g
      simp only [State.setLocked, Function.update_self, heq] at ho ⊢
      exact hs f ho
    · simp only [State.setLocked, Function.update_of_ne hgf, heq] at ho ⊢
      exact hs g ho
  have hclose : ∀ {files : FileId → File} {f : FileId},
      ((files g).opened = true → (files g).readable ≠ (files g).writable) →
      (Function.update files f { files f with opened := false } g).opened = true →
      (Function.update files f { files f with opened := false } g).readable ≠
        (Function.update files f { files f with opened := false } g).writable := by
    intro files f hfiles ho
    by_cases hgf : g = f
    · subst g
      simp only [Function.update_self, Bool.false_eq_true] at ho
    · rw [Function.update_of_ne hgf] at ho ⊢
      exact hfiles ho
  cases h.effect with
  | @opened f r w _ _ =>
    change (Function.update s.files f ⟨true, r, w, false⟩ g).opened = true at hg
    change (Function.update s.files f ⟨true, r, w, false⟩ g).readable ≠
      (Function.update s.files f ⟨true, r, w, false⟩ g).writable
    by_cases hgf : g = f
    · rw [hgf, Function.update_self]
      exact hmode
    · rw [Function.update_of_ne hgf] at hg ⊢
      exact hs g hg
  | released => exact hset rfl hg
  | closed => exact hclose (hs g) hg
  | closedLocked => exact hclose (hset rfl) hg
  | granted => exact hset rfl hg
  | _ => exact hs g hg

theorem Recorded.terminate {d : Device} {log : List Event} (h : Recorded d log) (u : Nat) :
    Recorded (terminateTicket d u) (log ++ [.terminated u]) := by
  intro v hv hlt
  apply (List.mem_orderedInsert (· ≤ ·)).mpr
  rcases List.mem_append.mp hv with hv | hv
  · exact .inr (h v hv hlt)
  · have hvu : v = u := by simpa using hv
    rw [← hvu]
    exact .inl (toInt32_of_lt hlt).symm

theorem Recorded.congr {d d' : Device} {log log' : List Event} (h : Recorded d log)
    (hlist : d'.terminatedTickets = d.terminatedTickets)
    (hlog : ∀ u, Event.terminated u ∈ log' → Event.terminated u ∈ log) : Recorded d' log' := by
  intro v hv hlt
  rw [hlist]
  exact h v (hlog v hv) hlt

theorem ready_list (k : Kind) (d : Device) (u : Nat) :
    (ready k d u).2.terminatedTickets = d.terminatedTickets := by
  rw [ready_eq_advance]

theorem recorded_step (h : Step s a t) (hs : Recorded s.dev s.log) : Recorded t.dev t.log := by
  have hlook : ∀ k u, Recorded (s.looked k u).dev s.log := fun k u =>
    hs.congr (ready_list k s.dev u) fun _ h => h
  cases h.effect with
  | opened | notLocked | closed | checked | signalled => exact hs
  | refused =>
    apply Recorded.terminate
    exact hs.congr rfl fun u hu => by simpa [State.issue] using hu
  | issued => exact hs.congr rfl fun u hu => by simpa [State.issue, State.goto] using hu
  | released => exact hs.congr (dropLock_tickets _ _ _).2.2 fun _ h => h
  | closedLocked => exact hs.congr (dropLock_tickets _ _ _).2.2 fun _ h => h
  | gaveUp => exact hs.terminate _
  | busy => exact (hlook _ _).terminate _
  | @granted r p k f ticket =>
    have hlist : (getLock k p (s.looked k ticket).dev).terminatedTickets =
        (s.looked k ticket).dev.terminatedTickets := by cases k <;> rfl
    apply (hlook k ticket).congr hlist
    intro u hu
    simpa [State.grant, State.looked] using hu
  | blocked => exact hlook _ _
  | evaluated => exact hlook _ _

theorem update_user (h : (s.procs p).isUser = true) :
    Function.update s.inside p none = s.inside :=
  Function.update_eq_self_iff.mpr (inside_of_isUser h).symm

theorem queue_step (hs : Ordered s) (h : Step s a t) (hfew : s.dev.ticketHead < 2147483648)
    (hfew' : t.dev.ticketHead < 2147483648) : Queue t.dev t.inside := by
  have hq := hs.queue
  have hdrop : ∀ file q, Queue (dropLock file q s.dev) s.inside := fun file q =>
    hq.congr (dropLock_tickets file q s.dev).1 (dropLock_tickets file q s.dev).2.1
      (dropLock_tickets file q s.dev).2.2
  cases h.effect with
  | opened => exact hq
  | @refused r p f huser _ =>
    have hissue := hq.issue (k := .read) (f := f) hfew (inside_of_isUser huser)
    have hend := hissue.terminate hfew' (Function.update_self _ _ _)
    rw [Function.update_idem] at hend
    rw [inside_abandon, inside_issue]
    exact hend
  | @issued r p f ho huser _ =>
    obtain ⟨k, hk⟩ := writePart_inside (r := r) (u := s.dev.ticketHead) ho (hs.oneMode f)
    rw [inside_goto, inside_issue, hk]
    exact hq.issue hfew (inside_of_isUser huser)
  | @notLocked p f huser _ =>
    rw [inside_goto]
    exact (update_user huser).symm ▸ hq
  | @released p f huser _ =>
    rw [inside_goto, inside_unlock]
    exact (update_user huser).symm ▸ hdrop (s.files f) p
  | closed => exact hq
  | @closedLocked p f _ _ _ =>
    have hinside := inside_unlock s p f
    exact hinside.symm ▸ hdrop (s.files f) p
  | checked hp _ =>
    rw [inside_goto, inside_stay (.inl hp) rfl]
    exact hq
  | @gaveUp p k f ticket errno hp =>
    have hin : s.inside p = some (k, f, ticket) := by
      rcases hp with hp | ⟨hp | hp, _⟩ <;> simp [State.inside, hp, Point.inside]
    rw [inside_abandon]
    exact hq.terminate hfew hin
  | @busy p k f ticket hp _ =>
    have hin : s.inside p = some (k, f, ticket) := by simp [State.inside, hp, Point.inside]
    have hhead : (ready k s.dev ticket).2.ticketHead = s.dev.ticketHead := by
      rw [ready_eq_advance]
    rw [inside_abandon, inside_looked]
    exact (hq.look hfew hin).terminate (hhead ▸ hfew) hin
  | @granted r p k f ticket hp hnow =>
    have hin : s.inside p = some (k, f, ticket) := by
      rcases hp with ⟨hp, _⟩ | ⟨hp, _⟩ <;> simp [State.inside, hp, Point.inside]
    have hhead : (ready k s.dev ticket).2.ticketHead = s.dev.ticketHead := by
      rw [ready_eq_advance]
    rw [inside_grant, inside_looked]
    have huser : (afterGrant r k ((s.looked k ticket).files f) f ticket).inside = none :=
      afterGrant_user (hs.inUse p k f ticket hin) (hs.oneMode f)
    rw [huser]
    exact (hq.look hfew hin).serve (hhead ▸ hfew) hin (tail_eq_of_ready hnow)
  | @blocked p k f ticket hp _ =>
    have hin : s.inside p = some (k, f, ticket) := by simp [State.inside, hp, Point.inside]
    rw [inside_goto, inside_looked, inside_stay (.inr (.inl hp)) rfl]
    exact hq.look hfew hin
  | @evaluated p k f ticket pending hp =>
    have hin : s.inside p = some (k, f, ticket) := by simp [State.inside, hp, Point.inside]
    rw [inside_goto, inside_looked, inside_stay (.inr (.inr ⟨_, hp⟩))]
    · exact hq.look hfew hin
    · split
      · rfl
      · split <;> rfl
  | signalled hp =>
    rw [inside_goto, inside_stay (.inr (.inr ⟨_, hp⟩)) rfl]
    exact hq

theorem Ordered.step (hs : Ordered s) (h : Step s a t) (hmode : SingleMode a)
    (hfew : s.dev.ticketHead < 2147483648) (hfew' : t.dev.ticketHead < 2147483648) :
    Ordered t where
  queue := queue_step hs h hfew hfew'
  inUse := hs.inUse.step h
  oneMode := modes_step h hmode hs.oneMode
  recorded := recorded_step h hs.recorded

/-- Steps on files that are open in one mode. -/
def SingleStep (s : State) (a : Action) (t : State) : Prop := Step s a t ∧ SingleMode a

theorem run_ordered (h : Run SingleStep State.init as s) (hfew : s.issued < 2147483648) :
    Ordered s := by
  have hboth : s.issued < 2147483648 → Tickets s ∧ Ordered s := by
    apply h.invariant (P := fun s => s.issued < 2147483648 → Tickets s ∧ Ordered s)
    · rintro t a r ih ⟨hstep, hmode⟩ hr
      obtain ⟨henabled, rfl⟩ := hstep
      have hle := issued_le_next t a
      obtain ⟨htickets, hordered⟩ := ih (by omega)
      have htickets' := htickets.next henabled (by omega)
      refine ⟨htickets', hordered.step ⟨henabled, rfl⟩ hmode ?_ ?_⟩
      · rw [htickets.head_eq]
        omega
      · rw [htickets'.head_eq]
        exact hr
    · exact fun _ => ⟨tickets_init, ordered_init⟩
  exact (hboth hfew).2

end Runs

section Result
variable {s : State} {as : List Action}

/-- A process in its ioctl holds the ticket; it is neither granted nor terminated. -/
def State.Pending (s : State) (u : Nat) : Prop :=
  (∃ p k f, s.inside p = some (k, f, u)) ∧
    Event.granted u ∉ s.log ∧ Event.terminated u ∉ s.log

structure NoGap (s : State) : Prop where
  covered : ∀ u, s.dev.ticketTail ≤ u → u < s.dev.ticketHead →
    s.Pending u ∨ (u : Int) ∈ s.dev.terminatedTickets
  sorted : s.dev.terminatedTickets.Pairwise (· ≤ ·)
  smallest_runs : ∀ u, s.Pending u → (∀ v, s.Pending v → u ≤ v) → (canRunTicket s.dev u).1 = true
  larger_waits : ∀ u v, s.Pending u → s.Pending v → v < u → (canRunTicket s.dev u).1 = false

theorem pending_iff (hs : Ordered s) (ht : Tickets s) (hfew : s.dev.ticketHead < 2147483648)
    (u : Nat) : s.Pending u ↔ Ramdisk.Pending s.inside u := by
  constructor
  · exact fun h => h.1
  · rintro ⟨p, k, f, hp⟩
    obtain ⟨h1, h2, h3⟩ := hs.queue.waiting hp
    refine ⟨⟨p, k, f, hp⟩, fun hgranted => ?_, fun hterminated => ?_⟩
    · have := ht.granted_lt u hgranted
      omega
    · exact h3 (hs.recorded u hterminated (by omega))

/-- For files open in one mode and fewer than `2 ^ 31` tickets, in any interleaving. -/
theorem queue_has_no_gap (h : Run SingleStep State.init as s) (hfew : s.issued < 2147483648) :
    NoGap s := by
  have hs := run_ordered h hfew
  have ht : Tickets s := run_tickets (h.mono fun h => h.1) (by omega)
  have hhead : s.dev.ticketHead < 2147483648 := by
    rw [ht.head_eq]
    exact hfew
  have hiff := pending_iff hs ht hhead
  constructor
  · intro u h1 h2
    rw [hiff]
    exact hs.queue.covered u h1 h2
  · exact hs.queue.sorted
  · intro u hu hleast
    exact hs.queue.canRun_least hhead ((hiff u).mp hu) fun v hv => hleast v ((hiff v).mpr hv)
  · intro u v hu hv hlt
    exact hs.queue.canRun_later hhead ((hiff u).mp hu) ((hiff v).mp hv) hlt

/-- Two readers: the second gives up on a signal, and the first still has its turn. -/
theorem queue_has_no_gap_signal :
    ∃ as s, Run SingleStep State.init as s ∧ (1 : Int) ∈ s.dev.terminatedTickets ∧ NoGap s := by
  let as : List Action := [.openFile 1 true false, .openFile 2 true false,
    .request .acquire 1 1, .runSection 1, .request .acquire 2 2, .runSection 2, .runSection 2,
    .evaluate 2 true, .runSection 2]
  have htf : true ≠ false := by simp
  have hall : AllEnabled (fun s a => Enabled s a ∧ SingleMode a) next State.init as :=
    ⟨⟨⟨rfl, fun _ _ _ _ h => by cases h⟩, htf⟩, ⟨⟨rfl, fun _ _ _ _ h => by cases h⟩, htf⟩,
      ⟨⟨rfl, rfl⟩, trivial⟩, ⟨rfl, trivial⟩, ⟨⟨rfl, rfl⟩, trivial⟩, ⟨rfl, trivial⟩,
      ⟨rfl, trivial⟩, ⟨⟨.read, 2, 1, rfl⟩, trivial⟩, ⟨rfl, trivial⟩, trivial⟩
  have hrun : Run SingleStep State.init as (as.foldl next State.init) :=
    (Run.of_allEnabled hall).mono fun h => ⟨⟨h.1.1, h.2⟩, h.1.2⟩
  exact ⟨as, _, hrun, by decide, queue_has_no_gap hrun (by decide)⟩

end Result

end CS111.Ramdisk
