import CS111.Ramdisk.Queue

/-!
# Wake-ups

Only a release and a last close call `wake_up_all`. A read grant and a terminated ticket also
move the queue on, and the process that is next may be asleep by then.
-/

namespace CS111.Ramdisk

set_option autoImplicit false

section Pass
variable {l : List Int} {T U : Int}

def InInt (x : Int) : Prop := -2147483648 ≤ x ∧ x < 2147483648

theorem toInt32_inInt {n : Nat} (h : n < 4294967296) : InInt (toInt32 n) := by
  unfold InInt toInt32
  split <;> omega

theorem ofInt32_inj {x y : Int} (hx : InInt x) (hy : InInt y) (h : ofInt32 x = ofInt32 y) :
    x = y := by
  unfold InInt at hx hy
  unfold ofInt32 at h
  omega

theorem u32_ofInt32 (x : Int) : u32 (ofInt32 x + 1) = ofInt32 (x + 1) := by
  unfold u32 ofInt32
  omega

/-- No terminated ticket below `T` is the tail. -/
def Settled (l : List Int) (T : Int) (tail : Nat) : Prop := ∀ c ∈ l, c < T → ofInt32 c ≠ tail

theorem skip_settled {tail : Nat} (h : Settled l T tail) : skipTerminated T l tail = tail := by
  induction l with
  | nil => rfl
  | cons c l ih =>
    rw [skipTerminated]
    split
    · next hc =>
      rw [if_neg (h c List.mem_cons_self hc)]
      exact ih fun d hd => h d (List.mem_cons_of_mem _ hd)
    · rfl

/-- The tail moves only past terminated tickets, from the first one that it meets. -/
theorem skip_moved (tail : Nat) (hsorted : l.Pairwise (· ≤ ·)) (h : Settled l U tail) :
    skipTerminated T l tail = tail ∨
      ∃ e ∈ l, U ≤ e ∧ e < T ∧ skipTerminated T l tail = ofInt32 (e + 1) := by
  induction l generalizing tail U with
  | nil => exact .inl rfl
  | cons c l ih =>
    obtain ⟨hfirst, hsorted'⟩ := List.pairwise_cons.mp hsorted
    rw [skipTerminated]
    split
    · next hc =>
      split
      · next heq =>
        have hU : U ≤ c := by
          by_contra hlt
          exact h c List.mem_cons_self (by omega) heq
        rw [← heq, u32_ofInt32]
        rcases ih (U := c) (ofInt32 (c + 1)) hsorted'
          (fun d hd hlt => absurd (hfirst d hd) (by omega)) with h1 | ⟨e, he, h1, h2, h3⟩
        · exact .inr ⟨c, List.mem_cons_self, hU, hc, h1⟩
        · exact .inr ⟨e, List.mem_cons_of_mem _ he, by omega, h2, h3⟩
      · rcases ih tail hsorted' (fun d hd => h d (List.mem_cons_of_mem _ hd)) with h1 | ⟨e, he, h1⟩
        · exact .inl h1
        · exact .inr ⟨e, List.mem_cons_of_mem _ he, h1⟩
    · exact .inl rfl

theorem settled_skip (tail : Nat) (hsorted : l.Pairwise (· ≤ ·)) (hl : ∀ c ∈ l, InInt c) (hT : InInt T) :
    Settled l T (skipTerminated T l tail) := by
  induction l generalizing tail with
  | nil => exact fun c hc => absurd hc (List.not_mem_nil)
  | cons c l ih =>
    obtain ⟨hfirst, hsorted'⟩ := List.pairwise_cons.mp hsorted
    have hl' : ∀ d ∈ l, InInt d := fun d hd => hl d (List.mem_cons_of_mem _ hd)
    rw [skipTerminated]
    split
    · next hc =>
      intro d hd hdT
      rcases List.mem_cons.mp hd with rfl | hd
      · -- what comes after `d` in the list only moves the tail above it
        have hnext : ∀ e : Int, d ≤ e → e < T → ofInt32 d ≠ ofInt32 (e + 1) := by
          intro e hde heT heq
          have hd' := hl d List.mem_cons_self
          have he' : InInt (e + 1) := by
            unfold InInt at *
            omega
          have := ofInt32_inj hd' he' heq
          omega
        rcases skip_moved (T := T) (U := d) _ hsorted'
          (fun e he hlt => absurd (hfirst e he) (by omega)) with h1 | ⟨e, _, h1, h2, h3⟩
        · rw [h1]
          split
          · next heq =>
            rw [← heq, u32_ofInt32]
            exact hnext d (Int.le_refl d) hdT
          · next hne => exact hne
        · rw [h3]
          exact hnext e h1 h2
      · exact ih _ hsorted' hl' d hd hdT
    · next hc =>
      intro d hd hdT
      rcases List.mem_cons.mp hd with rfl | hd
      · exact absurd hdT hc
      · have := hfirst d hd
        omega

/-- Passing the tickets below `T` first makes no difference for a later look from `U`. -/
theorem skip_skip (tail : Nat) (hsorted : l.Pairwise (· ≤ ·)) (hl : ∀ c ∈ l, InInt c) (hT : InInt T)
    (hTU : T ≤ U) : skipTerminated U l (skipTerminated T l tail) = skipTerminated U l tail := by
  induction l generalizing tail with
  | nil => rfl
  | cons c l ih =>
    have hset := settled_skip tail hsorted hl hT
    have hsorted' := (List.pairwise_cons.mp hsorted).2
    have hl' : ∀ d ∈ l, InInt d := fun d hd => hl d (List.mem_cons_of_mem _ hd)
    by_cases hc : c < T
    · have hne := hset c List.mem_cons_self hc
      have hrec := ih (if ofInt32 c = tail then u32 (tail + 1) else tail) hsorted' hl'
      have hcU : c < U := by omega
      have hskip : skipTerminated T (c :: l) tail =
          skipTerminated T l (if ofInt32 c = tail then u32 (tail + 1) else tail) := by
        rw [skipTerminated, if_pos hc]
      rw [skipTerminated, if_pos hcU, if_neg hne, hskip, hrec, skipTerminated, if_pos hcU]
    · rw [show skipTerminated T (c :: l) tail = tail by rw [skipTerminated, if_neg hc]]

/-- A ticket whose turn it is not does not get it because somebody else looks at the queue. -/
theorem skip_stable {tail u : Nat} (hsorted : l.Pairwise (· ≤ ·)) (hl : ∀ c ∈ l, InInt c)
    (hT : InInt T) (hu : u < 4294967296) (h : skipTerminated (toInt32 u) l tail ≠ u) :
    skipTerminated (toInt32 u) l (skipTerminated T l tail) ≠ u := by
  have hU := toInt32_inInt hu
  by_cases hTU : T ≤ toInt32 u
  · rw [skip_skip tail hsorted hl hT hTU]
    exact h
  · have hset : Settled l (toInt32 u) (skipTerminated (toInt32 u) l tail) :=
      settled_skip tail hsorted hl hU
    rw [← skip_skip tail hsorted hl hU (by omega)]
    rcases skip_moved (T := T) _ hsorted hset with h1 | ⟨e, _, h1, h2, h3⟩
    · rw [h1, skip_settled hset]
      exact h
    · have he : InInt (e + 1) := by
        unfold InInt at *
        omega
      have hset' : Settled l (toInt32 u) (skipTerminated T l (skipTerminated (toInt32 u) l tail)) := by
        intro c hc hlt heq
        rw [h3] at heq
        have := ofInt32_inj (hl c hc) he heq
        omega
      rw [skip_settled hset', h3]
      intro heq
      rw [← ofInt32_toInt32 hu] at heq
      have := ofInt32_inj he hU heq
      omega

/-- The tail does not pass a ticket that is not terminated. -/
theorem skip_arc {i : Nat} (tail : Nat) (h : ∀ x ∈ l, ofInt32 x ≠ u32 (tail + i)) :
    ∃ n, n ≤ i ∧ u32 (skipTerminated T l tail) = u32 (tail + n) := by
  induction l generalizing tail i with
  | nil => exact ⟨0, Nat.zero_le _, rfl⟩
  | cons c l ih =>
    have h' : ∀ x ∈ l, ofInt32 x ≠ u32 (tail + i) := fun x hx => h x (List.mem_cons_of_mem _ hx)
    rw [skipTerminated]
    split
    · split
      · next heq =>
        have hi : i ≠ 0 := by
          rintro rfl
          have hlt : ofInt32 c < 4294967296 := by
            unfold ofInt32
            omega
          apply h c List.mem_cons_self
          rw [Nat.add_zero, ← heq, u32_of_lt hlt]
        have hshift : ∀ n, u32 (u32 (tail + 1) + n) = u32 (tail + (n + 1)) := by
          intro n
          unfold u32
          omega
        obtain ⟨n, hn, h1⟩ := ih (i := i - 1) (u32 (tail + 1)) fun x hx => by
          rw [hshift, show i - 1 + 1 = i by omega]
          exact h' x hx
        exact ⟨n + 1, by omega, h1.trans (hshift n)⟩
      · exact ih tail h'
    · exact ⟨0, Nat.zero_le _, rfl⟩

end Pass

section Statement

/-- The wait condition of every sleeping process is false. -/
def NoLostWakeUp (s : State) : Prop :=
  ∀ q k f u, s.procs q = .wait k f u true → (ready k s.dev u).1 = false

/-- Some ticket from `ticket_tail` up to `u`, other than `t`, has not been terminated. -/
def OtherBefore (d : Device) (t u : Nat) : Prop :=
  ∃ i j, i < j ∧ j < 4294967296 ∧ u = u32 (d.ticketTail + j) ∧ u32 (d.ticketTail + i) ≠ t ∧
    ∀ x ∈ d.terminatedTickets, ofInt32 x ≠ u32 (d.ticketTail + i)

def GrantsRead (s : State) (p : Pid) (t : Nat) : Prop :=
  (∃ f, s.procs p = .loop .read f t ∨ s.procs p = .tryLock .read f t ∧ p ∉ s.dev.readers) ∧
    (ready .read s.dev t).1 = true

def GivesUp (s : State) (p : Pid) (t : Nat) : Prop :=
  ∃ k f, s.procs p = .interrupted k f t ∨
    (s.procs p = .check k f t ∨ s.procs p = .tryLock k f t) ∧ p ∈ s.dev.readers ∨
    s.procs p = .tryLock k f t ∧ (ready k s.dev t).1 = false

/-- When a read lock is granted or a ticket given up, no process sleeps that waits for a free
lock (after the grant: for a read lock) and has no other live ticket before it. -/
def NoSleeperNext (s : State) (a : Action) : Prop :=
  ∀ p t q k f u, a = .runSection p → s.procs q = .wait k f u true →
    (GrantsRead s p t → k = .read → OtherBefore s.dev t u) ∧
    (GivesUp s p t → available k s.dev = true → OtherBefore s.dev t u)

end Statement

section Look
variable {d : Device} {k k' : Kind} {t u : Nat}

/-- The ranges of the machine words, and the order of the list. -/
structure Words (d : Device) : Prop where
  sorted : d.terminatedTickets.Pairwise (· ≤ ·)
  listed : ∀ x ∈ d.terminatedTickets, InInt x
  head_lt : d.ticketHead < 4294967296
  tail_lt : d.ticketTail < 4294967296

theorem ready_eq_false : (ready k d u).1 = false ↔ (available k d = true →
    skipTerminated (toInt32 u) d.terminatedTickets d.ticketTail ≠ u) := by
  unfold ready canRunTicket
  by_cases h : available k d = true
  · rw [if_pos h]
    simp only [beq_eq_false_iff_ne, h, forall_const]
    exact ne_comm
  · rw [if_neg h]
    exact iff_of_true rfl fun h' => absurd h' h

theorem available_congr {d' : Device} (hw : d'.writer = d.writer)
    (hn : d'.numReaders = d.numReaders) : available k d' = available k d := by
  cases k <;> simp [available, canWrite, canRead, hw, hn]

theorem available_terminate : available k (terminateTicket d u) = available k d := by
  cases k <;> rfl

theorem available_look : available k' (ready k d t).2 = available k' d :=
  available_congr (ready_writer d) (ready_numReaders d)

theorem ready_congr {d' : Device} (hw : d'.writer = d.writer) (hn : d'.numReaders = d.numReaders)
    (htail : d'.ticketTail = d.ticketTail) (hlist : d'.terminatedTickets = d.terminatedTickets)
    (h : (ready k d u).1 = false) : (ready k d' u).1 = false := by
  rw [ready_eq_false, available_congr hw hn, htail, hlist]
  exact ready_eq_false.mp h

/-- A look of any process leaves a false condition false. -/
theorem ready_look (hd : Words d) (ht : t < 4294967296) (hu : u < 4294967296)
    (h : (ready k d u).1 = false) : (ready k (ready k' d t).2 u).1 = false := by
  rw [ready_eq_false] at h ⊢
  rw [available_look, ready_list]
  intro hav
  rcases ready_tail k' d t with h1 | h1
  · rw [h1]
    exact h hav
  · rw [h1]
    exact skip_stable hd.sorted hd.listed (toInt32_inInt ht) hu (h hav)

/-- A look does not pass the other ticket. -/
theorem OtherBefore.look {v : Nat} (h : OtherBefore d v u) :
    OtherBefore (ready k d t).2 v u := by
  obtain ⟨i, j, hij, hj, hu, hne, hlive⟩ := h
  have hmoved : ∃ n, n ≤ i ∧ u32 (ready k d t).2.ticketTail = u32 (d.ticketTail + n) := by
    rcases ready_tail k d t with h1 | h1
    · exact ⟨0, Nat.zero_le _, by rw [h1, Nat.add_zero]⟩
    · rw [h1]
      exact skip_arc d.ticketTail hlive
  obtain ⟨n, hn, htail'⟩ := hmoved
  have hshift : ∀ m, n ≤ m →
      u32 ((ready k d t).2.ticketTail + (m - n)) = u32 (d.ticketTail + m) := by
    intro m hm
    unfold u32 at *
    omega
  refine ⟨i - n, j - n, by omega, by omega, ?_, ?_, ?_⟩
  · rw [hshift j (by omega)]
    exact hu
  · rw [hshift i hn]
    exact hne
  · rw [ready_list, hshift i hn]
    exact hlive

/-- With another live ticket before it, a ticket does not run after one more is terminated. -/
theorem OtherBefore.terminate (h : OtherBefore d t u) (ht : t < 4294967296) :
    (ready k (terminateTicket d t) u).1 = false := by
  obtain ⟨i, j, hij, hj, hu, hne, hlive⟩ := h
  rw [ready_eq_false]
  intro _ heq
  obtain ⟨n, hn, htail⟩ := skip_arc (T := toInt32 u) (i := i)
    (l := (terminateTicket d t).terminatedTickets) d.ticketTail fun x hx => by
      rcases (List.mem_orderedInsert (· ≤ ·)).mp hx with rfl | hx
      · rw [ofInt32_toInt32 ht]
        exact hne.symm
      · exact hlive x hx
  rw [show (terminateTicket d t).ticketTail = d.ticketTail from rfl] at heq
  rw [heq] at htail
  unfold u32 at *
  omega

/-- The same after the ticket at the tail is served. -/
theorem OtherBefore.serve {p : Pid} (h : OtherBefore d t u) (htail : t = d.ticketTail)
    (hlt : t < 4294967296) : (ready .read (getLock .read p d) u).1 = false := by
  obtain ⟨i, j, hij, hj, hu, hne, hlive⟩ := h
  rw [ready_eq_false]
  intro _ heq
  have hi : i ≠ 0 := by
    rintro rfl
    rw [Nat.add_zero, ← htail, u32_of_lt hlt] at hne
    exact hne rfl
  have hshift : ∀ m, 1 ≤ m → u32 (u32 (d.ticketTail + 1) + (m - 1)) = u32 (d.ticketTail + m) := by
    intro m hm
    unfold u32
    omega
  obtain ⟨n, hn, hmoved⟩ := skip_arc (T := toInt32 u) (i := i - 1)
    (l := d.terminatedTickets) (u32 (d.ticketTail + 1)) fun x hx => by
      rw [hshift i (by omega)]
      exact hlive x hx
  change skipTerminated (toInt32 u) d.terminatedTickets (u32 (d.ticketTail + 1)) = u at heq
  rw [heq] at hmoved
  unfold u32 at *
  omega

end Look

section Keep
variable {d d' : Device} {s t : State} {a : Action} {k : Kind} {p : Pid} {u : Nat}

namespace Words

theorem congr (hd : Words d) (hhead : d'.ticketHead = d.ticketHead)
    (htail : d'.ticketTail = d.ticketTail)
    (hlist : d'.terminatedTickets = d.terminatedTickets) : Words d' where
  sorted := by rw [hlist]; exact hd.sorted
  listed := by rw [hlist]; exact hd.listed
  head_lt := by rw [hhead]; exact hd.head_lt
  tail_lt := by rw [htail]; exact hd.tail_lt

theorem terminate (hd : Words d) (hu : u < 4294967296) : Words (terminateTicket d u) where
  sorted := hd.sorted.orderedInsert _ _
  listed := by
    intro x hx
    rcases (List.mem_orderedInsert (· ≤ ·)).mp hx with rfl | hx
    · exact toInt32_inInt hu
    · exact hd.listed x hx
  head_lt := hd.head_lt
  tail_lt := hd.tail_lt

theorem look (hd : Words d) : Words (ready k d u).2 := by
  rw [ready_eq_advance]
  refine ⟨hd.sorted, hd.listed, hd.head_lt, ?_⟩
  change (ready k d u).2.ticketTail < 4294967296
  rcases ready_tail k d u with h | h
  · rw [h]
    exact hd.tail_lt
  · rw [h]
    rcases skip_moved (U := -2147483648) (T := toInt32 u) d.ticketTail hd.sorted
      (fun c hc hlt => absurd (hd.listed c hc).1 (by omega)) with h1 | ⟨e, _, _, _, h1⟩
    · rw [h1]
      exact hd.tail_lt
    · rw [h1]
      unfold ofInt32
      omega

theorem serve (hd : Words d) : Words (getLock k p d) := by
  cases k <;> exact ⟨hd.sorted, hd.listed, hd.head_lt, u32_lt _⟩

theorem issue (hd : Words d) : Words { d with ticketHead := u32 (d.ticketHead + 1) } :=
  ⟨hd.sorted, hd.listed, u32_lt _, hd.tail_lt⟩

theorem drop (hd : Words d) (file : File) : Words (dropLock file p d) :=
  hd.congr (dropLock_tickets file p d).1 (dropLock_tickets file p d).2.1
    (dropLock_tickets file p d).2.2

end Words

def SmallTickets (s : State) : Prop := ∀ p k f u, s.inside p = some (k, f, u) → u < 4294967296

theorem SmallTickets.update {x : Option (Kind × FileId × Nat)} (hs : SmallTickets s)
    (hinside : t.inside = Function.update s.inside p x)
    (hx : ∀ y, x = some y → y.2.2 < 4294967296) : SmallTickets t := by
  intro q k f u hq
  rw [hinside] at hq
  by_cases hqp : q = p
  · subst q
    rw [Function.update_self] at hq
    exact hx _ hq
  · rw [Function.update_of_ne hqp] at hq
    exact hs q k f u hq

theorem SmallTickets.same (hs : SmallTickets s) (hinside : t.inside = s.inside) :
    SmallTickets t := by
  intro q k f u hq
  rw [hinside] at hq
  exact hs q k f u hq

theorem inside_of_points {f : FileId} (h : s.procs p = .loop k f u ∨ s.procs p = .tryLock k f u ∨
    s.procs p = .check k f u ∨ s.procs p = .interrupted k f u ∨
    ∃ asleep, s.procs p = .wait k f u asleep) : s.inside p = some (k, f, u) := by
  rcases h with h | h | h | h | ⟨_, h⟩ <;> simp [State.inside, h, Point.inside]

/-- The step lemma for the ranges. -/
theorem words_step (hd : Words s.dev) (hs : SmallTickets s) (h : Step s a t) :
    Words t.dev ∧ SmallTickets t := by
  have huser : ∀ {t : State} {p : Pid}, t.inside = Function.update s.inside p none →
      SmallTickets t := fun h => hs.update h fun _ hy => absurd hy (by simp)
  cases h.effect with
  | opened => exact ⟨hd, hs⟩
  | refused => exact ⟨hd.issue.terminate hd.head_lt, huser (inside_abandon _ _ _ _)⟩
  | issued =>
    refine ⟨hd.issue, hs.update (inside_goto _ _ _) ?_⟩
    rintro ⟨k, g, u⟩ hy
    rw [(inside_writePart hy).1]
    exact hd.head_lt
  | notLocked => exact ⟨hd, huser (inside_goto _ _ _)⟩
  | @released p f =>
    refine ⟨hd.drop _, huser (p := p) ?_⟩
    rw [inside_goto, inside_unlock]
    rfl
  | closed => exact ⟨hd, hs⟩
  | @closedLocked p f _ _ _ => exact ⟨hd.drop _, hs.same (inside_unlock s p f)⟩
  | checked hp _ => exact ⟨hd, hs.same ((inside_goto _ _ _).trans (inside_stay (.inl hp) rfl))⟩
  | @gaveUp p k f u errno hp =>
    have hin : s.inside p = some (k, f, u) := by
      apply inside_of_points
      rcases hp with hp | ⟨hp | hp, _⟩ <;> simp [hp]
    exact ⟨hd.terminate (hs p k f u hin), huser (inside_abandon _ _ _ _)⟩
  | @busy p k f u hp _ =>
    have hin : s.inside p = some (k, f, u) := inside_of_points (.inr (.inl hp))
    exact ⟨hd.look.terminate (hs p k f u hin), huser (inside_abandon _ _ _ _)⟩
  | @granted r p k f u hp _ =>
    have hin : s.inside p = some (k, f, u) := by
      apply inside_of_points
      rcases hp with ⟨hp, _⟩ | ⟨hp, _⟩ <;> simp [hp]
    refine ⟨hd.look.serve, hs.update (inside_grant _ _ _ _ _ _) ?_⟩
    rintro ⟨k', g, v⟩ hy
    rw [inside_afterGrant hy]
    exact hs p k f u hin
  | blocked hp _ =>
    exact ⟨hd.look, hs.same ((inside_goto _ _ _).trans (inside_stay (.inr (.inl hp)) rfl))⟩
  | evaluated hp =>
    refine ⟨hd.look, hs.same ((inside_goto _ _ _).trans (inside_stay (.inr (.inr ⟨_, hp⟩)) ?_))⟩
    split
    · rfl
    · split <;> rfl
  | signalled hp =>
    exact ⟨hd, hs.same ((inside_goto _ _ _).trans (inside_stay (.inr (.inr ⟨_, hp⟩)) rfl))⟩

end Keep

section Sleepers
variable {s t : State} {a : Action} {p : Pid} {k : Kind} {f : FileId} {u : Nat}

theorem asleep_goto {pt : Point} {q : Pid} (hpt : ∀ k f u, pt ≠ .wait k f u true)
    (hq : (s.goto p pt).procs q = .wait k f u true) : s.procs q = .wait k f u true := by
  by_cases hqp : q = p
  · subst q
    rw [goto_self] at hq
    exact absurd hq (hpt _ _ _)
  · rw [goto_other hqp] at hq
    exact hq

theorem not_asleep_awake (pt : Point) : pt.awake ≠ .wait k f u true := by
  cases pt <;> simp [Point.awake]

theorem not_asleep_lockPart {r : Request} {k' : Kind} {g : FileId} {v : Nat} :
    lockPart r k' g v ≠ .wait k f u true := by
  cases r <;> simp [lockPart]

theorem not_asleep_readPart {r : Request} {file : File} {g : FileId} {v : Nat} :
    readPart r file g v ≠ .wait k f u true := by
  unfold readPart
  split
  · exact not_asleep_lockPart
  · simp

theorem not_asleep_writePart {r : Request} {file : File} {g : FileId} {v : Nat} :
    writePart r file g v ≠ .wait k f u true := by
  unfold writePart
  split
  · exact not_asleep_lockPart
  · exact not_asleep_readPart

theorem not_asleep_afterGrant {r : Request} {k' : Kind} {file : File} {g : FileId} {v : Nat} :
    afterGrant r k' file g v ≠ .wait k f u true := by
  cases k' with
  | write => exact not_asleep_readPart
  | read => simp [afterGrant]

theorem not_available_of_writer {d : Device} (h : 0 ≤ d.writer) : available k d = false := by
  have hneg : ¬ d.writer < 0 := by omega
  cases k <;> simp [available, canWrite, canRead, hneg]

theorem ready_of_not_available {d : Device} (h : available k d = false) :
    (ready k d u).1 = false := by
  rw [ready_eq_false, h]
  exact fun h => absurd h (by simp)

/-- Only its own evaluation of the condition puts a process to sleep. -/
theorem asleep_step {q : Pid} (h : Step s a t) (hq : t.procs q = .wait k f u true) :
    s.procs q = .wait k f u true ∨ ∃ b, a = .evaluate q b := by
  cases h.effect with
  | opened | closed => exact .inl hq
  | refused => exact .inl (asleep_goto (s := s.issue) (fun _ _ _ => by simp) hq)
  | issued => exact .inl (asleep_goto (fun _ _ _ => not_asleep_writePart) hq)
  | notLocked => exact .inl (asleep_goto (fun _ _ _ => by simp) hq)
  | released =>
    have hold := asleep_goto (fun _ _ _ => by simp) hq
    exact absurd hold (not_asleep_awake _)
  | closedLocked => exact absurd hq (not_asleep_awake _)
  | checked => exact .inl (asleep_goto (fun _ _ _ => by simp) hq)
  | gaveUp => exact .inl (asleep_goto (s := s) (fun _ _ _ => by simp) hq)
  | @busy p k f v => exact .inl (asleep_goto (s := s.looked k v) (fun _ _ _ => by simp) hq)
  | @granted r p k f v =>
    exact .inl (asleep_goto (s := (s.looked k v).setLocked f true)
      (fun _ _ _ => not_asleep_afterGrant) hq)
  | @blocked p k f v => exact .inl (asleep_goto (s := s.looked k v) (fun _ _ _ => by simp) hq)
  | @evaluated p k f v b _ =>
    by_cases hqp : q = p
    · exact .inr ⟨b, by rw [hqp]⟩
    · rw [goto_other hqp] at hq
      exact .inl hq
  | signalled => exact .inl (asleep_goto (fun _ _ _ => by simp) hq)

/-- The step lemma: only a read grant or an abandoned ticket can make a condition true. -/
theorem noLostWakeUp_step (hd : Words s.dev) (hs : SmallTickets s) (hno : NoLostWakeUp s)
    (h : Step s a t) (hnext : NoSleeperNext s a) : NoLostWakeUp t := by
  intro q k' g u hq
  rcases asleep_step h hq with hold | ⟨b, rfl⟩
  · have hfalse := hno q k' g u hold
    have hu : u < 4294967296 := hs q k' g u (inside_of_points (.inr (.inr (.inr (.inr ⟨_, hold⟩)))))
    cases h.effect with
    | opened | notLocked | closed | checked | signalled => exact hfalse
    | refused _ hw =>
      apply ready_of_not_available
      apply not_available_of_writer
      exact hw ▸ Int.natCast_nonneg _
    | issued => exact ready_congr (d := s.dev) rfl rfl rfl rfl hfalse
    | released =>
      have hawake := asleep_goto (fun _ _ _ => by simp) hq
      exact absurd hawake (not_asleep_awake _)
    | closedLocked => exact absurd hq (not_asleep_awake _)
    | @gaveUp p k f v errno hp =>
      have hin : s.inside p = some (k, f, v) := by
        apply inside_of_points
        rcases hp with hp | ⟨hp | hp, _⟩ <;> simp [hp]
      have hgives : GivesUp s p v := by
        refine ⟨k, f, ?_⟩
        rcases hp with hp | hp
        · exact .inl hp
        · exact .inr (.inl hp)
      cases hav : available k' s.dev with
      | false =>
        have hav' : available k' (terminateTicket s.dev v) = false :=
          available_terminate.trans hav
        exact ready_of_not_available hav'
      | true => exact ((hnext p v q k' g u rfl hold).2 hgives hav).terminate (hs p k f v hin)
    | @busy p k f v hp hnow =>
      have hin : s.inside p = some (k, f, v) := inside_of_points (.inr (.inl hp))
      have hgives : GivesUp s p v := ⟨k, f, .inr (.inr ⟨hp, hnow⟩)⟩
      cases hav : available k' s.dev with
      | false =>
        have hav' : available k' (terminateTicket (ready k s.dev v).2 v) = false :=
          (available_terminate.trans available_look).trans hav
        exact ready_of_not_available hav'
      | true =>
        have hother := (hnext p v q k' g u rfl hold).2 hgives hav
        exact hother.look.terminate (hs p k f v hin)
    | @granted r p k f v hp hnow =>
      have hin : s.inside p = some (k, f, v) := by
        apply inside_of_points
        rcases hp with ⟨hp, _⟩ | ⟨hp, _⟩ <;> simp [hp]
      cases k with
      | write =>
        apply ready_of_not_available
        exact not_available_of_writer (Int.natCast_nonneg p)
      | read =>
        cases k' with
        | write =>
          apply ready_of_not_available
          simp [State.grant, getLock, available, canWrite]
        | read =>
          have hgrants : GrantsRead s p v := by
            refine ⟨⟨f, ?_⟩, hnow⟩
            rcases hp with ⟨hp, _⟩ | ⟨hp, _, hr⟩
            · exact .inl hp
            · exact .inr ⟨hp, hr⟩
          have hother := (hnext p v q .read g u rfl hold).1 hgrants rfl
          exact hother.look.serve (tail_eq_of_ready hnow) (hs p .read f v hin)
    | @blocked p k f v hp _ =>
      have hin : s.inside p = some (k, f, v) := inside_of_points (.inl hp)
      exact ready_look hd (hs p k f v hin) hu hfalse
    | @evaluated p k f v pending hp =>
      have hin : s.inside p = some (k, f, v) :=
        inside_of_points (.inr (.inr (.inr (.inr ⟨_, hp⟩))))
      exact ready_look hd (hs p k f v hin) hu hfalse
  · cases h.effect with
    | @evaluated p k f v pending hp =>
      have hin : s.inside q = some (k, f, v) :=
        inside_of_points (.inr (.inr (.inr (.inr ⟨_, hp⟩))))
      have hv := hs q k f v hin
      rw [goto_self] at hq
      cases hnow : (ready k s.dev v).1 with
      | true =>
        rw [hnow, if_pos rfl] at hq
        exact absurd hq (by simp)
      | false =>
        rw [hnow, if_neg (by simp)] at hq
        cases b with
        | true => exact absurd hq (by simp)
        | false =>
          simp only [Bool.false_eq_true, if_false, Point.wait.injEq] at hq
          obtain ⟨rfl, _, rfl, _⟩ := hq
          exact ready_look hd hv hv hnow

end Sleepers

section Runs
variable {s : State} {as : List Action}

theorem words_init : Words State.init.dev ∧ SmallTickets State.init := by
  refine ⟨⟨List.Pairwise.nil, fun x hx => ?_, by decide, by decide⟩, fun p k f u h => ?_⟩
  · simp [State.init, osprdSetup] at hx
  · simp [State.inside, State.init, Point.inside] at h

/-- In a run in which nobody who is next sleeps through a read grant or an abandoned ticket,
the condition of every sleeping process is false. -/
theorem no_lost_wake_up
    (h : Run (fun s a t => Step s a t ∧ NoSleeperNext s a) State.init as s) : NoLostWakeUp s := by
  have hall : (Words s.dev ∧ SmallTickets s) ∧ NoLostWakeUp s := by
    apply h.invariant (P := fun s => (Words s.dev ∧ SmallTickets s) ∧ NoLostWakeUp s)
    · rintro t a r ⟨⟨hd, hs⟩, hno⟩ ⟨hstep, hnext⟩
      exact ⟨words_step hd hs hstep, noLostWakeUp_step hd hs hno hstep hnext⟩
    · refine ⟨words_init, fun q k f u hq => ?_⟩
      simp [State.init] at hq
  exact hall.2

/-- Without an evaluated condition nobody sleeps. -/
theorem run_without_evaluate (h : Run Step State.init as s)
    (hno : ∀ q b, Action.evaluate q b ∉ as) :
    Run (fun s a t => Step s a t ∧ NoSleeperNext s a) State.init as s ∧
      ∀ q k f u, s.procs q ≠ .wait k f u true := by
  induction h with
  | start => exact ⟨.start _, fun q k f u hq => by simp [State.init] at hq⟩
  | snoc _ hstep ih =>
    obtain ⟨hrun, hawake⟩ := ih fun q b hmem => hno q b (List.mem_append_left _ hmem)
    refine ⟨hrun.snoc ⟨hstep, fun p t q k f u _ hq => absurd hq (hawake q k f u)⟩, ?_⟩
    intro q k f u hq
    rcases asleep_step hstep hq with hold | ⟨b, rfl⟩
    · exact hawake q k f u hold
    · exact hno q b (by simp)

/-- Three readers hold tickets. Processes 1 and 2 have both found that they hold no lock, and process 2,
with the last ticket, is about to look at its condition. -/
theorem three_readers_wait :
    ∃ as s, Run (fun s a t => Step s a t ∧ NoSleeperNext s a) State.init as s ∧
      s.dev = ⟨3, 0, 0, [], -1, []⟩ ∧ s.procs 1 = .loop .read 1 0 ∧
      s.procs 2 = .wait .read 2 2 false ∧ ∀ q k f u, s.procs q ≠ .wait k f u true := by
  let as : List Action := [.openFile 1 true false, .openFile 2 true false, .openFile 3 true false,
    .request .acquire 1 1, .request .acquire 3 3, .request .acquire 2 2, .runSection 2,
    .runSection 2, .runSection 1]
  have hall : AllEnabled Enabled next State.init as :=
    ⟨⟨rfl, fun _ _ _ _ h => by cases h⟩, ⟨rfl, fun _ _ _ _ h => by cases h⟩,
      ⟨rfl, fun _ _ _ _ h => by cases h⟩, ⟨rfl, rfl⟩, ⟨rfl, rfl⟩, ⟨rfl, rfl⟩, rfl, rfl, rfl,
      trivial⟩
  obtain ⟨hrun, hawake⟩ := run_without_evaluate (Run.of_allEnabled hall) (by simp [as])
  exact ⟨as, _, hrun, rfl, rfl, rfl, hawake⟩

/-- Process 2 sleeps, and process 1 gets its read lock. The ticket of process 3 comes next, so
that process 2 sleeps on. -/
theorem no_lost_wake_up_three_readers :
    ∃ as s, Run (fun s a t => Step s a t ∧ NoSleeperNext s a) State.init as s ∧
      s.dev.readers = [1] ∧ s.procs 2 = .wait .read 2 2 true ∧ NoLostWakeUp s := by
  obtain ⟨as, waiting, hrun, hdev, hfirst, hlast, hawake⟩ := three_readers_wait
  let sleeping := waiting.goto 2 (.wait .read 2 2 true)
  have hevaluate : sleeping = next waiting (.evaluate 2 false) := by
    have hready : ready .read waiting.dev 2 = (false, waiting.dev) := by
      rw [hdev]
      decide
    simp only [next, State.evaluate, hlast, hready]
    rfl
  have hsleeps : Enabled waiting (.evaluate 2 false) := ⟨.read, 2, 2, hlast⟩
  have hasleep := hrun.snoc ⟨⟨hsleeps, hevaluate⟩, fun _ _ _ _ _ _ h => by cases h⟩
  have hpoint : sleeping.procs 1 = .loop .read 1 0 := hfirst
  have hsleeper : sleeping.procs 2 = .wait .read 2 2 true := by
    simp only [sleeping, State.goto, Function.update_self]
  have honly : ∀ q k f u, sleeping.procs q = .wait k f u true → u = 2 := by
    intro q k f u hq
    by_cases hq2 : q = 2
    · subst q
      rw [hsleeper] at hq
      cases hq
      rfl
    · have hold : sleeping.procs q = waiting.procs q := Function.update_of_ne hq2 _ _
      exact absurd (hold.symm.trans hq) (hawake q k f u)
  have hbefore : OtherBefore sleeping.dev 0 2 := by
    have hdevice : sleeping.dev = ⟨3, 0, 0, [], -1, []⟩ := hdev
    rw [hdevice]
    exact ⟨1, 2, by decide, by decide, rfl, by decide, fun x hx => by cases hx⟩
  have hnext : NoSleeperNext sleeping (.runSection 1) := by
    rintro p t q k f u hp hq
    cases hp
    rw [honly q k f u hq]
    constructor
    · rintro ⟨⟨g, hg | ⟨hg, _⟩⟩, _⟩ _
      · rw [hpoint] at hg
        cases hg
        exact hbefore
      · rw [hpoint] at hg
        cases hg
    · rintro ⟨k', g, hg | ⟨hg | hg, _⟩ | ⟨hg, _⟩⟩ _ <;> rw [hpoint] at hg <;> cases hg
  have hready : ready .read sleeping.dev 0 = (true, waiting.dev) := by
    have hdevice : sleeping.dev = ⟨3, 0, 0, [], -1, []⟩ := hdev
    rw [hdevice, hdev]
    decide
  have hgrant : next sleeping (.runSection 1) = sleeping.grant .acquire .read 1 1 0 := by
    simp only [next, State.runSection, hpoint, hready]
    rfl
  have hsection : Enabled sleeping (.runSection 1) := by
    rw [Enabled, hpoint]
    rfl
  have hgranted := hasleep.snoc ⟨⟨hsection, rfl⟩, hnext⟩
  refine ⟨_, _, hgranted, ?_, ?_, no_lost_wake_up hgranted⟩
  · have hreaders : sleeping.dev.readers = [] := congrArg Device.readers hdev
    rw [hgrant]
    exact congrArg (List.cons 1) hreaders
  · rw [hgrant]
    have hne : (2 : Pid) ≠ 1 := by decide
    have hother : (sleeping.grant .acquire .read 1 1 0).procs 2 = sleeping.procs 2 := by
      simp only [State.grant, State.goto, State.setLocked, Function.update_of_ne hne]
    exact hother.trans hsleeper

/-- Process 2 finds that it is not its turn and goes to sleep; then process 1 gets its read
lock, and nobody tells process 2. -/
theorem reader_sleeps_on :
    ¬ ∀ (as : List Action) (s : State), Run SingleStep State.init as s → NoLostWakeUp s := by
  intro hnever
  let as : List Action := [.openFile 1 true false, .openFile 2 true false,
    .request .acquire 1 1, .runSection 1, .request .acquire 2 2, .runSection 2, .runSection 2,
    .evaluate 2 false, .runSection 1]
  have htf : true ≠ false := by simp
  have hall : AllEnabled (fun s a => Enabled s a ∧ SingleMode a) next State.init as :=
    ⟨⟨⟨rfl, fun _ _ _ _ h => by cases h⟩, htf⟩, ⟨⟨rfl, fun _ _ _ _ h => by cases h⟩, htf⟩,
      ⟨⟨rfl, rfl⟩, trivial⟩, ⟨rfl, trivial⟩, ⟨⟨rfl, rfl⟩, trivial⟩, ⟨rfl, trivial⟩,
      ⟨rfl, trivial⟩, ⟨⟨.read, 2, 1, rfl⟩, trivial⟩, ⟨rfl, trivial⟩, trivial⟩
  have hrun : Run SingleStep State.init as (as.foldl next State.init) :=
    (Run.of_allEnabled hall).mono fun h => ⟨⟨h.1.1, h.2⟩, h.1.2⟩
  have hfalse := hnever as _ hrun 2 .read 2 1 rfl
  exact absurd hfalse (by decide)

end Runs

end CS111.Ramdisk
