import CS111.Schedos.Application

/-!
# What the SchedOS applications print

The applications take their steps in any order. Only one of them at a time is between its two
exchanges, so every cell of the console is reserved by one of them, and gets its character.
-/

namespace CS111.Schedos

set_option autoImplicit false

universe u
variable {ι : Type u} [DecidableEq ι] {lockedWrite : Bool} {printChar : ι → UInt16}
  {m m' : Machine ι} {p q : ι} {a : App} {owners : List ι} {blank : Nat → UInt16} {k pos : Nat}
  {l : UInt32} {t : Option Trap}

/-- Between the exchange that takes the lock and the one that releases it. -/
def Point.inside : Point → Prop
  | .load | .advance _ | .release => True
  | _ => False

/-- The points of the two builds. -/
def Point.Fits (lockedWrite : Bool) : Point → Prop
  | .acquire | .load | .advance _ | .release => lockedWrite = true
  | .write => lockedWrite = false
  | _ => True

/-- Whether the character of this round has got its cell. -/
def Point.reserved : Point → Nat
  | .release | .yield => 1
  | _ => 0

/-- What holds in round `i` of `p`, who prints `c`; `owners` are those who reserved the cells below the
cursor, in their order. -/
def Point.Sound (owners : List ι) (screen : Nat → UInt16) (p : ι) (c : UInt16) (i : Nat)
    (pending : Option Nat) : Point → Prop
  | .test => i ≤ runCount ∧ pending = none
  | .acquire | .load | .write => i < runCount ∧ pending = none
  | .advance pos =>
    i < runCount ∧ pos = owners.length ∧ (pending = some pos ∨ pending = none ∧ screen pos = c)
  | .release | .yield => i < runCount ∧ ∀ k, pending = some k → owners[k]? = some p
  | .leave | .exited => i = runCount ∧ pending = none

/-- `p` prints `c`. -/
def App.Sound (owners : List ι) (screen : Nat → UInt16) (p : ι) (c : UInt16) (a : App) : Prop :=
  a.point.Sound owners screen p c a.i a.pending

/-- For how many characters a cell has been reserved. -/
def App.printed (a : App) : Nat := a.i + a.point.reserved

structure Printing (lockedWrite : Bool) (printChar : ι → UInt16) (blank : Nat → UInt16)
    (m : Machine ι) (owners : List ι) : Prop where
  exclusive : Exclusive (m.lock ≠ 0) fun p => (m.app p).point.inside
  fits : ∀ p, (m.app p).point.Fits lockedWrite
  cursor : m.cursorpos = owners.length
  sound : ∀ p, (m.app p).Sound owners m.screen p (printChar p)
  counts : ∀ p, owners.count p = (m.app p).printed
  cells : ∀ k p, owners[k]? = some p → (m.app p).pending ≠ some k → m.screen k = printChar p
  rest : ∀ k, m.cursorpos ≤ k → (∀ p, (m.app p).point ≠ .advance k) → m.screen k = blank k

section Frame

@[simp] theorem app_setApp_self : (m.setApp p a).app p = a := by simp [Machine.setApp]

theorem app_setApp_of_ne (h : q ≠ p) : (m.setApp p a).app q = m.app q := by
  simp [Machine.setApp, h]

@[simp] theorem lock_setApp : (m.setApp p a).lock = m.lock := rfl

@[simp] theorem cursorpos_setApp : (m.setApp p a).cursorpos = m.cursorpos := rfl

@[simp] theorem screen_setApp : (m.setApp p a).screen = m.screen := rfl

/-- What holds of the others and of the new state of `p` holds of all. -/
theorem forall_setApp {P : ι → App → Prop} (hp : P p a) (hothers : ∀ q, q ≠ p → P q (m.app q))
    (q : ι) : P q ((m.setApp p a).app q) := by
  by_cases hq : q = p
  · subst hq
    rwa [app_setApp_self]
  · rw [app_setApp_of_ne hq]
    exact hothers q hq

theorem pending_goto {point : Point} : ((m.goto p point).app q).pending = (m.app q).pending := by
  exact forall_setApp (a := { m.app p with point := point })
    (P := fun q b => b.pending = (m.app q).pending) rfl (fun _ _ => rfl) q

theorem inside_setApp (q : ι) (hq : q ≠ p) :
    ((m.setApp p a).app q).point.inside ↔ (m.app q).point.inside := by
  rw [app_setApp_of_ne hq]

omit [DecidableEq ι] in
/-- Cells that are reserved later, and stores elsewhere, do not concern the others. -/
theorem App.Sound.frame {owners' : List ι} {screen screen' : Nat → UInt16} {c : UInt16}
    (h : a.Sound owners screen p c) (hlonger : owners <+: owners')
    (hadvance : ∀ pos, a.point = .advance pos → owners' = owners ∧ screen' pos = screen pos) :
    a.Sound owners' screen' p c := by
  unfold App.Sound at h ⊢
  cases hpoint : a.point with
  | test | acquire | load | write | leave | exited =>
    rw [hpoint] at h
    exact h
  | advance pos =>
    rw [hpoint] at h
    obtain ⟨rfl, hscreen⟩ := hadvance pos hpoint
    exact ⟨h.1, h.2.1, hscreen ▸ h.2.2⟩
  | release | yield =>
    rw [hpoint] at h
    refine ⟨h.1, fun k hk => ?_⟩
    have howner : owners[k]? = some p := h.2 k hk
    obtain ⟨tail, rfl⟩ := hlonger
    rw [List.getElem?_append_left (List.getElem?_eq_some_iff.mp howner).1, howner]

end Frame

section Steps
variable {old new : Point} {i : Nat}

theorem Printing.sound_at (h : Printing lockedWrite printChar blank m owners)
    (hp : (m.app p).point = old) :
    old.Sound owners m.screen p (printChar p) (m.app p).i (m.app p).pending :=
  hp ▸ h.sound p

theorem Printing.counts_at (h : Printing lockedWrite printChar blank m owners)
    (hp : (m.app p).point = old) : owners.count p = (m.app p).i + old.reserved := by
  rw [h.counts p, App.printed, hp]

/-- A step that reserves no cell and stores no character. -/
theorem Printing.own (h : Printing lockedWrite printChar blank m owners)
    (hp : (m.app p).point = old) (hold : ∀ k, old ≠ .advance k)
    (hexclusive : Exclusive (l ≠ 0) fun q =>
      ((m.setApp p ⟨i, new, (m.app p).pending⟩).app q).point.inside)
    (hfits : new.Fits lockedWrite)
    (hsound : new.Sound owners m.screen p (printChar p) i (m.app p).pending)
    (hreserved : i + new.reserved = (m.app p).i + old.reserved) :
    Printing lockedWrite printChar blank
      ({ m with lock := l }.setApp p ⟨i, new, (m.app p).pending⟩) owners where
  exclusive := hexclusive
  fits := forall_setApp (P := fun _ b => b.point.Fits lockedWrite) hfits fun q _ => h.fits q
  cursor := h.cursor
  sound := forall_setApp (P := fun q b => b.Sound owners m.screen q (printChar q)) hsound
    fun q _ => h.sound q
  counts := forall_setApp (P := fun q b => owners.count q = b.printed)
    ((h.counts_at hp).trans hreserved.symm) fun q _ => h.counts q
  cells k := forall_setApp
    (P := fun q b => owners[k]? = some q → b.pending ≠ some k → m.screen k = printChar q)
    (h.cells k p) fun q _ => h.cells k q
  rest k hk hnone := by
    refine h.rest k hk fun q => ?_
    by_cases hq : q = p
    · subst hq
      rw [hp]
      exact hold k
    · have := hnone q
      rwa [app_setApp_of_ne hq] at this

/-- The same, where it does not matter to the lock either. -/
theorem Printing.move (h : Printing lockedWrite printChar blank m owners)
    (hp : (m.app p).point = old) (hold : ∀ k, old ≠ .advance k)
    (hinside : new.inside ↔ old.inside) (hfits : new.Fits lockedWrite)
    (hsound : new.Sound owners m.screen p (printChar p) i (m.app p).pending)
    (hreserved : i + new.reserved = (m.app p).i + old.reserved) :
    Printing lockedWrite printChar blank (m.setApp p ⟨i, new, (m.app p).pending⟩) owners := by
  refine h.own (l := m.lock) hp hold ?_ hfits hsound hreserved
  refine h.exclusive.congr Iff.rfl ?_
  exact forall_setApp (P := fun q b => b.point.inside ↔ (m.app q).point.inside)
    (hp.symm ▸ hinside) fun q _ => Iff.rfl

theorem Printing.test (h : Printing lockedWrite printChar blank m owners)
    (hp : (m.app p).point = .test) (hi : (m.app p).i < runCount) :
    Printing lockedWrite printChar blank
      (m.goto p (if lockedWrite then .acquire else .write)) owners := by
  have hsound := h.sound_at hp
  cases lockedWrite with
  | true =>
    exact h.move hp (fun k => Point.noConfusion) Iff.rfl rfl ⟨hi, hsound.2⟩ rfl
  | false =>
    exact h.move hp (fun k => Point.noConfusion) Iff.rfl rfl ⟨hi, hsound.2⟩ rfl

theorem Printing.done (h : Printing lockedWrite printChar blank m owners)
    (hp : (m.app p).point = .test) (hi : ¬ (m.app p).i < runCount) :
    Printing lockedWrite printChar blank (m.goto p .leave) owners := by
  have hsound := h.sound_at hp
  exact h.move hp (fun k => Point.noConfusion) Iff.rfl trivial
    ⟨Nat.le_antisymm hsound.1 (Nat.not_lt.mp hi), hsound.2⟩ rfl

theorem Printing.acquire (h : Printing lockedWrite printChar blank m owners)
    (hp : (m.app p).point = .acquire) :
    Printing lockedWrite printChar blank
      ({ m with lock := 1 }.goto p (if m.lock = 0 then .load else .acquire)) owners := by
  have hsound := h.sound_at hp
  have hfits := h.fits p
  rw [hp] at hfits
  split
  · next hfree =>
    refine h.own (i := (m.app p).i) hp (fun k => Point.noConfusion) ?_ hfits hsound rfl
    refine h.exclusive.enter (p := p) (fun hheld => hheld hfree) (by decide) ?_ fun q hq => ?_
    · rw [app_setApp_self]
      trivial
    · exact inside_setApp q hq
  · next hheld =>
    refine h.own (i := (m.app p).i) hp (fun k => Point.noConfusion) ?_ hfits hsound rfl
    refine h.exclusive.congr (iff_of_true (by decide) hheld) ?_
    exact forall_setApp (P := fun q b => b.point.inside ↔ (m.app q).point.inside)
      (by rw [hp]) fun q _ => Iff.rfl

theorem Printing.release (h : Printing lockedWrite printChar blank m owners)
    (hp : (m.app p).point = .release) :
    Printing lockedWrite printChar blank ({ m with lock := 0 }.goto p .yield) owners := by
  have hsound := h.sound_at hp
  refine h.own (i := (m.app p).i) hp (fun k => Point.noConfusion) ?_ trivial hsound rfl
  refine h.exclusive.leave (p := p) ?_ (fun hheld => hheld rfl) ?_ fun q hq => ?_
  · rw [hp]
    trivial
  · rw [app_setApp_self]
    exact id
  · exact inside_setApp q hq

theorem Printing.yield (h : Printing lockedWrite printChar blank m owners)
    (hp : (m.app p).point = .yield) (hpending : (m.app p).pending = none) :
    Printing lockedWrite printChar blank
      (m.setApp p ⟨(m.app p).i + 1, .test, (m.app p).pending⟩) owners := by
  have hsound := h.sound_at hp
  exact h.move hp (fun k => Point.noConfusion) Iff.rfl trivial ⟨hsound.1, hpending⟩ rfl

theorem Printing.leave (h : Printing lockedWrite printChar blank m owners)
    (hp : (m.app p).point = .leave) :
    Printing lockedWrite printChar blank (m.goto p .exited) owners := by
  have hsound := h.sound_at hp
  exact h.move hp (fun k => Point.noConfusion) Iff.rfl trivial hsound rfl

theorem Printing.not_advance (h : Printing lockedWrite printChar blank m owners)
    (hp : (m.app p).point.inside) (hq : q ≠ p) (k : Nat) : (m.app q).point ≠ .advance k := by
  intro hadvance
  refine h.exclusive.not_inside_of_ne hp hq ?_
  rw [hadvance]
  trivial

theorem Printing.load (h : Printing lockedWrite printChar blank m owners)
    (hp : (m.app p).point = .load) :
    Printing lockedWrite printChar blank
      (m.setApp p ⟨(m.app p).i, .advance m.cursorpos, some m.cursorpos⟩) owners where
  exclusive := by
    refine h.exclusive.congr Iff.rfl ?_
    exact forall_setApp (P := fun q b => b.point.inside ↔ (m.app q).point.inside) (by rw [hp]; rfl)
      fun q _ => Iff.rfl
  fits := by
    have hfits := h.fits p
    rw [hp] at hfits
    exact forall_setApp (P := fun _ b => b.point.Fits lockedWrite) hfits fun q _ => h.fits q
  cursor := h.cursor
  sound := forall_setApp (P := fun q b => b.Sound owners m.screen q (printChar q))
    ⟨(h.sound_at hp).1, h.cursor, .inl rfl⟩ fun q _ => h.sound q
  counts := by
    have hcount := h.counts_at hp
    exact forall_setApp (P := fun q b => owners.count q = b.printed) hcount fun q _ => h.counts q
  cells k := by
    refine forall_setApp
      (P := fun q b => owners[k]? = some q → b.pending ≠ some k → m.screen k = printChar q) ?_
      fun q _ => h.cells k q
    intro howner _
    refine h.cells k p howner ?_
    rw [(h.sound_at hp).2]
    exact nofun
  rest k hk hnone := by
    refine h.rest k hk fun q => ?_
    by_cases hq : q = p
    · rw [hq, hp]
      exact Point.noConfusion
    · have := hnone q
      rwa [app_setApp_of_ne hq] at this

omit [DecidableEq ι] in
theorem getElem?_snoc_self : (owners ++ [p])[owners.length]? = some p := by simp

omit [DecidableEq ι] in
/-- The owner of a cell, when one more cell has been reserved. -/
theorem owner_snoc (h : (owners ++ [p])[k]? = some q) :
    owners[k]? = some q ∨ k = owners.length ∧ p = q := by
  obtain ⟨hk, hq⟩ := List.getElem?_eq_some_iff.mp h
  rw [List.length_append, List.length_singleton] at hk
  rcases Nat.lt_succ_iff_lt_or_eq.mp hk with hlt | rfl
  · rw [List.getElem?_append_left hlt] at h
    exact .inl h
  · rw [getElem?_snoc_self] at h
    exact .inr ⟨rfl, Option.some.inj h⟩

theorem Printing.counts_snoc (h : Printing lockedWrite printChar blank m owners)
    (hp : a.printed = (m.app p).printed + 1) (q : ι) :
    (owners ++ [p]).count q = ((m.setApp p a).app q).printed := by
  refine forall_setApp (P := fun q b => (owners ++ [p]).count q = b.printed) ?_ (fun q hq => ?_) q
  · rw [List.count_append, h.counts p, List.count_singleton_self, hp]
  · rw [List.count_append, h.counts q, List.count_singleton, if_neg (by simpa using hq.symm)]
    rfl

theorem Printing.advance (h : Printing lockedWrite printChar blank m owners)
    (hp : (m.app p).point = .advance pos) :
    Printing lockedWrite printChar blank ({ m with cursorpos := pos + 1 }.goto p .release)
      (owners ++ [p]) := by
  obtain ⟨hi, rfl, hstored⟩ := h.sound_at hp
  have hinside : (m.app p).point.inside := by
    rw [hp]
    trivial
  refine ⟨?_, ?_, ?_, ?_, ?_, ?_, ?_⟩
  · refine h.exclusive.congr Iff.rfl ?_
    exact forall_setApp (P := fun q b => b.point.inside ↔ (m.app q).point.inside)
      (by rw [hp]; rfl) fun q _ => Iff.rfl
  · have hfits := h.fits p
    rw [hp] at hfits
    exact forall_setApp (P := fun _ b => b.point.Fits lockedWrite) hfits fun q _ => h.fits q
  · exact (List.length_append : (owners ++ [p]).length = owners.length + [p].length).symm
  · refine forall_setApp
      (P := fun q b => b.Sound (owners ++ [p]) m.screen q (printChar q)) ⟨hi, fun k hk => ?_⟩
      fun q hq => (h.sound q).frame (List.prefix_append owners [p])
        fun k hk => absurd hk (h.not_advance hinside hq k)
    have hk : k = owners.length := by
      rcases hstored with hpos | ⟨hnone, -⟩
      · exact Option.some.inj (hk.symm.trans hpos)
      · rw [hnone] at hk
        cases hk
    rw [hk, getElem?_snoc_self]
  · refine h.counts_snoc ?_
    rw [App.printed, App.printed, hp]
    rfl
  · intro k q howner hpending
    rw [pending_goto] at hpending
    rcases owner_snoc howner with howner | ⟨rfl, rfl⟩
    · exact h.cells k q howner hpending
    · rcases hstored with hpos | ⟨-, hscreen⟩
      · exact absurd hpos hpending
      · exact hscreen
  · intro k hk hnone
    have hk : owners.length + 1 ≤ k := hk
    refine h.rest k (by rw [h.cursor]; omega) fun q hadvance => ?_
    by_cases hq : q = p
    · rw [hq, hp, Point.advance.injEq] at hadvance
      omega
    · exact h.not_advance hinside hq k hadvance

theorem Printing.pending_cell (h : Printing lockedWrite printChar blank m owners)
    (hp : (m.app p).pending = some pos) :
    (m.app p).point = .advance pos ∧ pos = owners.length ∨
      owners[pos]? = some p ∧ ∀ k, (m.app p).point ≠ .advance k := by
  cases hpoint : (m.app p).point with
  | test | acquire | load | write | leave | exited =>
    have hnone := (h.sound_at hpoint).2
    rw [hp] at hnone
    cases hnone
  | advance k =>
    obtain ⟨-, rfl, hstored⟩ := h.sound_at hpoint
    rcases hstored with hk | ⟨hnone, -⟩
    · rw [hp] at hk
      cases hk
      exact .inl ⟨rfl, rfl⟩
    · rw [hp] at hnone
      cases hnone
  | release | yield => exact .inr ⟨(h.sound_at hpoint).2 pos hp, fun k => Point.noConfusion⟩

theorem Printing.pending_advance (h : Printing lockedWrite printChar blank m owners)
    (hp : (m.app p).pending = some pos) (hq : (m.app q).point = .advance k) : q = p ↔ k = pos := by
  obtain ⟨-, hk, -⟩ := h.sound_at hq
  rcases h.pending_cell hp with ⟨hpoint, hpos⟩ | ⟨howner, hnone⟩
  · refine iff_of_true (h.exclusive.unique ?_ ?_) (hk.trans hpos.symm)
    · rw [hq]; trivial
    · rw [hpoint]; trivial
  · refine iff_of_false ?_ ?_
    · rintro rfl
      exact hnone k hq
    · rintro rfl
      have := (List.getElem?_eq_some_iff.mp howner).1
      omega

/-- The store of a character, into a cell that is or is about to be reserved. -/
theorem Printing.store (h : Printing lockedWrite printChar blank m owners)
    (hp : (m.app p).pending = some pos) :
    Printing lockedWrite printChar blank
      ({ m with screen := Function.update m.screen pos (printChar p) }.setApp p
        ⟨(m.app p).i, (m.app p).point, none⟩) owners := by
  have hpoint : ∀ q, ((m.setApp p ⟨(m.app p).i, (m.app p).point, none⟩).app q).point =
      (m.app q).point :=
    forall_setApp (P := fun q b => b.point = (m.app q).point) rfl fun q _ => rfl
  refine ⟨?_, ?_, h.cursor, ?_, ?_, ?_, ?_⟩
  · exact h.exclusive.congr Iff.rfl fun q => iff_of_eq (congrArg Point.inside (hpoint q))
  · exact forall_setApp (P := fun _ b => b.point.Fits lockedWrite) (h.fits p) fun q _ => h.fits q
  · refine forall_setApp (P := fun q b => b.Sound owners (Function.update m.screen pos (printChar p))
      q (printChar q)) ?_ fun q hq => (h.sound q).frame List.prefix_rfl fun k hk => ⟨rfl, ?_⟩
    · show (m.app p).point.Sound owners _ p (printChar p) (m.app p).i none
      cases hadvance : (m.app p).point with
      | test | acquire | load | write | leave | exited => exact ⟨(h.sound_at hadvance).1, rfl⟩
      | advance k =>
        obtain ⟨hi, hk, -⟩ := h.sound_at hadvance
        obtain rfl := (h.pending_advance hp hadvance).mp rfl
        exact ⟨hi, hk, .inr ⟨rfl, Function.update_self ..⟩⟩
      | release | yield => exact ⟨(h.sound_at hadvance).1, nofun⟩
    · exact Function.update_of_ne (fun heq => hq ((h.pending_advance hp hk).mpr heq)) ..
  · exact forall_setApp (P := fun q b => owners.count q = b.printed) (h.counts p) fun q _ => h.counts q
  · intro k q howner hpending
    by_cases hk : k = pos
    · subst hk
      rcases h.pending_cell hp with ⟨-, hpos⟩ | ⟨hp', -⟩
      · have := (List.getElem?_eq_some_iff.mp howner).1
        omega
      · cases howner.symm.trans hp'
        exact Function.update_self ..
    · refine (Function.update_of_ne hk ..).trans (h.cells k q howner ?_)
      by_cases hq : q = p
      · rw [hq, hp]
        exact fun heq => hk (Option.some.inj heq).symm
      · have hsame := app_setApp_of_ne (a := ⟨(m.app p).i, (m.app p).point, none⟩) hq (m := m)
        exact hsame ▸ hpending
  · intro k hk hnone
    have hother : ∀ q, (m.app q).point ≠ .advance k := fun q => hpoint q ▸ hnone q
    refine (Function.update_of_ne ?_ ..).trans (h.rest k hk hother)
    rintro rfl
    rcases h.pending_cell hp with ⟨hadvance, -⟩ | ⟨howner, -⟩
    · exact hother p hadvance
    · have hlt := (List.getElem?_eq_some_iff.mp howner).1
      have hk : m.cursorpos ≤ k := hk
      rw [h.cursor] at hk
      omega

/-- Without the lock nobody has a position in hand. -/
theorem Printing.write (h : Printing lockedWrite printChar blank m owners)
    (hp : (m.app p).point = .write) :
    Printing lockedWrite printChar blank
      ({ m with screen := Function.update m.screen m.cursorpos (printChar p),
                cursorpos := m.cursorpos + 1 }.goto p .yield) (owners ++ [p]) := by
  have hbuild : lockedWrite = false := by
    have hfits := h.fits p
    rwa [hp] at hfits
  have hnone : ∀ q k, (m.app q).point ≠ .advance k := by
    intro q k hq
    have hfits := h.fits q
    rw [hq, hbuild] at hfits
    cases hfits
  obtain ⟨hi, hpending⟩ := h.sound_at hp
  rw [h.cursor]
  refine ⟨?_, ?_, ?_, ?_, ?_, ?_, ?_⟩
  · refine h.exclusive.congr Iff.rfl ?_
    exact forall_setApp (P := fun q b => b.point.inside ↔ (m.app q).point.inside)
      (by rw [hp]; rfl) fun q _ => Iff.rfl
  · exact forall_setApp (P := fun _ b => b.point.Fits lockedWrite) trivial fun q _ => h.fits q
  · exact (List.length_append : (owners ++ [p]).length = owners.length + [p].length).symm
  · refine forall_setApp (P := fun q b => b.Sound (owners ++ [p])
      (Function.update m.screen owners.length (printChar p)) q (printChar q)) ⟨hi, fun k hk => ?_⟩
      fun q _ => (h.sound q).frame (List.prefix_append owners [p]) fun k hk => absurd hk (hnone q k)
    cases hpending.symm.trans hk
  · refine h.counts_snoc ?_
    rw [App.printed, App.printed, hp]
    rfl
  · intro k q howner hq
    rw [pending_goto] at hq
    rcases owner_snoc howner with howner | ⟨rfl, rfl⟩
    · have hk := (List.getElem?_eq_some_iff.mp howner).1
      exact (Function.update_of_ne (Nat.ne_of_lt hk) ..).trans (h.cells k q howner hq)
    · exact Function.update_self ..
  · intro k hk _
    have hk : owners.length + 1 ≤ k := hk
    refine (Function.update_of_ne (by omega) ..).trans (h.rest k (by rw [h.cursor]; omega) ?_)
    exact fun q => hnone q k

end Steps

section Runs

/-- At most the one who takes the step gets a cell by it. -/
theorem Printing.step (h : Printing lockedWrite printChar blank m owners)
    (hstep : AppStep lockedWrite printChar m p t m') :
    ∃ more, (∀ q ∈ more, q = p) ∧ Printing lockedWrite printChar blank m' (owners ++ more) := by
  have hnone : Printing lockedWrite printChar blank m' owners →
      ∃ more, (∀ q ∈ more, q = p) ∧ Printing lockedWrite printChar blank m' (owners ++ more) := by
    intro h'
    exact ⟨[], fun q hq => absurd hq List.not_mem_nil, (List.append_nil owners).symm ▸ h'⟩
  cases hstep with
  | test hp hi => exact hnone (h.test hp hi)
  | done hp hi => exact hnone (h.done hp hi)
  | acquire hp => exact hnone (h.acquire hp)
  | load hp => exact hnone (h.load hp)
  | advance hp => exact ⟨[p], fun q => List.mem_singleton.mp, h.advance hp⟩
  | release hp => exact hnone (h.release hp)
  | write hp => exact ⟨[p], fun q => List.mem_singleton.mp, h.write hp⟩
  | store hp => exact hnone (h.store hp)
  | yield hp hpending => exact hnone (h.yield hp hpending)
  | leave hp hpending => exact hnone (h.leave hp)

theorem begin_printing : Printing lockedWrite printChar blank (begin (ι := ι) blank) [] where
  exclusive := .of_empty (fun h => h rfl) fun _ => id
  fits _ := trivial
  cursor := rfl
  sound _ := ⟨Nat.zero_le _, rfl⟩
  counts _ := rfl
  cells _ _ := nofun
  rest _ _ _ := rfl

/-- A position comes into hand at the cursor only. -/
theorem AppStep.pending (hstep : AppStep lockedWrite printChar m p t m')
    (hq : (m'.app q).pending = some k) : (m.app q).pending = some k ∨ k = m.cursorpos := by
  have hset : ∀ b : App, (b.pending = some k → (m.app p).pending = some k ∨ k = m.cursorpos) →
      ((m.setApp p b).app q).pending = some k → (m.app q).pending = some k ∨ k = m.cursorpos :=
    fun b hb => forall_setApp
      (P := fun r b => b.pending = some k → (m.app r).pending = some k ∨ k = m.cursorpos) hb
      (fun r _ => .inl) q
  cases hstep with
  | test | done | acquire | advance | release | write | leave =>
    rw [pending_goto] at hq
    exact .inl hq
  | load hp =>
    exact hset ⟨(m.app p).i, .advance m.cursorpos, some m.cursorpos⟩ (fun hk => .inr (Option.some.inj hk).symm) hq
  | store hp => exact hset ⟨(m.app p).i, (m.app p).point, none⟩ nofun hq
  | yield hp hpending => exact hset ⟨(m.app p).i + 1, .test, (m.app p).pending⟩ .inl hq

end Runs

end CS111.Schedos
