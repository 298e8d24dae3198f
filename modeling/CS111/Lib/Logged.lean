import Mathlib.Data.List.Basic

/-!
# Computations that write a log

A computation writes events and then delivers a value or stops early with a reason. The outcome is
`none` when it is still running with its fuel used up; what it has written until then is kept.

`x.Sat I E Q` says that every event of `x` meets `I`, that a reason to stop meets `E`, and that a
value and the log together meet `Q`.
-/

namespace CS111

set_option autoImplicit false

universe u v w
variable {ε : Type u} {ρ : Type v} {α β : Type w}

structure Logged (ε : Type u) (ρ : Type v) (α : Type w) where
  log : List ε
  outcome : Option (Except ρ α)
  deriving Repr, DecidableEq

namespace Logged

def running : Logged ε ρ α := ⟨[], none⟩

def stop (r : ρ) : Logged ε ρ α := ⟨[], some (.error r)⟩

def tell (e : ε) : Logged ε ρ PUnit := ⟨[e], some (.ok ⟨⟩)⟩

instance : Monad (Logged ε ρ) where
  pure a := ⟨[], some (.ok a)⟩
  bind x f :=
    match x.outcome with
    | none => ⟨x.log, none⟩
    | some (.error r) => ⟨x.log, some (.error r)⟩
    | some (.ok a) => ⟨x.log ++ (f a).log, (f a).outcome⟩

/-- The early end of `x` as a value. -/
def attempt (x : Logged ε ρ α) : Logged ε ρ (Except ρ α) := ⟨x.log, x.outcome.map .ok⟩

/-- Two computations that do not depend on each other; both are waited for. -/
def both (x : Logged ε ρ α) (y : Logged ε ρ β) : Logged ε ρ (α × β) :=
  ⟨x.log ++ y.log,
    match x.outcome, y.outcome with
    | some (.ok a), some (.ok b) => some (.ok (a, b))
    | some (.error r), some _ => some (.error r)
    | some (.ok _), some (.error r) => some (.error r)
    | none, _ | _, none => none⟩

structure Sat (x : Logged ε ρ α) (I : ε → Prop) (E : ρ → Prop) (Q : α → List ε → Prop) : Prop where
  events : ∀ e, e ∈ x.log → I e
  stops : ∀ r, x.outcome = some (.error r) → E r
  value : ∀ a, x.outcome = some (.ok a) → Q a x.log

variable {x : Logged ε ρ α} {y : Logged ε ρ β} {f : α → Logged ε ρ β} {I J : ε → Prop}
  {E : ρ → Prop} {Q Q' : α → List ε → Prop} {R : β → List ε → Prop} {a : α} {e : ε} {r : ρ}

theorem Sat.mono (h : x.Sat I E Q) (hI : ∀ e, I e → J e) (hQ : ∀ a l, Q a l → Q' a l) :
    x.Sat J E Q' where
  events := fun e he => hI e (h.events e he)
  stops := h.stops
  value := fun a ha => hQ a _ (h.value a ha)

theorem Sat.and {E' : ρ → Prop} (h : x.Sat I E Q) (h' : x.Sat J E' Q') :
    x.Sat I E fun a l => Q a l ∧ Q' a l where
  events := h.events
  stops := h.stops
  value := fun a ha => ⟨h.value a ha, h'.value a ha⟩

theorem Sat.withEvents (h : x.Sat I E Q) : x.Sat I E fun a l => Q a l ∧ ∀ e, e ∈ l → I e where
  events := h.events
  stops := h.stops
  value := fun a ha => ⟨h.value a ha, h.events⟩

theorem sat_running : (running : Logged ε ρ α).Sat I E Q where
  events := fun _ he => absurd he (List.not_mem_nil)
  stops := fun _ h => by cases h
  value := fun _ h => by cases h

theorem sat_pure (h : Q a []) : (pure a : Logged ε ρ α).Sat I E Q where
  events := fun _ he => absurd he (List.not_mem_nil)
  stops := fun _ h => by cases h
  value := fun b hb => by
    cases hb
    exact h

theorem sat_stop (h : E r) : (stop r : Logged ε ρ α).Sat I E Q where
  events := fun _ he => absurd he (List.not_mem_nil)
  stops := fun r' hr => by
    cases hr
    exact h
  value := fun _ h => by cases h

theorem sat_tell (h : I e) : (tell e : Logged ε ρ PUnit).Sat I E fun _ l => l = [e] where
  events := fun e' he => by
    rw [List.mem_singleton.mp he]
    exact h
  stops := fun _ h => by cases h
  value := fun _ _ => rfl

theorem Sat.bind (hx : x.Sat I E Q) (hf : ∀ a l, Q a l → (f a).Sat I E fun b l' => R b (l ++ l')) :
    (x >>= f).Sat I E R := by
  obtain ⟨log, outcome⟩ := x
  cases outcome with
  | none =>
    constructor
    · exact hx.events
    · intro r h
      cases h
    · intro b h
      cases h
  | some outcome =>
    cases outcome with
    | error r =>
      constructor
      · exact hx.events
      · intro r' h
        cases h
        exact hx.stops r rfl
      · intro b h
        cases h
    | ok a =>
      have hrest := hf a log (hx.value a rfl)
      constructor
      · intro e he
        rcases List.mem_append.mp he with he | he
        · exact hx.events e he
        · exact hrest.events e he
      · exact hrest.stops
      · exact hrest.value

theorem Sat.attempt {E' : ρ → Prop} (hx : x.Sat I E Q) : x.attempt.Sat I E' fun o l =>
    match o with
    | .ok a => Q a l
    | .error r => E r where
  events := hx.events
  stops := fun r h => by
    obtain ⟨o, _, ho⟩ := Option.map_eq_some_iff.mp h
    cases ho
  value := fun o h => by
    obtain ⟨o', ho, heq⟩ := Option.map_eq_some_iff.mp h
    cases heq
    cases o with
    | ok a => exact hx.value a ho
    | error r => exact hx.stops r ho

theorem Sat.both (hx : x.Sat I E Q) (hy : y.Sat I E R) :
    (x.both y).Sat I E fun c l => ∃ l₁ l₂, l = l₁ ++ l₂ ∧ Q c.1 l₁ ∧ R c.2 l₂ := by
  obtain ⟨log, outcome⟩ := x
  obtain ⟨log', outcome'⟩ := y
  constructor
  · intro e he
    rcases List.mem_append.mp he with he | he
    · exact hx.events e he
    · exact hy.events e he
  · intro r h
    rcases outcome with _ | r₁ | a <;> rcases outcome' with _ | r₂ | b <;> cases h
    · exact hx.stops _ rfl
    · exact hx.stops _ rfl
    · exact hy.stops _ rfl
  · intro c h
    rcases outcome with _ | r₁ | a <;> rcases outcome' with _ | r₂ | b <;> cases h
    exact ⟨log, log', rfl, hx.value a rfl, hy.value b rfl⟩

end Logged

end CS111
