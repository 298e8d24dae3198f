import Mathlib.Logic.Basic

/-!
# Computations that may stop with a fault, or not at all

`Avoids P x` says that `x` does not stop with a fault of `P`. `Matches P V x x'` says that `x'` does
what `x` does, up to `V`, unless `x` stops with a fault of `P`.

A loop that may run for ever is a function of the number of its rounds, which is `none` when they are
not enough. `Returns f r` says that the call comes to an end, and with `r` only.
-/

namespace CS111

set_option autoImplicit false

universe u v
variable {ε : Type u} {α β γ δ : Type v} {P : ε → Prop} {fault : ε}

namespace Fallible

section Avoids

def Avoids (P : ε → Prop) (x : Except ε α) : Prop := ∀ fault, P fault → x ≠ .error fault

variable {x : Except ε α} {f : α → Except ε β}

theorem avoids_ok (a : α) : Avoids P (.ok a : Except ε α) := by
  intro fault _ h
  cases h

theorem avoids_error (h : ¬ P fault) : Avoids P (.error fault : Except ε α) := by
  intro fault' hP heq
  cases heq
  exact h hP

theorem Avoids.bind (hx : Avoids P x) (hf : ∀ a, x = .ok a → Avoids P (f a)) :
    Avoids P (x >>= f) := by
  cases x with
  | error fault =>
    intro fault' hP h
    cases h
    exact hx fault hP rfl
  | ok a => exact hf a rfl

theorem not_avoids_error (h : P fault) : ¬ Avoids P (.error fault : Except ε α) :=
  fun havoids => havoids fault h rfl

theorem not_avoids_bind (hx : ¬ Avoids P x) : ¬ Avoids P (x >>= f) := by
  intro havoids
  apply hx
  intro fault hP h
  subst h
  exact havoids fault hP rfl

end Avoids

theorem bind_eq_ok {x : Except ε α} {f : α → Except ε β} {b : β} :
    x >>= f = .ok b ↔ ∃ a, x = .ok a ∧ f a = .ok b := by
  cases x with
  | error fault => simp [bind, Except.bind]
  | ok a => simp [bind, Except.bind]

inductive Matches (P : ε → Prop) (V : α → β → Prop) : Except ε α → Except ε β → Prop
  | value {a : α} {b : β} : V a b → Matches P V (.ok a) (.ok b)
  | stopped {fault : ε} {x' : Except ε β} : P fault → Matches P V (.error fault) x'
  | same {fault : ε} : Matches P V (.error fault) (.error fault)

namespace Matches

variable {V : α → β → Prop} {W : γ → δ → Prop} {x : Except ε α} {x' : Except ε β}

theorem bind {f : α → Except ε γ} {f' : β → Except ε δ} (hx : Matches P V x x')
    (hf : ∀ a b, V a b → Matches P W (f a) (f' b)) : Matches P W (x >>= f) (x' >>= f') := by
  cases hx with
  | value h => exact hf _ _ h
  | stopped h => exact .stopped h
  | same => exact .same

theorem foldlM {f : α → γ → Except ε α} {f' : β → γ → Except ε β}
    (hf : ∀ a b c, V a b → Matches P V (f a c) (f' b c)) {a : α} {b : β} (hV : V a b) (l : List γ) :
    Matches P V (l.foldlM f a) (l.foldlM f' b) := by
  induction l generalizing a b with
  | nil => exact .value hV
  | cons c l ih =>
    rw [List.foldlM_cons, List.foldlM_cons]
    exact (hf a b c hV).bind fun a' b' hV' => ih hV'

theorem refl {x : Except ε α} : Matches P Eq x x := by
  cases x with
  | error fault => exact .same
  | ok a => exact .value rfl

theorem ok {a : α} (h : Matches P V x x') (hx : x = .ok a) : ∃ b, x' = .ok b ∧ V a b := by
  cases h with
  | value hV =>
    cases hx
    exact ⟨_, rfl, hV⟩
  | stopped => cases hx
  | same => cases hx

theorem eq_of_avoids {x' : Except ε α} (h : Matches P Eq x x') (hx : Avoids P x) : x' = x := by
  cases h with
  | value heq => rw [heq]
  | stopped hP => exact absurd rfl (hx _ hP)
  | same => rfl

end Matches

/-! ## Computations that deliver -/

section Succeeds

/-- The computation does not stop with a fault, and its value is in `V`. -/
def Succeeds (V : α → Prop) (x : Except ε α) : Prop := ∃ a, x = .ok a ∧ V a

variable {V W : α → Prop} {x : Except ε α}

theorem Succeeds.ok {a : α} (h : V a) : Succeeds V (.ok a : Except ε α) := ⟨a, rfl, h⟩

theorem Succeeds.mono (h : Succeeds V x) (hVW : ∀ a, V a → W a) : Succeeds W x := by
  obtain ⟨a, hx, ha⟩ := h
  exact ⟨a, hx, hVW a ha⟩

theorem Succeeds.bind {V' : β → Prop} {f : α → Except ε β} (hx : Succeeds V x)
    (hf : ∀ a, V a → Succeeds V' (f a)) : Succeeds V' (x >>= f) := by
  obtain ⟨a, rfl, ha⟩ := hx
  exact hf a ha

theorem Succeeds.foldlM {f : α → γ → Except ε α} (hf : ∀ a c, V a → Succeeds V (f a c)) {a : α}
    (ha : V a) (l : List γ) : Succeeds V (l.foldlM f a) := by
  induction l generalizing a with
  | nil => exact .ok ha
  | cons c l ih =>
    rw [List.foldlM_cons]
    exact (hf a c ha).bind fun a' ha' => ih ha'

end Succeeds

/-! ## Computations with some faults only -/

section Allows

/-- The computation delivers a value in `V` or stops with a fault of `P`. -/
inductive Allows (P : ε → Prop) (V : α → Prop) : Except ε α → Prop
  | value {a : α} : V a → Allows P V (.ok a)
  | stopped {fault : ε} : P fault → Allows P V (.error fault)

variable {V W : α → Prop} {x : Except ε α}

theorem Succeeds.allows (h : Succeeds V x) : Allows P V x := by
  obtain ⟨a, rfl, ha⟩ := h
  exact .value ha

theorem Allows.mono (h : Allows P V x) (hVW : ∀ a, V a → W a) : Allows P W x := by
  cases h with
  | value ha => exact .value (hVW _ ha)
  | stopped hP => exact .stopped hP

theorem Allows.bind {V' : β → Prop} {f : α → Except ε β} (hx : Allows P V x)
    (hf : ∀ a, V a → Allows P V' (f a)) : Allows P V' (x >>= f) := by
  cases hx with
  | value ha => exact hf _ ha
  | stopped hP => exact .stopped hP

theorem Allows.foldlM {f : α → γ → Except ε α} (hf : ∀ a c, V a → Allows P V (f a c)) {a : α}
    (ha : V a) (l : List γ) : Allows P V (l.foldlM f a) := by
  induction l generalizing a with
  | nil => exact .value ha
  | cons c l ih =>
    rw [List.foldlM_cons]
    exact (hf a c ha).bind fun a' ha' => ih ha'

theorem Allows.ok {a : α} (h : Allows P V (.ok a : Except ε α)) : V a := by
  cases h with
  | value ha => exact ha

theorem Allows.succeeds (h : Allows P V x) (hno : ∀ fault, P fault → x ≠ .error fault) :
    Succeeds V x := by
  cases h with
  | value ha => exact .ok ha
  | stopped hP => exact absurd rfl (hno _ hP)

end Allows

/-! ## Two levels -/

section Mirrors

universe w
variable {ε' : Type w} {F : ε → ε' → Prop}

/-- Both computations deliver values related by `V`, or stop with faults related by `F`. -/
inductive Mirrors (F : ε → ε' → Prop) (V : α → β → Prop) : Except ε α → Except ε' β → Prop
  | value {a : α} {b : β} : V a b → Mirrors F V (.ok a) (.ok b)
  | fault {fault : ε} {fault' : ε'} : F fault fault' → Mirrors F V (.error fault) (.error fault')

namespace Mirrors

variable {V : α → β → Prop} {W : γ → δ → Prop} {x : Except ε α} {x' : Except ε' β}

theorem bind {f : α → Except ε γ} {f' : β → Except ε' δ} (hx : Mirrors F V x x')
    (hf : ∀ a b, V a b → Mirrors F W (f a) (f' b)) : Mirrors F W (x >>= f) (x' >>= f') := by
  cases hx with
  | value h => exact hf _ _ h
  | fault h => exact .fault h

theorem ok_right {b : β} (h : Mirrors F V x x') (hx : x' = .ok b) : ∃ a, x = .ok a ∧ V a b := by
  cases h with
  | value hV =>
    cases hx
    exact ⟨_, rfl, hV⟩
  | fault => cases hx

theorem ok_left {a : α} (h : Mirrors F V x x') (hx : x = .ok a) : ∃ b, x' = .ok b ∧ V a b := by
  cases h with
  | value hV =>
    cases hx
    exact ⟨_, rfl, hV⟩
  | fault => cases hx

theorem error_left {fault : ε} (h : Mirrors F V x x') (hx : x = .error fault) :
    ∃ fault', x' = .error fault' ∧ F fault fault' := by
  cases h with
  | value => cases hx
  | fault hF =>
    cases hx
    exact ⟨_, rfl, hF⟩

end Mirrors

end Mirrors

end Fallible

/-! ## Calls with fuel -/

namespace Fuel

variable {f : Nat → Option α} {k : α → Option β} {r : α}

structure Returns (f : Nat → Option α) (r : α) : Prop where
  ends : ∃ fuel, f fuel = some r
  only : ∀ fuel r', f fuel = some r' → r' = r

def Diverges (f : Nat → Option α) : Prop := ∀ fuel, f fuel = none

theorem returns_some (r : α) : Returns (fun _ => some r) r :=
  ⟨⟨0, rfl⟩, fun _ _ h => (Option.some.inj h).symm⟩

/-- What follows the call takes no rounds. -/
theorem Returns.bind {q : β} (h : Returns f r) (hk : k r = some q) :
    Returns (fun fuel => (f fuel).bind k) q := by
  constructor
  · obtain ⟨fuel, hf⟩ := h.ends
    exact ⟨fuel, by rw [hf, Option.bind_some, hk]⟩
  · intro fuel q' hq
    obtain ⟨r', hf, hr'⟩ := Option.bind_eq_some_iff.mp hq
    rw [h.only fuel r' hf, hk] at hr'
    exact (Option.some.inj hr').symm

theorem Diverges.bind (h : Diverges f) : Diverges fun fuel => (f fuel).bind k := by
  intro fuel
  change (f fuel).bind k = none
  rw [h fuel, Option.bind_none]

/-- A property of all results. -/
theorem Returns.forall_iff {P : α → Prop} (h : Returns f r) :
    (∀ fuel r', f fuel = some r' → P r') ↔ P r := by
  constructor
  · intro hall
    obtain ⟨fuel, hf⟩ := h.ends
    exact hall fuel r hf
  · intro hP fuel r' hf
    rw [h.only fuel r' hf]
    exact hP

end Fuel

end CS111
