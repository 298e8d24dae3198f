import Mathlib.Logic.Relation

/-!
# Runs of a labelled transition system

`Run step s as t` says that the actions `as`, taken in this order from `s`, lead to `t`.
A history grows at its right end, so an induction over a run meets the last step first.
-/

namespace CS111

set_option autoImplicit false

universe u v
variable {σ : Type u} {ι : Type v}

inductive Run (step : σ → ι → σ → Prop) : σ → List ι → σ → Prop
  | start (s : σ) : Run step s [] s
  | snoc {s t r : σ} {as : List ι} {a : ι} :
      Run step s as t → step t a r → Run step s (as ++ [a]) r

namespace Run
variable {step : σ → ι → σ → Prop} {s t r : σ} {as bs : List ι}

theorem single {r : σ → ι → σ → Prop} {a : ι} (h : r s a t) : Run r s [a] t :=
  .snoc (.start s) h

theorem trans (hst : Run step s as t) (htr : Run step t bs r) : Run step s (as ++ bs) r := by
  induction htr with
  | start => simpa using hst
  | snoc _ hstep ih =>
    rw [← List.append_assoc]
    exact .snoc ih hstep

theorem last (as : List ι) {a : ι} (h : Run step s (as ++ [a]) r) : ∃ t, Run step s as t ∧ step t a r := by
  generalize hbs : as ++ [a] = bs at h
  cases h with
  | start => exact absurd hbs (by simp)
  | snoc hrun hstep =>
    obtain ⟨rfl, ha⟩ := List.append_inj' hbs rfl
    obtain rfl := List.singleton_inj.mp ha
    exact ⟨_, hrun, hstep⟩

/-- What one step keeps, a run keeps; the property may speak of the history as well. -/
theorem invariant_history {P : List ι → σ → Prop}
    (preserved : ∀ {as t a r}, P as t → step t a r → P (as ++ [a]) r)
    (h0 : P [] s) (h : Run step s as t) : P as t := by
  induction h with
  | start => exact h0
  | snoc _ hstep ih => exact preserved ih hstep

theorem invariant {P : σ → Prop} (preserved : ∀ {t a r}, P t → step t a r → P r)
    (h0 : P s) (h : Run step s as t) : P t :=
  invariant_history (P := fun _ t => P t) (fun hp hs => preserved hp hs) h0 h

theorem mono {r : σ → ι → σ → Prop} (hle : ∀ {t a u}, step t a u → r t a u) (h : Run step s as t) :
    Run r s as t := by
  induction h with
  | start => exact .start _
  | snoc _ hstep ih => exact .snoc ih (hle hstep)

/-- A relation that every step carries over to a step with the same action. -/
theorem simulate {τ : Type u} {step' : τ → ι → τ → Prop} {R : σ → τ → Prop} {s' : τ}
    (hstep : ∀ {t a r t'}, R t t' → step t a r → ∃ r', step' t' a r' ∧ R r r') (hs : R s s')
    (h : Run step s as t) : ∃ t', Run step' s' as t' ∧ R t t' := by
  induction h with
  | start => exact ⟨s', .start s', hs⟩
  | snoc _ hlast ih =>
    obtain ⟨t', hrun, ht⟩ := ih
    obtain ⟨r', hlast', hr⟩ := hstep ht hlast
    exact ⟨r', .snoc hrun hlast', hr⟩

/-- A rank that every step lowers bounds the length of a run. -/
theorem length_le_rank {R : σ → Nat → Prop} {n : Nat}
    (hstep : ∀ {t a r n}, R t n → step t a r → ∃ n' < n, R r n') (hs : R s n)
    (h : Run step s as t) : ∃ n', R t n' ∧ as.length + n' ≤ n := by
  induction h with
  | start => exact ⟨n, hs, Nat.le_of_eq (Nat.zero_add n)⟩
  | snoc _ hlast ih =>
    obtain ⟨n₁, ht, hle⟩ := ih
    obtain ⟨n₂, hlt, hr⟩ := hstep ht hlast
    refine ⟨n₂, hr, ?_⟩
    rw [List.length_append, List.length_singleton]
    omega

end Run

theorem Run.of_foldlM {next : σ → ι → Option σ} {s t : σ} {as : List ι}
    (h : as.foldlM next s = some t) : Run (fun s a t => next s a = some t) s as t := by
  induction as generalizing s with
  | nil =>
    cases h
    exact .start _
  | cons a as ih =>
    rw [List.foldlM_cons] at h
    obtain ⟨r, hr, hrest⟩ := Option.bind_eq_some_iff.mp h
    exact (Run.single hr).trans (ih hrest)

section Evaluated
variable (next : σ → ι → Option σ) (ok : σ → ι → Prop) [∀ s a, Decidable (ok s a)] (P : σ → Prop)
  [DecidablePred P] (s : σ) (as : List ι)

/-- The actions one after the other, as long as each meets a condition on the state before it. -/
def runGuarded : Option σ :=
  as.foldlM (fun s a => if ok s a then next s a else none) s

theorem Run.of_guarded (h : (runGuarded next ok s as).any (fun t => decide (P t)) = true) :
    ∃ t, Run (fun s a t => next s a = some t ∧ ok s a) s as t ∧ P t := by
  cases hrun : runGuarded next ok s as with
  | none =>
    rw [hrun] at h
    cases h
  | some t =>
    rw [hrun] at h
    refine ⟨t, (Run.of_foldlM hrun).mono fun {s a t} hstep => ?_, of_decide_eq_true h⟩
    split at hstep
    · next hok => exact ⟨hstep, hok⟩
    · cases hstep

end Evaluated

section Functional
variable {enabled : σ → ι → Prop} {next : σ → ι → σ} {s : σ} {as : List ι}

/-- Every action can be taken where the ones before it lead. -/
def AllEnabled (enabled : σ → ι → Prop) (next : σ → ι → σ) : σ → List ι → Prop
  | _, [] => True
  | s, a :: as => enabled s a ∧ AllEnabled enabled next (next s a) as

theorem Run.of_allEnabled (h : AllEnabled enabled next s as) :
    Run (fun s a t => enabled s a ∧ t = next s a) s as (as.foldl next s) := by
  induction as generalizing s with
  | nil => exact .start s
  | cons a as ih => exact (Run.single ⟨h.1, rfl⟩).trans (ih h.2)

theorem Run.eq_foldl {t : σ} (h : Run (fun s a t => enabled s a ∧ t = next s a) s as t) :
    t = as.foldl next s := by
  induction h with
  | start => rfl
  | snoc _ hstep ih => rw [List.foldl_append, ← ih, hstep.2, List.foldl_cons, List.foldl_nil]

end Functional

end CS111
