import Mathlib.Data.Set.Insert
import CS111.Lib.Run

/-!
# The account of a pool

A pool hands out items and takes them back. `Accounts` follows the answers of an implementation and
says that its free items are, after every call, the first ones without those handed out and with
those given back.
-/

namespace CS111

set_option autoImplicit false

universe u v
variable {σ : Type u} {α : Type v}

inductive PoolCall (α : Type v) where
  | take
  | give (item : α)
  deriving Repr, DecidableEq

namespace PoolCall

/-- The free items after a call that answered `r`. -/
def after (S : Set α) : PoolCall α → Option α → Set α
  | .take, some item => S \ {item}
  | .take, none => S
  | .give item, _ => insert item S

/-- Nothing is handed out exactly when nothing is free, and what is handed out was free. -/
def Right (S : Set α) : PoolCall α → Option α → Prop
  | .take, r => (r = none ↔ S = ∅) ∧ ∀ item, r = some item → item ∈ S
  | .give _, _ => True

end PoolCall

variable (step : σ → PoolCall α → σ × Option α) (free : σ → Set α)

def Accounts : Set α → σ → List (PoolCall α) → Prop
  | S, s, [] => free s = S
  | S, s, call :: calls =>
    free s = S ∧ call.Right S (step s call).2 ∧
      Accounts (call.after S (step s call).2) (step s call).1 calls

variable {step free} {S : Set α} {s : σ} {calls : List (PoolCall α)} {P : σ → Prop}
  {allowed : σ → PoolCall α → Prop} {lost : PoolCall α → Prop}

theorem Accounts.free_eq (h : Accounts step free S s calls) : free s = S := by
  cases calls with
  | nil => exact h
  | cons call calls => exact h.1

/-- The account is right exactly when no call is one that the implementation gets wrong. -/
theorem accounts_iff (keeps : ∀ {s call}, P s → allowed s call → P (step s call).1)
    (right : ∀ {s call}, P s → allowed s call → call.Right (free s) (step s call).2)
    (exact_iff : ∀ {s call}, P s → allowed s call →
      (free (step s call).1 = call.after (free s) (step s call).2 ↔ ¬ lost call))
    (hs : P s) (hcalls : AllEnabled allowed (fun s call => (step s call).1) s calls) :
    Accounts step free (free s) s calls ↔ ∀ call, call ∈ calls → ¬ lost call := by
  induction calls generalizing s with
  | nil => exact iff_of_true rfl fun call hmem => absurd hmem List.not_mem_nil
  | cons call calls ih =>
    obtain ⟨hcall, hrest⟩ := hcalls
    have hnext := ih (keeps hs hcall) hrest
    rw [List.forall_mem_cons, ← exact_iff hs hcall, ← hnext]
    constructor
    · rintro ⟨-, -, hlater⟩
      have hfree := hlater.free_eq
      exact ⟨hfree, by rwa [hfree]⟩
    · rintro ⟨hfree, hlater⟩
      exact ⟨rfl, right hs hcall, by rwa [← hfree]⟩

end CS111
