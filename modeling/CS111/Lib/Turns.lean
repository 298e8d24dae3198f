import Mathlib.Order.Defs.LinearOrder
import Mathlib.Order.Nat

/-!
# Turns in a numbered queue

Some numbers are struck out. From a tail on, it is the turn of the first number that is not. One
number that is struck out from the start makes no difference, when the later ones move up by one.
-/

namespace CS111

set_option autoImplicit false

/-- From `tail` on, `n` is the first number that is not struck out. -/
structure Turn (struck : Nat → Prop) (tail n : Nat) : Prop where
  le : tail ≤ n
  before : ∀ a, tail ≤ a → a < n → struck a
  here : ¬ struck n

namespace Turn

variable {struck struck' : Nat → Prop} {tail tail' n m bound : Nat}

theorem exists_of_bounded (h : ∀ a, struck a → a < bound) (tail : Nat) : ∃ n, Turn struck tail n := by
  induction hk : bound - tail generalizing tail with
  | zero =>
    refine ⟨tail, Nat.le_refl _, fun a hlow hhigh => absurd hhigh (Nat.not_lt.mpr hlow), ?_⟩
    intro hstruck
    have hlt := h tail hstruck
    omega
  | succ k ih =>
    by_cases hstruck : struck tail
    · obtain ⟨n, hn⟩ := ih (tail + 1) (by omega)
      refine ⟨n, Nat.le_of_succ_le hn.le, fun a hlow hhigh => ?_, hn.here⟩
      rcases Nat.eq_or_lt_of_le hlow with rfl | hlow
      · exact hstruck
      · exact hn.before a hlow hhigh
    · exact ⟨tail, Nat.le_refl _, fun a hlow hhigh => absurd hhigh (Nat.not_lt.mpr hlow), hstruck⟩

/-- The tail moves on, but not past the number. -/
theorem advance (h : Turn struck tail n) (hlow : tail ≤ tail') (hhigh : tail' ≤ n) :
    Turn struck tail' n :=
  ⟨hhigh, fun a ha => h.before a (hlow.trans ha), h.here⟩

/-- More numbers are struck out, and it is the turn of the next one. -/
theorem extend (h : Turn struck tail n) (hmore : ∀ a, struck a → struck' a)
    (hnext : Turn struck' n m) : Turn struck' tail m := by
  refine ⟨h.le.trans hnext.le, fun a hlow hhigh => ?_, hnext.here⟩
  by_cases ha : a < n
  · exact hmore a (h.before a hlow ha)
  · exact hnext.before a (Nat.not_lt.mp ha) hhigh

/-- A number in the queue has its turn only when it is the first. -/
theorem not_between (h : Turn struck tail n) {u : Nat} (hu : ¬ struck u) (hlt : u < n) :
    u < tail :=
  Nat.lt_of_not_le fun hle => hu (h.before u hle hlt)

end Turn

/-- The place of a number when `h` is put in. -/
def shift (h a : Nat) : Nat := if a < h then a else a + 1

section Shift
variable {h a b : Nat}

theorem shift_of_lt (ha : a < h) : shift h a = a := if_pos ha

theorem shift_of_le (ha : h ≤ a) : shift h a = a + 1 := if_neg (Nat.not_lt.mpr ha)

theorem shift_le_succ (h a : Nat) : shift h a ≤ a + 1 := by
  unfold shift
  split <;> omega

theorem shift_lt_iff : shift h a < shift h b ↔ a < b := by
  unfold shift
  split <;> split <;> omega

theorem shift_inj : shift h a = shift h b ↔ a = b := by
  unfold shift
  split <;> split <;> omega

/-- Every number except `h` is the place of one. -/
theorem exists_shift (hb : b ≠ h) : ∃ a, shift h a = b := by
  by_cases hlt : b < h
  · exact ⟨b, shift_of_lt hlt⟩
  · exact ⟨b - 1, by rw [shift_of_le (by omega)]; omega⟩

end Shift

/-- `struck'` has one more number, `h`, and it is struck out. -/
structure PutIn (h : Nat) (struck struck' : Nat → Prop) : Prop where
  out : struck' h
  same : ∀ a, struck' (shift h a) ↔ struck a

namespace PutIn

variable {h u n tail : Nat} {struck struck' : Nat → Prop}

theorem of_bounded (hbound : ∀ a, struck a → a < h) :
    PutIn h struck fun a => a = h ∨ struck a where
  out := .inl rfl
  same := by
    intro a
    by_cases ha : a < h
    · rw [shift_of_lt ha, or_iff_right (Nat.ne_of_lt ha)]
    · rw [shift_of_le (Nat.not_lt.mp ha)]
      constructor
      · rintro (heq | hs)
        · omega
        · have hlt := hbound _ hs
          omega
      · exact fun hs => absurd (hbound a hs) ha

theorem congr {struck₁ struck₂ : Nat → Prop} (hp : PutIn h struck struck')
    (h₁ : ∀ a, struck₁ a ↔ struck a) (h₂ : ∀ a, struck₂ a ↔ struck' a) :
    PutIn h struck₁ struck₂ where
  out := (h₂ h).mpr hp.out
  same := fun a => (h₂ _).trans ((hp.same a).trans (h₁ a).symm)

/-- One more number is struck out on both sides. -/
theorem strike (hp : PutIn h struck struck') (u : Nat) :
    PutIn h (fun a => a = u ∨ struck a) fun a => a = shift h u ∨ struck' a where
  out := .inr hp.out
  same := fun a => by rw [shift_inj, hp.same]

/-- From places that correspond, the turns correspond. -/
theorem turn (hp : PutIn h struck struck') (ht : Turn struck tail n) :
    Turn struck' (shift h tail) (shift h n) where
  le := by
    rcases Nat.eq_or_lt_of_le ht.le with rfl | hlt
    · exact Nat.le_refl _
    · exact Nat.le_of_lt (shift_lt_iff.mpr hlt)
  before := by
    intro b hlow hhigh
    by_cases hb : b = h
    · exact hb ▸ hp.out
    · obtain ⟨a, rfl⟩ := exists_shift hb
      rw [hp.same]
      refine ht.before a ?_ (shift_lt_iff.mp hhigh)
      exact Nat.le_of_not_lt fun hlt => absurd (shift_lt_iff.mpr hlt) (Nat.not_lt.mpr hlow)
  here := fun hs => ht.here ((hp.same n).mp hs)

/-- The same behind a number and its place. -/
theorem turn_succ (hp : PutIn h struck struck') (ht : Turn struck (u + 1) n) :
    Turn struck' (shift h u + 1) (shift h n) := by
  have hturn := hp.turn ht
  by_cases hu : u + 1 < h
  · rwa [shift_of_lt hu, ← shift_of_lt (Nat.lt_of_succ_lt hu)] at hturn
  by_cases heq : u + 1 = h
  · rw [shift_of_le (Nat.le_of_eq heq.symm)] at hturn
    have hplace : shift h u + 1 = h := by rw [shift_of_lt (by omega), heq]
    refine ⟨?_, fun b hlow hhigh => ?_, hturn.here⟩
    · have hle := hturn.le
      omega
    · rcases Nat.eq_or_lt_of_le hlow with hfirst | hlt
      · rw [← hfirst, hplace]
        exact hp.out
      · exact hturn.before b (by omega) hhigh
  · rw [shift_of_le (by omega)] at hturn
    rwa [shift_of_le (by omega)]

/-- The queue with `h` may begin where the one without it does. -/
theorem turn_of_le (hp : PutIn h struck struck') (htail : tail ≤ h) (ht : Turn struck tail n) :
    Turn struck' tail (shift h n) := by
  have hturn := hp.turn ht
  rcases Nat.eq_or_lt_of_le htail with rfl | hlt
  · rw [shift_of_le (Nat.le_refl _)] at hturn
    refine ⟨Nat.le_of_succ_le hturn.le, fun b hlow hhigh => ?_, hturn.here⟩
    rcases Nat.eq_or_lt_of_le hlow with rfl | hlow
    · exact hp.out
    · exact hturn.before b hlow hhigh
  · rwa [shift_of_lt hlt] at hturn

end PutIn

end CS111
