import Mathlib.Data.List.Chain
import Mathlib.Data.Nat.ModEq
import CS111.Lib.RoundRobin

/-!
# Rotation

From each place one goes on to the next one where `P` holds. Between two visits of a place every
other place with `P` is visited once.
-/

namespace CS111.RoundRobin

set_option autoImplicit false

variable {n : Nat} [NeZero n] {P : Fin n → Bool} {p q q' : Fin n} {a b : Nat} {l : List (Fin n)}

theorem ahead_ahead (p : Fin n) (a b : Nat) : ahead (ahead p a) b = ahead p (a + b) := by
  ext
  simp only [ahead, Nat.mod_add_mod, Nat.add_assoc]

theorem ahead_period (p : Fin n) : ahead p n = p := by
  ext
  simp only [ahead, Nat.add_mod_right, Nat.mod_eq_of_lt p.isLt]

/-- Within one round the places differ. -/
theorem ahead_inj (ha : a < n) (hb : b < n) (h : ahead p a = ahead p b) : a = b := by
  have hmod : (p.val + a) % n = (p.val + b) % n := congrArg Fin.val h
  have hsame : a % n = b % n := Nat.ModEq.add_left_cancel' p.val hmod
  simpa only [Nat.mod_eq_of_lt ha, Nat.mod_eq_of_lt hb] using hsame

theorem IsNext.holds (h : IsNext P p q) : P q = true := by
  obtain ⟨-, -, hq, -⟩ := h
  exact hq

theorem IsNext.unique (h : IsNext P p q) (h' : IsNext P p q') : q = q' := by
  obtain ⟨k, rfl, hq, hbefore⟩ := h
  obtain ⟨k', rfl, hq', hbefore'⟩ := h'
  rcases Nat.lt_trichotomy k k' with hlt | rfl | hlt
  · exact absurd hq (Bool.eq_false_iff.mp (hbefore' k hlt))
  · rfl
  · exact absurd hq' (Bool.eq_false_iff.mp (hbefore k' hlt))

/-- Who is not yet visited comes nearer. -/
theorem IsNext.nearer (h : IsNext P p q) (ha : 0 < a) (hP : P (ahead p a) = true) :
    ∃ b < a, ahead p a = ahead q b := by
  obtain ⟨k, rfl, -, hbefore⟩ := h
  have hka : k + 1 ≤ a := by
    apply Nat.not_lt.mp
    intro hlt
    have hskipped := hbefore (a - 1) (by omega)
    rw [Nat.sub_add_cancel ha, hP] at hskipped
    cases hskipped
  refine ⟨a - (k + 1), by omega, ?_⟩
  rw [ahead_ahead, Nat.add_sub_cancel' hka]

theorem holds_of_chain (h : List.IsChain (IsNext P) (p :: l)) : ∀ q ∈ l, P q = true := by
  induction l generalizing p with
  | nil =>
    intro q hq
    exact absurd hq List.not_mem_nil
  | cons x l ih =>
    intro q hq
    rcases List.mem_cons.mp hq with rfl | hq
    · exact (List.isChain_cons_cons.mp h).1.holds
    · exact ih (List.isChain_cons_cons.mp h).2 q hq

/-- Where the step from `a` places behind `p` leads when it does not come to `p` before. -/
theorem IsNext.offset (hp : P p = true) (ha : a < n) (h : IsNext P (ahead p a) q) :
    ∃ b, a < b ∧ b ≤ n ∧ q = ahead p b ∧ ∀ o, a < o → o < b → P (ahead p o) = false := by
  obtain ⟨k, rfl, -, hbefore⟩ := h
  have hfree : ∀ o, a < o → o < a + k + 1 → P (ahead p o) = false := by
    intro o hao hob
    have hj := hbefore (o - a - 1) (by omega)
    have hsum : a + (o - a - 1 + 1) = o := by omega
    simpa only [ahead_ahead, hsum] using hj
  refine ⟨a + k + 1, by omega, ?_, ahead_ahead p a (k + 1), hfree⟩
  -- otherwise `p` itself is passed over
  apply Nat.not_lt.mp
  intro hlt
  have hskipped := hfree n ha hlt
  simp only [ahead_period, hp, Bool.true_eq_false] at hskipped

/-- The places behind `a` are visited once before `p` is, the others not at all. -/
theorem round_counts (hp : P p = true) (ha : a < n)
    (h : List.IsChain (IsNext P) (ahead p a :: (l ++ [p]))) (hl : p ∉ l) (o : Nat) (ho : o < n) :
    (o ≤ a → ahead p o ∉ l) ∧ (a < o → P (ahead p o) = true → l.count (ahead p o) = 1) := by
  induction l generalizing a with
  | nil =>
    refine ⟨fun _ => List.not_mem_nil, fun hao hPo => ?_⟩
    obtain ⟨b, hab, hbn, hpb, hfree⟩ := IsNext.offset hp ha (List.isChain_cons_cons.mp h).1
    have hb : b = n := by
      apply Nat.le_antisymm hbn
      apply Nat.not_lt.mp
      intro hlt
      have hzero : ahead p b = ahead p 0 := by rw [← hpb, ahead_zero]
      have := ahead_inj hlt (Nat.pos_of_neZero n) hzero
      omega
    exact absurd hPo (Bool.eq_false_iff.mp (hfree o hao (by omega)))
  | cons x l ih =>
    obtain ⟨hx, hrest⟩ := List.isChain_cons_cons.mp h
    obtain ⟨b, hab, hbn, rfl, hfree⟩ := IsNext.offset hp ha hx
    have hne : b ≠ n := by
      rintro rfl
      exact hl (by rw [ahead_period]; exact List.mem_cons_self)
    have hbn : b < n := by omega
    obtain ⟨hold, hnew⟩ := ih hbn hrest fun hmem => hl (List.mem_cons_of_mem _ hmem)
    constructor
    · intro hoa hmem
      rcases List.mem_cons.mp hmem with heq | hmem
      · have := ahead_inj ho hbn heq
        omega
      · exact hold (by omega) hmem
    · intro hao hPo
      rcases Nat.lt_trichotomy o b with hlt | rfl | hlt
      · exact absurd hPo (Bool.eq_false_iff.mp (hfree o hao hlt))
      · rw [List.count_cons_self, List.count_eq_zero.mpr (hold (Nat.le_refl o))]
      · have hdiff : ahead p b ≠ ahead p o := by
          intro heq
          have := ahead_inj hbn ho heq
          omega
        rw [List.count_cons_of_ne hdiff]
        exact hnew hlt hPo

/-- Between two visits of `p` every other place with `P` is visited once. -/
theorem visited_once (h : List.IsChain (IsNext P) (p :: (l ++ [p]))) (hl : p ∉ l) (hq : P q = true)
    (hqp : q ≠ p) : l.count q = 1 := by
  have hp : P p = true := holds_of_chain h p (List.mem_append_right _ List.mem_cons_self)
  obtain ⟨k, hk, rfl⟩ := exists_ahead p q
  have hk : k + 1 ≠ n := by
    intro hn
    exact hqp (by rw [hn, ahead_period])
  have hstart : List.IsChain (IsNext P) (ahead p 0 :: (l ++ [p])) := by
    simpa only [ahead_zero] using h
  exact (round_counts hp (Nat.pos_of_neZero n) hstart hl (k + 1) (by omega)).2 (Nat.succ_pos k) hq

end CS111.RoundRobin
