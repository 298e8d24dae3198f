import Mathlib.Logic.Function.Basic

/-!
# Write-back caches

The slots of a cache hold pages of a store, and what is written goes to the slot. `c.Shows view` says
that the slots and the store together are the memory `view`: a page that is in a slot is read there,
and every other page in the store.
-/

namespace CS111

set_option autoImplicit false

universe u v w

structure WriteBack (ι : Type u) (κ : Type v) (ν : Type w) where
  slot : ι → Option (κ × ν)
  store : κ → ν

namespace WriteBack
variable {ι : Type u} {κ : Type v} {ν : Type w} {c : WriteBack ι κ ν} {view : κ → ν} {i j : ι}
  {k : κ} {x y : ν}

structure Shows (c : WriteBack ι κ ν) (view : κ → ν) : Prop where
  cached : ∀ {i k x}, c.slot i = some (k, x) → view k = x
  stored : ∀ {k}, (∀ i x, c.slot i ≠ some (k, x)) → c.store k = view k
  single : ∀ {i j k x y}, c.slot i = some (k, x) → c.slot j = some (k, y) → i = j

theorem Shows.empty (hslot : ∀ i, c.slot i = none) : c.Shows c.store := by
  constructor
  · intro i k x h
    rw [hslot] at h
    cases h
  · intro k _
    rfl
  · intro i j k x y h
    rw [hslot] at h
    cases h

section Flush
variable [DecidableEq κ]

/-- Write the page of a slot to the store; the slot keeps it. -/
def flush (c : WriteBack ι κ ν) (i : ι) : WriteBack ι κ ν :=
  match c.slot i with
  | none => c
  | some (k, x) => { c with store := Function.update c.store k x }

@[simp] theorem flush_slot (c : WriteBack ι κ ν) (i : ι) : (c.flush i).slot = c.slot := by
  unfold flush
  split <;> rfl

/-- A slot's page gets its value, and the other pages of the store stay. -/
theorem flush_store (c : WriteBack ι κ ν) (i : ι) (k : κ) :
    (c.flush i).store k = c.store k ∨ ∃ x, c.slot i = some (k, x) ∧ (c.flush i).store k = x := by
  unfold flush
  split
  · exact .inl rfl
  · next k' x hslot =>
    by_cases hk : k = k'
    · subst hk
      exact .inr ⟨x, hslot, Function.update_self k x c.store⟩
    · exact .inl (Function.update_of_ne hk x c.store)

theorem Shows.flush (h : c.Shows view) (i : ι) : (c.flush i).Shows view := by
  constructor
  · intro j k x hj
    rw [flush_slot] at hj
    exact h.cached hj
  · intro k hk
    rw [flush_slot] at hk
    rcases c.flush_store i k with hstore | ⟨x, hx, _⟩
    · rw [hstore, h.stored hk]
    · exact absurd hx (hk i x)
  · intro j j' k x y hj hj'
    rw [flush_slot] at hj hj'
    exact h.single hj hj'

theorem Shows.flush_clean (h : c.Shows view) (hk : c.store k = view k) :
    (c.flush i).store k = view k := by
  rcases c.flush_store i k with hstore | ⟨x, hx, hstore⟩
  · rw [hstore, hk]
  · rw [hstore, h.cached hx]

theorem Shows.flush_self (h : c.Shows view) (hi : c.slot i = some (k, x)) :
    (c.flush i).store k = view k := by
  rw [h.cached hi]
  unfold WriteBack.flush
  rw [hi]
  exact Function.update_self k x c.store

def flushAll (c : WriteBack ι κ ν) (slots : List ι) : WriteBack ι κ ν := slots.foldl flush c

theorem flushAll_clean {slots : List ι} (h : c.Shows view)
    (hk : c.store k = view k ∨ ∃ i x, i ∈ slots ∧ c.slot i = some (k, x)) :
    (c.flushAll slots).store k = view k := by
  induction slots generalizing c with
  | nil =>
    rcases hk with hk | ⟨i, x, hmem, _⟩
    · exact hk
    · cases hmem
  | cons j slots ih =>
    apply ih (h.flush j)
    rcases hk with hk | ⟨i, x, hmem, hi⟩
    · exact .inl (h.flush_clean hk)
    · rcases List.mem_cons.mp hmem with rfl | hmem
      · exact .inl (h.flush_self hi)
      · exact .inr ⟨i, x, hmem, by rwa [flush_slot]⟩

/-- After all slots have been written back, the store is the memory. -/
theorem Shows.flushAll {slots : List ι} (h : c.Shows view) (hall : ∀ i, i ∈ slots) :
    (c.flushAll slots).store = view := by
  funext k
  apply flushAll_clean h
  by_cases hk : ∃ i x, c.slot i = some (k, x)
  · obtain ⟨i, x, hi⟩ := hk
    exact .inr ⟨i, x, hall i, hi⟩
  · exact .inl (h.stored fun i x hi => hk ⟨i, x, hi⟩)

end Flush

section Slots
variable [DecidableEq ι]

def put (c : WriteBack ι κ ν) (i : ι) (page : Option (κ × ν)) : WriteBack ι κ ν :=
  { c with slot := Function.update c.slot i page }

@[simp] theorem put_self (c : WriteBack ι κ ν) (i : ι) (page : Option (κ × ν)) :
    (c.put i page).slot i = page := by
  unfold put
  exact Function.update_self i page c.slot

theorem put_ne (c : WriteBack ι κ ν) (page : Option (κ × ν)) (hji : j ≠ i) :
    (c.put i page).slot j = c.slot j := by
  unfold put
  exact Function.update_of_ne hji page c.slot

@[simp] theorem put_put (c : WriteBack ι κ ν) (i : ι) (page page' : Option (κ × ν)) :
    (c.put i page).put i page' = c.put i page' := by
  unfold put
  rw [Function.update_idem]

/-- A slot whose page is the same in the store can be given another page that is in no slot. -/
theorem Shows.load (h : c.Shows view) (hclean : ∀ {k x}, c.slot i = some (k, x) → c.store k = x)
    (habsent : ∀ j x, c.slot j ≠ some (k, x)) : (c.put i (some (k, c.store k))).Shows view := by
  have hview : c.store k = view k := h.stored habsent
  have hold : ∀ {j k' x}, (c.put i (some (k, c.store k))).slot j = some (k', x) →
      (j = i ∧ k' = k ∧ x = view k) ∨ (j ≠ i ∧ c.slot j = some (k', x)) := by
    intro j k' x hj
    by_cases hji : j = i
    · subst hji
      rw [put_self, Option.some.injEq, Prod.mk.injEq] at hj
      exact .inl ⟨rfl, hj.1.symm, hj.2.symm.trans hview⟩
    · rw [put_ne c _ hji] at hj
      exact .inr ⟨hji, hj⟩
  constructor
  · intro j k' x hj
    rcases hold hj with ⟨-, rfl, rfl⟩ | ⟨-, hj⟩
    · rfl
    · exact h.cached hj
  · intro k' hk'
    show c.store k' = view k'
    by_cases hi : ∃ x, c.slot i = some (k', x)
    · obtain ⟨x, hx⟩ := hi
      rw [hclean hx, h.cached hx]
    · apply h.stored
      intro j x hj
      by_cases hji : j = i
      · exact hi ⟨x, hji ▸ hj⟩
      · apply hk' j x
        rwa [put_ne c _ hji]
  · intro j j' k' x y hj hj'
    rcases hold hj with ⟨rfl, hk, -⟩ | ⟨-, hold_j⟩ <;>
      rcases hold hj' with ⟨rfl, hk', -⟩ | ⟨-, hold_j'⟩
    · rfl
    · rw [hk] at hold_j'
      exact absurd hold_j' (habsent _ _)
    · rw [hk'] at hold_j
      exact absurd hold_j (habsent _ _)
    · exact h.single hold_j hold_j'

variable [DecidableEq κ]

/-- To write to a slot is to write to the memory. -/
theorem Shows.write (h : c.Shows view) (hi : c.slot i = some (k, x)) (y : ν) :
    (c.put i (some (k, y))).Shows (Function.update view k y) := by
  have hold : ∀ {j k' z}, (c.put i (some (k, y))).slot j = some (k', z) →
      (j = i ∧ k' = k ∧ z = y) ∨ (j ≠ i ∧ k' ≠ k ∧ c.slot j = some (k', z)) := by
    intro j k' z hj
    by_cases hji : j = i
    · subst hji
      rw [put_self, Option.some.injEq, Prod.mk.injEq] at hj
      exact .inl ⟨rfl, hj.1.symm, hj.2.symm⟩
    · rw [put_ne c _ hji] at hj
      refine .inr ⟨hji, ?_, hj⟩
      rintro rfl
      exact hji (h.single hj hi)
  constructor
  · intro j k' z hj
    rcases hold hj with ⟨-, rfl, rfl⟩ | ⟨-, hne, hj⟩
    · exact Function.update_self _ _ _
    · rw [Function.update_of_ne hne, h.cached hj]
  · intro k' hk'
    have hne : k' ≠ k := by
      rintro rfl
      exact hk' i y (put_self c i _)
    rw [Function.update_of_ne hne]
    apply h.stored
    intro j z hj
    have hji : j ≠ i := by
      rintro rfl
      rw [hi, Option.some.injEq, Prod.mk.injEq] at hj
      exact hne hj.1.symm
    apply hk' j z
    rwa [put_ne c _ hji]
  · intro j j' k' z z' hj hj'
    rcases hold hj with ⟨rfl, hk, -⟩ | ⟨-, hne, hold_j⟩ <;>
      rcases hold hj' with ⟨rfl, hk', -⟩ | ⟨-, hne', hold_j'⟩
    · rfl
    · exact absurd hk hne'
    · exact absurd hk' hne
    · exact h.single hold_j hold_j'

end Slots

end WriteBack

end CS111
