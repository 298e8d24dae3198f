import Mathlib.Data.List.Basic

/-!
# Strings that end with a NUL

A string is read by index; there is a NUL behind its bytes, and nothing behind the NUL.
-/

namespace CS111

set_option autoImplicit false

universe u

structure CString where
  bytes : List UInt8
  noNul : 0 ∉ bytes
  deriving DecidableEq

namespace CString

def byteAt (f : CString) (i : Nat) : Option UInt8 := (f.bytes ++ [0])[i]?

section Scan
variable {α : Type u} (f : CString) (step : α → UInt8 → Option α)

/-- A loop that goes on for as long as `step` takes the byte; `none` when a byte behind the NUL is read
or the fuel is used up. -/
def scan : Nat → Nat → α → Option (Nat × α)
  | 0, _, _ => none
  | fuel + 1, i, a =>
    (f.byteAt i).bind fun c =>
      match step a c with
      | none => some (i, a)
      | some a => scan fuel (i + 1) a

end Scan

variable {α : Type u} {f : CString} {step : α → UInt8 → Option α} {keep : UInt8 → Bool} {i n : Nat}
  {c : UInt8} {l : List UInt8} {a : α}

/-- The bytes from `i` on are `l`. -/
structure At (f : CString) (i : Nat) (l : List UInt8) : Prop where
  le : i ≤ f.bytes.length
  rest : f.bytes.drop i = l

theorem at_zero (f : CString) : f.At 0 f.bytes := ⟨Nat.zero_le _, rfl⟩

namespace At

theorem length (h : f.At i l) : i + l.length = f.bytes.length := by
  have hle := h.le
  rw [← h.rest, List.length_drop]
  omega

theorem byteAt_nil (h : f.At i []) : f.byteAt i = some 0 := by
  have hlen := h.length
  rw [List.length_nil, Nat.add_zero] at hlen
  simp [byteAt, hlen]

theorem byteAt_cons (h : f.At i (c :: l)) : f.byteAt i = some c := by
  have hlen := h.length
  rw [List.length_cons] at hlen
  have hhead : f.bytes[i]? = some c := by
    rw [← List.head?_drop, h.rest]
    rfl
  rw [byteAt, List.getElem?_append_left (by omega), hhead]

theorem next (h : f.At i (c :: l)) : f.At (i + 1) l := by
  have hlen := h.length
  rw [List.length_cons] at hlen
  refine ⟨by omega, ?_⟩
  rw [← List.tail_drop, h.rest]
  rfl

theorem ne_zero (h : f.At i (c :: l)) : c ≠ 0 := by
  intro h0
  have hmem : c ∈ f.bytes := List.mem_of_mem_drop (h.rest ▸ List.mem_cons_self ..)
  exact f.noNul (h0 ▸ hmem)

/-- The loop stops in front of the first byte that it does not take. -/
theorem scan (h : f.At i l) (hkeep : ∀ a c, (step a c).isSome = keep c) (hnul : keep 0 = false)
    (hfuel : l.length < n) :
    ∃ j a', f.scan step n i a = some (j, a') ∧ f.At j (l.dropWhile keep) := by
  induction n generalizing i l a with
  | zero => exact absurd hfuel (Nat.not_lt_zero _)
  | succ n ih =>
    have hstop : ∀ c, f.byteAt i = some c → keep c = false →
        f.scan step (n + 1) i a = some (i, a) := by
      intro c hc hno
      have hnone : step a c = none := by
        rw [← hkeep a c] at hno
        exact Option.isNone_iff_eq_none.mp (Option.isSome_eq_false_iff.mp hno)
      simp only [CString.scan, hc, Option.bind_some, hnone]
    cases l with
    | nil => exact ⟨i, a, hstop 0 h.byteAt_nil hnul, h⟩
    | cons c l =>
      cases hc : keep c with
      | false =>
        refine ⟨i, a, hstop c h.byteAt_cons hc, ?_⟩
        rwa [List.dropWhile_cons_of_neg (by simp [hc])]
      | true =>
        obtain ⟨a₁, ha₁⟩ := Option.isSome_iff_exists.mp ((hkeep a c).trans hc)
        obtain ⟨j, a', hscan, hj⟩ := ih (a := a₁) h.next (Nat.lt_of_succ_lt_succ hfuel)
        refine ⟨j, a', ?_, by rwa [List.dropWhile_cons_of_pos hc]⟩
        simp only [CString.scan, h.byteAt_cons, Option.bind_some, ha₁, hscan]

end At

end CString

end CS111
