import CS111.Lib.Memory

/-!
# Ring buffers

`window m cap pos len` is what a ring of `cap` cells holds from position `pos` on. Positions
are running counters; only their residue modulo `cap` selects a cell, so the same window is
seen through counters reduced modulo any multiple of `cap`.
-/

namespace CS111.RingBuffer

set_option autoImplicit false

open Memory

universe u
variable {α : Type u}

def window (m : Nat → α) (cap pos len : Nat) : List α :=
  (List.range len).map fun k => m ((pos + k) % cap)

@[simp] theorem window_zero (m : Nat → α) (cap pos : Nat) : window m cap pos 0 = [] := rfl

theorem window_add (m : Nat → α) (cap pos n k : Nat) :
    window m cap pos (n + k) = window m cap pos n ++ window m cap (pos + n) k := by
  simp [window, List.range_add, List.map_map, Function.comp_def, Nat.add_assoc]

theorem window_mod (m : Nat → α) {cap modulus : Nat} (h : cap ∣ modulus) (pos len : Nat) :
    window m cap (pos % modulus) len = window m cap pos len := by
  apply List.map_congr_left
  intro k _
  have hmod : (pos % modulus + k) % cap = (pos + k) % cap := by
    rw [Nat.add_mod, Nat.mod_mod_of_dvd pos h, ← Nat.add_mod]
  rw [hmod]

theorem mod_add_of_fits {cap pos k : Nat} (h : pos % cap + k < cap) :
    (pos + k) % cap = pos % cap + k := by
  rw [Nat.add_mod, Nat.mod_eq_of_lt (a := k) (by omega), Nat.mod_eq_of_lt h]

/-- A stretch that does not pass the end of the ring is one contiguous region. -/
theorem window_eq_load (m : Nat → α) {cap pos len : Nat} (h : pos % cap + len ≤ cap) :
    window m cap pos len = load m (pos % cap) len := by
  apply List.map_congr_left
  intro k hk
  have hlt := List.mem_range.mp hk
  rw [mod_add_of_fits (by omega)]

/-- Two positions less than one turn apart select different cells. -/
theorem mod_ne_of_lt {cap pos i j : Nat} (hij : i < j) (hj : j < i + cap) :
    (pos + i) % cap ≠ (pos + j) % cap := by
  intro heq
  have hdvd : cap ∣ (pos + j) - (pos + i) :=
    Nat.dvd_of_mod_eq_zero (Nat.sub_mod_eq_zero_of_mod_eq heq.symm)
  have := Nat.le_of_dvd (by omega) hdvd
  omega

/-- Storing behind a window, without passing the end of the ring, extends it. -/
theorem window_store (m : Nat → α) {cap pos len : Nat} {bytes : List α}
    (hfit : (pos + len) % cap + bytes.length ≤ cap) (hroom : len + bytes.length ≤ cap) :
    window (store m ((pos + len) % cap) bytes) cap pos (len + bytes.length) =
      window m cap pos len ++ bytes := by
  rw [window_add]
  congr 1
  · apply List.map_congr_left
    intro k hk
    have hlt := List.mem_range.mp hk
    apply store_outside
    by_contra hin
    have hcap : 0 < cap := by omega
    have hlast : (pos + k) % cap < cap := Nat.mod_lt _ hcap
    have hcell : (pos + len + ((pos + k) % cap - (pos + len) % cap)) % cap =
        (pos + len) % cap + ((pos + k) % cap - (pos + len) % cap) :=
      mod_add_of_fits (by omega)
    rw [Nat.add_assoc] at hcell
    have hsame : (pos + k) % cap = (pos + (len + ((pos + k) % cap - (pos + len) % cap))) % cap := by
      omega
    exact mod_ne_of_lt (by omega) (by omega) hsame
  · rw [window_eq_load _ hfit]
    exact load_store_same _ _ _

end CS111.RingBuffer
