import CS111.Ospfs.Directory
import CS111.Ospfs.FileBytes

/-!
# The entries of a directory

Entry `k` of a directory lies in its file block `k / 8`.
-/

namespace CS111.Ospfs

open Memory

set_option autoImplicit false

variable {g : Geometry} {m m' : Bytes} {d i j k x : Nat}

/-- The address of entry `k` of a directory. -/
def direntAt (g : Geometry) (m : Bytes) (d k : Nat) : Nat :=
  1024 * own g m (d, dataSlot (k / 8)) + 128 * (k % 8)

theorem fileByte_dirent (h : j < 128) : fileByte g m i (128 * k + j) = m (direntAt g m i k + j) := by
  unfold fileByte direntAt
  rw [show (128 * k + j) / 1024 = k / 8 by omega, show (128 * k + j) % 1024 = 128 * (k % 8) + j by omega,
    Nat.add_assoc]

section Entries
variable (hs : Sound g m) (hx : HasBlocks g m i) (hsize : oiSize m (inodeAddr i) ≤ maxFileSize)
include hs hx hsize

theorem ospfsInodeData_eq (hlt : x < oiSize m (inodeAddr i)) :
    ospfsInodeData m (inodeAddr i) x = 1024 * own g m (i, dataSlot (x / 1024)) + x % 1024 := by
  unfold ospfsInodeData
  rw [blockno_eq_own hs hx hsize hlt, ospfsBlock_of_lt (own_small hs.owns (inUse_dataBlocks g m) _)]

theorem direntAt_eq (hlt : 128 * k < oiSize m (inodeAddr i)) :
    ospfsInodeData m (inodeAddr i) (128 * k) = direntAt g m i k := by
  rw [ospfsInodeData_eq hs hx hsize hlt]
  unfold direntAt
  rw [show 128 * k / 1024 = k / 8 by omega, show 128 * k % 1024 = 128 * (k % 8) by omega]

theorem entries_eq : entries m (inodeAddr i) =
    (List.range ((oiSize m (inodeAddr i) + 127) / 128)).map (direntAt g m i) := by
  unfold entries entryOffsets
  rw [List.map_map]
  apply List.map_congr_left
  intro k hk
  rw [List.mem_range] at hk
  exact direntAt_eq hs hx hsize (by omega)

theorem mem_entries {od : Nat} : od ∈ entries m (inodeAddr i) ↔
    ∃ k, 128 * k < oiSize m (inodeAddr i) ∧ od = direntAt g m i k := by
  rw [entries_eq hs hx hsize, List.mem_map]
  constructor
  · rintro ⟨k, hk, rfl⟩
    rw [List.mem_range] at hk
    exact ⟨k, by omega, rfl⟩
  · rintro ⟨k, hk, rfl⟩
    exact ⟨k, List.mem_range.mpr (by omega), rfl⟩

end Entries

end CS111.Ospfs
