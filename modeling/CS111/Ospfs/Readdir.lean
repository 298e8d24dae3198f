import Mathlib.Algebra.Order.Group.Nat
import CS111.Ospfs.Lookup

/-!
# Reading a directory in pieces

One open file, read by a sequence of `ospfs_dir_readdir` calls. The `filldir` of a call is given
by the number of entries it accepts, for a call ends with the first entry that is refused.
-/

namespace CS111.Ospfs

open Memory

set_option autoImplicit false

section Listing
variable (m : Bytes) (dirOi : Nat)

/-- The number of entries, blank ones included. -/
def slotCount : Nat := (oiSize m dirOi + 127) / 128

/-- What a listing should show for entry number `k`. -/
def liveEntry (k : Nat) : Option DirEntry :=
  let od := ospfsInodeData m dirOi (128 * k)
  if odIno m od = 0 then none
  else
    match ospfsInode m (odIno m od) with
    | none => none
    | some oi => (entryType (oiFtype m oi)).map fun dtype => ⟨odName m od, k + 2, odIno m od, dtype⟩

/-- The live entries from number `k` on, in directory order. -/
def liveFrom (k : Nat) : List DirEntry :=
  (List.range' k (slotCount m dirOi - k)).filterMap (liveEntry m dirOi)

def fullListing (dir parent : Nat) : List DirEntry :=
  dotEntry dir :: dotDotEntry parent :: liveFrom m dirOi 0

end Listing

/-- Every live entry names an inode of a known type, and offsets do not wrap around. -/
structure WellFormedDir (m : Bytes) (dir dirOi : Nat) : Prop where
  inode : ospfsInode m dir = some dirOi
  size : oiSize m dirOi ≤ 4294967168
  live : ∀ k, k < slotCount m dirOi → odIno m (ospfsInodeData m dirOi (128 * k)) ≠ 0 →
    (liveEntry m dirOi k).isSome

/-- The calls made with the given rooms, from a file position on, until one returns 1. -/
def readdirCalls (fuel : Nat) (m : Bytes) (dir parent : Nat) : Nat → List Nat → Option (List DirEntry)
  | _, [] => none
  | fpos, room :: rooms =>
    match ospfsDirReaddir fuel m dir parent fpos (fun accepted _ => accepted.length < room) with
    | none => none
    | some r =>
      if r.ret = 1 then some r.accepted
      else (readdirCalls fuel m dir parent r.fpos rooms).map (r.accepted ++ ·)

variable {m : Bytes} {dir parent dirOi fuel k room pos : Nat} {rooms : List Nat}
  {accepted : List DirEntry}

theorem liveFrom_step (h : k < slotCount m dirOi) :
    liveFrom m dirOi k = (liveEntry m dirOi k).toList ++ liveFrom m dirOi (k + 1) := by
  unfold liveFrom
  rw [show slotCount m dirOi - k = slotCount m dirOi - (k + 1) + 1 by omega, List.range'_succ,
    List.filterMap_cons]
  cases liveEntry m dirOi k <;> rfl

theorem liveFrom_end (h : slotCount m dirOi ≤ k) : liveFrom m dirOi k = [] := by
  unfold liveFrom
  rw [Nat.sub_eq_zero_of_le h]
  rfl

/-- What is still to be shown from a file position on. -/
def remaining (m : Bytes) (dir parent dirOi : Nat) : Nat → List DirEntry
  | 0 => fullListing m dirOi dir parent
  | 1 => dotDotEntry parent :: liveFrom m dirOi 0
  | k + 2 => liveFrom m dirOi k

section OneCall

/-- How a call ends: at the end of the directory, after refusing `.` or `..`, or after refusing
an entry of the directory, which is then skipped. -/
inductive Ends (m : Bytes) (dir parent dirOi pos room : Nat) (r : ReaddirResult) : Prop
  | all (hroom : (remaining m dir parent dirOi pos).length ≤ room) (hret : r.ret = 1)
      (hacc : r.accepted = remaining m dir parent dirOi pos)
  | dots (hroom : room < 2 - pos) (hret : r.ret = 0)
      (hacc : r.accepted = (remaining m dir parent dirOi pos).take room)
      (hpos : r.fpos = pos + room)
      (hrest : remaining m dir parent dirOi (pos + room) =
        (remaining m dir parent dirOi pos).drop room)
  | entry (hdots : 2 - pos ≤ room) (hroom : room < (remaining m dir parent dirOi pos).length)
      (hret : r.ret = 0) (hacc : r.accepted = (remaining m dir parent dirOi pos).take room)
      (hpos : 2 ≤ r.fpos ∧ r.fpos ≤ slotCount m dirOi + 2)
      (hrest : remaining m dir parent dirOi r.fpos =
        (remaining m dir parent dirOi pos).drop (room + 1))

variable (hwf : WellFormedDir m dir dirOi)
include hwf

/-- The loop over the entries, with `accepted` already taken in this call. -/
theorem readdirLoop_ends (k fuel room : Nat) (accepted : List DirEntry)
    (hk : k ≤ slotCount m dirOi) (hfuel : slotCount m dirOi - k + 2 ≤ fuel)
    (hacc : accepted.length ≤ room) :
    ∃ r, readdirLoop m dirOi (fun acc _ => acc.length < room) fuel (k + 2) true accepted = some r ∧
      ((accepted.length + (liveFrom m dirOi k).length ≤ room ∧ r.ret = 1 ∧
          r.accepted = accepted ++ liveFrom m dirOi k) ∨
        (room < accepted.length + (liveFrom m dirOi k).length ∧ r.ret = 0 ∧
          r.accepted = accepted ++ (liveFrom m dirOi k).take (room - accepted.length) ∧
          ∃ k', k' ≤ slotCount m dirOi ∧ r.fpos = k' + 2 ∧
            liveFrom m dirOi k' = (liveFrom m dirOi k).drop (room - accepted.length + 1))) := by
  have hsize := hwf.size
  have hslots : slotCount m dirOi = (oiSize m dirOi + 127) / 128 := rfl
  induction fuel generalizing k accepted with
  | zero => omega
  | succ fuel ih =>
    rw [readdirLoop, if_pos ⟨rfl, by omega⟩]
    have hoff : u32 ((k + 2 - 2) * 128) = 128 * k := by
      rw [u32_of_lt (by omega)]
      omega
    have hnext : u32 (k + 2 + 1) = k + 1 + 2 := u32_of_lt (by omega)
    simp only [hoff, hnext]
    by_cases hend : 128 * k ≥ oiSize m dirOi
    · rw [if_pos hend]
      have hnil := liveFrom_end (show slotCount m dirOi ≤ k by omega)
      refine ⟨_, rfl, .inl ?_⟩
      rw [hnil]
      simp [hacc]
    · rw [if_neg hend]
      have hlt : k < slotCount m dirOi := by omega
      have hstep := liveFrom_step hlt
      by_cases h0 : odIno m (ospfsInodeData m dirOi (128 * k)) = 0
      · rw [if_pos h0]
        have hnone : liveEntry m dirOi k = none := by
          unfold liveEntry
          simp only [h0, if_true]
        rw [hnone] at hstep
        rw [hstep]
        exact ih _ _ (by omega) (by omega) hacc
      · rw [if_neg h0]
        obtain ⟨e, he⟩ := Option.isSome_iff_exists.mp (hwf.live k hlt h0)
        have he' := he
        unfold liveEntry at he'
        simp only [if_neg h0] at he'
        cases hi : ospfsInode m (odIno m (ospfsInodeData m dirOi (128 * k))) with
        | none => rw [hi] at he'; exact absurd he' (by simp)
        | some oi =>
          simp only [hi, Option.map_eq_some_iff] at he'
          obtain ⟨dtype, hd, rfl⟩ := he'
          simp only [hd]
          rw [he] at hstep
          by_cases hroom : accepted.length < room
          · rw [if_pos (by simpa using hroom)]
            obtain ⟨r, hr, hcases⟩ := ih (k + 1) (accepted ++
              [⟨odName m (ospfsInodeData m dirOi (128 * k)), k + 2,
                odIno m (ospfsInodeData m dirOi (128 * k)), dtype⟩]) (by omega) (by omega)
              (by simp; omega)
            refine ⟨r, hr, ?_⟩
            have hsub : room - accepted.length = room - (accepted.length + 1) + 1 := by omega
            simp only [List.length_append, List.length_singleton, List.append_assoc] at hcases
            simp only [hstep, Option.toList_some, hsub, List.singleton_append, List.length_cons,
              List.take_succ_cons, List.drop_succ_cons] at hcases ⊢
            rcases hcases with ⟨h1, h2⟩ | ⟨h1, h2⟩
            · exact .inl ⟨by omega, h2⟩
            · exact .inr ⟨by omega, h2⟩
          · rw [if_neg (by simpa using hroom)]
            have hsub : room - accepted.length = 0 := by omega
            cases fuel with
            | zero => omega
            | succ fuel =>
              rw [readdirLoop, if_neg (by simp)]
              refine ⟨_, rfl, .inr ⟨?_, rfl, ?_, k + 1, by omega, rfl, ?_⟩⟩
              · rw [hstep]
                simp
                omega
              · simp [hsub]
              · rw [hsub, hstep]
                rfl

theorem ospfsDirReaddir_ends (parent room : Nat) (hpos : pos ≤ slotCount m dirOi + 2)
    (hfuel : slotCount m dirOi + 2 ≤ fuel) :
    ∃ r, ospfsDirReaddir fuel m dir parent pos (fun acc _ => acc.length < room) = some r ∧
      Ends m dir parent dirOi pos room r := by
  have hsize := hwf.size
  have hslots : slotCount m dirOi = (oiSize m dirOi + 127) / 128 := rfl
  have stops : ∀ f p acc, readdirLoop m dirOi f fuel p false acc = some ⟨0, p, acc⟩ := by
    intro f p acc
    cases fuel with
    | zero => omega
    | succ fuel => rw [readdirLoop, if_neg (by simp)]
  have hu : u32 pos = pos := u32_of_lt (by omega)
  unfold ospfsDirReaddir
  rw [hwf.inode]
  simp only [hu]
  match pos, hpos with
  | 0, _ =>
    by_cases h0 : room = 0
    · subst h0
      refine ⟨⟨0, 0, []⟩, by simp [stops], ?_⟩
      exact .dots (by omega) rfl rfl rfl rfl
    · by_cases h1 : room = 1
      · subst h1
        refine ⟨⟨0, 1, [dotEntry dir]⟩, by simp [stops], ?_⟩
        exact .dots (by omega) rfl rfl rfl rfl
      · obtain ⟨r, hr, hcases⟩ := readdirLoop_ends hwf 0 fuel room
          [dotEntry dir, dotDotEntry parent] (by omega) (by omega)
          (by simp only [List.length_cons, List.length_nil]; omega)
        have hgt : 1 < room := by omega
        refine ⟨r, by simpa [show 0 < room by omega, hgt] using hr, ?_⟩
        have hsub : room = room - 2 + 2 := by omega
        have hlen : (remaining m dir parent dirOi 0).length = (liveFrom m dirOi 0).length + 2 := rfl
        simp only [List.length_cons, List.length_nil] at hcases
        rcases hcases with ⟨h2, h3, h4⟩ | ⟨h2, h3, h4, k', h5, h6, h7⟩
        · exact .all (by omega) h3 h4
        · apply Ends.entry (by omega) (by omega) h3
          · rw [h4, hsub]
            rfl
          · omega
          · rw [h6, show remaining m dir parent dirOi (k' + 2) = liveFrom m dirOi k' from rfl, h7,
              hsub]
            rfl
  | 1, _ =>
    by_cases h0 : room = 0
    · subst h0
      refine ⟨⟨0, 1, []⟩, by simp [stops], ?_⟩
      exact .dots (by omega) rfl rfl rfl rfl
    · obtain ⟨r, hr, hcases⟩ := readdirLoop_ends hwf 0 fuel room [dotDotEntry parent] (by omega) (by omega)
        (by simp only [List.length_singleton]; omega)
      refine ⟨r, by simpa [show 0 < room by omega] using hr, ?_⟩
      have hsub : room = room - 1 + 1 := by omega
      have hlen : (remaining m dir parent dirOi 1).length = (liveFrom m dirOi 0).length + 1 := rfl
      simp only [List.length_singleton] at hcases
      rcases hcases with ⟨h2, h3, h4⟩ | ⟨h2, h3, h4, k', h5, h6, h7⟩
      · exact .all (by omega) h3 h4
      · apply Ends.entry (by omega) (by omega) h3
        · rw [h4, hsub]
          rfl
        · omega
        · rw [h6, show remaining m dir parent dirOi (k' + 2) = liveFrom m dirOi k' from rfl, h7,
            hsub]
          rfl
  | k + 2, hk =>
    obtain ⟨r, hr, hcases⟩ := readdirLoop_ends hwf k fuel room [] (by omega) (by omega) (by simp)
    refine ⟨r, by simpa using hr, ?_⟩
    simp only [List.length_nil, Nat.zero_add, Nat.sub_zero, List.nil_append] at hcases
    rcases hcases with ⟨h2, h3, h4⟩ | ⟨h2, h3, h4, k', h5, h6, h7⟩
    · exact .all h2 h3 h4
    · apply Ends.entry (by omega) h2 h3 h4 (by omega)
      rw [h6]
      exact h7

end OneCall

section Calls
variable (hwf : WellFormedDir m dir dirOi) (hfuel : slotCount m dirOi + 2 ≤ fuel)
include hwf hfuel

omit hwf hfuel in
theorem Ends.next_pos {r : ReaddirResult} (hend : Ends m dir parent dirOi pos room r)
    (hret : r.ret ≠ 1) :
    r.ret = 0 ∧ r.fpos ≤ slotCount m dirOi + 2 := by
  cases hend with
  | all _ h => exact absurd h hret
  | dots h1 h2 _ h4 => exact ⟨h2, by omega⟩
  | entry _ _ h3 _ h5 => exact ⟨h3, h5.2⟩

/-- The calls never show more than is left. -/
theorem readdirCalls_length (hpos : pos ≤ slotCount m dirOi + 2)
    (h : readdirCalls fuel m dir parent pos rooms = some accepted) :
    accepted.length ≤ (remaining m dir parent dirOi pos).length := by
  induction rooms generalizing pos accepted with
  | nil => exact absurd h (by simp [readdirCalls])
  | cons room rooms ih =>
    obtain ⟨r, hr, hend⟩ := ospfsDirReaddir_ends hwf parent room hpos hfuel
    rw [readdirCalls, hr] at h
    by_cases hret : r.ret = 1
    · simp only [if_pos hret, Option.some.injEq] at h
      subst h
      cases hend with
      | all _ _ hacc => exact Nat.le_of_eq (congrArg _ hacc)
      | dots _ h2 => omega
      | entry _ _ h3 => omega
    · obtain ⟨_, hpos'⟩ := hend.next_pos hret
      simp only [if_neg hret, Option.map_eq_some_iff] at h
      obtain ⟨rest, hrest, rfl⟩ := h
      have hlen := ih hpos' hrest
      cases hend with
      | all _ h => exact absurd h hret
      | dots _ _ hacc hp hdrop =>
        rw [hp, hdrop, List.length_drop] at hlen
        rw [List.length_append, hacc, List.length_take]
        omega
      | entry _ _ _ hacc _ hdrop =>
        rw [hdrop, List.length_drop] at hlen
        rw [List.length_append, hacc, List.length_take]
        omega

/-- Everything that is left is shown exactly when the call that gets past the dots has room for
all of it. -/
theorem readdirCalls_complete_iff (hpos : pos ≤ slotCount m dirOi + 2)
    (h : readdirCalls fuel m dir parent pos rooms = some accepted) :
    accepted = remaining m dir parent dirOi pos ↔
      ∀ k, 1 ≤ k → 2 - pos ≤ (rooms.take k).sum →
        (remaining m dir parent dirOi pos).length ≤ (rooms.take k).sum := by
  induction rooms generalizing pos accepted with
  | nil => exact absurd h (by simp [readdirCalls])
  | cons room rooms ih =>
    obtain ⟨r, hr, hend⟩ := ospfsDirReaddir_ends hwf parent room hpos hfuel
    rw [readdirCalls, hr] at h
    have hsum : ∀ k, 1 ≤ k → room ≤ ((room :: rooms).take k).sum := by
      intro k hk
      obtain ⟨k, rfl⟩ : ∃ k', k = k' + 1 := ⟨k - 1, by omega⟩
      rw [List.take_succ_cons, List.sum_cons]
      omega
    by_cases hret : r.ret = 1
    · simp only [if_pos hret, Option.some.injEq] at h
      subst h
      cases hend with
      | all hroom _ hacc =>
        constructor
        · intro _ k hk _
          exact Nat.le_trans hroom (hsum k hk)
        · intro _
          exact hacc
      | dots _ h2 => omega
      | entry _ _ h3 => omega
    · obtain ⟨_, hpos'⟩ := hend.next_pos hret
      simp only [if_neg hret, Option.map_eq_some_iff] at h
      obtain ⟨rest, hrest, rfl⟩ := h
      cases hend with
      | all _ h => exact absurd h hret
      | dots hroom _ hacc hp hdrop =>
        have hiff := ih hpos' hrest
        rw [hp, hdrop] at hiff
        have hsplit : r.accepted ++ rest = remaining m dir parent dirOi pos ↔
            rest = (remaining m dir parent dirOi pos).drop room := by
          rw [hacc]
          constructor
          · intro heq
            apply @List.append_cancel_left _ ((remaining m dir parent dirOi pos).take room)
            rw [heq, List.take_append_drop]
          · intro heq
            rw [heq, List.take_append_drop]
        rw [hsplit, hiff, List.length_drop]
        constructor
        · intro hall k hk hdots
          obtain ⟨k, rfl⟩ : ∃ k', k = k' + 1 := ⟨k - 1, by omega⟩
          rw [List.take_succ_cons, List.sum_cons] at hdots ⊢
          by_cases hk0 : k = 0
          · subst hk0
            simp only [List.take_zero, List.sum_nil] at hdots
            omega
          · have := hall k (by omega) (by omega)
            omega
        · intro hall k hk hdots
          have := hall (k + 1) (by omega)
          rw [List.take_succ_cons, List.sum_cons] at this
          have := this (by omega)
          omega
      | entry hdots hroom _ hacc _ hdrop =>
        have hlen := readdirCalls_length hwf hfuel hpos' hrest
        rw [hdrop, List.length_drop] at hlen
        constructor
        · intro heq
          have hl := congrArg List.length heq
          rw [List.length_append, hacc, List.length_take] at hl
          omega
        · intro hall
          have := hall 1 (Nat.le_refl 1)
          rw [List.take_succ_cons, List.take_zero, List.sum_cons, List.sum_nil] at this
          have := this (by omega)
          omega

end Calls

/-- A sequence of calls that reaches the end has shown every entry exactly once if and only if
the first call that gets past `..` had room for all entries of the directory. -/
theorem listing_complete_iff (hwf : WellFormedDir m dir dirOi)
    (hfuel : slotCount m dirOi + 2 ≤ fuel)
    (hend : readdirCalls fuel m dir parent 0 rooms = some accepted) :
    accepted = fullListing m dirOi dir parent ↔
      ∀ k, 2 ≤ (rooms.take k).sum →
        2 + (liveFrom m dirOi 0).length ≤ (rooms.take k).sum := by
  have hiff := readdirCalls_complete_iff hwf hfuel (Nat.zero_le _) hend
  have hlen : (remaining m dir parent dirOi 0).length = 2 + (liveFrom m dirOi 0).length := by
    simp only [remaining, fullListing, List.length_cons]
    omega
  refine hiff.trans ?_
  rw [hlen]
  constructor
  · intro hall k hk
    by_cases hk0 : k = 0
    · subst hk0
      simp at hk
    · exact hall k (by omega) hk
  · intro hall k _ hk
    exact hall k hk

/-- A root directory, inode 1, with one entry `a` for inode 2. -/
def oneEntryDisk : Bytes := fun a =>
  if a = 1028 then 5 else if a = 1032 then 3 else if a = 1036 then 3
  else if a = 3136 then 128 else if a = 3140 then 1 else if a = 3152 then 4
  else if a = 4096 then 2 else if a = 4100 then 97 else 0

theorem oneEntryDisk_wellFormed : WellFormedDir oneEntryDisk 1 3136 := by
  constructor
  · rfl
  · decide
  · intro k hk _
    have h1 : slotCount oneEntryDisk 3136 = 1 := rfl
    rw [show k = 0 by omega]
    decide +kernel

theorem listing_complete_iff_one_entry :
    readdirCalls 9 oneEntryDisk 1 1 0 [1, 5] = some (fullListing oneEntryDisk 3136 1 1) := by
  have hrun : readdirCalls 9 oneEntryDisk 1 1 0 [1, 5] =
      some [dotEntry 1, dotDotEntry 1, ⟨[97], 2, 2, .reg⟩] := by decide +kernel
  have hlen : (liveFrom oneEntryDisk 3136 0).length = 1 := by decide +kernel
  rw [hrun, Option.some.injEq]
  have hfuel : slotCount oneEntryDisk 3136 + 2 ≤ 9 := by decide +kernel
  apply (listing_complete_iff oneEntryDisk_wellFormed hfuel hrun).mpr
  intro k hk
  rw [hlen]
  match k with
  | 0 => exact absurd hk (by decide)
  | 1 => exact absurd hk (by decide)
  | k + 2 => simp

/-- A call that accepts `.` and `..` and refuses the entry skips it for good. -/
theorem listing_skips_refused_entry :
    ¬ ∀ (m : Bytes) (dir dirOi parent fuel : Nat) (rooms : List Nat) (accepted : List DirEntry),
      WellFormedDir m dir dirOi → slotCount m dirOi + 2 ≤ fuel →
        readdirCalls fuel m dir parent 0 rooms = some accepted →
          accepted = fullListing m dirOi dir parent := by
  intro hall
  have hrun : readdirCalls 9 oneEntryDisk 1 1 0 [2, 5] = some [dotEntry 1, dotDotEntry 1] := by
    decide +kernel
  have heq := hall oneEntryDisk 1 3136 1 9 [2, 5] _ oneEntryDisk_wellFormed
    (by decide +kernel) hrun
  exact absurd (congrArg List.length heq) (by decide +kernel)

end CS111.Ospfs
