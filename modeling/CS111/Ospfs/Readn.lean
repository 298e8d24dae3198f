import CS111.Lib.Run
import CS111.Lib.Words

/-!
# Reading until a buffer is full

`readn` of the formatter holds what `read` returns in a `size_t`, so that its test for an error is one
for 0 only. `size_t` has `bits + 1` bits here.
-/

namespace CS111.Ospfs

open Memory

set_option autoImplicit false

/-- What a call of `read` comes to. -/
inductive ReadOutcome where
  | data (bytes : List UInt8)
  | eof
  | error
  deriving Repr, DecidableEq

namespace ReadOutcome

def result : ReadOutcome → Int
  | data bytes => bytes.length
  | eof => 0
  | error => -1

/-- What is stored in the buffer. -/
def bytes : ReadOutcome → List UInt8
  | data bytes => bytes
  | eof => []
  | error => []

end ReadOutcome

section Loop
variable (bits n : Nat)

def sizeT (i : Int) : Nat := (i % (2 ^ (bits + 1) : Nat)).toNat

def ssizeT (x : Nat) : Int := if x < 2 ^ bits then x else x - (2 ^ (bits + 1) : Nat)

/-- The loop of `readn`; the buffer is read and written from `av` on, and `ret` is there when the
function has returned. -/
structure Readn where
  t : Nat
  buf : Bytes
  ret : Option Int

namespace Readn

/-- `while (t < n)`. -/
def head (s : Readn) : Readn := if s.t < n then s else { s with ret := some (ssizeT bits s.t) }

def start (buf : Bytes) : Readn := head bits n ⟨0, buf, none⟩

def round (s : Readn) (o : ReadOutcome) : Readn :=
  let m := sizeT bits o.result
  let buf := store s.buf s.t o.bytes
  if m ≤ 0 then
    { s with buf := buf, ret := some (if s.t = 0 then ssizeT bits m else ssizeT bits s.t) }
  else head bits n { s with buf := buf, t := sizeT bits (s.t + m) }

end Readn

/-- What `read` may do when `n` bytes are asked for. -/
def ReadOutcome.Possible : ReadOutcome → Prop
  | data bytes => 0 < bytes.length ∧ bytes.length ≤ n ∧ bytes.length < 2 ^ bits
  | eof => True
  | error => True

/-- A round of the loop. -/
def ReadStep (s : Readn) (o : ReadOutcome) (s' : Readn) : Prop :=
  s.ret = none ∧ o.Possible bits (n - s.t) ∧ s' = s.round bits n o

end Loop

/-! ## What is asked of the function -/

section Spec
variable (bits n : Nat) (os : List ReadOutcome)

/-- The bytes that the successful reads deliver. -/
def delivered : List UInt8 := os.flatMap ReadOutcome.bytes

/-- The end of the file, an error, or `n` bytes. -/
def Stops : Prop := n ≤ (delivered os).length ∨ .eof ∈ os ∨ .error ∈ os

def firstResult : Int := (os.head?.map ReadOutcome.result).getD 0

/-- After the reads `os` the function has returned when it is to stop, and when it has returned, the
buffer and the result are right. -/
structure Delivers (s : Readn) : Prop where
  terminates : Stops n os → s.ret ≠ none
  buffer : s.ret ≠ none → load s.buf 0 (delivered os).length = delivered os
  result : ∀ v, s.ret = some v →
    v = if 0 < (delivered os).length then ((delivered os).length : Int) else firstResult os

/-- An error comes after some data. -/
def ErrorAfterData : Prop :=
  ∃ before after, os = before ++ .error :: after ∧ 0 < (delivered before).length

end Spec

variable {bits n : Nat} {os : List ReadOutcome} {o : ReadOutcome} {s s' : Readn} {buf : Bytes}

/-! ## Conversions -/

theorem sizeT_natCast (x : Nat) : sizeT bits x = x % 2 ^ (bits + 1) := by
  unfold sizeT
  rw [← Int.natCast_emod, Int.toNat_natCast]

theorem sizeT_of_lt {x : Nat} (h : x < 2 ^ (bits + 1)) : sizeT bits x = x :=
  (sizeT_natCast x).trans (Nat.mod_eq_of_lt h)

theorem sizeT_minusOne : sizeT bits (-1) = 2 ^ (bits + 1) - 1 := by
  unfold sizeT
  have hpos : 0 < 2 ^ (bits + 1) := Nat.two_pow_pos _
  have hmod : (-1 : Int) % (2 ^ (bits + 1) : Nat) = -1 + (2 ^ (bits + 1) : Nat) := by
    rw [← Int.add_emod_right]
    exact Int.emod_eq_of_lt (by omega) (by omega)
  rw [hmod]
  omega

theorem ssizeT_le (bits x : Nat) : ssizeT bits x ≤ x := by
  have hpos : 0 < 2 ^ (bits + 1) := Nat.two_pow_pos _
  unfold ssizeT
  split <;> omega

theorem ssizeT_eq_iff {x : Nat} : ssizeT bits x = x ↔ x < 2 ^ bits := by
  have hpos : 0 < 2 ^ (bits + 1) := Nat.two_pow_pos _
  unfold ssizeT
  split <;> omega

theorem ssizeT_zero : ssizeT bits 0 = 0 := ssizeT_eq_iff.mpr (Nat.two_pow_pos bits)

theorem ssizeT_last : ssizeT bits (2 ^ (bits + 1) - 1) = -1 := by
  have hpos : 0 < 2 ^ bits := Nat.two_pow_pos bits
  unfold ssizeT
  rw [if_neg (by omega)]
  omega

/-! ## The reads so far -/

theorem delivered_snoc (os : List ReadOutcome) (o : ReadOutcome) :
    delivered (os ++ [o]) = delivered os ++ o.bytes := by
  simp [delivered]

theorem ErrorAfterData.error_mem (h : ErrorAfterData os) : .error ∈ os := by
  obtain ⟨before, after, rfl, -⟩ := h
  simp

theorem ErrorAfterData.delivered_pos (h : ErrorAfterData os) : 0 < (delivered os).length := by
  obtain ⟨before, after, rfl, hpos⟩ := h
  unfold delivered at hpos ⊢
  rw [List.flatMap_append, List.length_append]
  omega

theorem ErrorAfterData.snoc (h : ErrorAfterData os) : ErrorAfterData (os ++ [o]) := by
  obtain ⟨before, after, rfl, hpos⟩ := h
  exact ⟨before, after ++ [o], by simp, hpos⟩

theorem ErrorAfterData.of_snoc (h : ErrorAfterData (os ++ [o])) (hnone : .error ∉ os) :
    o = .error ∧ 0 < (delivered os).length := by
  obtain ⟨before, after, heq, hpos⟩ := h
  rcases List.eq_nil_or_concat after with rfl | ⟨init, last, rfl⟩
  · obtain ⟨rfl, hlast⟩ := List.append_inj' heq rfl
    exact ⟨List.head_eq_of_cons_eq hlast, hpos⟩
  · have hlast : os ++ [o] = (before ++ .error :: init) ++ [last] := by simpa using heq
    obtain ⟨rfl, -⟩ := List.append_inj' hlast rfl
    exact absurd (List.mem_append_right before (List.mem_cons_self ..)) hnone

/-! ## The rounds -/

section Rounds
variable {n t : Nat} {r : Option Int}

theorem head_reading (h : t < n) : Readn.head bits n ⟨t, buf, r⟩ = ⟨t, buf, r⟩ := if_pos h

theorem head_returns (h : n ≤ t) :
    Readn.head bits n ⟨t, buf, r⟩ = ⟨t, buf, some (ssizeT bits t)⟩ := if_neg (Nat.not_lt.mpr h)

theorem round_data {bytes : List UInt8} (hbytes : 0 < bytes.length)
    (hfits : t + bytes.length < 2 ^ (bits + 1)) :
    Readn.round bits n ⟨t, buf, r⟩ (.data bytes) =
      Readn.head bits n ⟨t + bytes.length, store buf t bytes, r⟩ := by
  have hm : sizeT bits (bytes.length : Int) = bytes.length := sizeT_of_lt (by omega)
  have ht : sizeT bits ((t : Int) + (bytes.length : Int)) = t + bytes.length := by
    exact_mod_cast sizeT_of_lt hfits
  simp only [Readn.round, ReadOutcome.result, ReadOutcome.bytes, hm, ht]
  rw [if_neg (by omega)]

theorem round_eof : Readn.round bits n ⟨t, buf, r⟩ .eof = ⟨t, buf, some (ssizeT bits t)⟩ := by
  have hm : sizeT bits 0 = 0 := sizeT_of_lt (Nat.two_pow_pos _)
  simp only [Readn.round, ReadOutcome.result, ReadOutcome.bytes, hm, store_nil, Nat.le_refl, if_true]
  by_cases ht : t = 0
  · rw [if_pos ht, ht]
  · rw [if_neg ht]

theorem round_error (ht : t < 2 ^ (bits + 1)) :
    Readn.round bits n ⟨t, buf, r⟩ .error =
      Readn.head bits n ⟨if t = 0 then 2 ^ (bits + 1) - 1 else t - 1, buf, r⟩ := by
  have hpos : 1 < 2 ^ (bits + 1) := Nat.one_lt_two_pow (Nat.succ_ne_zero bits)
  have hnext : sizeT bits ((t : Int) + (2 ^ (bits + 1) - 1 : Nat)) =
      if t = 0 then 2 ^ (bits + 1) - 1 else t - 1 := by
    rw [← Int.natCast_add, sizeT_natCast]
    split
    · next h0 =>
      rw [h0, Nat.zero_add]
      exact Nat.mod_eq_of_lt (by omega)
    · have hwrap : t + (2 ^ (bits + 1) - 1) = t - 1 + 2 ^ (bits + 1) := by omega
      rw [hwrap, Nat.add_mod_right]
      exact Nat.mod_eq_of_lt (by omega)
  simp only [Readn.round, ReadOutcome.result, ReadOutcome.bytes, sizeT_minusOne, store_nil, hnext]
  rw [if_neg (by omega)]

end Rounds

/-! ## The runs -/

/-- Where the function is after the reads `os`: at all bytes delivered so far, or returned with them; or
an error came after some data and its count has fallen behind. -/
inductive ReadState (bits n : Nat) (os : List ReadOutcome) : Readn → Prop
  | reading {t : Nat} {buf : Bytes} (hlt : t < n) (htotal : (delivered os).length = t)
      (heof : .eof ∉ os) (herror : .error ∉ os) (hfirst : delivered os = [] → os = [])
      (hbuf : load buf 0 t = delivered os) : ReadState bits n os ⟨t, buf, none⟩
  | returned {t : Nat} {buf : Bytes} (hstops : Stops n os) (hclean : ¬ ErrorAfterData os)
      (hbuf : load buf 0 (delivered os).length = delivered os) :
      ReadState bits n os ⟨t, buf, some
        (if 0 < (delivered os).length then ssizeT bits (delivered os).length else firstResult os)⟩
  | behind {s : Readn} (herror : ErrorAfterData os)
      (hopen : s.ret = none → s.t < n ∧ s.t < (delivered os).length)
      (hret : ∀ v, s.ret = some v → v < (delivered os).length) : ReadState bits n os s

theorem start_state (buf : Bytes) : ReadState bits n [] (Readn.start bits n buf) := by
  unfold Readn.start
  rcases Nat.eq_zero_or_pos n with rfl | hpos
  · rw [head_returns (Nat.le_refl 0), ssizeT_zero]
    refine .returned (.inl (Nat.le_refl 0)) (fun h => ?_) rfl
    exact absurd h.error_mem List.not_mem_nil
  · rw [head_reading hpos]
    exact .reading hpos rfl List.not_mem_nil List.not_mem_nil (fun _ => rfl) rfl

section Steps
variable {t : Nat} (hsize : n < 2 ^ (bits + 1)) (hlt : t < n)
include hsize hlt

theorem reading_step (htotal : (delivered os).length = t) (heof : .eof ∉ os) (herror : .error ∉ os)
    (hfirst : delivered os = [] → os = []) (hbuf : load buf 0 t = delivered os)
    (hpossible : o.Possible bits (n - t)) :
    ReadState bits n (os ++ [o]) (Readn.round bits n ⟨t, buf, none⟩ o) := by
  have hclean : ∀ {o}, o ≠ .error ∨ delivered os = [] → ¬ ErrorAfterData (os ++ [o]) := by
    intro o ho h
    obtain ⟨heq, hpos⟩ := h.of_snoc herror
    rcases ho with hne | hnil
    · exact hne heq
    · rw [hnil] at hpos
      exact absurd hpos (Nat.lt_irrefl 0)
  cases o with
  | data bytes =>
    obtain ⟨hpos, hfits, -⟩ := hpossible
    have hnew : delivered (os ++ [.data bytes]) = delivered os ++ bytes := delivered_snoc os _
    have hlen : (delivered (os ++ [.data bytes])).length = t + bytes.length := by
      rw [hnew, List.length_append, htotal]
    have hstored : load (store buf t bytes) 0 (t + bytes.length) =
        delivered (os ++ [.data bytes]) := by
      rw [hnew, ← hbuf, load_store_append]
    rw [round_data hpos (by omega)]
    rcases Nat.lt_or_ge (t + bytes.length) n with hmore | hfull
    · rw [head_reading hmore]
      refine .reading hmore hlen (by simpa using heof) (by simpa using herror) (fun hnil => ?_) hstored
      rw [hnil] at hlen
      exact absurd hlen (by simp; omega)
    · rw [head_returns hfull]
      have hstate : ReadState bits n (os ++ [.data bytes]) _ :=
        .returned (t := t + bytes.length) (.inl (by omega)) (hclean (.inl ReadOutcome.noConfusion))
          (hlen ▸ hstored)
      rwa [hlen, if_pos (by omega)] at hstate
  | eof =>
    have hnew : delivered (os ++ [.eof]) = delivered os :=
      (delivered_snoc os _).trans (List.append_nil _)
    rw [round_eof]
    have hstate : ReadState bits n (os ++ [.eof]) _ :=
      .returned (t := t) (.inr (.inl (by simp))) (hclean (.inl ReadOutcome.noConfusion))
        (by rw [hnew, htotal]; exact hbuf)
    rcases Nat.eq_zero_or_pos t with rfl | hpos
    · have hos := hfirst (List.eq_nil_of_length_eq_zero htotal)
      subst hos
      rw [ssizeT_zero]
      exact hstate
    · rwa [hnew, htotal, if_pos hpos] at hstate
  | error =>
    have hnew : delivered (os ++ [.error]) = delivered os :=
      (delivered_snoc os _).trans (List.append_nil _)
    rw [round_error (by omega)]
    rcases Nat.eq_zero_or_pos t with rfl | hpos
    · have hnil := List.eq_nil_of_length_eq_zero htotal
      have hos := hfirst hnil
      subst hos
      rw [if_pos rfl, head_returns (by omega), ssizeT_last]
      exact .returned (t := 2 ^ (bits + 1) - 1) (.inr (.inr (by simp))) (hclean (.inr hnil)) rfl
    · rw [if_neg (by omega), head_reading (by omega)]
      refine .behind ⟨os, [], rfl, by omega⟩ (fun _ => ?_) (fun v hv => by cases hv)
      rw [hnew, htotal]
      exact ⟨by simp only; omega, by simp only; omega⟩

theorem behind_step (herror : ErrorAfterData os) (htotal : t < (delivered os).length)
    (hpossible : o.Possible bits (n - t)) :
    ReadState bits n (os ++ [o]) (Readn.round bits n ⟨t, buf, none⟩ o) := by
  have hlen : (delivered (os ++ [o])).length = (delivered os).length + o.bytes.length := by
    rw [delivered_snoc, List.length_append]
  have hhead : ∀ (t' : Nat) (buf' : Bytes), t' < (delivered (os ++ [o])).length →
      ReadState bits n (os ++ [o]) (Readn.head bits n ⟨t', buf', none⟩) := by
    intro t' buf' ht'
    rcases Nat.lt_or_ge t' n with hmore | hfull
    · rw [head_reading hmore]
      exact .behind herror.snoc (fun _ => ⟨hmore, ht'⟩) (fun v hv => by cases hv)
    · rw [head_returns hfull]
      have hret := ssizeT_le bits t'
      refine .behind herror.snoc (fun hv => by cases hv) (fun v hv => ?_)
      rw [← Option.some.inj hv]
      omega
  cases o with
  | data bytes =>
    obtain ⟨hpos, hfits, -⟩ := hpossible
    rw [round_data hpos (by omega)]
    apply hhead
    rw [hlen]
    exact Nat.add_lt_add_right htotal _
  | eof =>
    have hret := ssizeT_le bits t
    rw [round_eof]
    refine .behind herror.snoc (fun hv => by cases hv) (fun v hv => ?_)
    rw [← Option.some.inj hv]
    omega
  | error =>
    rw [round_error (by omega)]
    split
    · -- the count of nothing less one is the largest number of all, which ends the loop
      rw [head_returns (by omega), ssizeT_last]
      refine .behind herror.snoc (fun hv => by cases hv) (fun v hv => ?_)
      rw [← Option.some.inj hv]
      omega
    · apply hhead
      omega

end Steps

theorem ReadState.step (hsize : n < 2 ^ (bits + 1)) (h : ReadState bits n os s)
    (hstep : ReadStep bits n s o s') : ReadState bits n (os ++ [o]) s' := by
  obtain ⟨hopen, hpossible, rfl⟩ := hstep
  cases h with
  | reading hlt htotal heof herror hfirst hbuf =>
    exact reading_step hsize hlt htotal heof herror hfirst hbuf hpossible
  | returned => cases hopen
  | behind herror hbehind hret =>
    obtain ⟨hlt, htotal⟩ := hbehind hopen
    obtain ⟨t, buf, r⟩ := s
    simp only at hopen
    subst hopen
    exact behind_step hsize hlt herror htotal hpossible

theorem ReadState.of_run (hsize : n < 2 ^ (bits + 1))
    (h : Run (ReadStep bits n) (Readn.start bits n buf) os s) : ReadState bits n os s :=
  h.invariant_history (fun hstate hstep => hstate.step hsize hstep) (start_state buf)

/-- `readn` does what it is for exactly unless an error comes after some data, or the bytes are more than
an `ssize_t` can count. -/
theorem readn_delivers_iff (bits n : Nat) (buf : Bytes) (os : List ReadOutcome) (s : Readn)
    (hsize : n < 2 ^ (bits + 1)) (hrun : Run (ReadStep bits n) (Readn.start bits n buf) os s) :
    Delivers n os s ↔ ¬ ErrorAfterData os ∧ (Stops n os → (delivered os).length < 2 ^ bits) := by
  cases ReadState.of_run hsize hrun with
  | reading hlt htotal heof herror hfirst hbuf =>
    have hgoes : ¬ Stops n os := by
      intro h
      rcases h with hfull | h | h
      · omega
      · exact heof h
      · exact herror h
    refine iff_of_true ⟨fun h => absurd h hgoes, fun h => absurd rfl h, fun v hv => by cases hv⟩ ?_
    exact ⟨fun h => herror h.error_mem, fun h => absurd h hgoes⟩
  | returned hstops hclean hbuf =>
    constructor
    · intro h
      refine ⟨hclean, fun _ => ?_⟩
      have hresult := h.result _ rfl
      rcases Nat.eq_zero_or_pos (delivered os).length with hzero | hpos
      · rw [hzero]
        exact Nat.two_pow_pos bits
      · rw [if_pos hpos, if_pos hpos] at hresult
        exact ssizeT_eq_iff.mp hresult
    · intro h
      refine ⟨fun _ => Option.some_ne_none _, fun _ => hbuf, fun v hv => ?_⟩
      rw [← Option.some.inj hv, ssizeT_eq_iff.mpr (h.2 hstops)]
  | behind herror hopen hret =>
    refine iff_of_false (fun h => ?_) (fun h => h.1 herror)
    obtain ⟨v, hv⟩ := Option.ne_none_iff_exists'.mp (h.terminates (.inr (.inr herror.error_mem)))
    have hresult := h.result v hv
    have hless := hret v hv
    rw [if_pos herror.delivered_pos] at hresult
    omega

theorem eof_step (h : s.ret = none) : ReadStep bits n s .eof (s.round bits n .eof) :=
  ⟨h, trivial, rfl⟩

theorem error_step (h : s.ret = none) : ReadStep bits n s .error (s.round bits n .error) :=
  ⟨h, trivial, rfl⟩

/-- A read of two bytes, and the end of the file. -/
theorem readn_delivers_shortRead :
    ∃ s, Run (ReadStep 31 1024) (Readn.start 31 1024 fun _ => 0) [.data [1, 2], .eof] s ∧
      Delivers 1024 [.data [1, 2], .eof] s := by
  have hfirst : ReadStep 31 1024 (Readn.start 31 1024 fun _ => 0) (.data [1, 2]) _ :=
    ⟨rfl, ⟨by decide, by decide, by decide⟩, rfl⟩
  have hrun := Run.snoc (Run.single hfirst) (eof_step rfl)
  refine ⟨_, hrun, (readn_delivers_iff 31 1024 _ _ _ (by decide) hrun).mpr ⟨fun h => ?_, fun _ => ?_⟩⟩
  · exact absurd h.error_mem (by decide)
  · decide

/-- An error after two bytes: the function reads on, and returns 1 at the end of the file. -/
theorem readn_loses_byte :
    ∃ s, Run (ReadStep 31 1024) (Readn.start 31 1024 fun _ => 0) [.data [1, 2], .error, .eof] s ∧
      s.ret = some 1 ∧ ¬ Delivers 1024 [.data [1, 2], .error, .eof] s := by
  have hfirst : ReadStep 31 1024 (Readn.start 31 1024 fun _ => 0) (.data [1, 2]) _ :=
    ⟨rfl, ⟨by decide, by decide, by decide⟩, rfl⟩
  have hsecond := Run.snoc (Run.single hfirst) (error_step rfl)
  have hrun := Run.snoc hsecond (eof_step rfl)
  have hret : (((Readn.start 31 1024 fun _ => 0).round 31 1024 (.data [1, 2])).round 31 1024
      .error |>.round 31 1024 .eof).ret = some 1 := by
    decide +kernel
  refine ⟨_, hrun, hret, fun h => ?_⟩
  have hresult := h.result 1 hret
  exact absurd hresult (by decide)

end CS111.Ospfs
