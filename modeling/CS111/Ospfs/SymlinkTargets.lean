import CS111.Ospfs.BlockMap
import CS111.Ospfs.Lookup

/-!
# What `ospfs_follow_link` hands back

The string that `nd_set_link` is given ends at the first NUL. A conditional link is cut in two by
the first call that follows it, and later calls find the cut.
-/

namespace CS111.Ospfs

open Memory

set_option autoImplicit false

variable {m : Bytes} {s s' : State} {a n left ino oi uid addr : Nat} {c : UInt8} {A B text : Name}

section Strings

theorem strchr_found (hbefore : ∀ k, k < n → m (a + k) ≠ c ∧ m (a + k) ≠ 0) (hc : m (a + n) = c)
    (hroom : n < left) : strchr m c a left = some (a + n) := by
  induction n generalizing a left with
  | zero =>
    obtain ⟨left, rfl⟩ := Nat.exists_eq_add_of_lt hroom
    rw [Nat.add_zero] at hc
    rw [strchr, if_pos hc]
    rfl
  | succ n ih =>
    obtain ⟨left, rfl⟩ : ∃ l, left = l + 1 := ⟨left - 1, by omega⟩
    obtain ⟨hne, h0⟩ := hbefore 0 (by omega)
    rw [Nat.add_zero] at hne h0
    rw [strchr, if_neg hne, if_neg h0, ih _ _ (by omega)]
    · rw [show a + 1 + n = a + (n + 1) by omega]
    · intro k hk
      rw [show a + 1 + k = a + (k + 1) by omega]
      exact hbefore (k + 1) (by omega)
    · rw [show a + 1 + n = a + (n + 1) by omega]
      exact hc

theorem strchr_missing (hbefore : ∀ k, k < n → m (a + k) ≠ c ∧ m (a + k) ≠ 0)
    (h0 : m (a + n) = 0) (hc : c ≠ 0) : strchr m c a left = none := by
  induction n generalizing a left with
  | zero =>
    cases left with
    | zero => rfl
    | succ left =>
      rw [Nat.add_zero] at h0
      rw [strchr, if_neg (by rw [h0]; exact hc.symm), if_pos h0]
  | succ n ih =>
    cases left with
    | zero => rfl
    | succ left =>
      obtain ⟨hne, hnul⟩ := hbefore 0 (by omega)
      rw [Nat.add_zero] at hne hnul
      rw [strchr, if_neg hne, if_neg hnul]
      apply ih
      · intro k hk
        rw [show a + 1 + k = a + (k + 1) by omega]
        exact hbefore (k + 1) (by omega)
      · rw [show a + 1 + n = a + (n + 1) by omega]
        exact h0

/-- A string that is stored with its NUL. -/
theorem cString_eq (htext : ∀ k (h : k < text.length), m (a + k) = text[k])
    (hchars : ∀ c, c ∈ text → c ≠ 0) (hnul : m (a + text.length) = 0)
    (hroom : text.length < left) : cString m a left = text := by
  induction text generalizing a left with
  | nil =>
    obtain ⟨left, rfl⟩ : ∃ l, left = l + 1 := ⟨left - 1, by simp only [List.length_nil] at hroom; omega⟩
    rw [List.length_nil, Nat.add_zero] at hnul
    rw [cString, if_pos hnul]
  | cons c text ih =>
    rw [List.length_cons] at hroom hnul
    obtain ⟨left, rfl⟩ : ∃ l, left = l + 1 := ⟨left - 1, by omega⟩
    have hfirst : m a = c := htext 0 (by rw [List.length_cons]; omega)
    rw [cString, hfirst, if_neg (hchars c List.mem_cons_self), ih]
    · intro k hk
      rw [show a + 1 + k = a + (k + 1) by omega, htext (k + 1) (by rw [List.length_cons]; omega)]
      rfl
    · exact fun d hd => hchars d (List.mem_cons_of_mem c hd)
    · rw [show a + 1 + text.length = a + (text.length + 1) by omega]
      exact hnul
    · omega

end Strings

/-- The string at an address given to `nd_set_link`. -/
def linkText (s : State) (addr : Nat) : Name := cString s.data addr (imageEnd s.data - addr)

section Conditional

/-- `"root?"` A `':'` B. -/
def conditionalTarget (A B : Name) : Name := rootPrefix ++ A ++ 58 :: B

/-- The strings that the processes with these user ids are handed back, one call after the other. -/
def followLinks (ino : Nat) : State → List Nat → Option (List Name)
  | _, [] => some []
  | s, uid :: uids =>
    match ospfsFollowLink s ino uid with
    | none => none
    | some (s', addr) => (followLinks ino s' uids).map (linkText s' addr :: ·)

/-- The field holds a conditional link, before or after its `:` is overwritten. -/
structure Conditional (m : Bytes) (ino oi : Nat) (A B : Name) : Prop where
  inode : ospfsInode m ino = some oi
  place : 2048 ≤ oi
  room : oi + 64 ≤ imageEnd m
  fits : A.length + B.length ≤ 45
  start : load m (oi + 12) 5 = rootPrefix
  first : ∀ k (h : k < A.length), m (oi + 17 + k) = A[k]
  cut : m (oi + 17 + A.length) = 58 ∨ m (oi + 17 + A.length) = 0
  second : ∀ k (h : k < B.length), m (oi + 18 + A.length + k) = B[k]
  nul : m (oi + 18 + A.length + B.length) = 0

theorem Conditional.of_stored (hl : Layout m oi) (hino : ospfsInode m ino = some oi)
    (hlen : (conditionalTarget A B).length ≤ 51)
    (hfield : load m (oi + 12) ((conditionalTarget A B).length + 1) = conditionalTarget A B ++ [0]) :
    Conditional m ino oi A B := by
  have hplace := hl.inode_place
  have hmap := hl.free_map
  have hroom := hl.room
  have htotal : (conditionalTarget A B).length = A.length + B.length + 6 := by
    simp only [conditionalTarget, rootPrefix, List.length_append, List.length_cons, List.length_nil]
    omega
  have hshape : conditionalTarget A B ++ [0] = rootPrefix ++ (A ++ 58 :: (B ++ [0])) := by
    simp only [conditionalTarget, List.append_assoc, List.cons_append]
  have hprefix : rootPrefix.length = 5 := rfl
  -- the field from some byte on
  have hbyte : ∀ k, k < A.length + B.length + 7 →
      some (m (oi + 12 + k)) = (rootPrefix ++ (A ++ 58 :: (B ++ [0])))[k]? := by
    intro k hk
    rw [← hshape, ← hfield, load, List.getElem?_map, List.getElem?_range (by omega)]
    rfl
  have hrest : ∀ k, k < A.length + B.length + 2 →
      some (m (oi + 17 + k)) = (A ++ 58 :: (B ++ [0]))[k]? := by
    intro k hk
    rw [show oi + 17 + k = oi + 12 + (5 + k) by omega, hbyte _ (by omega),
      List.getElem?_append_right (by omega), hprefix, Nat.add_sub_cancel_left]
  have hback : ∀ k, k < B.length + 2 →
      some (m (oi + 17 + A.length + k)) = (58 :: (B ++ [0]))[k]? := by
    intro k hk
    rw [Nat.add_assoc (oi + 17), hrest _ (by omega), List.getElem?_append_right (by omega),
      Nat.add_sub_cancel_left]
  constructor
  · exact hino
  · omega
  · unfold imageEnd
    omega
  · omega
  · have hload : load m (oi + 12) 5 = (rootPrefix ++ (A ++ 58 :: (B ++ [0]))).take 5 := by
      rw [← hshape, ← hfield]
      unfold load
      rw [← List.map_take, List.take_range, Nat.min_eq_left (by omega)]
    rw [hload]
    rfl
  · intro k hk
    have hget := hrest k (by omega)
    rw [List.getElem?_append_left hk, List.getElem?_eq_getElem hk, Option.some.injEq] at hget
    exact hget
  · left
    exact Option.some.inj (hback 0 (by omega))
  · intro k hk
    have hget := hback (k + 1) (by omega)
    rw [List.getElem?_cons_succ, List.getElem?_append_left hk, List.getElem?_eq_getElem hk,
      Option.some.injEq, show oi + 17 + A.length + (k + 1) = oi + 18 + A.length + k by omega] at hget
    exact hget
  · have hget := hback (B.length + 1) (by omega)
    rw [List.getElem?_cons_succ, List.getElem?_append_right (Nat.le_refl _), Nat.sub_self,
      show oi + 17 + A.length + (B.length + 1) = oi + 18 + A.length + B.length by omega] at hget
    exact Option.some.inj hget

section Follow
variable (h : Conditional m ino oi A B) (hA : ∀ c, c ∈ A → c ≠ 58 ∧ c ≠ 0)
include h

theorem Conditional.start_byte {k : Nat} (hk : k < 5) :
    m (oi + 12 + k) ≠ 58 ∧ m (oi + 12 + k) ≠ 0 := by
  have hmem : m (oi + 12 + k) ∈ rootPrefix := by
    rw [← h.start]
    exact List.mem_map.mpr ⟨k, List.mem_range.mpr hk, rfl⟩
  have hall : ∀ c, c ∈ rootPrefix → c ≠ 58 ∧ c ≠ 0 := by simp [rootPrefix]
  exact hall _ hmem

include hA

/-- In front of the cut there is neither a `:` nor a NUL. -/
theorem Conditional.before {k : Nat} (hk : k < A.length + 5) :
    m (oi + 12 + k) ≠ 58 ∧ m (oi + 12 + k) ≠ 0 := by
  by_cases h5 : k < 5
  · exact h.start_byte h5
  · rw [show oi + 12 + k = oi + 17 + (k - 5) by omega, h.first (k - 5) (by omega)]
    exact hA _ (List.getElem_mem _)

omit hA in
theorem Conditional.overwritten : Conditional (store m (oi + 17 + A.length) [0]) ino oi A B := by
  have hplace := h.place
  have hout : ∀ a, a ≠ oi + 17 + A.length → store m (oi + 17 + A.length) [0] a = m a :=
    fun a ha => store_outside (by rw [List.length_singleton]; omega)
  have hword : ∀ a, a + 4 ≤ oi → rd32 (store m (oi + 17 + A.length) [0]) a = rd32 m a :=
    fun a ha => rd32_congr fun k hk => hout _ (by omega)
  constructor
  · rw [← h.inode]
    unfold ospfsInode osNinodes osFirstinob
    rw [hword _ (by omega), hword _ (by omega)]
  · exact hplace
  · unfold imageEnd osNblocks
    rw [hword _ (by omega)]
    exact h.room
  · exact h.fits
  · rw [load_store_disjoint (by omega), h.start]
  · intro k hk
    rw [hout _ (by omega), h.first k hk]
  · exact .inr (store_inside (k := 0) (by decide))
  · intro k hk
    rw [hout _ (by omega), h.second k hk]
  · rw [hout _ (by omega), h.nul]

/-- The delimiter is the cut, and is a NUL afterwards. -/
theorem Conditional.follow (uid : Nat) (hs : s.data = m) : ∃ s', ospfsFollowLink s ino uid =
      some (s', if uid = 0 then oi + 17 else oi + 18 + A.length) ∧
    Conditional s'.data ino oi A B ∧ s'.data (oi + 17 + A.length) = 0 := by
  subst hs
  have hfits := h.fits
  have hroom := h.room
  have hplace := h.place
  have haddr : oi + 12 + (A.length + 5) = oi + 17 + A.length := by omega
  have hparts : (if uid = 0 then oi + 12 + 5 else oi + 17 + A.length + 1) =
      if uid = 0 then oi + 17 else oi + 18 + A.length := by
    split <;> omega
  unfold ospfsFollowLink
  simp only [h.inode, h.start, if_true]
  rcases h.cut with hcolon | hnul
  · have hfound : strchr s.data 58 (oi + 12) (imageEnd s.data - (oi + 12)) =
        some (oi + 17 + A.length) := by
      rw [← haddr]
      apply strchr_found
      · exact fun k hk => h.before hA hk
      · rw [haddr]
        exact hcolon
      · omega
    simp only [hfound]
    refine ⟨{ s with data := store s.data (oi + 17 + A.length) [0] }, by rw [hparts],
      h.overwritten, ?_⟩
    exact store_inside (k := 0) (by decide)
  · have hmissing : strchr s.data 58 (oi + 12) (imageEnd s.data - (oi + 12)) = none := by
      apply strchr_missing (n := A.length + 5)
      · exact fun k hk => h.before hA hk
      · rw [haddr]
        exact hnul
      · decide
    have hfound : strchr s.data 0 (oi + 12) (imageEnd s.data - (oi + 12)) =
        some (oi + 17 + A.length) := by
      rw [← haddr]
      apply strchr_found
      · exact fun k hk => ⟨(h.before hA hk).2, (h.before hA hk).2⟩
      · rw [haddr]
        exact hnul
      · omega
    simp only [hmissing, hfound]
    exact ⟨s, by rw [hparts], h, hnul⟩

/-- What a call hands back. -/
theorem Conditional.linkText (hs : s.data = m) (hcut : m (oi + 17 + A.length) = 0)
    (hB : ∀ c, c ∈ B → c ≠ 0) :
    linkText s (if uid = 0 then oi + 17 else oi + 18 + A.length) = if uid = 0 then A else B := by
  subst hs
  have hfits := h.fits
  have hroom := h.room
  unfold CS111.Ospfs.linkText
  by_cases huid : uid = 0
  · rw [if_pos huid, if_pos huid]
    exact cString_eq h.first (fun c hc => (hA c hc).2) hcut (by omega)
  · rw [if_neg huid, if_neg huid]
    exact cString_eq h.second hB h.nul (by omega)

end Follow

/-- The number and the order of the calls make no difference. -/
theorem conditional_links_stay (hl : Layout s.data oi) (hino : ospfsInode s.data ino = some oi)
    (hA : ∀ c, c ∈ A → c ≠ 58 ∧ c ≠ 0) (hB : ∀ c, c ∈ B → c ≠ 0)
    (hlen : (conditionalTarget A B).length ≤ 51)
    (hfield : load s.data (oi + 12) ((conditionalTarget A B).length + 1) = conditionalTarget A B ++ [0])
    (uids : List Nat) :
    followLinks ino s uids = some (uids.map fun uid => if uid = 0 then A else B) := by
  have h := Conditional.of_stored hl hino hlen hfield
  clear hl hino hlen hfield
  induction uids generalizing s with
  | nil => rfl
  | cons uid uids ih =>
    obtain ⟨s', hrun, h', hcut⟩ := h.follow hA uid rfl
    rw [followLinks, hrun]
    simp only [ih h', h'.linkText hA rfl hcut hB, Option.map_some, List.map_cons]

/-- Inode 5 is the link "root?a:b". -/
def linkDisk : Bytes := store bigFile 3404 (conditionalTarget [97] [98] ++ [0])

theorem linkDisk_layout : Layout linkDisk 3392 := by
  have hn : osNblocks linkDisk = 300 := by decide +kernel
  have hi : osNinodes linkDisk = 16 := by decide +kernel
  have hf : osFirstinob linkDisk = 3 := by decide +kernel
  have hstart : dataStart linkDisk = 4 := by
    unfold dataStart
    rw [hi, hf]
  constructor
  · rw [hn, hf]
  · rw [hstart, hn]
    decide
  · rw [hn]
    decide
  · exact ⟨5, by decide +kernel⟩
  · rw [hstart]
    decide +kernel

theorem conditional_links_stay_small :
    followLinks 5 ⟨linkDisk, -1⟩ [7, 0, 7] = some [[98], [97], [98]] :=
  conditional_links_stay linkDisk_layout (A := [97]) (B := [98]) (by decide +kernel) (by simp)
    (by simp) (by decide) (load_store_same _ _ _) [7, 0, 7]

end Conditional

end CS111.Ospfs
