import CS111.Ospfs.ChangeSize
import CS111.Ospfs.Files

/-!
# The bytes of a file

What `ospfs_read` returns and `ospfs_write` stores, for a file without missing blocks.
-/

namespace CS111.Ospfs

open Memory

set_option autoImplicit false

variable {g : Geometry} {m m' : Bytes} {i b n x : Nat}

section BlockMap
variable (hs : Sound g m) (hx : HasBlocks g m i)
include hs hx

omit hx in
theorem Sound.blockWord_zero {j : Nat} (hj : j < 256) : blockWord m 0 j = 0 := by
  apply rd32_eq_zero
  intro k hk
  have h0 : ospfsBlock 0 = 0 := rfl
  exact hs.boot _ (by omega)

/-- The block map of the read path is the tree of pointers. -/
theorem blockno_eq_own (hsize : oiSize m (inodeAddr i) ≤ maxFileSize)
    (hlt : x < oiSize m (inodeAddr i)) :
    ospfsInodeBlockno m (inodeAddr i) x = own g m (i, dataSlot (x / 1024)) := by
  have hbelow : ∀ c j, j < 256 → blockWord m c j = below m c j := by
    intro c j hj
    unfold below
    split
    · rename_i h0
      rw [h0, hs.blockWord_zero hj]
    · rfl
  unfold maxFileSize at hsize
  rw [own_eq_ptr hx]
  exact blockno_eq_ptr hx.2 hlt (by omega) fun p j _ hj => hbelow _ _ hj

end BlockMap

section Bytes

def fileByte (g : Geometry) (m : Bytes) (i x : Nat) : UInt8 :=
  m (1024 * own g m (i, dataSlot (x / 1024)) + x % 1024)

def fileBytes (g : Geometry) (m : Bytes) (i p n : Nat) : List UInt8 :=
  (List.range n).map fun k => fileByte g m i (p + k)

@[simp] theorem fileBytes_length (g : Geometry) (m : Bytes) (i p n : Nat) :
    (fileBytes g m i p n).length = n := by
  simp [fileBytes]

theorem fileBytes_add (g : Geometry) (m : Bytes) (i p n k : Nat) :
    fileBytes g m i p (n + k) = fileBytes g m i p n ++ fileBytes g m i (p + n) k := by
  simp [fileBytes, List.range_add, List.map_map, Function.comp_def, Nat.add_assoc]

theorem fileBytes_getElem? {p k : Nat} (h : k < n) :
    (fileBytes g m i p n)[k]? = some (fileByte g m i (p + k)) := by
  simp [fileBytes, h]

theorem load_block {p : Nat} (h : p % 1024 + n ≤ 1024) :
    load m (1024 * own g m (i, dataSlot (p / 1024)) + p % 1024) n = fileBytes g m i p n := by
  apply List.map_congr_left
  intro k hk
  rw [List.mem_range] at hk
  unfold fileByte
  rw [show (p + k) / 1024 = p / 1024 by omega, show (p + k) % 1024 = p % 1024 + k by omega,
    Nat.add_assoc]

end Bytes

section Read

theorem writableCount_all (p n : Nat) : writableCount (fun _ => true) p n = n := by
  induction n generalizing p with
  | zero => rfl
  | succ n ih => rw [writableCount, if_pos rfl, ih]

variable (hs : Sound g m) (hx : HasBlocks g m i) (hcomp : Complete g m i)
variable (hsize : oiSize m (inodeAddr i) ≤ maxFileSize)
include hs hx hcomp hsize

omit hs hx in
theorem Complete.blockno_ne (hlt : x < oiSize m (inodeAddr i)) :
    own g m (i, dataSlot (x / 1024)) ≠ 0 := by
  apply hcomp
  rw [fileBlocks_of_size hsize]
  omega

theorem readLoop_eq {count fuel amount p : Nat} {bytes : List UInt8} (hle : amount ≤ count)
    (hfuel : count - amount ≤ fuel) (hend : p + (count - amount) ≤ oiSize m (inodeAddr i)) :
    readLoop m (inodeAddr i) count (fun _ => true) fuel amount p bytes =
      ⟨bytes ++ fileBytes g m i p (count - amount), p + (count - amount), count⟩ := by
  induction fuel generalizing amount p bytes with
  | zero =>
    have heq : amount = count := by omega
    subst heq
    simp [readLoop, fileBytes]
  | succ fuel ih =>
    rw [readLoop]
    by_cases hlt : amount < count
    · have hp : p < oiSize m (inodeAddr i) := by omega
      have hp32 : u32 p = p := u32_of_lt (by unfold maxFileSize at hsize; omega)
      have hb := hcomp.blockno_ne hsize hp
      have hsmall := own_small hs.owns (inUse_dataBlocks g m) (i, dataSlot (p / 1024))
      rw [if_pos hlt, hp32]
      simp only [blockno_eq_own hs hx hsize hp, if_neg hb, ospfsBlock_of_lt hsmall,
        writableCount_all]
      have hn := Nat.min_le_left (1024 - p % 1024) (count - amount)
      have hn' := Nat.min_le_right (1024 - p % 1024) (count - amount)
      have hpos : 0 < min (1024 - p % 1024) (count - amount) := by omega
      generalize min (1024 - p % 1024) (count - amount) = n at hn hn' hpos
      rw [load_block (by omega), fileBytes_length, if_neg (by omega),
        ih (by omega) (by omega) (by omega), List.append_assoc, ← fileBytes_add]
      rw [show n + (count - (amount + n)) = count - amount by omega,
        show p + n + (count - (amount + n)) = p + (count - amount) by omega]
    · have heq : amount = count := by omega
      subst heq
      simp [fileBytes]

/-- A read from a position in the file returns the bytes there, up to the end of the file. -/
theorem ospfsRead_eq {count p : Nat} (hp : p ≤ oiSize m (inodeAddr i)) :
    ospfsRead m i count p (fun _ => true) =
      some ⟨fileBytes g m i p (min count (oiSize m (inodeAddr i) - p)),
        p + min count (oiSize m (inodeAddr i) - p),
        (min count (oiSize m (inodeAddr i) - p) : Nat)⟩ := by
  unfold ospfsRead
  rw [hs.inode hx.1]
  have hcount : readCount (oiSize m (inodeAddr i)) count p =
      min count (oiSize m (inodeAddr i) - p) := by
    unfold maxFileSize at hsize
    unfold readCount
    split <;> omega
  simp only [hcount]
  rw [readLoop_eq hs hx hcomp hsize (Nat.zero_le _) (by omega) (by omega)]
  simp

end Read

section WriteBlocks
variable (hs : Sound g m) {P : Nat × Slot → Prop} (hP : ∀ y, P y → y.2.isIndex = false ∧ own g m y ≠ 0)
variable (hout : ∀ a, (∀ y, P y → a / 1024 ≠ own g m y) → m' a = m a)
include hs hP hout

theorem writeBlocks_below {a : Nat} (ha : a < 1024 * g.dataStart) : m' a = m a := by
  apply hout
  intro y hy
  have hbd := own_bounds hs.owns (inUse_dataBlocks g m) (hP y hy).2
  omega

omit hP in
/-- A change inside blocks that hold data leaves all other blocks alone. -/
theorem writeBlocks_other {z : Nat × Slot} {a : Nat} (hz : ¬ P z) (h0 : own g m z ≠ 0)
    (ha : a / 1024 = own g m z) : m' a = m a := by
  apply hout
  intro y hy heq
  rw [ha] at heq
  rw [hs.owns.inj h0 heq] at hz
  exact hz hy

/-- It leaves all pointers alone. -/
theorem own_writeBlocks : own g m' = own g m := by
  apply own_congr hs.owns (inUse_dataBlocks g m)
  · intro j k hj _
    have hr := g.inode_region hj
    exact writeBlocks_below hs hP hout (by omega)
  · intro z a hz hz0 ha
    refine writeBlocks_other hs hout (fun hPz => ?_) hz0 ha
    rw [(hP z hPz).1] at hz
    cases hz

theorem Sound.writeBlocks : Sound g m' := by
  have hge := g.dataStart_ge
  have hn := g.nblocks_le
  have hroom := g.room
  have hbelow := fun a (ha : a < 1024 * g.dataStart) => writeBlocks_below hs hP hout ha
  have hfree : ∀ c, c < 8192 → isFree m' c = isFree m c := fun c hc =>
    isFree_congr hc fun a _ _ => hbelow a (by omega)
  apply hs.of_parts
  · intro a ha
    exact hbelow a (by omega)
  · intro c hc
    rw [hfree c (by unfold Geometry.dataStart at *; omega), hs.reserved c hc]
  · rw [own_writeBlocks hs hP hout]
    apply hs.owns.mono
    rintro c ⟨h1, h2, h3⟩
    exact ⟨h1, h2, by rw [hfree c (by omega)]; exact h3⟩

end WriteBlocks

section WriteBlock
variable (hs : Sound g m) {y : Nat × Slot} (hy : y.2.isIndex = false) (h0 : own g m y ≠ 0)
variable (hout : ∀ a, a / 1024 ≠ own g m y → m' a = m a)
include hs hy h0 hout

theorem own_writeBlock : own g m' = own g m :=
  own_writeBlocks hs (P := (· = y)) (by rintro _ rfl; exact ⟨hy, h0⟩) fun a ha => hout a (ha y rfl)

theorem Sound.writeBlock : Sound g m' :=
  hs.writeBlocks (P := (· = y)) (by rintro _ rfl; exact ⟨hy, h0⟩) fun a ha => hout a (ha y rfl)

omit hy in
theorem writeBlock_inode {j k : Nat} (hj : j < g.ninodes) (hk : k < 64) :
    m' (inodeAddr j + k) = m (inodeAddr j + k) := by
  have hbd := own_bounds hs.owns (inUse_dataBlocks g m) h0
  have hr := g.inode_region hj
  exact hout _ (by omega)

end WriteBlock

section Write

theorem readableBytes_le (buffer : Nat → Option UInt8) (p n : Nat) :
    (readableBytes buffer p n).length ≤ n := by
  induction n generalizing p with
  | zero => exact Nat.le_refl 0
  | succ n ih =>
    rw [readableBytes]
    split
    · exact Nat.zero_le _
    · exact Nat.succ_le_succ (ih (p + 1))

theorem readableBytes_length {buffer : Nat → Option UInt8} {p : Nat}
    (h : ∀ k, k < n → (buffer (p + k)).isSome) : (readableBytes buffer p n).length = n := by
  induction n generalizing p with
  | zero => rfl
  | succ n ih =>
    have hhead := h 0 (by omega)
    rw [Nat.add_zero] at hhead
    obtain ⟨byte, hbyte⟩ := Option.isSome_iff_exists.mp hhead
    rw [readableBytes, hbyte]
    have htail := ih (p := p + 1) fun k hk => by
      rw [show p + 1 + k = p + (k + 1) by omega]
      exact h (k + 1) (by omega)
    simp [htail]

/-- The offsets at which a write from position `p` that left the position at `p'` has stored. -/
def StoredAt (p p' x : Nat) : Prop := ∃ k, k < p' - p ∧ x = u32 (p + k)

/-- What the copying loop of `ospfs_write` leaves when `left` bytes are still to be copied. -/
structure Written (g : Geometry) (i : Nat) (m : Bytes) (p left : Nat) (r : WriteResult) : Prop where
  sound : Sound g r.data
  own_eq : own g r.data = own g m
  inodes : ∀ j k, j < g.ninodes → k < 64 → r.data (inodeAddr j + k) = m (inodeAddr j + k)
  forward : p ≤ r.fpos
  bound : r.fpos ≤ p + left
  first : p < r.fpos → u32 p < oiSize m (inodeAddr i)
  bytes : ∀ x, x / 1024 < fileBlocks m i → ¬ StoredAt p r.fpos x →
    fileByte g r.data i x = fileByte g m i x
  others : ∀ y, y.2.isIndex = false → own g m y ≠ 0 → y.1 ≠ i → ∀ a, a / 1024 = own g m y →
    r.data a = m a

theorem Written.done (hs : Sound g m) {p left : Nat} {ret : Int} :
    Written g i m p left ⟨m, p, ret⟩ := by
  constructor
  · exact hs
  · rfl
  · intro j k _ _
    rfl
  · exact Nat.le_refl p
  · exact Nat.le_add_right p left
  · exact fun h => absurd h (Nat.lt_irrefl p)
  · intro x _ _
    rfl
  · intro y _ _ _ a _
    rfl

theorem writeLoop_written {count p : Nat} {buffer : Nat → Option UInt8} (fuel amount : Nat)
    (hs : Sound g m) (hx : HasBlocks g m i) (hcomp : Complete g m i)
    (hsize : oiSize m (inodeAddr i) ≤ maxFileSize)
    (hbuf : ∀ k, k < count → (buffer k).isSome) :
    Written g i m p (count - amount) (writeLoop (inodeAddr i) count buffer fuel m amount p) := by
  induction fuel generalizing m amount p with
  | zero => exact Written.done hs
  | succ fuel ih =>
    rw [writeLoop]
    by_cases hlt : amount < count
    swap
    · rw [if_neg hlt]
      exact Written.done hs
    rw [if_pos hlt]
    by_cases hblock : ospfsInodeBlockno m (inodeAddr i) (u32 p) = 0
    · simp only [if_pos hblock]
      exact Written.done hs
    have hp : u32 p < oiSize m (inodeAddr i) := by
      by_contra hge
      apply hblock
      unfold ospfsInodeBlockno
      simp only [if_pos (Or.inl (by omega) :
        u32 p ≥ oiSize m (inodeAddr i) ∨ oiFtype m (inodeAddr i) = FTYPE_SYMLINK)]
    have hmod : u32 p % 1024 = p % 1024 := by unfold u32; omega
    have hb := hcomp.blockno_ne hsize hp
    have hsmall := own_small hs.owns (inUse_dataBlocks g m) (i, dataSlot (u32 p / 1024))
    have hn := Nat.min_le_left (1024 - p % 1024) (count - amount)
    have hn' := Nat.min_le_right (1024 - p % 1024) (count - amount)
    have hgot : (readableBytes buffer amount (min (1024 - p % 1024) (count - amount))).length =
        min (1024 - p % 1024) (count - amount) :=
      readableBytes_length fun k hk => hbuf _ (by omega)
    simp only [if_neg hblock, copyFromUser, hgot, Nat.sub_self, List.replicate_zero,
      List.append_nil, ne_eq, not_true_eq_false, if_false]
    rw [blockno_eq_own hs hx hsize hp, ospfsBlock_of_lt hsmall]
    generalize min (1024 - p % 1024) (count - amount) = n at hn hn' hgot
    generalize hbytes : readableBytes buffer amount n = bytes at hgot
    generalize hm₁ : store m (1024 * own g m (i, dataSlot (u32 p / 1024)) + p % 1024) bytes = m₁
    have hdata := dataSlot_isIndex (u32 p / 1024)
    have hout : ∀ a, a / 1024 ≠ own g m (i, dataSlot (u32 p / 1024)) → m₁ a = m a := by
      intro a ha
      rw [← hm₁]
      exact store_outside (by omega)
    have hown := own_writeBlock hs (y := (i, dataSlot (u32 p / 1024))) hdata hb hout
    have hinode : ∀ j k, j < g.ninodes → k < 64 →
        m₁ (inodeAddr j + k) = m (inodeAddr j + k) := fun j k hj hk =>
      writeBlock_inode hs (y := (i, dataSlot (u32 p / 1024))) hb hout hj hk
    have hfields : FieldsKept g m m₁ := fun j k hj hk => hinode j k hj (by omega)
    have hx₁ : HasBlocks g m₁ i := ⟨hx.1, by
      have hft : oiFtype m₁ (inodeAddr i) = oiFtype m (inodeAddr i) := rd32_congr fun k hk => by
        rw [Nat.add_assoc]
        exact hinode i _ hx.1 (by omega)
      rw [hft]
      exact hx.2⟩
    have hblocks := hfields.fileBlocks hx.1
    have hcomp₁ : Complete g m₁ i := fun k hk => by
      rw [hown]
      exact hcomp k (by omega)
    have hrec := ih (m := m₁) (p := p + n) (amount + n)
      (hs.writeBlock (y := (i, dataSlot (u32 p / 1024))) hdata hb hout) hx₁ hcomp₁
      (by rw [hfields.size hx.1]; exact hsize)
    constructor
    · exact hrec.sound
    · rw [hrec.own_eq, hown]
    · intro j k hj hk
      rw [hrec.inodes j k hj hk, hinode j k hj hk]
    · have := hrec.forward
      omega
    · have := hrec.bound
      omega
    · exact fun _ => hp
    · intro x hxb hst
      have hforward := hrec.forward
      rw [hrec.bytes x (by omega) ?_]
      · -- the byte lies outside the part just copied
        have hx0 : ¬ (u32 p ≤ x ∧ x < u32 p + n) := by
          rintro ⟨h1, h2⟩
          apply hst
          refine ⟨x - u32 p, by omega, ?_⟩
          unfold maxFileSize at hsize
          unfold u32 at *
          omega
        unfold fileByte
        rw [hown, ← hm₁]
        apply store_outside
        by_cases hxp : x / 1024 = u32 p / 1024
        · rw [hxp]
          omega
        · have hxn := hcomp (x / 1024) hxb
          have hbound := fileBlocks_le hsize
          have hne : own g m (i, dataSlot (x / 1024)) ≠ own g m (i, dataSlot (u32 p / 1024)) := by
            intro heq
            have hslot := hs.owns.inj hxn heq
            simp only [Prod.mk.injEq, true_and] at hslot
            exact hxp (dataSlot_inj (by omega) (by unfold maxFileSize at hsize; omega) hslot)
          omega
      · rintro ⟨k, hk, hxk⟩
        exact hst ⟨n + k, by omega, by rw [hxk, Nat.add_assoc]⟩
    · intro y hy hy0 hyi a ha
      rw [hrec.others y hy (by rw [hown]; exact hy0) hyi a (by rw [hown]; exact ha)]
      apply hout
      rw [ha]
      intro heq
      exact hyi (by rw [hs.owns.inj hy0 heq])

end Write

end CS111.Ospfs
