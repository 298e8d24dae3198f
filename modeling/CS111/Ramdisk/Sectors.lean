import Mathlib.Data.List.Induction
import CS111.Lib.Words

/-!
# Requests to the ramdisk

`osprd_process_request` over a queue of requests, next to an array of sectors. The code adds
`req->sector` to a byte pointer, so requests that begin at different sectors share bytes.
-/

namespace CS111.Ramdisk

open Memory

set_option autoImplicit false

section Model

def SECTOR_SIZE : Nat := 512

def READ : Nat := 0
def WRITE : Nat := 1

/-- The buffer of a request holds the sectors of the request, and it lies in the memory of a 32-bit
machine: the size of the copy does not wrap. -/
structure BlockRequest where
  fsRequest : Bool
  dataDir : Nat
  sector : Nat
  currentNrSectors : Nat
  buffer : List UInt8
  size : buffer.length = currentNrSectors * SECTOR_SIZE
  inMemory : currentNrSectors * SECTOR_SIZE < 4294967296

structure Processed where
  data : Bytes
  buffer : List UInt8
  uptodate : Nat

/-- The size that `setup_device` asks of `vmalloc`: `nsectors * SECTOR_SIZE` is a product of `int`s,
so it wraps. -/
def dataSize (nsectors : Int) : Nat := ofInt32 (nsectors * SECTOR_SIZE)

/-- The bytes of a `memcpy` lie in the array at `data`. -/
def InData (nsectors : Int) (a n : Nat) : Prop := n = 0 ∨ a + n ≤ dataSize nsectors

instance (nsectors : Int) (a n : Nat) : Decidable (InData nsectors a n) :=
  inferInstanceAs (Decidable (_ ∨ _))

/-- A `memcpy` that leaves the array at `data` has no result. -/
def osprdProcessRequest (nsectors : Int) (data : Bytes) (req : BlockRequest) : Option Processed :=
  let n := req.currentNrSectors * SECTOR_SIZE
  if req.fsRequest = false then some ⟨data, req.buffer, 0⟩
  else if req.dataDir = READ then
    if InData nsectors req.sector n then some ⟨data, load data req.sector n, 1⟩ else none
  else if req.dataDir = WRITE then
    if InData nsectors req.sector n then
      some ⟨store data req.sector req.buffer, req.buffer, 1⟩
    else none
  else some ⟨data, req.buffer, 0⟩

/-- The data array after the requests that are in the queue. -/
def osprdProcessRequestQueue (nsectors : Int) (data : Bytes) : List BlockRequest → Option Bytes
  | [] => some data
  | req :: reqs =>
    match osprdProcessRequest nsectors data req with
    | none => none
    | some r => osprdProcessRequestQueue nsectors r.data reqs

/-- The data array that `setup_device` leaves. -/
def setupData : Bytes := fun _ => 0

end Model

section Sectors

/-- What a ramdisk is for: each sector has `SECTOR_SIZE` bytes of its own. -/
abbrev Sectors := Nat → Nat → UInt8

def Sectors.write (s : Sectors) (sector count : Nat) (buffer : List UInt8) : Sectors :=
  fun k x =>
    if sector ≤ k ∧ k < sector + count then buffer.getD ((k - sector) * SECTOR_SIZE + x) 0
    else s k x

def Sectors.read (s : Sectors) (sector count : Nat) : List UInt8 :=
  (List.range (count * SECTOR_SIZE)).map fun x => s (sector + x / SECTOR_SIZE) (x % SECTOR_SIZE)

def Sectors.apply (s : Sectors) (req : BlockRequest) : Sectors :=
  if req.dataDir = WRITE then s.write req.sector req.currentNrSectors req.buffer else s

/-- The sectors after some requests, all zero before the first. -/
def sectorsAfter (reqs : List BlockRequest) : Sectors := reqs.foldl Sectors.apply fun _ _ => 0

/-- Every read returns the sectors as the requests before it have left them. -/
def ArrayOfSectors (nsectors : Int) (reqs : List BlockRequest) : Prop :=
  ∀ earlier req later, reqs = earlier ++ req :: later → req.dataDir = READ →
    ∃ data r, osprdProcessRequestQueue nsectors setupData earlier = some data ∧
      osprdProcessRequest nsectors data req = some r ∧
      r.buffer = (sectorsAfter earlier).read req.sector req.currentNrSectors

def Handled (nsectors : Int) (req : BlockRequest) : Prop :=
  req.fsRequest = true ∧ (req.dataDir = READ ∨ req.dataDir = WRITE) ∧
    (req.sector : Int) + req.currentNrSectors ≤ nsectors

end Sectors

section Extents

/-- A request without its data. -/
structure Extent where
  write : Bool
  sector : Nat
  count : Nat
  inMemory : count * SECTOR_SIZE < 4294967296
  deriving Repr, DecidableEq

def BlockRequest.extent (req : BlockRequest) : Extent :=
  ⟨req.dataDir == WRITE, req.sector, req.currentNrSectors, req.inMemory⟩

/-- A write that stores at the address or names the sector. -/
def Extent.touches (e : Extent) (address sector : Nat) : Bool :=
  e.write && (decide (e.sector ≤ address ∧ address < e.sector + e.count * SECTOR_SIZE) ||
    decide (e.sector ≤ sector ∧ sector < e.sector + e.count))

/-- The last write that stores at the address or names the sector of a byte that is read, if
there is one, begins at the sector at which the read begins. -/
def SameStart (extents : List Extent) : Prop :=
  ∀ earlier e later, extents = earlier ++ e :: later → e.write = false →
    ∀ x, x < e.count * SECTOR_SIZE → ∀ w,
      earlier.reverse.find? (·.touches (e.sector + x) (e.sector + x / SECTOR_SIZE)) = some w →
        w.sector = e.sector

/-- The copies of the reads, and of the requests before them, lie in the array at `data`. -/
def ReadsInData (nsectors : Int) (extents : List Extent) : Prop :=
  ∀ earlier e later, extents = earlier ++ e :: later → e.write = false →
    ∀ w ∈ earlier ++ [e], InData nsectors w.sector (w.count * SECTOR_SIZE)

end Extents

section Step
variable {nsectors : Int} {m data : Bytes} {req : BlockRequest} {reqs : List BlockRequest}

/-- What one request does to the data array. -/
def step (data : Bytes) (req : BlockRequest) : Bytes :=
  if req.dataDir = WRITE then store data req.sector req.buffer else data

def BlockRequest.InData (nsectors : Int) (req : BlockRequest) : Prop :=
  Ramdisk.InData nsectors req.sector (req.currentNrSectors * SECTOR_SIZE)

theorem Handled.read (h : Handled nsectors req) (hin : req.InData nsectors)
    (hdir : req.dataDir = READ) :
    osprdProcessRequest nsectors m req =
      some ⟨m, load m req.sector (req.currentNrSectors * SECTOR_SIZE), 1⟩ := by
  unfold BlockRequest.InData at hin
  simp only [osprdProcessRequest, h.1, hdir, if_pos hin, if_true, Bool.true_eq_false, if_false]

theorem Handled.write (h : Handled nsectors req) (hin : req.InData nsectors)
    (hdir : req.dataDir = WRITE) :
    osprdProcessRequest nsectors m req =
      some ⟨store m req.sector req.buffer, req.buffer, 1⟩ := by
  have hne : ¬ WRITE = READ := by decide
  unfold BlockRequest.InData at hin
  simp only [osprdProcessRequest, h.1, hdir, if_pos hin, if_true, Bool.true_eq_false, if_false,
    hne]

theorem Handled.outside (h : Handled nsectors req) (hout : ¬ req.InData nsectors) :
    osprdProcessRequest nsectors m req = none := by
  have hne : ¬ WRITE = READ := by decide
  unfold BlockRequest.InData at hout
  rcases h.2.1 with hdir | hdir
  · simp only [osprdProcessRequest, h.1, hdir, if_neg hout, if_true, Bool.true_eq_false, if_false]
  · simp only [osprdProcessRequest, h.1, hdir, if_neg hout, if_true, Bool.true_eq_false, if_false,
      hne]

theorem Handled.step (h : Handled nsectors req) (hin : req.InData nsectors) :
    ∃ r, osprdProcessRequest nsectors m req = some r ∧ r.data = step m req := by
  rcases h.2.1 with hdir | hdir
  · refine ⟨_, h.read hin hdir, ?_⟩
    rw [Ramdisk.step, hdir]
    rfl
  · refine ⟨_, h.write hin hdir, ?_⟩
    rw [Ramdisk.step, if_pos hdir]

/-- The queue is worked off if and only if all copies lie in the array. -/
theorem queue_eq_some_iff (h : ∀ req ∈ reqs, Handled nsectors req) :
    osprdProcessRequestQueue nsectors m reqs = some data ↔
      (∀ req ∈ reqs, req.InData nsectors) ∧ data = reqs.foldl step m := by
  induction reqs generalizing m with
  | nil =>
    rw [osprdProcessRequestQueue, Option.some.injEq, List.foldl_nil]
    exact ⟨fun hm => ⟨fun q hq => absurd hq List.not_mem_nil, hm.symm⟩, fun hm => hm.2.symm⟩
  | cons req reqs ih =>
    rw [List.forall_mem_cons, List.foldl_cons, and_assoc]
    by_cases hin : req.InData nsectors
    · obtain ⟨r, hr, hdata⟩ := (h req List.mem_cons_self).step hin (m := m)
      rw [osprdProcessRequestQueue, hr, ← hdata, and_iff_right hin]
      exact ih fun q hq => h q (List.mem_cons_of_mem _ hq)
    · rw [osprdProcessRequestQueue, (h req List.mem_cons_self).outside hin]
      exact ⟨fun hnone => absurd hnone (by simp), fun hall => absurd hall.1 hin⟩

theorem touches_write {a k : Nat} (h : req.extent.touches a k = true) : req.dataDir = WRITE := by
  have hw := (Bool.and_eq_true_iff.mp h).1
  exact beq_iff_eq.mp hw

/-- A request that touches neither the address nor the sector changes neither. -/
theorem untouched {a k y : Nat} {s : Sectors} (h : req.extent.touches a k = false) :
    step m req a = m a ∧ s.apply req k y = s k y := by
  by_cases hdir : req.dataDir = WRITE
  · have hnot : ¬ (req.sector ≤ a ∧ a < req.sector + req.currentNrSectors * SECTOR_SIZE) ∧
        ¬ (req.sector ≤ k ∧ k < req.sector + req.currentNrSectors) := by
      simpa [Extent.touches, BlockRequest.extent, hdir] using h
    constructor
    · rw [step, if_pos hdir]
      apply store_outside
      rw [req.size]
      omega
    · rw [Sectors.apply, if_pos hdir, Sectors.write, if_neg hnot.2]
  · rw [step, Sectors.apply, if_neg hdir, if_neg hdir]
    exact ⟨rfl, rfl⟩

/-- A write that begins where the read begins puts the same byte into the array of sectors. -/
theorem same_start_agrees {x : Nat} {s : Sectors}
    (h : req.extent.touches (req.sector + x) (req.sector + x / SECTOR_SIZE) = true) :
    step m req (req.sector + x) =
      s.apply req (req.sector + x / SECTOR_SIZE) (x % SECTOR_SIZE) := by
  have hdir := touches_write h
  have hx : x < req.buffer.length := by
    have htouch : x < req.currentNrSectors * SECTOR_SIZE ∨ x / SECTOR_SIZE < req.currentNrSectors := by
      simpa [Extent.touches, BlockRequest.extent, hdir] using h
    rw [req.size]
    unfold SECTOR_SIZE at *
    omega
  have hk : x / SECTOR_SIZE < req.currentNrSectors := by
    have hsize := req.size
    unfold SECTOR_SIZE at *
    omega
  rw [step, if_pos hdir, store_inside hx, Sectors.apply, if_pos hdir, Sectors.write,
    if_pos ⟨Nat.le_add_right _ _, Nat.add_lt_add_left hk _⟩, Nat.add_sub_cancel_left,
    Nat.div_add_mod', List.getD_eq_getElem _ _ hx]

end Step

section Agree
variable {nsectors : Int} {reqs : List BlockRequest} {extents : List Extent}

/-- The last toucher begins where the read begins, so memory and sectors hold the same byte. -/
theorem bytes_agree {sector x : Nat}
    (h : ∀ w, (reqs.map BlockRequest.extent).reverse.find?
      (·.touches (sector + x) (sector + x / SECTOR_SIZE)) = some w → w.sector = sector) :
    reqs.foldl step setupData (sector + x) =
      sectorsAfter reqs (sector + x / SECTOR_SIZE) (x % SECTOR_SIZE) := by
  induction reqs using List.reverseRecOn with
  | nil => rfl
  | append_singleton reqs req ih =>
    rw [List.map_append, List.map_singleton, List.reverse_append, List.reverse_singleton,
      List.singleton_append, List.find?_cons] at h
    rw [sectorsAfter, List.foldl_concat, List.foldl_concat]
    cases htouch : req.extent.touches (sector + x) (sector + x / SECTOR_SIZE) with
    | true =>
      rw [htouch] at h
      have hstart : req.sector = sector := h _ rfl
      subst hstart
      exact same_start_agrees htouch
    | false =>
      rw [htouch] at h
      obtain ⟨h1, h2⟩ := untouched (m := reqs.foldl step setupData) (y := x % SECTOR_SIZE)
        (s := sectorsAfter reqs) htouch
      rw [h1]
      exact (ih h).trans h2.symm

theorem arrayOfSectors_of_sameStart (h : ∀ req ∈ reqs, Handled nsectors req)
    (hstart : SameStart (reqs.map BlockRequest.extent))
    (hdata : ReadsInData nsectors (reqs.map BlockRequest.extent)) :
    ArrayOfSectors nsectors reqs := by
  rintro earlier req later rfl hdir
  have hreq : Handled nsectors req := h req (by simp)
  have hread : req.extent.write = false := by
    rw [BlockRequest.extent, hdir]
    rfl
  have hsplit : (earlier ++ req :: later).map BlockRequest.extent =
      earlier.map BlockRequest.extent ++ req.extent :: later.map BlockRequest.extent := by simp
  have hin := hdata _ _ _ hsplit hread
  have hearlier : ∀ q ∈ earlier, q.InData nsectors := fun q hq =>
    hin q.extent (List.mem_append_left _ (List.mem_map_of_mem hq))
  have hlast : req.InData nsectors := hin req.extent (by simp)
  have hqueue := (queue_eq_some_iff (m := setupData) fun q hq => h q (by simp [hq])).mpr
    ⟨hearlier, rfl⟩
  refine ⟨_, _, hqueue, hreq.read hlast hdir, ?_⟩
  apply List.map_congr_left
  intro x hx
  apply bytes_agree
  exact hstart _ _ _ hsplit hread x (List.mem_range.mp hx)

/-- What the array of sectors asks of the copies up to a read. -/
theorem ArrayOfSectors.inData {earlier later : List BlockRequest} {req : BlockRequest}
    (h : ArrayOfSectors nsectors (earlier ++ req :: later))
    (hreqs : ∀ q ∈ earlier ++ req :: later, Handled nsectors q) (hdir : req.dataDir = READ) :
    ∀ q ∈ earlier ++ [req], q.InData nsectors := by
  obtain ⟨data, r, hqueue, hr, -⟩ := h earlier req later rfl hdir
  have hearlier := (queue_eq_some_iff fun q hq => hreqs q (List.mem_append_left _ hq)).mp hqueue
  have hlast : req.InData nsectors := by
    by_contra hout
    rw [(hreqs req (by simp)).outside hout] at hr
    cases hr
  intro q hq
  rcases List.mem_append.mp hq with hq | hq
  · exact hearlier.1 q hq
  · rw [List.mem_singleton.mp hq]
    exact hlast

/-- What the array of sectors asks of one byte of a read. -/
theorem ArrayOfSectors.byte {earlier later : List BlockRequest} {req : BlockRequest} {x : Nat}
    (h : ArrayOfSectors nsectors (earlier ++ req :: later))
    (hreqs : ∀ q ∈ earlier ++ req :: later, Handled nsectors q) (hdir : req.dataDir = READ)
    (hx : x < req.currentNrSectors * SECTOR_SIZE) :
    earlier.foldl step setupData (req.sector + x) =
      sectorsAfter earlier (req.sector + x / SECTOR_SIZE) (x % SECTOR_SIZE) := by
  have hlast : req.InData nsectors := h.inData hreqs hdir req (by simp)
  obtain ⟨data, r, hqueue, hr, hbuffer⟩ := h earlier req later rfl hdir
  rw [queue_eq_some_iff fun q hq => hreqs q (List.mem_append_left _ hq)] at hqueue
  rw [(hreqs req (by simp)).read hlast hdir, Option.some.injEq] at hr
  obtain ⟨-, rfl⟩ := hqueue
  subst hr
  exact List.map_inj_left.mp hbuffer x (List.mem_range.mpr hx)

end Agree

section Distinguish
variable {nsectors : Int} {e w : Extent}

/-- A request for an extent with the given data. -/
def Extent.request (e : Extent) (contents : Nat → UInt8) : BlockRequest where
  fsRequest := true
  dataDir := if e.write then WRITE else READ
  sector := e.sector
  currentNrSectors := e.count
  buffer := (List.range (e.count * SECTOR_SIZE)).map contents
  size := by simp
  inMemory := e.inMemory

@[simp] theorem extent_request (e : Extent) (contents : Nat → UInt8) :
    (e.request contents).extent = e := by
  obtain ⟨write, sector, count, hcount⟩ := e
  cases write <;> rfl

theorem handled_request (h : (e.sector : Int) + e.count ≤ nsectors) (contents : Nat → UInt8) :
    Handled nsectors (e.request contents) := by
  refine ⟨rfl, ?_, h⟩
  cases hw : e.write
  · exact .inl (by simp [Extent.request, hw])
  · exact .inr (by simp [Extent.request, hw])

/-- All requests carry zeros. -/
def zeros (es : List Extent) : List BlockRequest := es.map (·.request fun _ => 0)

theorem step_request (hw : e.write = true) (data : Bytes) (contents : Nat → UInt8) (a : Nat) :
    step data (e.request contents) a =
      if e.sector ≤ a ∧ a < e.sector + e.count * SECTOR_SIZE then contents (a - e.sector)
      else data a := by
  have hdir : (e.request contents).dataDir = WRITE := by simp [Extent.request, hw]
  rw [step, if_pos hdir]
  have hlen := (e.request contents).size
  split
  · next hin =>
    obtain ⟨k, rfl⟩ := Nat.exists_eq_add_of_le hin.1
    have hk : k < (e.request contents).buffer.length := by
      rw [hlen]
      exact Nat.lt_of_add_lt_add_left hin.2
    refine (store_inside hk).trans ?_
    simp [Extent.request]
  · next hout =>
    apply store_outside
    rw [hlen]
    change a < e.sector ∨ e.sector + e.count * SECTOR_SIZE ≤ a
    omega

theorem apply_request (hw : e.write = true) (s : Sectors) (contents : Nat → UInt8) (k : Nat)
    {y : Nat} (hy : y < SECTOR_SIZE) :
    s.apply (e.request contents) k y =
      if e.sector ≤ k ∧ k < e.sector + e.count then contents ((k - e.sector) * SECTOR_SIZE + y)
      else s k y := by
  have hdir : (e.request contents).dataDir = WRITE := by simp [Extent.request, hw]
  rw [Sectors.apply, if_pos hdir, Sectors.write]
  change (if e.sector ≤ k ∧ k < e.sector + e.count then _ else _) = _
  split
  · next hin =>
    have hlt : (k - e.sector) * SECTOR_SIZE + y < e.count * SECTOR_SIZE := by
      have hk : k - e.sector + 1 ≤ e.count := by omega
      have hmul := Nat.mul_le_mul_right SECTOR_SIZE hk
      rw [Nat.add_mul, Nat.one_mul] at hmul
      omega
    simp [Extent.request, List.getD_eq_getElem?_getD, hlt]
  · rfl

theorem not_write (hw : e.write = false) (data : Bytes) (s : Sectors) (contents : Nat → UInt8) :
    step data (e.request contents) = data ∧ s.apply (e.request contents) = s := by
  have hdir : ¬ (e.request contents).dataDir = WRITE := by simp [Extent.request, hw, READ, WRITE]
  rw [step, Sectors.apply, if_neg hdir, if_neg hdir]
  exact ⟨rfl, rfl⟩

theorem after_zeros (es : List Extent) (a k : Nat) {y : Nat} (hy : y < SECTOR_SIZE) :
    (zeros es).foldl step setupData a = 0 ∧ sectorsAfter (zeros es) k y = 0 := by
  induction es using List.reverseRecOn with
  | nil => exact ⟨rfl, rfl⟩
  | append_singleton es e ih =>
    rw [zeros, List.map_append, List.map_singleton, sectorsAfter, List.foldl_concat,
      List.foldl_concat]
    cases hw : e.write with
    | true =>
      rw [step_request hw, apply_request hw _ _ _ hy, ite_eq_left_iff, ite_eq_left_iff]
      exact ⟨fun _ => ih.1, fun _ => ih.2⟩
    | false =>
      obtain ⟨h1, h2⟩ := not_write hw ((zeros es).foldl step setupData)
        (sectorsAfter (zeros es)) fun _ => 0
      exact ⟨(congrFun h1 a).trans ih.1, (congrFun (congrFun h2 k) y).trans ih.2⟩

theorem after_untouched {es : List Extent} {a k y : Nat} {m : Bytes} {s : Sectors}
    (h : ∀ e ∈ es, e.touches a k = false) :
    (zeros es).foldl step m a = m a ∧ (zeros es).foldl Sectors.apply s k y = s k y := by
  induction es generalizing m s with
  | nil => exact ⟨rfl, rfl⟩
  | cons e es ih =>
    obtain ⟨h1, h2⟩ := ih (m := step m (e.request fun _ => 0))
      (s := s.apply (e.request fun _ => 0)) fun e' he' => h e' (List.mem_cons_of_mem _ he')
    have htouch : (e.request fun _ => 0).extent.touches a k = false := by
      rw [extent_request]
      exact h e List.mem_cons_self
    obtain ⟨h3, h4⟩ := untouched (m := m) (s := s) (y := y) htouch
    exact ⟨h1.trans h3, h2.trans h4⟩

/-- A write that begins elsewhere can be given data that memory and sectors show differently. -/
theorem other_start_differs {sector x : Nat} (hne : w.sector ≠ sector)
    (htouch : w.touches (sector + x) (sector + x / SECTOR_SIZE) = true) :
    ∃ contents : Nat → UInt8, ∀ (data : Bytes) (s : Sectors), data (sector + x) = 0 →
      s (sector + x / SECTOR_SIZE) (x % SECTOR_SIZE) = 0 →
      step data (w.request contents) (sector + x) ≠
        s.apply (w.request contents) (sector + x / SECTOR_SIZE) (x % SECTOR_SIZE) := by
  have hw : w.write = true := (Bool.and_eq_true_iff.mp htouch).1
  have hy : x % SECTOR_SIZE < SECTOR_SIZE := Nat.mod_lt _ (by decide)
  have hplaces : w.sector ≤ sector + x → w.sector ≤ sector + x / SECTOR_SIZE →
      sector + x - w.sector ≠
        (sector + x / SECTOR_SIZE - w.sector) * SECTOR_SIZE + x % SECTOR_SIZE := by
    unfold SECTOR_SIZE
    omega
  by_cases hbyte : w.sector ≤ sector + x ∧ sector + x < w.sector + w.count * SECTOR_SIZE
  · refine ⟨fun j => if j = sector + x - w.sector then 1 else 0, fun data s _ hs => ?_⟩
    rw [step_request hw, apply_request hw _ _ _ hy, if_pos hbyte, if_pos rfl]
    split
    · next hin =>
      rw [if_neg (hplaces hbyte.1 hin.1).symm]
      decide
    · rw [hs]
      decide
  · have hin : w.sector ≤ sector + x / SECTOR_SIZE ∧
        sector + x / SECTOR_SIZE < w.sector + w.count := by
      simpa [Extent.touches, hw, hbyte] using htouch
    refine ⟨fun j => if j = (sector + x / SECTOR_SIZE - w.sector) * SECTOR_SIZE + x % SECTOR_SIZE
      then 1 else 0, fun data s hd _ => ?_⟩
    rw [step_request hw, apply_request hw _ _ _ hy, if_neg hbyte, if_pos hin, if_pos rfl, hd]
    decide

@[simp] theorem extents_zeros (es : List Extent) : (zeros es).map BlockRequest.extent = es := by
  simp [zeros, Function.comp_def]

theorem handled_zeros {es : List Extent}
    (h : ∀ e' ∈ es, (e'.sector : Int) + e'.count ≤ nsectors) :
    ∀ req ∈ zeros es, Handled nsectors req := by
  intro req hreq
  obtain ⟨e', he', rfl⟩ := List.mem_map.mp hreq
  exact handled_request (h e' he') _

theorem sameStart_of_arrayOfSectors {extents : List Extent}
    (hin : ∀ e ∈ extents, (e.sector : Int) + e.count ≤ nsectors)
    (h : ∀ reqs : List BlockRequest, reqs.map BlockRequest.extent = extents →
      (∀ req ∈ reqs, Handled nsectors req) → ArrayOfSectors nsectors reqs) : SameStart extents := by
  rintro earlier e later rfl hread x hx w hfind
  by_contra hne
  obtain ⟨htouch, post, pre, hsplit, hpost⟩ := List.find?_eq_some_iff_append.mp hfind
  have hearlier : earlier = pre.reverse ++ w :: post.reverse := by
    have hrev := congrArg List.reverse hsplit
    simpa using hrev
  subst hearlier
  obtain ⟨contents, hdiffer⟩ := other_start_differs hne htouch
  let before := zeros pre.reverse ++ w.request contents :: zeros post.reverse
  have hhandled : ∀ req ∈ before ++ e.request (fun _ => 0) :: zeros later,
      Handled nsectors req := by
    intro req hreq
    simp only [before, List.append_assoc, List.mem_append, List.mem_cons, List.cons_append] at hreq
    rcases hreq with hreq | rfl | hreq | rfl | hreq
    · exact handled_zeros (fun e' he' => hin e' (by simp at he'; simp [he'])) _ hreq
    · exact handled_request (hin w (by simp)) _
    · exact handled_zeros (fun e' he' => hin e' (by simp at he'; simp [he'])) _ hreq
    · exact handled_request (hin e (by simp)) _
    · exact handled_zeros (fun e' he' => hin e' (by simp [he'])) _ hreq
  have hdir : (e.request fun _ => 0).dataDir = READ := by simp [Extent.request, hread]
  have harray := h (before ++ e.request (fun _ => 0) :: zeros later) (by simp [before]) hhandled
  have hsame : before.foldl step setupData (e.sector + x) =
      sectorsAfter before (e.sector + x / SECTOR_SIZE) (x % SECTOR_SIZE) :=
    harray.byte hhandled hdir hx
  obtain ⟨hz1, hz2⟩ := after_zeros pre.reverse (e.sector + x) (e.sector + x / SECTOR_SIZE)
    (Nat.mod_lt x (by decide : 0 < SECTOR_SIZE))
  apply hdiffer _ _ hz1 hz2
  have hlate : ∀ e' ∈ post.reverse, e'.touches (e.sector + x) (e.sector + x / SECTOR_SIZE) = false :=
    fun e' he' => by simpa using hpost e' (List.mem_reverse.mp he')
  obtain ⟨h1, h2⟩ := after_untouched (y := x % SECTOR_SIZE)
    (m := step ((zeros pre.reverse).foldl step setupData) (w.request contents))
    (s := (sectorsAfter (zeros pre.reverse)).apply (w.request contents)) hlate
  rw [← h1, ← h2]
  simpa only [before, sectorsAfter, List.foldl_append, List.foldl_cons] using hsame

theorem readsInData_of_arrayOfSectors {extents : List Extent}
    (hin : ∀ e ∈ extents, (e.sector : Int) + e.count ≤ nsectors)
    (h : ∀ reqs : List BlockRequest, reqs.map BlockRequest.extent = extents →
      (∀ req ∈ reqs, Handled nsectors req) → ArrayOfSectors nsectors reqs) :
    ReadsInData nsectors extents := by
  rintro earlier e later rfl hread w hw
  have hsplit : zeros (earlier ++ e :: later) =
      zeros earlier ++ e.request (fun _ => 0) :: zeros later := by simp [zeros]
  have hhandled := handled_zeros hin
  have harray := h _ (extents_zeros _) hhandled
  rw [hsplit] at harray hhandled
  have hdir : (e.request fun _ => 0).dataDir = READ := by simp [Extent.request, hread]
  have hmem : w.request (fun _ => 0) ∈ zeros earlier ++ [e.request fun _ => 0] := by
    rcases List.mem_append.mp hw with hw | hw
    · exact List.mem_append_left _ (List.mem_map_of_mem hw)
    · rw [List.mem_singleton.mp hw]
      exact List.mem_append_right _ (List.mem_singleton_self _)
  have hdata : (w.request fun _ => 0).InData nsectors := harray.inData hhandled hdir _ hmem
  unfold BlockRequest.InData at hdata
  exact hdata

end Distinguish

section Size
variable {nsectors : Int}

theorem dataSize_eq (h0 : 0 ≤ nsectors) (h : nsectors < 8388608) :
    (dataSize nsectors : Int) = nsectors * SECTOR_SIZE := by
  unfold dataSize ofInt32 SECTOR_SIZE
  omega

/-- Below `2 ^ 23` the size is that of all sectors, and no copy leaves the array. -/
theorem readsInData_of_lt {extents : List Extent} (h : nsectors < 8388608)
    (hin : ∀ e ∈ extents, (e.sector : Int) + e.count ≤ nsectors) : ReadsInData nsectors extents := by
  rintro earlier e later rfl - w hw
  have hplace : (w.sector : Int) + w.count ≤ nsectors := by
    apply hin
    rcases List.mem_append.mp hw with hw | hw
    · exact List.mem_append_left _ hw
    · simp [List.mem_singleton.mp hw]
  have hsize := dataSize_eq (by omega) h
  right
  unfold SECTOR_SIZE at *
  omega

example : dataSize 8388609 = 512 := by decide

end Size

/-- Requests with these places and sizes read back what was written to the sectors, whatever
their data, if and only if no read meets the bytes of a write that begins at another sector, and
the copies stay in the array. -/
theorem array_of_sectors_iff {nsectors : Int} {extents : List Extent}
    (hin : ∀ e ∈ extents, (e.sector : Int) + e.count ≤ nsectors) :
    (∀ reqs : List BlockRequest, reqs.map BlockRequest.extent = extents →
      (∀ req ∈ reqs, Handled nsectors req) → ArrayOfSectors nsectors reqs) ↔
      SameStart extents ∧ ReadsInData nsectors extents := by
  constructor
  · exact fun h => ⟨sameStart_of_arrayOfSectors hin h, readsInData_of_arrayOfSectors hin h⟩
  · rintro ⟨hstart, hdata⟩ reqs rfl hreqs
    exact arrayOfSectors_of_sameStart hreqs hstart hdata

theorem array_of_sectors_iff_write_read :
    (∀ reqs : List BlockRequest,
      reqs.map BlockRequest.extent = [⟨true, 3, 2, by decide⟩, ⟨false, 3, 1, by decide⟩] →
        (∀ req ∈ reqs, Handled 32 req) → ArrayOfSectors 32 reqs) ↔
      SameStart [⟨true, 3, 2, by decide⟩, ⟨false, 3, 1, by decide⟩] ∧
        ReadsInData 32 [⟨true, 3, 2, by decide⟩, ⟨false, 3, 1, by decide⟩] :=
  array_of_sectors_iff (by decide)

/-- A read of sector 1 after a write of sector 0 shows bytes of sector 0. -/
theorem read_shows_other_sector :
    ¬ ∀ (nsectors : Int) (reqs : List BlockRequest), (∀ req ∈ reqs, Handled nsectors req) →
      ArrayOfSectors nsectors reqs := by
  intro hall
  let first : Extent := ⟨true, 0, 1, by decide⟩
  let second : Extent := ⟨false, 1, 1, by decide⟩
  have hhandled : ∀ req ∈ [first.request fun _ => 1, second.request fun _ => 0],
      Handled 32 req := by
    intro req hreq
    simp only [List.mem_cons, List.not_mem_nil, or_false] at hreq
    rcases hreq with rfl | rfl
    · exact handled_request (by decide) _
    · exact handled_request (by decide) _
  have harray : ArrayOfSectors 32
      ([first.request fun _ => 1] ++ (second.request fun _ => 0) :: []) := hall 32 _ hhandled
  have h0 : 0 < (second.request fun _ => 0).currentNrSectors * SECTOR_SIZE := by decide
  have hsame := harray.byte hhandled rfl h0
  have hmem : step setupData (first.request fun _ => 1) (1 + 0) = 1 :=
    (step_request rfl _ _ _).trans (if_pos (by decide))
  have hsector : Sectors.apply (fun _ _ => 0) (first.request fun _ => 1) 1 0 = 0 :=
    (apply_request (e := first) rfl _ _ 1 (by decide)).trans (if_neg (by decide))
  have hdiv : 0 / SECTOR_SIZE = 0 := Nat.zero_div _
  have hmod : 0 % SECTOR_SIZE = 0 := Nat.zero_mod _
  rw [sectorsAfter, List.foldl_cons, List.foldl_nil, List.foldl_cons, List.foldl_nil, hdiv,
    hmod] at hsame
  have hone := (hmem.symm.trans hsame).trans hsector
  exact absurd hone (by decide)

end CS111.Ramdisk
