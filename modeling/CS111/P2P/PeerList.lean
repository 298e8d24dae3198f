import Mathlib.Data.List.Forall2
import CS111.P2P.MessageRoundTrip
import CS111.P2P.ScanBounds
import CS111.P2P.TrackerResponse

/-!
# The peers of a file

`start_download` asks the tracker for the peers that have a file. The lines of the response in front
of the status code are one peer each, read by `parse_peer`, and every peer goes to the front of the
list. `malloc` succeeds.
-/

namespace CS111.P2P

set_option autoImplicit false

open Memory

/-! ## The functions -/

/-- `memchr` on `n` bytes. -/
def memchr (m : Bytes) (c : UInt8) : Nat → Nat → Option Nat
  | _, 0 => none
  | s, n + 1 => if m s = c then some s else memchr m c (s + 1) n

/-- The scan stops by itself if there is no hexadecimal digit behind the `len` bytes
(`parsePeer_iff`), and `start_download` calls the function in front of a newline. -/
def parsePeer (m : Bytes) (len : Nat) : Option Peer :=
  let c := (Scan.start peerFormat).run m len ((Scan.start peerFormat).left len)
  if c.ret ≥ 0 then
    match c.stored with
    | [.string aliasName, .addr addr, .int port] =>
      if port > 0 ∧ port ≤ 65535 then some ⟨aliasName, addr, port⟩ else none
    | _ => none
  else none

/-- What `start_download` does: it returns a task with these peers, or none because of an error
message, the process dies, or the response has not come to its end. -/
inductive PeerRequest where
  | task (peers : List Peer)
  | refused
  | died
  | reading
  deriving Repr, DecidableEq

/-- The loop over the lines from `s1` on. A round takes a byte at least, so that `messagepos` rounds
are enough. -/
def addPeers (buf : Bytes) (messagepos : Nat) : Nat → Nat → List Peer → PeerRequest
  | 0, s1, peers => if s1 = messagepos then .task peers else .died
  | rounds + 1, s1, peers =>
    match memchr buf 10 s1 (messagepos - s1) with
    | some s2 =>
      match parsePeer (fun k => buf (s1 + k)) (s2 - s1) with
      | some p => addPeers buf messagepos rounds (s2 + 1) (p :: peers)
      | none => .died
    | none => if s1 = messagepos then .task peers else .died

def startDownloadPeers (calls : List ReadCall) (trackerTask : Task) : PeerRequest :=
  match readTrackerResponse calls trackerTask with
  | .returned messagepos t _ =>
    if t.buf messagepos ≠ 50 then .refused else addPeers t.buf messagepos messagepos 0 []
  | .died => .died
  | .reading => .reading

variable {m m' : Bytes} {len s n k : Nat} {c c' : Scan} {p : Peer} {line : List UInt8}
  {lines more : List (List UInt8)}

/-! ## A scan in front of a byte that is no hexadecimal digit -/

section Bounded
variable (hend : isxdigit (m len) = false)
include hend

theorem quotedAt_past (h : c.LooksPast m len) : quotedAt m c.pos = none := by
  obtain ⟨_, _, _, hpos⟩ := h
  unfold quotedAt
  rw [if_neg]
  rintro ⟨_, hx, hx'⟩
  rcases hpos with hpos | ⟨hpos, _⟩
  · rw [hpos, hend] at hx
    cases hx
  · rw [hpos, hend] at hx'
    cases hx'

theorem reads_le (hle : c.pos ≤ len) (hk : k ∈ c.reads m len) : k ≤ len := by
  by_cases hpast : c.LooksPast m len
  · obtain ⟨⟨str, hmode⟩, hlt, hp, hpos⟩ := hpast
    unfold Scan.reads quoteReads at hk
    simp only [hmode, if_neg (Nat.ne_of_lt hlt), hp, isspace_percent, Bool.false_eq_true, if_false,
      ne_eq, not_true_eq_false] at hk
    rcases List.mem_cons.mp hk with rfl | hk
    · exact hle
    rcases hpos with hpos | ⟨hpos, hx⟩
    · rw [hpos, hend, if_neg Bool.false_ne_true] at hk
      exact Nat.le_of_eq (List.mem_singleton.mp hk)
    · rw [if_pos hx] at hk
      rcases List.mem_pair.mp hk with rfl | rfl <;> omega
  · exact Nat.le_of_lt (reads_lt hle hpast hk)

theorem step_advances_bounded (h : c.Within len) (hstep : c.step m len = some c') :
    c.Advances len c' := by
  by_cases hpast : c.LooksPast m len
  · have hquoted := quotedAt_past hend hpast
    obtain ⟨⟨str, hmode⟩, hlt, hp, _⟩ := hpast
    have hpeek : peek m len c.pos = some 37 := by rw [peek, if_neg (Nat.ne_of_lt hlt), hp]
    unfold Scan.step at hstep
    simp only [hmode, hpeek, hquoted, Scan.stringStep, isspace_percent, Bool.false_eq_true, if_false,
      Option.some.injEq] at hstep
    rw [← hstep]
    have h1 : c.mode ≠ .format := by rw [hmode]; simp
    have h2 : c.mode ≠ .exit := by rw [hmode]; simp
    exact h.advances_pos Nat.one_pos hlt h1 h2 (by simp) (by simp) (by simp)
  · exact step_advances h hpast hstep

/-- As many steps as there is left to do bring the scan to its end. -/
theorem run_returns (h : c.Within len) (hn : c.left len ≤ n) : (c.run m len n).step m len = none := by
  induction n generalizing c with
  | zero =>
    cases hstep : c.step m len with
    | none => exact hstep
    | some c' =>
      have hlt := (step_advances_bounded hend h hstep).left_lt
      omega
  | succ n ih =>
    unfold Scan.run
    cases hstep : c.step m len with
    | none => exact hstep
    | some c' =>
      obtain ⟨hwithin, hlt⟩ := step_advances_bounded hend h hstep
      exact ih hwithin (by omega)

/-- The run depends on the bytes up to that one only. -/
theorem run_congr (hm : ∀ k ≤ len, m' k = m k) (h : c.Within len) (n : Nat) :
    c.run m' len n = c.run m len n := by
  induction n generalizing c with
  | zero => rfl
  | succ n ih =>
    have hstep : c.step m' len = c.step m len :=
      step_congr fun k hk => hm k (reads_le hend h.pos_le hk)
    unfold Scan.run
    rw [hstep]
    cases hnext : c.step m len with
    | none => rfl
    | some c' => exact ih (step_advances_bounded hend h hnext).within

theorem parsePeer_congr (hm : ∀ k ≤ len, m' k = m k) : parsePeer m' len = parsePeer m len := by
  unfold parsePeer
  rw [run_congr hend hm (start_within peerFormat)]

/-- A scan that returns is the one that `parsePeer` makes. -/
theorem Returns.run_eq (h : Returns m len peerFormat c) :
    (Scan.start peerFormat).run m len ((Scan.start peerFormat).left len) = c := by
  have hrun := run_returns hend (start_within peerFormat) (Nat.le_refl _)
  have hreach : Scans m len (Scan.start peerFormat)
      ((Scan.start peerFormat).run m len ((Scan.start peerFormat).left len)) := scans_run _ _
  generalize (Scan.start peerFormat).run m len ((Scan.start peerFormat).left len) = d at hrun hreach
  have hdet : Relator.RightUnique (ScanStep m len) := by
    intro a b b' hb hb'
    exact Option.some.inj (hb.symm.trans hb')
  have hstop {a b : Scan} (ha : a.step m len = none) (hab : Scans m len a b) : b = a := by
    rcases Relation.ReflTransGen.cases_head hab with heq | ⟨a', hstep, _⟩
    · exact heq.symm
    · cases ha.symm.trans hstep
  rcases Relation.ReflTransGen.total_of_right_unique hdet hreach h.1 with hdc | hcd
  · exact (hstop hrun hdc).symm
  · exact hstop h.2 hcd

theorem parsePeer_iff : parsePeer m len = some p ↔ ParsesPeer m len p := by
  unfold parsePeer ParsesPeer
  constructor
  · intro h
    refine ⟨_, ⟨scans_run _ _, run_returns hend (start_within peerFormat) (Nat.le_refl _)⟩, ?_⟩
    dsimp only at h
    split at h
    · next hret =>
      refine ⟨hret, ?_⟩
      split at h
      · next hstored =>
        split at h
        · next hport =>
          obtain rfl := Option.some.inj h
          exact ⟨hstored, hport⟩
        · cases h
      · cases h
    · cases h
  · rintro ⟨c, hc, hret, hstored, hport⟩
    rw [hc.run_eq hend]
    dsimp only
    rw [if_pos hret, hstored]
    dsimp only
    rw [if_pos hport]

end Bounded

/-! ## The lines -/

/-- The line is one that `parse_peer` takes for the peer `p`. -/
def ParsesLine (line : List UInt8) (p : Peer) : Prop :=
  ParsesPeer (byteAt (line ++ [10])) line.length p

theorem load_cons (m : Bytes) (s n : Nat) : load m s (n + 1) = m s :: load m (s + 1) n := by
  have hshift : load m (s + 1) n = (List.range n).map fun k => m (s + (k + 1)) :=
    List.map_congr_left fun k _ => by rw [Nat.add_assoc, Nat.add_comm 1]
  rw [hshift, load, List.range_succ_eq_map, List.map_cons, List.map_map]
  rfl

theorem memchr_none {b : UInt8} (h : memchr m b s n = none) : b ∉ load m s n := by
  induction n generalizing s with
  | zero => exact List.not_mem_nil
  | succ n ih =>
    rw [memchr] at h
    split at h
    · cases h
    · next hne =>
      rw [load_cons, List.mem_cons]
      rintro (heq | hmem)
      · exact hne heq.symm
      · exact ih h hmem

theorem memchr_some {b : UInt8} {q : Nat} (h : memchr m b s n = some q) : ∃ k rest,
    q = s + k ∧ n = k + 1 + rest ∧ b ∉ load m s k ∧ m q = b := by
  induction n generalizing s with
  | zero => cases h
  | succ n ih =>
    rw [memchr] at h
    split at h
    · next hb =>
      obtain rfl := Option.some.inj h
      exact ⟨0, n, rfl, by omega, List.not_mem_nil, hb⟩
    · next hne =>
      obtain ⟨k, rest, rfl, rfl, hnot, hb⟩ := ih h
      refine ⟨k + 1, rest, by omega, by omega, ?_, hb⟩
      rw [load_cons, List.mem_cons]
      rintro (heq | hmem)
      · exact hne heq.symm
      · exact hnot hmem

theorem takeWhile_line (hline : 10 ∉ line) (rest : List UInt8) :
    (line ++ 10 :: rest).takeWhile (· ≠ 10) = line := by
  rw [List.takeWhile_append_of_pos, List.takeWhile_cons_of_neg (by simp), List.append_nil]
  intro b hb
  exact decide_eq_true fun h => hline (h ▸ hb)

theorem portion_inj (hlines : ∀ line ∈ lines, 10 ∉ line) (hmore : ∀ line ∈ more, 10 ∉ line)
    (h : portion lines = portion more) : lines = more := by
  induction lines generalizing more with
  | nil =>
    cases more with
    | nil => rfl
    | cons line more =>
      rw [portion_cons] at h
      have hlength := congrArg List.length h
      rw [List.length_append, List.length_cons] at hlength
      exact absurd hlength.symm (Nat.succ_ne_zero _)
  | cons line lines ih =>
    cases more with
    | nil =>
      rw [portion_cons] at h
      have hlength := congrArg List.length h
      rw [List.length_append, List.length_cons] at hlength
      exact absurd hlength (Nat.succ_ne_zero _)
    | cons line' more =>
      obtain ⟨hline, hlines⟩ := List.forall_mem_cons.mp hlines
      obtain ⟨hline', hmore⟩ := List.forall_mem_cons.mp hmore
      rw [portion_cons, portion_cons] at h
      have hfirst := congrArg (List.takeWhile (· ≠ 10)) h
      rw [takeWhile_line hline, takeWhile_line hline'] at hfirst
      rw [hfirst, List.append_cancel_left_eq, List.cons_inj_right] at h
      rw [hfirst, ih hlines hmore h]

/-- A line in the buffer is parsed as it is on its own. -/
theorem parsePeer_line (hload : load m s (line.length + 1) = line ++ [10]) :
    parsePeer (fun k => m (s + k)) line.length = some p ↔ ParsesLine line p := by
  have hbytes : ∀ k ≤ line.length, m (s + k) = byteAt (line ++ [10]) k := by
    intro k hk
    rw [← hload, byteAt, load, List.getD_eq_getElem _ _ (by simp; omega)]
    simp
  have hend : isxdigit (byteAt (line ++ [10]) line.length) = false := by
    rw [← Nat.add_zero line.length, byteAt_right]
    rfl
  rw [parsePeer_congr hend hbytes, parsePeer_iff hend, ParsesLine]

/-- The text is lines, one for each of these peers. -/
def Lists (text : List UInt8) (found : List Peer) : Prop :=
  ∃ lines, (∀ line ∈ lines, 10 ∉ line) ∧ text = portion lines ∧ List.Forall₂ ParsesLine lines found

variable {text : List UInt8} {found peers ps : List Peer}

theorem lists_portion (hlines : ∀ line ∈ lines, 10 ∉ line) :
    Lists (portion lines) found ↔ List.Forall₂ ParsesLine lines found := by
  constructor
  · rintro ⟨more, hmore, heq, hall⟩
    rwa [portion_inj hlines hmore heq]
  · intro hall
    exact ⟨lines, hlines, rfl, hall⟩

theorem lists_nil : Lists [] found ↔ found = [] := by
  have hnone : ∀ line ∈ ([] : List (List UInt8)), 10 ∉ line := fun _ h => absurd h List.not_mem_nil
  exact (lists_portion hnone).trans List.forall₂_nil_left_iff

theorem lists_cons (hline : 10 ∉ line) : Lists (line ++ 10 :: text) found ↔
    ∃ p rest, ParsesLine line p ∧ Lists text rest ∧ found = p :: rest := by
  constructor
  · rintro ⟨lines, hlines, heq, hall⟩
    cases lines with
    | nil => exact absurd heq (by simp [portion])
    | cons line' lines =>
      obtain ⟨hline', hlines⟩ := List.forall_mem_cons.mp hlines
      rw [portion_cons] at heq
      have hfirst := congrArg (List.takeWhile (· ≠ 10)) heq
      rw [takeWhile_line hline, takeWhile_line hline'] at hfirst
      rw [hfirst, List.append_cancel_left_eq, List.cons_inj_right] at heq
      obtain ⟨p, rest, hp, hrest, rfl⟩ := List.forall₂_cons_left_iff.mp hall
      exact ⟨p, rest, hfirst ▸ hp, ⟨lines, hlines, heq, hrest⟩, rfl⟩
  · rintro ⟨p, rest, hp, ⟨lines, hlines, rfl, hrest⟩, rfl⟩
    refine ⟨line :: lines, ?_, portion_cons.symm, .cons hp hrest⟩
    exact List.forall_mem_cons.mpr ⟨hline, hlines⟩

/-- The last line has its newline too. -/
theorem not_lists (hno : 10 ∉ text) (hne : text ≠ []) : ¬ Lists text found := by
  rintro ⟨lines, _, rfl, _⟩
  cases lines with
  | nil => exact hne rfl
  | cons line lines =>
    rw [portion_cons] at hno
    exact hno (by simp)

theorem end_of_lines {messagepos s1 : Nat} (buf : Bytes) (hpos : s1 = messagepos) :
    (if s1 = messagepos then .task peers else .died) = PeerRequest.task ps ↔
      ∃ found, Lists (load buf s1 0) found ∧ ps = found.reverse ++ peers := by
  rw [if_pos hpos, PeerRequest.task.injEq]
  constructor
  · rintro rfl
    exact ⟨[], lists_nil.mpr rfl, rfl⟩
  · rintro ⟨found, hlists, rfl⟩
    rw [lists_nil.mp hlists]
    rfl

/-- The loop gives a task exactly if the bytes in front of `messagepos` list peers. -/
theorem addPeers_iff {buf : Bytes} {messagepos rounds s1 left : Nat} (hpos : s1 + left = messagepos)
    (hrounds : left ≤ rounds) : addPeers buf messagepos rounds s1 peers = .task ps ↔
      ∃ found, Lists (load buf s1 left) found ∧ ps = found.reverse ++ peers := by
  induction rounds generalizing s1 left peers with
  | zero =>
    obtain rfl := Nat.le_zero.mp hrounds
    exact end_of_lines buf hpos
  | succ rounds ih =>
    rw [addPeers, ← hpos, Nat.add_sub_cancel_left]
    cases hfind : memchr buf 10 s1 left with
    | none =>
      have hno := memchr_none hfind
      dsimp only
      rcases Nat.eq_zero_or_pos left with rfl | hleft
      · exact end_of_lines buf rfl
      · rw [if_neg (by omega)]
        refine iff_of_false nofun ?_
        rintro ⟨found, hlists, _⟩
        have hne : load buf s1 left ≠ [] := by
          rw [← List.length_pos_iff, load_length]
          exact hleft
        exact not_lists hno hne hlists
    | some s2 =>
      obtain ⟨k, rest, rfl, rfl, hline, hnewline⟩ := memchr_some hfind
      have hload : load buf s1 (k + 1 + rest) =
          load buf s1 k ++ 10 :: load buf (s1 + k + 1) rest := by
        rw [Nat.add_assoc, Nat.add_comm 1, load_split, load_cons, hnewline]
      have hparse (p : Peer) : parsePeer (fun i => buf (s1 + i)) (load buf s1 k).length = some p ↔
          ParsesLine (load buf s1 k) p :=
        parsePeer_line (by rw [load_length, load_succ, hnewline])
      rw [load_length] at hparse
      rw [hload]
      dsimp only
      rw [Nat.add_sub_cancel_left]
      cases hp : parsePeer (fun i => buf (s1 + i)) k with
      | none =>
        refine iff_of_false nofun ?_
        rintro ⟨found, hlists, _⟩
        obtain ⟨p, _, hline, _⟩ := (lists_cons hline).mp hlists
        exact Option.some_ne_none _ (((hparse p).mpr hline).symm.trans hp)
      | some p =>
        have hround : addPeers buf messagepos rounds (s1 + k + 1) (p :: peers) = .task ps ↔
            ∃ found, Lists (load buf (s1 + k + 1) rest) found ∧ ps = found.reverse ++ p :: peers :=
          ih (by omega) (by omega)
        dsimp only
        rw [hpos, hround]
        constructor
        · rintro ⟨found, hlists, rfl⟩
          refine ⟨p :: found, (lists_cons hline).mpr ⟨p, found, (hparse p).mp hp, hlists, rfl⟩, ?_⟩
          rw [List.reverse_cons, List.append_assoc]
          rfl
        · rintro ⟨_, hlists, rfl⟩
          obtain ⟨p', found, hline', hrest, rfl⟩ := (lists_cons hline).mp hlists
          obtain rfl := Option.some.inj (hp.symm.trans ((hparse p').mpr hline'))
          refine ⟨found, hrest, ?_⟩
          rw [List.reverse_cons, List.append_assoc]
          rfl

/-! ## Peers as they are written -/

/-- The line that `osp2p_writef` writes for a peer. -/
def peerLine (p : Peer) : List UInt8 :=
  (message peerFormat [.string p.aliasName, .addr p.addr, .int p.port]).getD []

structure Peer.Valid (p : Peer) : Prop where
  aliasName : p.aliasName ≠ []
  port_pos : 0 < p.port
  port_le : p.port ≤ 65535

theorem peerLine_eq (p : Peer) : peerLine p =
    [80, 69, 69, 82] ++ 32 :: (httpQuote p.aliasName ++ 32 :: (inetNtoa p.addr ++
      58 :: formatInt p.port)) := by
  rw [peerLine, peerMessage]
  rfl

theorem quoteByte_plain : ∀ c : UInt8, 10 ∉ quoteByte c := by
  apply forall_byte
  decide +kernel

theorem digit_plain {d : Nat} (hd : d < 10) : 10 ∉ [UInt8.ofNat (48 + d)] := by
  have hall : ∀ d : Fin 10, 10 ∉ [UInt8.ofNat (48 + d.val)] := by decide
  exact hall ⟨d, hd⟩

theorem decimal_plain (n : Nat) : 10 ∉ decimal n := by
  induction n using Nat.strong_induction_on with
  | _ n ih =>
    rw [decimal_eq]
    by_cases h : n < 10
    · rw [if_pos h]
      exact digit_plain h
    · rw [if_neg h, List.mem_append]
      rintro (hmem | hmem)
      · exact ih (n / 10) (by omega) hmem
      · exact digit_plain (Nat.mod_lt _ (by decide)) hmem

/-- Nothing that is written for a peer is a newline. -/
theorem peerLine_plain (p : Peer) : 10 ∉ peerLine p := by
  have hquote : 10 ∉ httpQuote p.aliasName := by
    intro h
    obtain ⟨c, _, hc⟩ := List.mem_flatMap.mp h
    exact quoteByte_plain c hc
  have hport : 10 ∉ formatInt p.port := by
    unfold formatInt
    split
    · exact List.not_mem_cons_of_ne_of_not_mem (by decide) (decimal_plain _)
    · exact decimal_plain _
  rw [peerLine_eq]
  simp [inetNtoa, decimal_plain, hquote, hport]

/-- `parse_peer` reads what is written for a peer. -/
theorem Peer.Valid.parsesLine {p : Peer} (h : p.Valid) : ParsesLine (peerLine p) p := by
  obtain ⟨port, hport⟩ := Int.eq_ofNat_of_zero_le (Int.le_of_lt h.port_pos)
  have hle := h.port_le
  have hwritten : Writes peerFormat [.string p.aliasName, .addr p.addr, .int port] (peerLine p) := by
    rw [writes_iff, peerMessage, peerLine_eq, hport]
  have hcontains : Contains (byteAt (peerLine p ++ [10])) (peerLine p) := by
    intro k hk
    rw [byteAt_left hk, byteAt, List.getD_eq_getElem _ _ hk]
  obtain ⟨c, hc, hret, hstored⟩ := (peer_round_trip h.aliasName p.addr (n := port) (by omega)).scanned
    _ _ hwritten hcontains
  refine ⟨c, hc, Int.le_of_eq hret.symm, ?_, h.port_pos, h.port_le⟩
  rw [hstored, hport]

/-- A response with these peers. -/
def announcing (peers : List Peer) (context : List (List UInt8)) (terminator : List UInt8) :
    Response :=
  ⟨peers.map peerLine, context, terminator⟩

theorem announcing_wellFormed {context : List (List UInt8)} {terminator : List UInt8}
    (hr : (announcing [] context terminator).WellFormed) (peers : List Peer) :
    (announcing peers context terminator).WellFormed := by
  refine ⟨fun line hline => ?_, fun line hline c hc => ?_, hr.context, hr.terminator⟩
  · rw [List.append_assoc] at hline
    rcases List.mem_append.mp hline with hpeer | hcode
    · obtain ⟨p, _, rfl⟩ := List.mem_map.mp hpeer
      exact peerLine_plain p
    · exact hr.lines line hcode
  · obtain ⟨p, _, rfl⟩ := List.mem_map.mp hline
    rw [peerLine_eq] at hc
    obtain rfl := Option.some.inj hc
    rfl

/-- `PEER a 127.0.0.1:80`, `PEER b%20c 10.0.0.2:65535`, `200-b` and `200 a`. -/
def twoPeers : Response :=
  announcing [⟨[97], 2130706433, 80⟩, ⟨[98, 32, 99], 167772162, 65535⟩] [[50, 48, 48, 45, 98]]
    [50, 48, 48, 32, 97]

/-- The packets end inside the lines: the ones of the two peers, and the last one. -/
def twoPeersPackets : List (List UInt8) :=
  [twoPeers.bytes.take 9, (twoPeers.bytes.drop 9).take 20, (twoPeers.bytes.drop 29).take 25,
    twoPeers.bytes.drop 54]

theorem twoPeers_valid : ∀ p ∈ [(⟨[97], 2130706433, 80⟩ : Peer), ⟨[98, 32, 99], 167772162, 65535⟩],
    p.Valid := by
  intro p hp
  rcases List.mem_pair.mp hp with rfl | rfl
  · exact ⟨by decide, by decide, by decide⟩
  · exact ⟨by decide, by decide, by decide⟩

theorem contextResponse_wellFormed :
    (announcing [] [[50, 48, 48, 45, 98]] [50, 48, 48, 32, 97]).WellFormed := by
  refine ⟨by decide, fun line hline => ?_, fun line hline => ?_, 32, rfl, 50, 48, 48, [97], rfl, rfl,
    rfl, rfl⟩
  · cases hline
  · obtain rfl := List.mem_singleton.mp hline
    exact ⟨50, 48, 48, [98], rfl, rfl, rfl, rfl⟩

/-! ## The whole request -/

variable {parts : List (List UInt8)} {r : Response} {calls : List ReadCall} {t t' : Task}
  {pos first last sp : Nat} {split : Option Nat} {bytes : List UInt8} {unread : List ReadCall}

/-- The status code is one of success. -/
def Response.Accepts (r : Response) : Prop := byteAt r.bytes r.splitPos = 50

instance : Decidable r.Accepts := decEq _ _

section Answered
variable (hM : Marked (byteAt bytes) bytes.length first last) (hlen : bytes.length < TASKBUFSIZ)
include hM hlen

/-- When the reading ends, it is behind the last part, with the response in the buffer. -/
theorem trackerLoop_returned (h : Holds t bytes) (hparts : ∀ part ∈ parts, part ≠ [])
    (hrest : bytes.drop t.tail = parts.flatten) (hpos : pos ≤ last) (hearly : t.tail < last + 5)
    (hsplit : SplitOk first pos split)
    (hret : trackerLoop (parts.map deliver) t pos split = .returned sp t' unread) :
    sp = first ∧ Holds t' bytes ∧ t'.tail = bytes.length ∧
      t.tail + parts.dropLast.flatten.length < last + 5 := by
  induction parts generalizing t pos split with
  | nil =>
    have hlength := congrArg List.length hrest
    rw [List.length_drop, List.flatten_nil, List.length_nil] at hlength
    have hend := hM.end_le
    omega
  | cons part parts ih =>
    obtain ⟨hne, hparts⟩ := List.forall_mem_cons.mp hparts
    obtain ⟨pos₁, split₁, hmore, hpos₁, hsplit₁⟩ : ∃ pos' split',
        checkBuffer t (t.tail - (pos + 3)) pos split = .more pos' split' ∧ pos' ≤ last ∧
          SplitOk first pos' split' := check_early hM h.buf hearly hpos hsplit rfl
    obtain ⟨t₁, hholds, htail, hrest₁, heq⟩ := trackerLoop_more h hlen hne hrest hmore
    rw [List.map_cons, heq] at hret
    have hlength := congrArg List.length hrest₁
    rw [List.length_drop] at hlength
    have htail_le := hholds.tail_le
    have hend := hM.end_le
    cases parts with
    | nil =>
      rw [List.flatten_nil, List.length_nil] at hlength
      have hfound := (check_late hM hholds.buf htail_le (by omega) hpos₁ hsplit₁).1 (by omega)
      rw [List.map_nil, trackerLoop, hfound] at hret
      cases hret
      refine ⟨rfl, ⟨hholds.head, htail_le, fun i hi => ?_⟩, by dsimp only; omega, ?_⟩
      · dsimp only at hi ⊢
        rw [store_outside (.inl hi)]
        exact hholds.buf i hi
      · exact hearly
    | cons next parts =>
      rw [List.dropLast_cons_cons, List.flatten_cons, List.length_append, ← Nat.add_assoc, ← htail]
      rcases Nat.lt_or_ge t₁.tail (last + 5) with hagain | hlate
      · exact ih hholds hparts hrest₁ hpos₁ hagain hsplit₁ hret
      · have hnext : next.length ≠ 0 := fun h => (List.forall_mem_cons.mp hparts).1
          (List.length_eq_zero_iff.mp h)
        rw [List.flatten_cons, List.length_append] at hlength
        obtain ⟨pos₂, split₂, hpast, hbehind⟩ :=
          (check_late hM hholds.buf htail_le hlate hpos₁ hsplit₁).2 (by omega)
        obtain ⟨t₂, hholds₂, _, hrest₂, heq₂⟩ := trackerLoop_more hholds hlen
          (List.forall_mem_cons.mp hparts).1 hrest₁ hpast
        rw [List.map_cons, heq₂, trackerLoop_behind hM hlen hholds₂
          (List.forall_mem_cons.mp hparts).2 hrest₂ hbehind] at hret
        cases hret

end Answered

/-- What the buffer has in front of the status code. -/
theorem Holds.data (h : Holds t r.bytes) (htail : t.tail = r.bytes.length) :
    load t.buf 0 r.splitPos = portion r.data := by
  have hlength : r.bytes.length = r.splitPos + (portion (r.context ++ [r.terminator])).length := by
    rw [Response.bytes, List.append_assoc, portion_append, List.length_append]
    rfl
  apply List.ext_getElem
  · rw [load_length]
    rfl
  · intro i hi hi'
    rw [load_length] at hi
    have hbyte := h.buf i (by omega)
    rw [Response.bytes, List.append_assoc, portion_append, byteAt_left hi', byteAt,
      List.getD_eq_getElem _ _ hi'] at hbyte
    rw [← hbyte]
    simp [load]

section Requests
variable (hr : r.WellFormed) (hlen : r.bytes.length < TASKBUFSIZ)
  (hparts : ∀ part ∈ parts, part ≠ []) (hsplit : parts.flatten = r.bytes)
include hr hlen hparts hsplit

/-- A response that is read to its end. -/
theorem startDownloadPeers_read (t : Task)
    (hread : parts.dropLast.flatten.length < r.terminatorPos + 5) :
    ∃ t', Holds t' r.bytes ∧ t'.tail = r.bytes.length ∧ startDownloadPeers (parts.map deliver) t =
      if r.Accepts then addPeers t'.buf r.splitPos r.splitPos 0 [] else .refused := by
  have hholds : Holds { t with head := 0, tail := 0 } r.bytes :=
    ⟨rfl, Nat.zero_le _, fun i hi => absurd hi (Nat.not_lt_zero i)⟩
  obtain ⟨t', ht'⟩ := (trackerLoop_iff hr.marked hlen hholds hparts hsplit.symm (Nat.zero_le _)
    (Nat.succ_pos _) (.inr ⟨rfl, Nat.zero_le _⟩)).mpr (by dsimp only; omega)
  obtain ⟨_, hholds', htail, _⟩ := trackerLoop_returned hr.marked hlen hholds hparts hsplit.symm
    (Nat.zero_le _) (Nat.succ_pos _) (.inr ⟨rfl, Nat.zero_le _⟩) ht'
  refine ⟨t', hholds', htail, ?_⟩
  have hend := hr.marked.end_le
  have hfirst := hr.marked.first_le
  have hcode : t'.buf r.splitPos = byteAt r.bytes r.splitPos := hholds'.buf _ (by omega)
  unfold startDownloadPeers readTrackerResponse Response.Accepts
  rw [ht']
  dsimp only
  rw [hcode, ite_not]
  rfl

/-- The search of the response does not find its end. -/
theorem startDownloadPeers_unread (t : Task)
    (hread : ¬ parts.dropLast.flatten.length < r.terminatorPos + 5) :
    startDownloadPeers (parts.map deliver) t ≠ .task ps := by
  have hholds : Holds { t with head := 0, tail := 0 } r.bytes :=
    ⟨rfl, Nat.zero_le _, fun i hi => absurd hi (Nat.not_lt_zero i)⟩
  unfold startDownloadPeers readTrackerResponse
  cases hret : trackerLoop (parts.map deliver) { t with head := 0, tail := 0 } 0 none with
  | returned sp t' unread =>
    obtain ⟨_, _, _, hlt⟩ := trackerLoop_returned hr.marked hlen hholds hparts hsplit.symm
      (Nat.zero_le _) (Nat.succ_pos _) (.inr ⟨rfl, Nat.zero_le _⟩) hret
    rw [Nat.zero_add] at hlt
    exact absurd hlt hread
  | died => exact PeerRequest.noConfusion
  | reading => exact PeerRequest.noConfusion

/-- A request gives a task exactly if the end of the response is found, its code is one of success,
and its other lines are one peer each; the task has them from the last line to the first. -/
theorem peers_listed_iff (t : Task) (ps : List Peer) :
    startDownloadPeers (parts.map deliver) t = .task ps ↔
      parts.dropLast.flatten.length < r.terminatorPos + 5 ∧ r.Accepts ∧
        List.Forall₂ ParsesLine r.data ps.reverse := by
  have hlines : ∀ line ∈ r.data, 10 ∉ line := fun line hline => hr.lines line (by simp [hline])
  by_cases hread : parts.dropLast.flatten.length < r.terminatorPos + 5
  · obtain ⟨t', hholds, htail, heq⟩ := startDownloadPeers_read hr hlen hparts hsplit t hread
    rw [heq]
    by_cases hcode : r.Accepts
    · rw [if_pos hcode, addPeers_iff (Nat.zero_add _) (Nat.le_refl _), hholds.data htail]
      constructor
      · rintro ⟨found, hlists, rfl⟩
        refine ⟨hread, hcode, ?_⟩
        rwa [List.append_nil, List.reverse_reverse, ← lists_portion hlines]
      · rintro ⟨_, _, hall⟩
        refine ⟨ps.reverse, (lists_portion hlines).mpr hall, ?_⟩
        rw [List.append_nil, List.reverse_reverse]
    · rw [if_neg hcode]
      exact iff_of_false PeerRequest.noConfusion fun h => hcode h.2.1
  · exact iff_of_false (startDownloadPeers_unread hr hlen hparts hsplit t hread) fun h => hread h.1

end Requests

theorem peers_listed_iff_two :
    startDownloadPeers (twoPeersPackets.map deliver) ⟨fun _ => 0, 0, 0, 0⟩ =
      .task [⟨[98, 32, 99], 167772162, 65535⟩, ⟨[97], 2130706433, 80⟩] := by
  have hlines : List.Forall₂ ParsesLine twoPeers.data
      [⟨[97], 2130706433, 80⟩, ⟨[98, 32, 99], 167772162, 65535⟩] :=
    .cons (twoPeers_valid _ (by decide)).parsesLine
      (.cons (twoPeers_valid _ (by decide)).parsesLine .nil)
  exact (peers_listed_iff (announcing_wellFormed contextResponse_wellFormed _) (by decide +kernel)
    (by decide +kernel) (by decide +kernel) _ _).mpr ⟨by decide +kernel, by decide +kernel, hlines⟩

/-- The peers that a response announces with the messages of `osp2p_writef` are the ones of the
task, the last one first. -/
theorem announced_peers_listed {context : List (List UInt8)} {terminator : List UInt8}
    (hr : (announcing [] context terminator).WellFormed) (peers : List Peer)
    (hpeers : ∀ p ∈ peers, p.Valid)
    (hlen : (announcing peers context terminator).bytes.length < TASKBUFSIZ)
    (hparts : ∀ part ∈ parts, part ≠ [])
    (hsplit : parts.flatten = (announcing peers context terminator).bytes)
    (hread : parts.dropLast.flatten.length <
      (announcing peers context terminator).terminatorPos + 5) (t : Task) :
    startDownloadPeers (parts.map deliver) t =
      if (announcing peers context terminator).Accepts then .task peers.reverse else .refused := by
  have hwf := announcing_wellFormed hr peers
  have hlines : ∀ line ∈ peers.map peerLine, 10 ∉ line :=
    fun line hline => hwf.lines line (by simp [announcing, hline])
  have hall : List.Forall₂ ParsesLine (peers.map peerLine) peers := by
    rw [List.forall₂_map_left_iff, List.forall₂_same]
    exact fun p hp => (hpeers p hp).parsesLine
  obtain ⟨t', hholds, htail, heq⟩ := startDownloadPeers_read hwf hlen hparts hsplit t hread
  rw [heq]
  congr 1
  rw [addPeers_iff (Nat.zero_add _) (Nat.le_refl _), hholds.data htail]
  refine ⟨peers, (lists_portion hlines).mpr hall, ?_⟩
  rw [List.append_nil]

theorem announced_peers_listed_two :
    startDownloadPeers (twoPeersPackets.map deliver) ⟨fun _ => 7, 0, 0, 0⟩ =
      .task [⟨[98, 32, 99], 167772162, 65535⟩, ⟨[97], 2130706433, 80⟩] := by
  have hlisted := announced_peers_listed contextResponse_wellFormed _ twoPeers_valid
    (by decide +kernel) (by decide +kernel) (show twoPeersPackets.flatten = _ by decide +kernel)
    (by decide +kernel) ⟨fun _ => 7, 0, 0, 0⟩
  rwa [if_pos (by decide +kernel)] at hlisted

end CS111.P2P
