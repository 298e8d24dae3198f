import Mathlib.Data.List.Induction
import CS111.Shell.Rendering

/-!
# The parser accepts every rendering

The two scanning loops of `parse` and the loops of the compound commands skip whatever is nested,
by the counting lemmas for renderings; the rest is an induction over the rendering.
-/

namespace CS111.Shell

set_option autoImplicit false

def Token.Spells (tl : TokenList) (tok : Token) : Lexeme → Prop
  | .word w => tok.type = .tokWord ∧ tl.text tok = w
  | .mark t => tok.type = t

/-- The tokens from index `i` on spell the lexemes. -/
def TokenList.Holds (tl : TokenList) : Nat → List Lexeme → Prop
  | _, [] => True
  | i, l :: ls => (∃ tok, readToken tl i = .ok tok ∧ tok.Spells tl l) ∧ tl.Holds (i + 1) ls

/-- The token at `i` exists and is not a word. -/
def TokenList.Stops (tl : TokenList) (i : Nat) : Prop :=
  ∃ tok, readToken tl i = .ok tok ∧ tok.type ≠ .tokWord

variable {tl : TokenList} {i start n : Nat} {d : Int} {ls xs ys s rs : List Lexeme}
  {l : Lexeme} {tok : Token} {t : TokenType} {c : Command}

theorem type_of_spells (h : tok.Spells tl l) : tok.type = l.type := by
  cases l with
  | word w => exact h.1
  | mark t => exact h

theorem holds_append : tl.Holds i (xs ++ ys) ↔ tl.Holds i xs ∧ tl.Holds (i + xs.length) ys := by
  induction xs generalizing i with
  | nil => simp [TokenList.Holds]
  | cons l xs ih =>
    rw [List.cons_append, TokenList.Holds, TokenList.Holds, ih, and_assoc, List.length_cons,
      Nat.add_assoc, Nat.add_comm 1]

theorem holds_cons : tl.Holds i (l :: ls) ↔
    (∃ tok, readToken tl i = .ok tok ∧ tok.Spells tl l) ∧ tl.Holds (i + 1) ls := Iff.rfl

theorem stops_of_holds_mark (h : tl.Holds i (.mark t :: ls)) (ht : t ≠ .tokWord) :
    tl.Stops i := by
  obtain ⟨⟨tok, hread, htok⟩, _⟩ := h
  exact ⟨tok, hread, fun he => ht (htok.symm.trans he)⟩

theorem stops_of_separator (hs : looseSeparators t s) (h : tl.Holds i (s ++ .mark t :: ls))
    (ht : t ≠ .tokWord) : tl.Stops i := by
  rcases hs with rfl | rfl
  · exact stops_of_holds_mark h ht
  · exact stops_of_holds_mark h (by decide)

theorem stops_of_redirects {a o : Option Word} (hrs : RendersRedirects a o rs)
    (h : tl.Holds i rs) (hstop : tl.Stops (i + rs.length)) : tl.Stops i := by
  cases hrs with
  | none => exact hstop
  | input | inputOutput => exact stops_of_holds_mark h (by decide)
  | output | outputInput => exact stops_of_holds_mark h (by decide)

/-! ## The loops -/

theorem scanBack_succ {sep : TokenType} (hread : readToken tl i = .ok tok) :
    scanBack tl sep start (i + 1) d =
      if d = 0 ∧ tok.type = sep then .ok (some i)
      else if start < i then scanBack tl sep start i (d - nesting tok.type)
      else .ok none := by
  rw [scanBack, hread]
  rfl

theorem scanBack_skip {sep : TokenType} (h : tl.Holds i ls) (hstart : start < i)
    (hclear : Clear (fun l => -l.nest) (fun l => l.type = sep) d ls.reverse) :
    scanBack tl sep start (i + ls.length) d =
      scanBack tl sep start i (d - rise Lexeme.nest ls) := by
  induction ls using List.reverseRecOn generalizing d with
  | nil => simp
  | append_singleton ls l ih =>
    obtain ⟨hls, ⟨tok, hread, htok⟩, _⟩ := holds_append.mp h
    rw [List.reverse_append, List.reverse_singleton, List.singleton_append, clear_cons] at hclear
    obtain ⟨hne, hrest⟩ := hclear
    have hmiss : ¬ (d = 0 ∧ tok.type = sep) := fun ⟨hd, ht⟩ =>
      hne hd ((type_of_spells htok).symm.trans ht)
    have hgo : start < i + ls.length := by omega
    have hnest : nesting tok.type = l.nest := by rw [type_of_spells htok]; rfl
    rw [List.length_append, List.length_singleton, ← Nat.add_assoc, scanBack_succ hread,
      if_neg hmiss, if_pos hgo, hnest, Int.sub_eq_add_neg, ih hls hrest, rise_append]
    congr 1
    simp
    omega

theorem scanBack_none {sep : TokenType} (h : tl.Holds start ls) (hne : ls ≠ [])
    (hclear : Clear (fun l => -l.nest) (fun l => l.type = sep) d ls.reverse) :
    scanBack tl sep start (start + ls.length) d = .ok none := by
  cases ls with
  | nil => exact absurd rfl hne
  | cons l ls =>
    obtain ⟨⟨tok, hread, htok⟩, hls⟩ := holds_cons.mp h
    rw [List.reverse_cons, clear_append] at hclear
    obtain ⟨hrest, hfirst, _⟩ := hclear
    have hskip := scanBack_skip hls (Nat.lt_succ_self start) hrest
    have hmiss : ¬ (d - rise Lexeme.nest ls = 0 ∧ tok.type = sep) := by
      rintro ⟨hd, ht⟩
      refine hfirst ?_ ((type_of_spells htok).symm.trans ht)
      rw [rise_reverse, rise_neg]
      omega
    rw [List.length_cons, Nat.add_comm ls.length, ← Nat.add_assoc, hskip, scanBack_succ hread,
      if_neg hmiss, if_neg (Nat.lt_irrefl start)]

/-- The last separator at depth 0 is found. -/
theorem scanBack_found {sep : TokenType} (hmark : tl.Holds (start + xs.length) (.mark sep :: ys))
    (hclear : Clear (fun l => -l.nest) (fun l => l.type = sep) 0 ys.reverse)
    (hrise : rise Lexeme.nest ys = 0) :
    scanBack tl sep start (start + (xs ++ .mark sep :: ys).length) 0 =
      .ok (some (start + xs.length)) := by
  obtain ⟨⟨tok, hread, htok⟩, hys⟩ := hmark
  have hskip := scanBack_skip hys (Nat.lt_succ_of_le (Nat.le_add_right start xs.length)) hclear
  rw [hrise] at hskip
  have hlen : start + (xs ++ .mark sep :: ys).length = start + xs.length + 1 + ys.length := by
    simp only [List.length_append, List.length_cons]
    omega
  rw [hlen, hskip, scanBack_succ hread, if_pos ⟨rfl, htok⟩]

section Forward
variable {marks : List TokenType} {close : TokenType} {skip : Option Nat}
  {found : TokenType → Option Nat}

theorem scanForward_step (hread : readToken tl i = .ok tok)
    (hmiss : d = 0 → some i ≠ skip → tok.type ≠ close ∧ tok.type ∉ marks) :
    scanForward tl marks close skip (n + 1) i d found =
      scanForward tl marks close skip n (i + 1) (d + nesting tok.type) found := by
  rw [scanForward, hread]
  by_cases houter : d = 0 ∧ some i ≠ skip
  · obtain ⟨hclose, hmarks⟩ := hmiss houter.1 houter.2
    simp [bind, Except.bind, hclose, hmarks]
  · simp [bind, Except.bind, houter]

theorem scanForward_skip (h : tl.Holds i ls) (hclear : Clear Lexeme.nest Lexeme.closing d ls)
    (hclosing : ∀ t, t = close ∨ t ∈ marks → (Lexeme.mark t).closing) :
    scanForward tl marks close skip (ls.length + n) i d found =
      scanForward tl marks close skip n (i + ls.length) (d + rise Lexeme.nest ls) found := by
  induction ls generalizing i d with
  | nil => simp
  | cons l ls ih =>
    obtain ⟨⟨tok, hread, htok⟩, hls⟩ := holds_cons.mp h
    obtain ⟨hne, hrest⟩ := clear_cons.mp hclear
    have htype := type_of_spells htok
    have hmiss : d = 0 → some i ≠ skip → tok.type ≠ close ∧ tok.type ∉ marks := by
      intro hd _
      rw [htype]
      exact ⟨fun he => hne hd (hclosing l.type (.inl he)), fun hm => hne hd (hclosing l.type (.inr hm))⟩
    have hnest : nesting tok.type = l.nest := by rw [htype]; rfl
    rw [List.length_cons, Nat.add_right_comm, scanForward_step hread hmiss, hnest, ih hls hrest,
      rise_cons]
    congr 1
    · omega
    · omega

theorem scanForward_mark (h : tl.Holds i (.mark t :: ls)) (hskip : some i ≠ skip)
    (ht : t ∈ marks) (hclose : t ≠ close) (hnest : nesting t = 0) :
    scanForward tl marks close skip (n + 1) i 0 found =
      scanForward tl marks close skip n (i + 1) 0 (Function.update found t (some i)) := by
  obtain ⟨⟨tok, hread, htok⟩, _⟩ := h
  have htype : tok.type = t := htok
  rw [scanForward, hread]
  simp [bind, Except.bind, htype, hskip, ht, hclose, hnest]

theorem scanForward_close (h : tl.Holds i (.mark close :: ls)) (hskip : some i ≠ skip) :
    scanForward tl marks close skip n i 0 found = .ok (some i, found) := by
  obtain ⟨⟨tok, hread, htok⟩, _⟩ := h
  have htype : tok.type = close := htok
  rw [scanForward.eq_def]
  simp [hread, bind, Except.bind, htype, hskip]

/-- A part of a compound command, up to the keyword after it. -/
structure Part (xs : List Lexeme) : Prop where
  clear : Clear Lexeme.nest Lexeme.closing 0 xs
  rise_eq : rise Lexeme.nest xs = 0

theorem scanForward_part (hxs : Part xs) (h : tl.Holds i (xs ++ .mark t :: ls))
    (hclosing : ∀ u, u = close ∨ u ∈ marks → (Lexeme.mark u).closing)
    (hskip : some (i + xs.length) ≠ skip) (ht : t ∈ marks) (hclose : t ≠ close)
    (hnest : nesting t = 0) :
    scanForward tl marks close skip (xs.length + (n + 1)) i 0 found =
      scanForward tl marks close skip n (i + xs.length + 1) 0
        (Function.update found t (some (i + xs.length))) := by
  obtain ⟨hbody, hmark⟩ := holds_append.mp h
  rw [scanForward_skip hbody hxs.clear hclosing, hxs.rise_eq]
  exact scanForward_mark hmark hskip ht hclose hnest

theorem scanForward_end (hxs : Part xs) (h : tl.Holds i (xs ++ .mark close :: ls))
    (hclosing : ∀ u, u = close ∨ u ∈ marks → (Lexeme.mark u).closing)
    (hskip : some (i + xs.length) ≠ skip) :
    scanForward tl marks close skip (xs.length + n) i 0 found =
      .ok (some (i + xs.length), found) := by
  obtain ⟨hbody, hmark⟩ := holds_append.mp h
  rw [scanForward_skip hbody hxs.clear hclosing, hxs.rise_eq]
  exact scanForward_close hmark hskip

end Forward

theorem addRedirects_renders {a o : Option Word} (hrs : RendersRedirects a o rs)
    (h : tl.Holds i rs) : addRedirects tl .fresh i rs.length = .ok ⟨-1, a, o⟩ := by
  cases hrs with
  | none => rfl
  | input | output =>
    obtain ⟨⟨arrow, harrow, htype⟩, ⟨target, htarget, _, htext⟩, _⟩ := h
    have htype : arrow.type = _ := htype
    simp [addRedirects, Header.fresh, harrow, htarget, htype, htext, bind, Except.bind]
  | inputOutput | outputInput =>
    obtain ⟨⟨arrow, harrow, htype⟩, ⟨target, htarget, _, htext⟩,
      ⟨arrow', harrow', htype'⟩, ⟨target', htarget', _, htext'⟩, _⟩ := h
    have htype : arrow.type = _ := htype
    have htype' : arrow'.type = _ := htype'
    simp [addRedirects, Header.fresh, harrow, htarget, htype, htext, harrow', htarget', htype',
      htext', bind, Except.bind]

theorem scanWords_stops {word : List Word} (h : tl.Holds i (word.map .word))
    (hstop : tl.Stops (i + word.length)) (hn : word.length ≤ n) :
    scanWords tl n i = .ok (i + word.length) := by
  induction word generalizing i n with
  | nil =>
    obtain ⟨tok, hread, htype⟩ := hstop
    rw [scanWords.eq_def]
    change readToken tl i = _ at hread
    simp [hread, bind, Except.bind, htype]
  | cons w word ih =>
    obtain ⟨⟨tok, hread, htype, _⟩, hrest⟩ := h
    cases n with
    | zero => simp at hn
    | succ n =>
      rw [List.length_cons, Nat.add_comm word.length, ← Nat.add_assoc] at hstop ⊢
      have hgo := ih (n := n) hrest hstop (by simpa using hn)
      simp [scanWords, hread, bind, Except.bind, htype, hgo]

theorem readWords_holds {word : List Word} (h : tl.Holds i (word.map .word))
    (hread : readToken tl (i + word.length) = .ok tok) :
    readWords tl i (word.length + 1) = .ok (word ++ [tl.text tok]) := by
  induction word generalizing i with
  | nil =>
    change readToken tl i = _ at hread
    simp [readWords, hread, bind, Except.bind]
  | cons w word ih =>
    obtain ⟨⟨tok', hread', _, htext⟩, hrest⟩ := h
    rw [List.length_cons, Nat.add_comm word.length, ← Nat.add_assoc] at hread
    have hgo := ih hrest hread
    rw [List.length_cons, readWords, hread']
    simp [hgo, bind, Except.bind, htext]

theorem magicalWordParser_renders {h : Header} {word : List Word} (hstatus : h.status = -1)
    (hrs : RendersRedirects h.input h.output rs)
    (hholds : tl.Holds start (word.map Lexeme.word ++ rs))
    (hstop : tl.Stops (start + (word.map Lexeme.word ++ rs).length)) :
    magicalWordParser tl start (start + (word.map Lexeme.word ++ rs).length) =
      .ok (.simple h word) := by
  obtain ⟨hword, hredirects⟩ := holds_append.mp hholds
  rw [List.length_map] at hredirects
  rw [List.length_append, List.length_map, ← Nat.add_assoc] at hstop ⊢
  have hnext : tl.Stops (start + word.length) := stops_of_redirects hrs hredirects hstop
  obtain ⟨tok, hread, _⟩ := id hnext
  have hscan := scanWords_stops hword hnext (n := start + word.length + rs.length - start)
    (by omega)
  have hleft : start + word.length + rs.length - (start + word.length) = rs.length := by omega
  obtain ⟨status, input, output⟩ := h
  have hstatus : status = -1 := hstatus
  simp [magicalWordParser, hscan, readWords_holds hword hread, hleft,
    addRedirects_renders hrs hredirects, bind, Except.bind, hstatus]

/-! ## The compound commands -/

theorem readBefore_holds (h : tl.Holds i (xs ++ [l])) :
    ∃ tok, readBefore tl (i + (xs ++ [l]).length) = .ok tok ∧ tok.type = l.type := by
  obtain ⟨_, ⟨tok, hread, htok⟩, _⟩ := holds_append.mp h
  refine ⟨tok, ?_, type_of_spells htok⟩
  rw [List.length_append, List.length_singleton, ← Nat.add_assoc]
  exact hread

/-- The tokens that a complete command can end in. -/
def TokenType.endsCommand : TokenType → Bool
  | .tokWord | .tokRparen | .tokFi | .tokDone => true
  | _ => false

theorem not_endsBadly (h : t.endsCommand = true) : t.endsBadly = false := by
  cases t <;> simp [TokenType.endsCommand] at h <;> rfl

theorem RendersRedirects.exists_last {a o : Option Word} (hrs : RendersRedirects a o rs) :
    rs = [] ∨ ∃ ys w, rs = ys ++ [.word w] := by
  cases hrs with
  | none => exact .inl rfl
  | input a => exact .inr ⟨[.mark .tokLab], a, rfl⟩
  | output o => exact .inr ⟨[.mark .tokRab], o, rfl⟩
  | inputOutput a o => exact .inr ⟨[.mark .tokLab, .word a, .mark .tokRab], o, rfl⟩
  | outputInput a o => exact .inr ⟨[.mark .tokRab, .word o, .mark .tokLab], a, rfl⟩

/-- The rendering of a normal tree ends in a word or a closing token. -/
theorem Renders.exists_last {sep : TokenType → List Lexeme → Prop} (h : Renders sep c ls)
    (hc : c.Normal) : ∃ xs l, ls = xs ++ [l] ∧ l.type.endsCommand = true := by
  have hend : ∀ {a o rs l} (zs : List Lexeme), RendersRedirects a o rs →
      l.type.endsCommand = true →
      ∃ xs l', zs ++ l :: rs = xs ++ [l'] ∧ l'.type.endsCommand = true := by
    intro a o rs l zs hr hl
    rcases hr.exists_last with rfl | ⟨ys, w, rfl⟩
    · exact ⟨zs, l, rfl, hl⟩
    · exact ⟨zs ++ l :: ys, .word w, by simp, rfl⟩
  induction h with
  | @simple h word rs hr =>
    rcases List.eq_nil_or_concat word with hnil | ⟨init, w, rfl⟩
    · exact absurd hnil hc.2
    · obtain ⟨xs, l, hxs, hl⟩ := hend (l := .word w) (init.map .word) hr rfl
      exact ⟨xs, l, by simpa using hxs, hl⟩
  | @sequence h a b xs ys _ _ _ ihb =>
    obtain ⟨zs, l, rfl, hl⟩ := ihb hc.2.2.1
    exact ⟨xs ++ .mark .tokSc :: zs, l, by simp, hl⟩
  | @pipe h a b xs ys _ _ _ ihb =>
    obtain ⟨zs, l, rfl, hl⟩ := ihb hc.2.2.1
    exact ⟨xs ++ .mark .tokPipe :: zs, l, by simp, hl⟩
  | @subshell h a xs s rs _ _ hr =>
    simpa using hend (l := .mark .tokRparen) (.mark .tokLparen :: (xs ++ s)) hr rfl
  | @loop k h a b xs ys s₁ s₂ rs _ _ _ _ hr =>
    simpa using hend (l := .mark .tokDone)
      (.mark k.keyword :: (xs ++ s₁ ++ .mark .tokDo :: (ys ++ s₂))) hr rfl
  | @ifThen h a b xs ys s₁ s₂ rs _ _ _ _ hr =>
    simpa using hend (l := .mark .tokFi)
      (.mark .tokIf :: (xs ++ s₁ ++ .mark .tokThen :: (ys ++ s₂))) hr rfl
  | @ifElse h a b c xs ys zs s₁ s₂ s₃ rs _ _ _ _ _ _ hr =>
    simpa using hend (l := .mark .tokFi)
      (.mark .tokIf :: (xs ++ s₁ ++ .mark .tokThen :: (ys ++ s₂ ++ .mark .tokElse :: (zs ++ s₃))))
      hr rfl

section Compound
variable {P : Nat → Nat → Except Fault Command}

theorem checkFailParse_part (hs : looseSeparators t s)
    (hlast : ∃ zs l, xs = zs ++ [l] ∧ l.type.endsCommand = true) (h : tl.Holds i (xs ++ s))
    (hparse : P i (i + xs.length) = .ok c) :
    checkFailParse P tl i (i + (xs ++ s).length) = .ok c := by
  rcases hs with rfl | rfl
  · obtain ⟨zs, l, rfl, hl⟩ := hlast
    rw [List.append_nil] at h ⊢
    obtain ⟨tok, hread, htype⟩ := readBefore_holds h
    have hne : tok.type ≠ .tokSc := by
      intro he
      rw [← htype, he] at hl
      cases hl
    rw [checkFailParse, hread]
    simp only [bind, Except.bind, if_neg hne, hparse]
  · obtain ⟨tok, hread, htype⟩ := readBefore_holds h
    have hsc : tok.type = .tokSc := htype
    rw [List.length_append, List.length_singleton, ← Nat.add_assoc] at hread ⊢
    rw [checkFailParse, hread]
    simp only [bind, Except.bind, if_pos hsc, Nat.add_sub_cancel, hparse]

variable {h : Header} {a b : Command} {cond body other : List Lexeme}

theorem magicalSubshellParser_renders (hstatus : h.status = -1)
    (hrs : RendersRedirects h.input h.output rs) (hbody : Part body)
    (hls : ls = .mark .tokLparen :: (body ++ .mark .tokRparen :: rs)) (hholds : tl.Holds start ls)
    (hparse : checkFailParse P tl (start + 1) (start + 1 + body.length) = .ok a) :
    magicalSubshellParser P tl start (start + ls.length) = .ok (.subshell h a) := by
  have hn : start + ls.length - (start + 1) = body.length + (rs.length + 1) := by
    simp [hls]
    omega
  have hleft : start + ls.length - (start + 1 + body.length + 1) = rs.length := by
    simp [hls]
    omega
  rw [hls] at hholds
  obtain ⟨_, hrest⟩ := hholds
  obtain ⟨_, _, hredirects⟩ := holds_append.mp hrest
  have hscan : scanForward tl [] .tokRparen none (body.length + (rs.length + 1)) (start + 1) 0
      (fun _ => none) = .ok (some (start + 1 + body.length), fun _ => none) :=
    scanForward_end hbody hrest (by simp [Lexeme.closing, Lexeme.type]) (by simp)
  obtain ⟨status, input, output⟩ := h
  have hstatus : status = -1 := hstatus
  simp only [magicalSubshellParser, hn, hscan, bind, Except.bind, hparse, hleft,
    addRedirects_renders hrs hredirects, hstatus]

theorem magicalWhileUntilParser_renders {type : LoopType} (hstatus : h.status = -1)
    (hrs : RendersRedirects h.input h.output rs) (hcond : Part cond) (hbody : Part body)
    (hne : cond ≠ [])
    (hls : ls = .mark type.keyword :: (cond ++ .mark .tokDo :: (body ++ .mark .tokDone :: rs)))
    (hholds : tl.Holds start ls)
    (hparse : checkFailParse P tl (start + 1) (start + 1 + cond.length) = .ok a)
    (hparse' : checkFailParse P tl (start + 1 + cond.length + 1)
      (start + 1 + cond.length + 1 + body.length) = .ok b) :
    magicalWhileUntilParser P tl start (start + ls.length) = .ok (.loop type h a b) := by
  have hpos : 0 < cond.length := List.length_pos_iff.mpr hne
  have hn : start + ls.length - (start + 1) =
      cond.length + (body.length + (rs.length + 1) + 1) := by
    simp [hls]
    omega
  have hleft : start + ls.length - (start + 1 + cond.length + 1 + body.length + 1) =
      rs.length := by
    simp [hls]
    omega
  rw [hls] at hholds
  obtain ⟨⟨tok, hread, htok⟩, hrest⟩ := hholds
  have htype : loopTypeAt tl start = .ok type := by
    have htok : tok.type = type.keyword := htok
    cases type <;> simp [loopTypeAt, hread, bind, Except.bind, htok, LoopType.keyword]
  obtain ⟨_, _, htail⟩ := holds_append.mp hrest
  obtain ⟨_, _, hredirects⟩ := holds_append.mp htail
  have hclosing : ∀ u, u = TokenType.tokDone ∨ u ∈ [TokenType.tokDo] →
      (Lexeme.mark u).closing := by
    simp [Lexeme.closing, Lexeme.type]
  have hscan : scanForward tl [.tokDo] .tokDone (some (start + 1))
      (cond.length + (body.length + (rs.length + 1) + 1)) (start + 1) 0 (fun _ => none) =
      .ok (some (start + 1 + cond.length + 1 + body.length),
        Function.update (fun _ => none) .tokDo (some (start + 1 + cond.length))) :=
    (scanForward_part hcond hrest hclosing (by simp; omega) (by simp) (by simp) rfl).trans
      (scanForward_end hbody htail hclosing (by simp; omega))
  obtain ⟨status, input, output⟩ := h
  have hstatus : status = -1 := hstatus
  simp only [magicalWhileUntilParser, htype, hn, hscan, bind, Except.bind, hparse, hparse',
    hleft, addRedirects_renders hrs hredirects, hstatus, Function.update_self]

theorem closing_of_if {u : TokenType} (h : u = .tokFi ∨ u ∈ [TokenType.tokThen, .tokElse]) :
    (Lexeme.mark u).closing := by
  simp only [List.mem_cons, List.not_mem_nil, or_false] at h
  rcases h with rfl | rfl | rfl <;> simp [Lexeme.closing, Lexeme.type]

theorem magicalIfParser_renders_then (hstatus : h.status = -1)
    (hrs : RendersRedirects h.input h.output rs) (hcond : Part cond) (hbody : Part body)
    (hne : cond ≠ [])
    (hls : ls = .mark .tokIf :: (cond ++ .mark .tokThen :: (body ++ .mark .tokFi :: rs)))
    (hholds : tl.Holds start ls)
    (hparse : checkFailParse P tl (start + 1) (start + 1 + cond.length) = .ok a)
    (hparse' : checkFailParse P tl (start + 1 + cond.length + 1)
      (start + 1 + cond.length + 1 + body.length) = .ok b) :
    magicalIfParser P tl start (start + ls.length) = .ok (.ifThen h a b) := by
  have hpos : 0 < cond.length := List.length_pos_iff.mpr hne
  have hn : start + ls.length - (start + 1) =
      cond.length + (body.length + (rs.length + 1) + 1) := by
    simp [hls]
    omega
  have hleft : start + ls.length - (start + 1 + cond.length + 1 + body.length + 1) =
      rs.length := by
    simp [hls]
    omega
  rw [hls] at hholds
  obtain ⟨_, hrest⟩ := hholds
  obtain ⟨_, _, htail⟩ := holds_append.mp hrest
  obtain ⟨_, _, hredirects⟩ := holds_append.mp htail
  have hscan : scanForward tl [.tokThen, .tokElse] .tokFi (some (start + 1))
      (cond.length + (body.length + (rs.length + 1) + 1)) (start + 1) 0 (fun _ => none) =
      .ok (some (start + 1 + cond.length + 1 + body.length),
        Function.update (fun _ => none) .tokThen (some (start + 1 + cond.length))) :=
    (scanForward_part hcond hrest (fun _ => closing_of_if) (by simp; omega) (by simp) (by simp)
      rfl).trans (scanForward_end hbody htail (fun _ => closing_of_if) (by simp; omega))
  obtain ⟨status, input, output⟩ := h
  have hstatus : status = -1 := hstatus
  simp [magicalIfParser, hn, hscan, bind, Except.bind, hparse, hparse', hleft,
    addRedirects_renders hrs hredirects, hstatus]

theorem magicalIfParser_renders_else (hstatus : h.status = -1)
    (hrs : RendersRedirects h.input h.output rs) (hcond : Part cond) (hbody : Part body)
    (hother : Part other) (hne : cond ≠ [])
    (hls : ls = .mark .tokIf :: (cond ++ .mark .tokThen :: (body ++ .mark .tokElse ::
      (other ++ .mark .tokFi :: rs))))
    (hholds : tl.Holds start ls)
    (hparse : checkFailParse P tl (start + 1) (start + 1 + cond.length) = .ok a)
    (hparse' : checkFailParse P tl (start + 1 + cond.length + 1)
      (start + 1 + cond.length + 1 + body.length) = .ok b)
    (hparse'' : checkFailParse P tl (start + 1 + cond.length + 1 + body.length + 1)
      (start + 1 + cond.length + 1 + body.length + 1 + other.length) = .ok c) :
    magicalIfParser P tl start (start + ls.length) = .ok (.ifElse h a b c) := by
  have hpos : 0 < cond.length := List.length_pos_iff.mpr hne
  have hn : start + ls.length - (start + 1) =
      cond.length + (body.length + (other.length + (rs.length + 1) + 1) + 1) := by
    simp [hls]
    omega
  have hleft : start + ls.length -
      (start + 1 + cond.length + 1 + body.length + 1 + other.length + 1) = rs.length := by
    simp [hls]
    omega
  rw [hls] at hholds
  obtain ⟨_, hrest⟩ := hholds
  obtain ⟨_, _, htail⟩ := holds_append.mp hrest
  obtain ⟨_, _, htail'⟩ := holds_append.mp htail
  obtain ⟨_, _, hredirects⟩ := holds_append.mp htail'
  have hscan : scanForward tl [.tokThen, .tokElse] .tokFi (some (start + 1))
      (cond.length + (body.length + (other.length + (rs.length + 1) + 1) + 1)) (start + 1) 0
      (fun _ => none) =
      .ok (some (start + 1 + cond.length + 1 + body.length + 1 + other.length),
        Function.update (Function.update (fun _ => none) .tokThen
          (some (start + 1 + cond.length))) .tokElse
          (some (start + 1 + cond.length + 1 + body.length))) :=
    ((scanForward_part hcond hrest (fun _ => closing_of_if) (by simp; omega) (by simp) (by simp)
      rfl).trans (scanForward_part hbody htail (fun _ => closing_of_if) (by simp; omega) (by simp)
        (by simp) rfl)).trans
      (scanForward_end hother htail' (fun _ => closing_of_if) (by simp; omega))
  obtain ⟨status, input, output⟩ := h
  have hstatus : status = -1 := hstatus
  simp [magicalIfParser, hn, hscan, bind, Except.bind, hparse, hparse', hparse'', hleft,
    addRedirects_renders hrs hredirects, hstatus]

end Compound

/-! ## The whole parser -/

section Whole
variable {sep : TokenType → List Lexeme → Prop}

theorem Renders.ne_nil (h : Renders sep c ls) (hc : c.Normal) : ls ≠ [] := by
  obtain ⟨xs, l, rfl, _⟩ := h.exists_last hc
  simp

theorem parse_sequence {fuel : Nat} {a b : Command} (hend : ∃ zs l, ys = zs ++ [l] ∧
      l.type.endsCommand = true) (hys : Level .tokSc True True ys)
    (hls : ls = xs ++ .mark .tokSc :: ys) (hholds : tl.Holds start ls)
    (hfirst : parse fuel tl start (start + xs.length) = .ok a)
    (hsecond : parse fuel tl (start + xs.length + 1) (start + ls.length) = .ok b) :
    parse (fuel + 1) tl start (start + ls.length) = .ok (.sequence .fresh a b) := by
  obtain ⟨zs, l, rfl, hl⟩ := hend
  have hlast : tl.Holds start ((xs ++ .mark .tokSc :: zs) ++ [l]) := by simpa [hls] using hholds
  obtain ⟨tok, hread, htype⟩ := readBefore_holds hlast
  have hread : readBefore tl (start + ls.length) = .ok tok := by simpa [hls] using hread
  rw [hls] at hholds
  have hscan := scanBack_found (holds_append.mp hholds).2
    (hys.backward 0 (Int.le_refl 0) fun _ => trivial) hys.rise_eq
  rw [← hls] at hscan
  simp [parse, hread, htype, not_endsBadly hl, hscan, hfirst, hsecond, bind, Except.bind]

theorem parse_pipe {fuel : Nat} {a b : Command} (hend : ∃ zs l, ys = zs ++ [l] ∧
      l.type.endsCommand = true) (hys : Level .tokPipe True True ys)
    (hfree : Level .tokSc True True ls)
    (hls : ls = xs ++ .mark .tokPipe :: ys) (hholds : tl.Holds start ls)
    (hfirst : parse fuel tl start (start + xs.length) = .ok a)
    (hsecond : parse fuel tl (start + xs.length + 1) (start + ls.length) = .ok b) :
    parse (fuel + 1) tl start (start + ls.length) = .ok (.pipe .fresh a b) := by
  obtain ⟨zs, l, rfl, hl⟩ := hend
  have hlast : tl.Holds start ((xs ++ .mark .tokPipe :: zs) ++ [l]) := by
    simpa [hls] using hholds
  obtain ⟨tok, hread, htype⟩ := readBefore_holds hlast
  have hread : readBefore tl (start + ls.length) = .ok tok := by simpa [hls] using hread
  have hnone := scanBack_none hholds (by simp [hls])
    (hfree.backward 0 (Int.le_refl 0) fun _ => trivial)
  rw [hls] at hholds
  have hscan := scanBack_found (holds_append.mp hholds).2
    (hys.backward 0 (Int.le_refl 0) fun _ => trivial) hys.rise_eq
  rw [← hls] at hscan
  simp [parse, hread, htype, not_endsBadly hl, hnone, hscan, hfirst, hsecond, bind, Except.bind]

theorem parse_single {fuel : Nat} (hend : ∃ zs l, ls = zs ++ [l] ∧ l.type.endsCommand = true)
    (hsc : Level .tokSc True True ls) (hpipe : Level .tokPipe True True ls)
    (hholds : tl.Holds start ls) :
    parse (fuel + 1) tl start (start + ls.length) =
      parseSingle (parse fuel tl) tl start (start + ls.length) := by
  obtain ⟨zs, l, rfl, hl⟩ := hend
  obtain ⟨tok, hread, htype⟩ := readBefore_holds hholds
  have hne : zs ++ [l] ≠ [] := by simp
  have hnone := scanBack_none hholds hne (hsc.backward 0 (Int.le_refl 0) fun _ => trivial)
  have hnone' := scanBack_none hholds hne (hpipe.backward 0 (Int.le_refl 0) fun _ => trivial)
  simp only [parse, hread, htype, not_endsBadly hl, hnone, hnone', bind, Except.bind, Bool.false_eq_true,
    if_false]

theorem parseSingle_eq {P : Nat → Nat → Except Fault Command} {e : Nat}
    (h : tl.Holds start (l :: ls)) : parseSingle P tl start e =
      match l.type with
      | .tokIf => magicalIfParser P tl start e
      | .tokWhile | .tokUntil => magicalWhileUntilParser P tl start e
      | .tokLparen => magicalSubshellParser P tl start e
      | .tokWord => magicalWordParser tl start e
      | _ => failAt tl start "Invalid token" := by
  obtain ⟨⟨tok, hread, htok⟩, _⟩ := h
  have htype := type_of_spells htok
  cases ht : l.type <;> simp only [parseSingle, hread, bind, Except.bind, htype, ht]

/-- What the induction over a rendering knows about an inner command. -/
def Parses (tl : TokenList) (c : Command) (ls : List Lexeme) : Prop :=
  ∀ fuel start, ls.length ≤ fuel → tl.Holds start ls → tl.Stops (start + ls.length) →
    parse fuel tl start (start + ls.length) = .ok c

theorem Renders.part (hsep : ∀ {t s}, sep t s → looseSeparators t s) (h : Renders sep c xs)
    (hs : sep t s) : Part (xs ++ s) := by
  have hlevel : Level .tokSc True False xs := (h.level hsep (.inl rfl)).imp id False.elim
  have hall := hlevel.append (Level.separator (hsep hs))
  exact ⟨hall.forward 0 (Int.le_refl 0) fun _ => trivial, hall.rise_eq⟩

theorem Parses.checkFailParse {fuel : Nat} (hsep : ∀ {t s}, sep t s → looseSeparators t s)
    (hparses : Parses tl c xs) (h : Renders sep c xs) (hc : c.Normal) (hs : sep t s)
    (ht : t ≠ .tokWord) (hfuel : xs.length ≤ fuel) (hholds : tl.Holds i (xs ++ s ++ .mark t :: ls)) :
    checkFailParse (parse fuel tl) tl i (i + (xs ++ s).length) = .ok c := by
  have hbody := (holds_append.mp hholds).1
  rw [List.append_assoc] at hholds
  have hstop := stops_of_separator (hsep hs) (holds_append.mp hholds).2 ht
  exact checkFailParse_part (hsep hs) (h.exists_last hc) hbody
    (hparses fuel i hfuel (holds_append.mp hbody).1 hstop)

theorem parses_renders (hsep : ∀ {t s}, sep t s → looseSeparators t s) (h : Renders sep c ls)
    (hc : c.Normal) : Parses tl c ls := by
  have hfree : ∀ {c ls t}, Renders sep c ls → t = .tokSc ∨ t = .tokPipe → c.free t →
      Level t True True ls := fun h ht hf => (h.level hsep ht).imp id fun _ => hf
  induction h with
  | @simple h word rs hrs =>
    intro fuel start hfuel hholds hstop
    have hr : Renders sep (.simple h word) (word.map .word ++ rs) := .simple hrs
    cases word with
    | nil => exact absurd rfl hc.2
    | cons w word =>
      cases fuel with
      | zero => simp at hfuel
      | succ fuel =>
        rw [parse_single (hr.exists_last hc) (hfree hr (.inl rfl) trivial)
          (hfree hr (.inr rfl) trivial) hholds, parseSingle_eq hholds]
        exact magicalWordParser_renders hc.1 hrs hholds hstop
  | @sequence h a b xs ys ha hb iha ihb =>
    intro fuel start hfuel hholds hstop
    obtain ⟨rfl, hna, hnb, hseq⟩ := hc
    cases fuel with
    | zero => simp at hfuel
    | succ fuel =>
      obtain ⟨hxs, hmark, hys⟩ := holds_append.mp hholds
      have hlen : start + (xs ++ .mark .tokSc :: ys).length =
          start + xs.length + 1 + ys.length := by
        simp
        omega
      simp only [List.length_append, List.length_cons] at hfuel
      refine parse_sequence (hb.exists_last hnb) (hfree hb (.inl rfl) (hnb.free_sc hseq)) rfl
        hholds ?_ ?_
      · exact iha hna fuel start (by omega) hxs
          (stops_of_holds_mark ⟨hmark, hys⟩ (by decide))
      · rw [hlen] at hstop ⊢
        exact ihb hnb fuel _ (by omega) hys hstop
  | @pipe h a b xs ys ha hb iha ihb =>
    intro fuel start hfuel hholds hstop
    have hr := Renders.pipe (h := h) ha hb
    have hscfree := hfree hr (.inl rfl) (hc.free_sc rfl)
    obtain ⟨rfl, hna, hnb, _, hsc, hpipe⟩ := hc
    cases fuel with
    | zero => simp at hfuel
    | succ fuel =>
      obtain ⟨hxs, hmark, hys⟩ := holds_append.mp hholds
      have hlen : start + (xs ++ .mark .tokPipe :: ys).length =
          start + xs.length + 1 + ys.length := by
        simp
        omega
      simp only [List.length_append, List.length_cons] at hfuel
      refine parse_pipe (hb.exists_last hnb)
        (hfree hb (.inr rfl) (Command.free_pipe hsc hpipe)) hscfree rfl hholds ?_ ?_
      · exact iha hna fuel start (by omega) hxs
          (stops_of_holds_mark ⟨hmark, hys⟩ (by decide))
      · rw [hlen] at hstop ⊢
        exact ihb hnb fuel _ (by omega) hys hstop
  | @subshell h a xs s rs ha hs hrs ih =>
    intro fuel start hfuel hholds hstop
    have hr := Renders.subshell (h := h) ha hs hrs
    cases fuel with
    | zero => simp at hfuel
    | succ fuel =>
      rw [parse_single (hr.exists_last hc) (hfree hr (.inl rfl) trivial)
        (hfree hr (.inr rfl) trivial) hholds, parseSingle_eq hholds]
      simp only [List.length_append, List.length_cons] at hfuel
      exact magicalSubshellParser_renders hc.1 hrs (ha.part hsep hs) rfl hholds
        ((ih hc.2).checkFailParse hsep ha hc.2 hs (by decide) (by omega) hholds.2)
  | @loop k h a b xs ys s₁ s₂ rs ha hs₁ hb hs₂ hrs iha ihb =>
    intro fuel start hfuel hholds hstop
    have hr := Renders.loop (t := k) (h := h) ha hs₁ hb hs₂ hrs
    cases fuel with
    | zero => simp at hfuel
    | succ fuel =>
      rw [parse_single (hr.exists_last hc) (hfree hr (.inl rfl) trivial)
        (hfree hr (.inr rfl) trivial) hholds, parseSingle_eq hholds]
      simp only [List.length_append, List.length_cons] at hfuel
      obtain ⟨hstatus, hna, hnb⟩ := hc
      have hne : xs ++ s₁ ≠ [] := fun h => ha.ne_nil hna (List.append_eq_nil_iff.mp h).1
      have hfuel' : xs.length ≤ fuel ∧ ys.length ≤ fuel := by omega
      have hgo := magicalWhileUntilParser_renders hstatus hrs (ha.part hsep hs₁)
        (hb.part hsep hs₂) hne rfl hholds
        ((iha hna).checkFailParse hsep ha hna hs₁ (by decide) hfuel'.1 hholds.2)
        ((ihb hnb).checkFailParse hsep hb hnb hs₂ (by decide) hfuel'.2
          (holds_append.mp hholds.2).2.2)
      cases k <;> exact hgo
  | @ifThen h a b xs ys s₁ s₂ rs ha hs₁ hb hs₂ hrs iha ihb =>
    intro fuel start hfuel hholds hstop
    have hr := Renders.ifThen (h := h) ha hs₁ hb hs₂ hrs
    cases fuel with
    | zero => simp at hfuel
    | succ fuel =>
      rw [parse_single (hr.exists_last hc) (hfree hr (.inl rfl) trivial)
        (hfree hr (.inr rfl) trivial) hholds, parseSingle_eq hholds]
      simp only [List.length_append, List.length_cons] at hfuel
      obtain ⟨hstatus, hna, hnb⟩ := hc
      have hne : xs ++ s₁ ≠ [] := fun h => ha.ne_nil hna (List.append_eq_nil_iff.mp h).1
      exact magicalIfParser_renders_then hstatus hrs (ha.part hsep hs₁) (hb.part hsep hs₂) hne rfl
        hholds ((iha hna).checkFailParse hsep ha hna hs₁ (by decide) (by omega) hholds.2)
        ((ihb hnb).checkFailParse hsep hb hnb hs₂ (by decide) (by omega)
          (holds_append.mp hholds.2).2.2)
  | @ifElse h a b c xs ys zs s₁ s₂ s₃ rs ha hs₁ hb hs₂ hce hs₃ hrs iha ihb ihc =>
    intro fuel start hfuel hholds hstop
    have hr := Renders.ifElse (h := h) ha hs₁ hb hs₂ hce hs₃ hrs
    cases fuel with
    | zero => simp at hfuel
    | succ fuel =>
      rw [parse_single (hr.exists_last hc) (hfree hr (.inl rfl) trivial)
        (hfree hr (.inr rfl) trivial) hholds, parseSingle_eq hholds]
      simp only [List.length_append, List.length_cons] at hfuel
      obtain ⟨hstatus, hna, hnb, hnc⟩ := hc
      have hne : xs ++ s₁ ≠ [] := fun h => ha.ne_nil hna (List.append_eq_nil_iff.mp h).1
      have hthen := (holds_append.mp hholds.2).2.2
      have helse := (holds_append.mp hthen).2.2
      exact magicalIfParser_renders_else hstatus hrs (ha.part hsep hs₁) (hb.part hsep hs₂)
        (hce.part hsep hs₃) hne rfl hholds
        ((iha hna).checkFailParse hsep ha hna hs₁ (by decide) (by omega) hholds.2)
        ((ihb hnb).checkFailParse hsep hb hnb hs₂ (by decide) (by omega) hthen)
        ((ihc hnc).checkFailParse hsep hce hnc hs₃ (by decide) (by omega) helse)

end Whole

/-- Every rendering of a normal tree, followed by a newline token, is parsed to that tree. The
number of tokens bounds the depth of the calls. -/
theorem parse_renders {tl : TokenList} {c : Command} {ls : List Lexeme} {start fuel : Nat}
    (hc : c.Normal) (h : Renders exactSeparators c ls)
    (hholds : tl.Holds start (ls ++ [.mark .tokNl])) (hfuel : ls.length ≤ fuel) :
    parse fuel tl start (start + ls.length) = .ok c := by
  obtain ⟨hls, hnl⟩ := holds_append.mp hholds
  exact parses_renders looseSeparators_of_exact h hc fuel start hfuel hls
    (stops_of_holds_mark hnl (by decide))

theorem parse_renders_subshell :
    parse 5 ⟨[40, 0, 97, 0, 41, 0, 62, 0, 98, 0, 10, 0],
        [⟨.tokLparen, 0, 1⟩, ⟨.tokWord, 2, 1⟩, ⟨.tokRparen, 4, 1⟩, ⟨.tokRab, 6, 1⟩,
          ⟨.tokWord, 8, 1⟩, ⟨.tokNl, 10, 2⟩]⟩ 0 5 =
      .ok (.subshell ⟨-1, none, some [98]⟩ (.simple .fresh [[97]])) :=
  let body : Renders exactSeparators (.simple .fresh [[97]]) [.word [97]] := .simple .none
  let whole : Renders exactSeparators (.subshell ⟨-1, none, some [98]⟩ (.simple .fresh [[97]]))
      [.mark .tokLparen, .word [97], .mark .tokRparen, .mark .tokRab, .word [98]] :=
    .subshell (s := []) body rfl (.output [98])
  have hnormal : (Command.subshell ⟨-1, none, some [98]⟩ (.simple .fresh [[97]])).Normal :=
    ⟨rfl, rfl, by simp⟩
  parse_renders hnormal whole
    ⟨⟨_, rfl, rfl⟩, ⟨_, rfl, rfl, rfl⟩, ⟨_, rfl, rfl⟩, ⟨_, rfl, rfl⟩, ⟨_, rfl, rfl, rfl⟩,
      ⟨_, rfl, rfl⟩, trivial⟩ (by decide)

end CS111.Shell
