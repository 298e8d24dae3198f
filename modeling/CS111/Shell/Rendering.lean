import CS111.Lib.Passes
import CS111.Shell.Parser

/-!
# Token renderings of command trees

`Renders sep c ls` says that the lexemes `ls` spell out the tree `c`. Here `sep t` says what may
stand between a command and the token `t` that closes it.
-/

namespace CS111.Shell

set_option autoImplicit false

inductive Lexeme where
  | word (text : Word)
  | mark (type : TokenType)
  deriving Repr, DecidableEq

def Lexeme.type : Lexeme → TokenType
  | .word _ => .tokWord
  | .mark t => t

/-- The redirections of a command, in either order. -/
inductive RendersRedirects : Option Word → Option Word → List Lexeme → Prop
  | none : RendersRedirects .none .none []
  | input (i : Word) : RendersRedirects (some i) .none [.mark .tokLab, .word i]
  | output (o : Word) : RendersRedirects .none (some o) [.mark .tokRab, .word o]
  | inputOutput (i o : Word) :
      RendersRedirects (some i) (some o) [.mark .tokLab, .word i, .mark .tokRab, .word o]
  | outputInput (i o : Word) :
      RendersRedirects (some i) (some o) [.mark .tokRab, .word o, .mark .tokLab, .word i]

inductive Renders (sep : TokenType → List Lexeme → Prop) : Command → List Lexeme → Prop
  | simple {h : Header} {word : List Word} {rs : List Lexeme} :
      RendersRedirects h.input h.output rs →
      Renders sep (.simple h word) (word.map .word ++ rs)
  | sequence {h : Header} {a b : Command} {xs ys : List Lexeme} :
      Renders sep a xs → Renders sep b ys →
      Renders sep (.sequence h a b) (xs ++ .mark .tokSc :: ys)
  | pipe {h : Header} {a b : Command} {xs ys : List Lexeme} :
      Renders sep a xs → Renders sep b ys →
      Renders sep (.pipe h a b) (xs ++ .mark .tokPipe :: ys)
  | subshell {h : Header} {a : Command} {xs s rs : List Lexeme} :
      Renders sep a xs → sep .tokRparen s → RendersRedirects h.input h.output rs →
      Renders sep (.subshell h a) (.mark .tokLparen :: (xs ++ s ++ .mark .tokRparen :: rs))
  | loop {t : LoopType} {h : Header} {a b : Command} {xs ys s₁ s₂ rs : List Lexeme} :
      Renders sep a xs → sep .tokDo s₁ → Renders sep b ys → sep .tokDone s₂ →
      RendersRedirects h.input h.output rs →
      Renders sep (.loop t h a b)
        (.mark t.keyword :: (xs ++ s₁ ++ .mark .tokDo :: (ys ++ s₂ ++ .mark .tokDone :: rs)))
  | ifThen {h : Header} {a b : Command} {xs ys s₁ s₂ rs : List Lexeme} :
      Renders sep a xs → sep .tokThen s₁ → Renders sep b ys → sep .tokFi s₂ →
      RendersRedirects h.input h.output rs →
      Renders sep (.ifThen h a b)
        (.mark .tokIf :: (xs ++ s₁ ++ .mark .tokThen :: (ys ++ s₂ ++ .mark .tokFi :: rs)))
  | ifElse {h : Header} {a b c : Command} {xs ys zs s₁ s₂ s₃ rs : List Lexeme} :
      Renders sep a xs → sep .tokThen s₁ → Renders sep b ys → sep .tokElse s₂ →
      Renders sep c zs → sep .tokFi s₃ → RendersRedirects h.input h.output rs →
      Renders sep (.ifElse h a b c)
        (.mark .tokIf :: (xs ++ s₁ ++ .mark .tokThen :: (ys ++ s₂ ++
          .mark .tokElse :: (zs ++ s₃ ++ .mark .tokFi :: rs))))

/-- One `;` before `then`, `else`, `fi`, `do` and `done`, none before `)`. -/
def exactSeparators (t : TokenType) (s : List Lexeme) : Prop :=
  s = if t = .tokRparen then [] else [.mark .tokSc]

/-- One `;` at most. -/
def looseSeparators (_ : TokenType) (s : List Lexeme) : Prop := s = [] ∨ s = [.mark .tokSc]

theorem looseSeparators_of_exact {t : TokenType} {s : List Lexeme} (h : exactSeparators t s) :
    looseSeparators t s := by
  unfold exactSeparators at h
  split at h
  · exact .inl h
  · exact .inr h

def Lexeme.nest (l : Lexeme) : Int := nesting l.type

/-- The tokens that a pass to the right may stop at. -/
def Lexeme.closing (l : Lexeme) : Prop :=
  l.type ∈ [TokenType.tokThen, .tokElse, .tokFi, .tokDo, .tokDone, .tokRparen]

theorem RendersRedirects.lexemes {i o : Option Word} {rs : List Lexeme}
    (h : RendersRedirects i o rs) :
    ∀ l ∈ rs, l.type ∈ [TokenType.tokWord, .tokLab, .tokRab] := by
  cases h <;> simp [Lexeme.type]

/-- Passes in both directions go through `ls` and leave the depth as it was: at depth 0 they
need `p` and `q`, and further inside they meet nothing. -/
structure Level (sep : TokenType) (p q : Prop) (ls : List Lexeme) : Prop where
  rise_eq : rise Lexeme.nest ls = 0
  forward : ∀ d : Int, 0 ≤ d → (d = 0 → p) → Clear Lexeme.nest Lexeme.closing d ls
  backward : ∀ d : Int, 0 ≤ d → (d = 0 → q) →
    Clear (fun l => -l.nest) (fun l => l.type = sep) d ls.reverse

namespace Level
variable {sep : TokenType} {p q p' q' : Prop} {xs ys : List Lexeme}

theorem imp (h : Level sep p q xs) (hp : p' → p) (hq : q' → q) : Level sep p' q' xs where
  rise_eq := h.rise_eq
  forward := fun d hd h0 => h.forward d hd fun he => hp (h0 he)
  backward := fun d hd h0 => h.backward d hd fun he => hq (h0 he)

theorem append (hx : Level sep p q xs) (hy : Level sep p q ys) : Level sep p q (xs ++ ys) where
  rise_eq := by rw [rise_append, hx.rise_eq, hy.rise_eq]; rfl
  forward := by
    intro d hd h0
    rw [clear_append, hx.rise_eq, add_zero]
    exact ⟨hx.forward d hd h0, hy.forward d hd h0⟩
  backward := by
    intro d hd h0
    have hzero : rise (fun l : Lexeme => -l.nest) ys.reverse = 0 := by
      rw [rise_reverse, rise_neg, hy.rise_eq]
      rfl
    rw [List.reverse_append, clear_append, hzero, add_zero]
    exact ⟨hy.backward d hd h0, hx.backward d hd h0⟩

/-- A lexeme that opens or closes nothing. -/
theorem single {l : Lexeme} (hnest : l.nest = 0) (hp : p → ¬ l.closing) (hq : q → l.type ≠ sep) :
    Level sep p q [l] where
  rise_eq := by simpa using hnest
  forward := fun _ _ h0 => ⟨fun he => hp (h0 he), trivial⟩
  backward := fun _ _ h0 => ⟨fun he => hq (h0 he), trivial⟩

theorem flat (h : ∀ l ∈ xs, l.type ∈ [TokenType.tokWord, .tokLab, .tokRab])
    (hsep : sep = .tokSc ∨ sep = .tokPipe) : Level sep p q xs := by
  induction xs with
  | nil => exact ⟨rfl, fun _ _ _ => trivial, fun _ _ _ => trivial⟩
  | cons l xs ih =>
    have hl := h l List.mem_cons_self
    have hrest := ih fun m hm => h m (List.mem_cons_of_mem l hm)
    refine List.singleton_append ▸ append (single ?_ ?_ ?_) hrest
    · simp only [List.mem_cons, List.not_mem_nil, or_false] at hl
      rcases hl with h | h | h <;> simp [Lexeme.nest, h, nesting]
    · simp only [List.mem_cons, List.not_mem_nil, or_false] at hl
      rcases hl with h | h | h <;> simp [Lexeme.closing, h]
    · simp only [List.mem_cons, List.not_mem_nil, or_false] at hl
      rcases hl with h | h | h <;> rcases hsep with rfl | rfl <;> simp [h]

theorem separator {t : TokenType} (h : looseSeparators t xs) : Level sep p False xs := by
  rcases h with rfl | rfl
  · exact ⟨rfl, fun _ _ _ => trivial, fun _ _ _ => trivial⟩
  · exact single rfl (fun _ => by simp [Lexeme.closing, Lexeme.type]) False.elim

/-- Nothing at depth 0 matters between an opening and a closing token. -/
theorem enclose {o c : TokenType} (ho : nesting o = 1) (hc : nesting c = -1) (hsep : c ≠ sep)
    (h : Level sep False False xs) : Level sep True True (.mark o :: xs ++ [.mark c]) where
  rise_eq := by
    have hopen : (Lexeme.mark o).nest = 1 := ho
    have hclose : (Lexeme.mark c).nest = -1 := hc
    simp [h.rise_eq, hopen, hclose]
  forward := by
    intro d hd _
    have hopen : (Lexeme.mark o).nest = 1 := ho
    rw [List.cons_append, clear_cons, clear_append, hopen, h.rise_eq]
    refine ⟨fun _ => ?_, h.forward (d + 1) (by omega) (by omega), fun h0 => by omega, trivial⟩
    cases o <;> simp [nesting] at ho <;> simp [Lexeme.closing, Lexeme.type]
  backward := by
    intro d hd _
    have hclose : -(Lexeme.mark c).nest = 1 := by
      change -nesting c = 1
      omega
    have hzero : rise (fun l : Lexeme => -l.nest) xs.reverse = 0 := by
      rw [rise_reverse, rise_neg, h.rise_eq]
      rfl
    rw [List.reverse_append, List.reverse_singleton, List.singleton_append, List.reverse_cons,
      clear_cons, clear_append, hclose, hzero]
    exact ⟨fun _ => hsep, h.backward (d + 1) (by omega) (by omega), fun h0 => by omega, trivial⟩

end Level

theorem LoopType.nesting_keyword (t : LoopType) : nesting t.keyword = 1 := by
  cases t <;> rfl

theorem Renders.level {sep : TokenType → List Lexeme → Prop} {c : Command} {ls : List Lexeme}
    {t : TokenType} (hsep : ∀ {t s}, sep t s → looseSeparators t s) (h : Renders sep c ls)
    (ht : t = .tokSc ∨ t = .tokPipe) : Level t True (c.free t) ls := by
  have hnot : ∀ u : TokenType, nesting u = -1 → u ≠ t := by
    rintro u hu rfl
    rcases ht with rfl | rfl <;> simp [nesting] at hu
  have hflat : ∀ {i o rs}, RendersRedirects i o rs → Level t True True rs :=
    fun h => .flat h.lexemes ht
  have hinner : ∀ {p xs}, Level t True p xs → Level t False False xs :=
    fun h => h.imp False.elim False.elim
  have hsub : ∀ {u s xs} {c : Command}, Level t True (c.free t) xs → sep u s →
      Level t False False (xs ++ s) :=
    fun h hs => (hinner h).append (Level.separator (hsep hs))
  have hmark : ∀ {u : TokenType}, nesting u = 0 → Level t False False [.mark u] :=
    fun h => Level.single h False.elim False.elim
  induction h with
  | simple hrs =>
    refine (Level.flat ?_ ht).append ((hflat hrs).imp id fun _ => trivial)
    intro l hl
    obtain ⟨w, _, rfl⟩ := List.mem_map.mp hl
    simp [Lexeme.type]
  | sequence _ _ iha ihb =>
    rw [List.append_cons]
    refine ((iha.imp id fun h => h.2.1).append ?_).append (ihb.imp id fun h => h.2.2)
    exact Level.single rfl (fun _ => by simp [Lexeme.closing, Lexeme.type]) fun h => h.1.symm
  | pipe _ _ iha ihb =>
    rw [List.append_cons]
    refine ((iha.imp id fun h => h.2.1).append ?_).append (ihb.imp id fun h => h.2.2)
    exact Level.single rfl (fun _ => by simp [Lexeme.closing, Lexeme.type]) fun h => h.1.symm
  | subshell _ hs hrs ih =>
    have hall := (Level.enclose (o := .tokLparen) rfl rfl (hnot .tokRparen rfl)
      (hsub ih hs)).append (hflat hrs)
    refine Level.imp (p := True) (q := True) ?_ id fun _ => trivial
    simpa using hall
  | @loop k h a b xs ys s₁ s₂ rs _ hs₁ _ hs₂ hrs iha ihb =>
    have hbody : Level t False False ((xs ++ s₁) ++ [.mark .tokDo] ++ (ys ++ s₂)) :=
      ((hsub iha hs₁).append (hmark rfl)).append (hsub ihb hs₂)
    have hall := (Level.enclose k.nesting_keyword rfl (hnot .tokDone rfl) hbody).append (hflat hrs)
    refine Level.imp (p := True) (q := True) ?_ id fun _ => trivial
    simpa using hall
  | @ifThen h a b xs ys s₁ s₂ rs _ hs₁ _ hs₂ hrs iha ihb =>
    have hbody : Level t False False ((xs ++ s₁) ++ [.mark .tokThen] ++ (ys ++ s₂)) :=
      ((hsub iha hs₁).append (hmark rfl)).append (hsub ihb hs₂)
    have hall := (Level.enclose (o := .tokIf) rfl rfl (hnot .tokFi rfl) hbody).append (hflat hrs)
    refine Level.imp (p := True) (q := True) ?_ id fun _ => trivial
    simpa using hall
  | @ifElse h a b c xs ys zs s₁ s₂ s₃ rs _ hs₁ _ hs₂ _ hs₃ hrs iha ihb ihc =>
    have hbody : Level t False False ((xs ++ s₁) ++ [.mark .tokThen] ++ (ys ++ s₂) ++
        [.mark .tokElse] ++ (zs ++ s₃)) :=
      ((((hsub iha hs₁).append (hmark rfl)).append (hsub ihb hs₂)).append (hmark rfl)).append
        (hsub ihc hs₃)
    have hall := (Level.enclose (o := .tokIf) rfl rfl (hnot .tokFi rfl) hbody).append (hflat hrs)
    refine Level.imp (p := True) (q := True) ?_ id fun _ => trivial
    simpa using hall

end CS111.Shell
