import Mathlib.Data.List.Infix

/-!
# Absolute paths

A path is the list of its components; `render` writes it with a separator before each of them, and the
root as a single separator. Whether a path lies below another one can be seen from what is written
only together with what follows the common beginning.
-/

namespace CS111.Paths

set_option autoImplicit false

universe u
variable {α : Type u}

structure Component (sep : α) where
  text : List α
  nonempty : text ≠ []
  no_sep : sep ∉ text

abbrev Path (sep : α) := List (Component sep)

variable {sep : α}

def Component.render (c : Component sep) : List α := sep :: c.text

def render (p : Path sep) : List α := if p = [] then [sep] else p.flatMap Component.render

/-- Strictly below a directory. -/
def Inside (dir file : Path sep) : Prop := ∃ rest, rest ≠ [] ∧ file = dir ++ rest

/-- What is written for the path goes on with a component where the directory ends. -/
def Continues (dir file : Path sep) : Prop :=
  if dir = [] then file ≠ [] else ((render file).drop (render dir).length).head? = some sep

theorem Component.ext {c d : Component sep} (h : c.text = d.text) : c = d := by
  cases c
  cases d
  cases h
  rfl

variable {c d : Component sep} {p dir file : Path sep} {l m : List α}

theorem render_of_ne_nil (h : p ≠ []) : render p = p.flatMap Component.render := if_neg h

/-- Two components that end at a separator or at the end of the text are equal. -/
theorem text_append_cancel (hl : l.head? = some sep) (hm : m = [] ∨ m.head? = some sep)
    (h : c.text ++ l = d.text ++ m) : c = d ∧ l = m := by
  obtain ⟨l', rfl⟩ : ∃ l', l = sep :: l' := List.head?_eq_some_iff.mp hl
  rcases List.append_eq_append_iff.mp h with ⟨r, hd, hr⟩ | ⟨r, hc, hr⟩
  · cases r with
    | nil =>
      rw [List.append_nil] at hd
      exact ⟨Component.ext hd.symm, hr⟩
    | cons x r =>
      cases hr
      exact absurd (hd ▸ List.mem_append_right _ List.mem_cons_self) d.no_sep
  · cases r with
    | nil =>
      rw [List.append_nil] at hc
      exact ⟨Component.ext hc, hr.symm⟩
    | cons x r =>
      rcases hm with rfl | hm
      · cases hr
      · rw [hr, List.cons_append, List.head?_cons, Option.some.injEq] at hm
        subst hm
        exact absurd (hc ▸ List.mem_append_right _ List.mem_cons_self) c.no_sep

theorem flatMap_render_stops (p : Path sep) :
    p.flatMap Component.render = [] ∨ (p.flatMap Component.render).head? = some sep := by
  cases p with
  | nil => exact .inl rfl
  | cons c p => exact .inr rfl

theorem inside_of_flatMap (hl : l.head? = some sep)
    (h : dir.flatMap Component.render ++ l = file.flatMap Component.render) : Inside dir file := by
  induction dir generalizing file with
  | nil =>
    refine ⟨file, ?_, rfl⟩
    rintro rfl
    have hnil : l = [] := h
    rw [hnil] at hl
    cases hl
  | cons c dir ih =>
    cases file with
    | nil => cases h
    | cons d file =>
      have hhead : (dir.flatMap Component.render ++ l).head? = some sep := by
        rcases flatMap_render_stops dir with hnil | hsome
        · rw [hnil, List.nil_append, hl]
        · rw [List.head?_append, hsome]
          rfl
      rw [List.flatMap_cons, List.flatMap_cons, List.append_assoc] at h
      obtain ⟨rfl, hrest⟩ := text_append_cancel hhead (flatMap_render_stops file)
        (List.cons.inj h).2
      obtain ⟨rest, hne, rfl⟩ := ih hrest
      exact ⟨rest, hne, rfl⟩

theorem Inside.file_ne_nil (h : Inside dir file) : file ≠ [] := by
  obtain ⟨rest, hne, rfl⟩ := h
  exact fun hnil => hne (List.append_eq_nil_iff.mp hnil).2

/-- A path is below a directory exactly when the text of the directory is a prefix of its text and a
component follows. -/
theorem inside_iff : Inside dir file ↔ render dir <+: render file ∧ Continues dir file := by
  unfold Continues
  by_cases hdir : dir = []
  · subst hdir
    rw [if_pos rfl]
    constructor
    · intro h
      refine ⟨?_, h.file_ne_nil⟩
      rw [render_of_ne_nil h.file_ne_nil]
      cases file with
      | nil => exact absurd rfl h.file_ne_nil
      | cons c file => exact ⟨_, rfl⟩
    · exact fun h => ⟨file, h.2, rfl⟩
  · rw [if_neg hdir]
    constructor
    · intro h
      have hfile := h.file_ne_nil
      obtain ⟨rest, hne, rfl⟩ := h
      rw [render_of_ne_nil hdir, render_of_ne_nil hfile, List.flatMap_append, List.drop_left]
      refine ⟨List.prefix_append _ _, ?_⟩
      cases rest with
      | nil => exact absurd rfl hne
      | cons c rest => rfl
    · rintro ⟨⟨l, hl⟩, hnext⟩
      rw [← hl, List.drop_left] at hnext
      by_cases hfile : file = []
      · subst hfile
        have hlength := congrArg List.length hl
        cases dir with
        | nil => exact absurd rfl hdir
        | cons c dir =>
          have hpos := List.length_pos_of_ne_nil c.nonempty
          rw [render_of_ne_nil hdir, List.flatMap_cons, List.length_append, List.length_append,
            Component.render, List.length_cons] at hlength
          change _ = 1 at hlength
          omega
      · rw [render_of_ne_nil hdir, render_of_ne_nil hfile] at hl
        exact inside_of_flatMap hnext hl

end CS111.Paths
