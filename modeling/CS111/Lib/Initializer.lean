import Mathlib.Data.List.Basic

/-!
# C array initializers

The text of an initializer is split into tokens, the tokens are read as values with or without a
designator, and the values are stored: a designator sets the index, a value is stored there and
moves the index on by one. `Spells` relates a piece of text to the items it contributes.
-/

namespace CS111.Initializer

set_option autoImplicit false

inductive Token where
  | word (text : List Char)
  | constant (value : Nat)
  | mark (c : Char)
  deriving Repr, DecidableEq

def isWordChar (c : Char) : Bool := c.isAlphanum || c == '_'

/-- A constant that begins with 0 is octal, of those only 0 itself is read. -/
def token (text : List Char) : Token :=
  if text.all Char.isDigit && (text == ['0'] || text.head? != some '0') then
    .constant (Nat.ofDigitChars 10 text 0)
  else .word text

def pending (text : List Char) : List Token := if text.isEmpty then [] else [token text]

/-- `text` is the beginning of a word. -/
def tokens (text : List Char) : List Char → List Token
  | [] => pending text
  | c :: cs =>
    if isWordChar c then tokens (text ++ [c]) cs
    else if c.isWhitespace then pending text ++ tokens [] cs
    else pending text ++ .mark c :: tokens [] cs

structure Item where
  designator : Option Nat
  value : Nat
  deriving Repr, DecidableEq

/-- The items up to the closing brace, and the tokens behind it. -/
def items : List Token → Option (List Item × List Token)
  | .mark '}' :: rest => some ([], rest)
  | .constant value :: .mark '}' :: rest => some ([⟨none, value⟩], rest)
  | .constant value :: .mark ',' :: rest =>
    (items rest).map fun r => (⟨none, value⟩ :: r.1, r.2)
  | .mark '[' :: .constant index :: .mark ']' :: .mark '=' :: .constant value :: .mark '}' :: rest =>
    some ([⟨some index, value⟩], rest)
  | .mark '[' :: .constant index :: .mark ']' :: .mark '=' :: .constant value :: .mark ',' :: rest =>
    (items rest).map fun r => (⟨some index, value⟩ :: r.1, r.2)
  | _ => none

/-- The tokens of an item with the comma behind it. -/
def Item.tokens : Item → List Token
  | ⟨none, value⟩ => [.constant value, .mark ',']
  | ⟨some index, value⟩ =>
    [.mark '[', .constant index, .mark ']', .mark '=', .constant value, .mark ',']

universe u
variable {α : Type u}

/-- The array that is initialized and the index of the next value. -/
structure Cursor (α : Type u) where
  index : Nat
  array : List α
  deriving Repr, DecidableEq

/-- `elem` is the conversion to the type of the elements. -/
def Cursor.store (elem : Nat → Option α) (s : Cursor α) (x : Item) : Option (Cursor α) :=
  let index := x.designator.getD s.index
  if index < s.array.length then
    (elem x.value).map fun value => ⟨index + 1, s.array.set index value⟩
  else none

def Cursor.storeAll (elem : Nat → Option α) (s : Cursor α) (xs : List Item) : Option (Cursor α) :=
  xs.foldlM (Cursor.store elem) s

section Tokens
variable {text cs : List Char} {c : Char} {xs ys : List Item} {t t' : List Char} {rest : List Token}

theorem pending_of_ne_nil (h : text ≠ []) : pending text = [token text] := by
  unfold pending
  rw [if_neg (by simpa using h)]

theorem tokens_word (hword : ∀ d, d ∈ t → isWordChar d = true) :
    tokens text (t ++ cs) = tokens (text ++ t) cs := by
  induction t generalizing text with
  | nil => rw [List.nil_append, List.append_nil]
  | cons d t ih =>
    rw [List.cons_append, tokens, if_pos (hword d List.mem_cons_self),
      ih fun e he => hword e (List.mem_cons_of_mem d he), List.append_assoc, List.singleton_append]

theorem tokens_space (hword : isWordChar c = false) (hspace : c.isWhitespace = true) :
    tokens text (c :: cs) = pending text ++ tokens [] cs := by
  rw [tokens, if_neg (by rw [hword]; decide), if_pos hspace]

theorem tokens_mark (hword : isWordChar c = false) (hspace : c.isWhitespace = false) :
    tokens text (c :: cs) = pending text ++ .mark c :: tokens [] cs := by
  rw [tokens, if_neg (by rw [hword]; decide), if_neg (by rw [hspace]; decide)]

theorem isWordChar_of_isDigit (h : c.isDigit = true) : isWordChar c = true := by
  simp only [isWordChar, Char.isAlphanum, h, Bool.or_true, Bool.true_or]

theorem isDigit_of_mem_toDigits {n : Nat} (h : c ∈ Nat.toDigits 10 n) : c.isDigit = true :=
  Nat.isDigit_of_mem_toDigits (by decide) (by decide) h

theorem head_toDigits {n : Nat} (h : 0 < n) : (Nat.toDigits 10 n).head? ≠ some '0' := by
  induction n using Nat.strongRecOn with
  | ind n ih =>
    by_cases hn : n < 10
    · rw [Nat.toDigits_of_lt_base hn, List.head?_cons, ne_eq, Option.some.injEq,
        Nat.digitChar_eq_zero]
      omega
    · rw [Nat.toDigits_of_base_le (by decide) (by omega),
        List.head?_append_of_ne_nil _ Nat.toDigits_ne_nil]
      exact ih (n / 10) (by omega) (by omega)

theorem token_toDigits (n : Nat) : token (Nat.toDigits 10 n) = .constant n := by
  have hall : (Nat.toDigits 10 n).all Char.isDigit = true :=
    List.all_eq_true.mpr fun c hc => isDigit_of_mem_toDigits hc
  have hzero : (Nat.toDigits 10 n == ['0'] || (Nat.toDigits 10 n).head? != some '0') = true := by
    rcases Nat.eq_zero_or_pos n with rfl | hn
    · rfl
    · rw [bne_iff_ne.mpr (head_toDigits hn), Bool.or_true]
  unfold token
  rw [hall, hzero, Bool.and_self, if_pos rfl, Nat.ofDigitChars_ten_toDigits]

theorem tokens_toDigits (n : Nat) :
    tokens [] (Nat.toDigits 10 n ++ cs) = tokens (Nat.toDigits 10 n) cs :=
  tokens_word fun _ hd => isWordChar_of_isDigit (isDigit_of_mem_toDigits hd)

theorem tokens_number (n : Nat) (hword : isWordChar c = false) (hspace : c.isWhitespace = false) :
    tokens [] (Nat.toDigits 10 n ++ c :: cs) = .constant n :: .mark c :: tokens [] cs := by
  rw [tokens_toDigits, tokens_mark hword hspace, pending_of_ne_nil Nat.toDigits_ne_nil,
    token_toDigits]
  rfl

theorem items_tokens (x : Item) :
    items (x.tokens ++ rest) = (items rest).map fun r => (x :: r.1, r.2) := by
  rcases x with ⟨_ | index, value⟩ <;> rfl

theorem items_flatMap :
    items (xs.flatMap Item.tokens ++ rest) = (items rest).map fun r => (xs ++ r.1, r.2) := by
  induction xs with
  | nil =>
    rw [List.flatMap_nil, List.nil_append]
    exact Option.map_id'.symm
  | cons x xs ih =>
    rw [List.flatMap_cons, List.append_assoc, items_tokens, ih, Option.map_map]
    rfl

/-- The text contributes these items, whatever comes behind it. -/
def Spells (t : List Char) (xs : List Item) : Prop :=
  ∀ cs, tokens [] (t ++ cs) = xs.flatMap Item.tokens ++ tokens [] cs

theorem spells_nil : Spells [] [] := fun _ => rfl

theorem Spells.append (h : Spells t xs) (h' : Spells t' ys) : Spells (t ++ t') (xs ++ ys) := by
  intro cs
  rw [List.append_assoc, h, h', List.flatMap_append, List.append_assoc]

theorem spells_newline : Spells ['\n'] [] := by
  intro cs
  exact tokens_space (by decide) (by decide)

theorem spells_value (value : Nat) : Spells (Nat.toDigits 10 value ++ [',']) [⟨none, value⟩] := by
  intro cs
  rw [List.append_assoc]
  exact tokens_number value (by decide) (by decide)

theorem spells_element (index value : Nat) :
    Spells ('[' :: (Nat.toDigits 10 index ++ [']', '=']) ++ (Nat.toDigits 10 value ++ [',']))
      [⟨some index, value⟩] := by
  intro cs
  have hvalue : tokens [] ((Nat.toDigits 10 value ++ [',']) ++ cs) =
      .constant value :: .mark ',' :: tokens [] cs := spells_value value cs
  rw [List.append_assoc, List.cons_append, tokens_mark (by decide) (by decide), List.append_assoc,
    List.cons_append, tokens_number index (by decide) (by decide), List.singleton_append,
    tokens_mark (by decide) (by decide), hvalue]
  rfl

end Tokens

section Store
variable {elem : Nat → Option α} {s s' : Cursor α} {xs ys : List Item}

theorem storeAll_append (h : s.storeAll elem xs = some s') :
    s.storeAll elem (xs ++ ys) = s'.storeAll elem ys := by
  unfold Cursor.storeAll at *
  rw [List.foldlM_append, h]
  rfl

theorem storeAll_cons {x : Item} (h : s.store elem x = some s') :
    s.storeAll elem (x :: xs) = s'.storeAll elem xs := by
  unfold Cursor.storeAll
  rw [List.foldlM_cons, h]
  rfl

theorem store_eq {x : Item} {value : α} {index : Nat} (hindex : x.designator.getD s.index = index)
    (hlt : index < s.array.length) (helem : elem x.value = some value) :
    s.store elem x = some ⟨index + 1, s.array.set index value⟩ := by
  unfold Cursor.store
  simp only [hindex, if_pos hlt, helem, Option.map_some]

/-- Values that are there already only move the index. -/
theorem storeAll_same {index n v : Nat} {value : α} {array : List α} (helem : elem v = some value)
    (hle : index ≤ n) (hsame : ∀ k, index ≤ k → k < n → array[k]? = some value) :
    Cursor.storeAll elem ⟨index, array⟩ (List.replicate (n - index) ⟨none, v⟩) =
      some ⟨n, array⟩ := by
  induction h : n - index generalizing index with
  | zero =>
    have heq : index = n := by omega
    rw [heq]
    rfl
  | succ k ih =>
    obtain ⟨hlt, hget⟩ := List.getElem?_eq_some_iff.mp (hsame index (Nat.le_refl index) (by omega))
    have hset : array.set index value = array := by
      rw [← hget, List.set_getElem_self]
    have hstore : Cursor.store elem ⟨index, array⟩ ⟨none, v⟩ =
        some ⟨index + 1, array.set index value⟩ := store_eq rfl hlt helem
    rw [hset] at hstore
    rw [List.replicate_succ, storeAll_cons hstore]
    exact ih (by omega) (fun j hj => hsame j (by omega)) (by omega)

end Store

end CS111.Initializer
