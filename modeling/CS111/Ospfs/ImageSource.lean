import CS111.Lib.Initializer

/-!
# The image as C source

`print` writes an image as the initializer of a C array. Runs of zeros are left out: a run of four or
more is skipped with a designator, a shorter one is spelled out when the next byte is printed.
-/

namespace CS111.Ospfs

set_option autoImplicit false

open Initializer

def designatedInitializers : Bool := true

/-- What is printed for the bytes `f`, which begin at offset `n`. -/
def printBytes (designated : Bool) : List UInt8 → Nat → Nat → Nat → List Char
  | [], _, _, _ => []
  | c :: f, n, last, printed =>
    if c = 0 ∧ designated = true then printBytes designated f (n + 1) last printed
    else
      (if (last : Int) ≤ n - 4 then '[' :: (Nat.toDigits 10 n ++ [']', '='])
        else (List.replicate (n - last) ['0', ',']).flatten) ++
      (Nat.toDigits 10 c.toNat ++ [',']) ++
      (if (printed + 1) % 19 = 0 then ['\n'] else []) ++
      printBytes designated f (n + 1) (n + 1) (printed + 1)

def print (f : List UInt8) (size : Nat) : List Char :=
  "unsigned char ospfs_data[".toList ++ (Nat.toDigits 10 size ++ ("] = \x7b\n".toList ++
    (printBytes designatedInitializers f 0 0 0 ++ ("\x7d;\nuint32_t ospfs_length = ".toList ++
      (Nat.toDigits 10 size ++ ";\n".toList)))))

/-- The conversion of a constant to `unsigned char`. -/
def unsignedChar (value : Nat) : Option UInt8 :=
  if value < 256 then some (UInt8.ofNat value) else none

/-- What the two variables of the text are initialized to. -/
def readSource (text : List Char) : Option (List UInt8 × Nat) :=
  match tokens [] text with
  | .word unsigned :: .word char :: .word data :: .mark '[' :: .constant size :: .mark ']' ::
      .mark '=' :: .mark '{' :: rest =>
    if unsigned = "unsigned".toList ∧ char = "char".toList ∧ data = "ospfs_data".toList then
      match items rest with
      | some (xs, [.mark ';', .word uint32, .word length, .mark '=', .constant value, .mark ';']) =>
        if uint32 = "uint32_t".toList ∧ length = "ospfs_length".toList then
          (Cursor.storeAll unsignedChar ⟨0, List.replicate size 0⟩ xs).map fun s => (s.array, value)
        else none
      | _ => none
    else none
  | _ => none

section Printing
variable {designated : Bool} {f pre : List UInt8} {n last printed : Nat}

theorem unsignedChar_toNat (c : UInt8) : unsignedChar c.toNat = some c := by
  unfold unsignedChar
  rw [if_pos c.toNat_lt, UInt8.ofNat_toNat]

theorem spells_zeros (n : Nat) :
    Spells (List.replicate n ['0', ',']).flatten (List.replicate n ⟨none, 0⟩) := by
  induction n with
  | zero => exact spells_nil
  | succ n ih => exact (spells_value 0).append ih

theorem spells_line (printed : Nat) :
    Spells (if (printed + 1) % 19 = 0 then ['\n'] else []) [] := by
  split
  · exact spells_newline
  · exact spells_nil

theorem zeros_snoc (hzero : ∀ k, last ≤ k → k < pre.length → pre[k]? = some 0) :
    ∀ k, last ≤ k → k < (pre ++ [0]).length → (pre ++ [0])[k]? = some 0 := by
  intro k hk hlt
  rw [List.length_append, List.length_singleton] at hlt
  by_cases h : k < pre.length
  · rw [List.getElem?_append_left h]
    exact hzero k hk h
  · have heq : k = pre.length := by omega
    rw [heq, List.getElem?_concat_length]

/-- The zeros since `last`, spelled out or skipped, and the byte behind them. -/
theorem printByte_spells (c : UInt8) (m : Nat) (hlast : last ≤ pre.length)
    (hzero : ∀ k, last ≤ k → k < pre.length → pre[k]? = some 0) :
    ∃ xs, Spells ((if (last : Int) ≤ pre.length - 4 then
          '[' :: (Nat.toDigits 10 pre.length ++ [']', '='])
        else (List.replicate (pre.length - last) ['0', ',']).flatten) ++
      (Nat.toDigits 10 c.toNat ++ [','])) xs ∧
      Cursor.storeAll unsignedChar ⟨last, pre ++ List.replicate (m + 1) 0⟩ xs =
        some ⟨pre.length + 1, (pre ++ [c]) ++ List.replicate m 0⟩ := by
  have hset : (pre ++ List.replicate (m + 1) 0).set pre.length c =
      (pre ++ [c]) ++ List.replicate m 0 := by
    rw [List.set_append_right _ _ (Nat.le_refl _), Nat.sub_self, List.replicate_succ,
      List.set_cons_zero, List.append_assoc, List.singleton_append]
  have hlt : pre.length < (pre ++ List.replicate (m + 1) (0 : UInt8)).length := by
    rw [List.length_append, List.length_replicate]
    omega
  split
  · refine ⟨[⟨some pre.length, c.toNat⟩], spells_element pre.length c.toNat, ?_⟩
    have hstore : Cursor.store unsignedChar ⟨last, pre ++ List.replicate (m + 1) 0⟩
        ⟨some pre.length, c.toNat⟩ =
          some ⟨pre.length + 1, (pre ++ List.replicate (m + 1) 0).set pre.length c⟩ :=
      store_eq rfl hlt (unsignedChar_toNat c)
    rw [storeAll_cons hstore, hset]
    rfl
  · refine ⟨_, (spells_zeros (pre.length - last)).append (spells_value c.toNat), ?_⟩
    have hzeros : Cursor.storeAll unsignedChar ⟨last, pre ++ List.replicate (m + 1) 0⟩
        (List.replicate (pre.length - last) ⟨none, 0⟩) =
          some ⟨pre.length, pre ++ List.replicate (m + 1) 0⟩ := by
      refine storeAll_same rfl hlast fun k hk hk' => ?_
      rw [List.getElem?_append_left hk']
      exact hzero k hk hk'
    have hstore : Cursor.store unsignedChar ⟨pre.length, pre ++ List.replicate (m + 1) 0⟩
        ⟨none, c.toNat⟩ =
          some ⟨pre.length + 1, (pre ++ List.replicate (m + 1) 0).set pre.length c⟩ :=
      store_eq rfl hlt (unsignedChar_toNat c)
    rw [storeAll_append hzeros, storeAll_cons hstore, hset]
    rfl

/-- The array has the bytes of `pre` and zeros behind them, and `pre` has only zeros from `last` on. -/
theorem printBytes_spells (hlast : last ≤ pre.length)
    (hzero : ∀ k, last ≤ k → k < pre.length → pre[k]? = some 0) :
    ∃ xs index, Spells (printBytes designated f pre.length last printed) xs ∧
      Cursor.storeAll unsignedChar ⟨last, pre ++ List.replicate f.length 0⟩ xs =
        some ⟨index, pre ++ f⟩ := by
  induction f generalizing pre last printed with
  | nil => exact ⟨[], last, spells_nil, rfl⟩
  | cons c f ih =>
    have hlength : (pre ++ [c]).length = pre.length + 1 := List.length_append
    have happend : pre ++ c :: f = (pre ++ [c]) ++ f := by
      rw [List.append_assoc, List.singleton_append]
    unfold printBytes
    rw [happend, ← hlength]
    split
    · next hskip =>
      obtain ⟨rfl, -⟩ := hskip
      have hzeros : pre ++ List.replicate (0 :: f).length 0 =
          (pre ++ [0]) ++ List.replicate f.length 0 := by
        rw [List.append_assoc, List.singleton_append]
        rfl
      rw [hzeros]
      exact ih (by omega) (zeros_snoc hzero)
    · obtain ⟨xs, hspells, hstore⟩ := printByte_spells c f.length hlast hzero
      obtain ⟨ys, index, hrest, hstores⟩ := @ih (pre ++ [c]) (pre ++ [c]).length (printed + 1)
        (Nat.le_refl _) (fun k hk hk' => absurd hk (by omega))
      refine ⟨xs ++ ([] ++ ys), index, ?_, ?_⟩
      · rw [List.append_assoc]
        exact hspells.append ((spells_line printed).append hrest)
      · rw [List.nil_append, List.length_cons, storeAll_append hstore, ← hlength]
        exact hstores

theorem tokens_data (cs : List Char) :
    tokens [] ("unsigned char ospfs_data[".toList ++ cs) =
      .word "unsigned".toList :: .word "char".toList :: .word "ospfs_data".toList :: .mark '[' ::
        tokens [] cs := rfl

theorem tokens_open (cs : List Char) (n : Nat) :
    tokens [] (Nat.toDigits 10 n ++ ("] = \x7b\n".toList ++ cs)) =
      .constant n :: .mark ']' :: .mark '=' :: .mark '{' :: tokens [] cs := by
  exact tokens_number n (by decide) (by decide)

theorem tokens_length (n : Nat) :
    tokens [] ("\x7d;\nuint32_t ospfs_length = ".toList ++ (Nat.toDigits 10 n ++ ";\n".toList)) =
      [.mark '}', .mark ';', .word "uint32_t".toList, .word "ospfs_length".toList, .mark '=',
        .constant n, .mark ';'] := by
  have hnumber : tokens [] (Nat.toDigits 10 n ++ ";\n".toList) = [.constant n, .mark ';'] :=
    tokens_number n (by decide) (by decide)
  rw [← hnumber]
  rfl

end Printing

/-- The printed source is read as the image itself, whatever its length. -/
theorem readSource_print (f : List UInt8) : readSource (print f f.length) = some (f, f.length) := by
  obtain ⟨xs, index, hspells, hstore⟩ := @printBytes_spells designatedInitializers f [] 0 0
    (Nat.le_refl 0) (fun k _ hk => absurd hk (Nat.not_lt_zero k))
  rw [List.length_nil] at hspells
  rw [List.nil_append, List.nil_append] at hstore
  have htokens : tokens [] (print f f.length) =
      .word "unsigned".toList :: .word "char".toList :: .word "ospfs_data".toList :: .mark '[' ::
        .constant f.length :: .mark ']' :: .mark '=' :: .mark '{' :: (xs.flatMap Item.tokens ++
          [.mark '}', .mark ';', .word "uint32_t".toList, .word "ospfs_length".toList, .mark '=',
            .constant f.length, .mark ';']) := by
    unfold print
    rw [tokens_data, tokens_open, hspells, tokens_length]
  have hitems : items (xs.flatMap Item.tokens ++ [.mark '}', .mark ';', .word "uint32_t".toList,
      .word "ospfs_length".toList, .mark '=', .constant f.length, .mark ';']) =
        some (xs, [.mark ';', .word "uint32_t".toList, .word "ospfs_length".toList, .mark '=',
          .constant f.length, .mark ';']) := by
    rw [items_flatMap, items, Option.map_some, List.append_nil]
  unfold readSource
  rw [htokens]
  simp only [hitems, and_self, if_true]
  rw [hstore, Option.map_some]

example : print [0, 0, 0, 0, 7, 0, 1] 7 =
    "unsigned char ospfs_data[7] = \x7b\n[4]=7,0,1,\x7d;\nuint32_t ospfs_length = 7;\n".toList := by
  decide

end CS111.Ospfs
