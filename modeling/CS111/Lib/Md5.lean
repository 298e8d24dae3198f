import CS111.Lib.Absorb

/-!
# The MD5 message digest

As RFC 1321 describes it: the message is padded to whole blocks of 64 bytes, the last 8 of them its length
in bits, and every block is mixed into four registers in 64 steps.
-/

namespace CS111.Md5

set_option autoImplicit false

structure Registers where
  a : UInt32
  b : UInt32
  c : UInt32
  d : UInt32
  deriving Repr, DecidableEq

def rotl (x s : UInt32) : UInt32 := (x <<< s) ||| (x >>> (32 - s))

section Steps

/-- The functions F, G, H and I of the four rounds. -/
def mix (i : Nat) (x y z : UInt32) : UInt32 :=
  match i / 16 with
  | 0 => (x &&& y) ||| (~~~x &&& z)
  | 1 => (x &&& z) ||| (y &&& ~~~z)
  | 2 => x ^^^ y ^^^ z
  | _ => y ^^^ (x ||| ~~~z)

/-- Which word of the block step `i` takes. -/
def wordIndex (i : Nat) : Nat :=
  match i / 16 with
  | 0 => i % 16
  | 1 => (5 * i + 1) % 16
  | 2 => (3 * i + 5) % 16
  | _ => 7 * i % 16

def shifts : List UInt32 := [7, 12, 17, 22, 5, 9, 14, 20, 4, 11, 16, 23, 6, 10, 15, 21]

def shift (i : Nat) : UInt32 := shifts.getD (i / 16 * 4 + i % 4) 0

/-- The first 32 bits behind the point of the sines of 1 to 64, without their signs. -/
def table : List UInt32 :=
  [0xd76aa478, 0xe8c7b756, 0x242070db, 0xc1bdceee, 0xf57c0faf, 0x4787c62a,
   0xa8304613, 0xfd469501, 0x698098d8, 0x8b44f7af, 0xffff5bb1, 0x895cd7be,
   0x6b901122, 0xfd987193, 0xa679438e, 0x49b40821, 0xf61e2562, 0xc040b340,
   0x265e5a51, 0xe9b6c7aa, 0xd62f105d, 0x02441453, 0xd8a1e681, 0xe7d3fbc8,
   0x21e1cde6, 0xc33707d6, 0xf4d50d87, 0x455a14ed, 0xa9e3e905, 0xfcefa3f8,
   0x676f02d9, 0x8d2a4c8a, 0xfffa3942, 0x8771f681, 0x6d9d6122, 0xfde5380c,
   0xa4beea44, 0x4bdecfa9, 0xf6bb4b60, 0xbebfbc70, 0x289b7ec6, 0xeaa127fa,
   0xd4ef3085, 0x04881d05, 0xd9d4d039, 0xe6db99e5, 0x1fa27cf8, 0xc4ac5665,
   0xf4292244, 0x432aff97, 0xab9423a7, 0xfc93a039, 0x655b59c3, 0x8f0ccc92,
   0xffeff47d, 0x85845dd1, 0x6fa87e4f, 0xfe2ce6e0, 0xa3014314, 0x4e0811a1,
   0xf7537e82, 0xbd3af235, 0x2ad7d2bb, 0xeb86d391]

/-- A step computes one register, and the registers move on by one. -/
def step (x : Nat → UInt32) (r : Registers) (i : Nat) : Registers where
  a := r.d
  b := r.b + rotl (r.a + mix i r.b r.c r.d + x (wordIndex i) + table.getD i 0) (shift i)
  c := r.b
  d := r.c

/-- Four bytes, the low one first. -/
def word (block : List UInt8) (k : Nat) : UInt32 :=
  (block.getD (4 * k) 0).toUInt32 + ((block.getD (4 * k + 1) 0).toUInt32 <<< 8) +
    ((block.getD (4 * k + 2) 0).toUInt32 <<< 16) + ((block.getD (4 * k + 3) 0).toUInt32 <<< 24)

def compress (r : Registers) (block : List UInt8) : Registers :=
  let r' := (List.range 64).foldl (step (word block)) r
  ⟨r.a + r'.a, r.b + r'.b, r.c + r'.c, r.d + r'.d⟩

end Steps

section Digest

def initial : Registers := ⟨0x67452301, 0xefcdab89, 0x98badcfe, 0x10325476⟩

/-- 64 bits, the low byte first. -/
def lengthBytes (bits : Nat) : List UInt8 := (List.range 8).map fun i => UInt8.ofNat (bits / 256 ^ i)

/-- How many zeros stand between the byte 128 and the length. -/
def zeros (len : Nat) : Nat := (119 - len % 64) % 64

def padding (len bits : Nat) : List UInt8 :=
  0x80 :: (List.replicate (zeros len) 0 ++ lengthBytes bits)

def wordBytes (w : UInt32) : List UInt8 :=
  [w.toUInt8, (w >>> 8).toUInt8, (w >>> 16).toUInt8, (w >>> 24).toUInt8]

def Registers.bytes (r : Registers) : List UInt8 :=
  wordBytes r.a ++ wordBytes r.b ++ wordBytes r.c ++ wordBytes r.d

/-- The digest, with any number in the place of the length in bits. -/
def digestWith (bits : Nat) (message : List UInt8) : List UInt8 :=
  (Absorb.absorb compress 64 initial (message ++ padding message.length bits)).bytes

def digest (message : List UInt8) : List UInt8 := digestWith (8 * message.length) message

end Digest

section Unrolled

/-- A register by its name. -/
inductive Reg where
  | a
  | b
  | c
  | d
  deriving Repr, DecidableEq

def Registers.get (r : Registers) : Reg → UInt32
  | .a => r.a
  | .b => r.b
  | .c => r.c
  | .d => r.d

def Registers.put (r : Registers) (v : UInt32) : Reg → Registers
  | .a => { r with a := v }
  | .b => { r with b := v }
  | .c => { r with c := v }
  | .d => { r with d := v }

/-- A step that names its registers instead of moving them. -/
structure Op where
  p : Reg
  q : Reg
  u : Reg
  v : Reg
  k : Nat
  s : UInt32
  t : UInt32
  deriving Repr, DecidableEq

def Op.run (f : UInt32 → UInt32 → UInt32 → UInt32) (x : Nat → UInt32) (r : Registers) (o : Op) :
    Registers :=
  r.put (r.get o.q + rotl (r.get o.p + f (r.get o.q) (r.get o.u) (r.get o.v) + x o.k + o.t) o.s) o.p

/-- The names in the order of step `i`. -/
def names (i : Nat) : Reg × Reg × Reg × Reg :=
  match i % 4 with
  | 0 => (.a, .b, .c, .d)
  | 1 => (.d, .a, .b, .c)
  | 2 => (.c, .d, .a, .b)
  | _ => (.b, .c, .d, .a)

def Op.of (i : Nat) : Op where
  p := (names i).1
  q := (names i).2.1
  u := (names i).2.2.1
  v := (names i).2.2.2
  k := wordIndex i
  s := shift i
  t := table.getD i 0

/-- The registers as step `i` finds them. -/
def view (i : Nat) (r : Registers) : Registers :=
  ⟨r.get (names i).1, r.get (names i).2.1, r.get (names i).2.2.1, r.get (names i).2.2.2⟩

variable {f : UInt32 → UInt32 → UInt32 → UInt32} {x : Nat → UInt32} {i : Nat}

theorem view_run (hf : mix i = f) (r : Registers) :
    view (i + 1) ((Op.of i).run f x r) = step x (view i r) i := by
  have hcases : i % 4 = 0 ∧ (i + 1) % 4 = 1 ∨ i % 4 = 1 ∧ (i + 1) % 4 = 2 ∨
      i % 4 = 2 ∧ (i + 1) % 4 = 3 ∨ i % 4 = 3 ∧ (i + 1) % 4 = 0 := by omega
  rcases hcases with ⟨h, h'⟩ | ⟨h, h'⟩ | ⟨h, h'⟩ | ⟨h, h'⟩ <;>
    simp only [view, step, Op.run, Op.of, names, h, h', hf, Registers.get, Registers.put]

/-- A round whose steps all use `f`. -/
theorem view_foldl (n : Nat) (hf : ∀ j, i ≤ j → j < i + n → mix j = f) (r : Registers) :
    view (i + n) (((List.range' i n).map Op.of).foldl (Op.run f x) r) =
      (List.range' i n).foldl (step x) (view i r) := by
  induction n generalizing i r with
  | zero => rfl
  | succ n ih =>
    rw [List.range'_succ, List.map_cons, List.foldl_cons, List.foldl_cons,
      ← view_run (hf i (Nat.le_refl i) (by omega)), ← ih fun j hj hj' => hf j (by omega) (by omega)]
    congr 1
    omega

theorem mix_of_div {j : Nat} (h : i / 16 = j / 16) : mix i = mix j := by
  unfold mix
  rw [h]

/-- The round that begins at step `i`. -/
def round (x : Nat → UInt32) (i : Nat) (r : Registers) : Registers :=
  ((List.range' i 16).map Op.of).foldl (Op.run (mix i) x) r

theorem round_eq (hi : i % 16 = 0) (r : Registers) :
    round x i r = (List.range' i 16).foldl (step x) r := by
  have hview : ∀ j r, j % 4 = 0 → view j r = r := by
    intro j r hj
    simp only [view, names, hj, Registers.get]
  have hmix : ∀ j, i ≤ j → j < i + 16 → mix j = mix i := by
    intro j hj hj'
    exact mix_of_div (by omega)
  have hrun := view_foldl (x := x) 16 hmix r
  rw [hview (i + 16) _ (by omega), hview i r (by omega)] at hrun
  exact hrun

/-- The four rounds are the 64 steps. -/
theorem rounds_eq (x : Nat → UInt32) (r : Registers) :
    round x 48 (round x 32 (round x 16 (round x 0 r))) = (List.range 64).foldl (step x) r := by
  have hrange : List.range 64 =
      List.range' 0 16 ++ (List.range' 16 16 ++ (List.range' 32 16 ++ List.range' 48 16)) := by
    decide
  rw [hrange, List.foldl_append, List.foldl_append, List.foldl_append, round_eq (by decide),
    round_eq (by decide), round_eq (by decide), round_eq (by decide)]

end Unrolled

section Padding

@[simp] theorem length_lengthBytes (bits : Nat) : (lengthBytes bits).length = 8 := by
  simp [lengthBytes]

end Padding

example : digest [] = [0xd4, 0x1d, 0x8c, 0xd9, 0x8f, 0x00, 0xb2, 0x04, 0xe9, 0x80, 0x09, 0x98, 0xec,
    0xf8, 0x42, 0x7e] := by
  decide +kernel

end CS111.Md5
