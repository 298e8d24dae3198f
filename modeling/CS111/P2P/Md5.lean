import CS111.Lib.Md5
import CS111.Lib.Memory
import CS111.Lib.Words

/-!
# The message digest of the peer

`md5.c`. The words of a block are read low byte first, whichever way the machine stores them. A caller
appends with an `int`, and signed sums wrap.
-/

namespace CS111.P2P

set_option autoImplicit false

open Memory Md5

structure Md5State where
  count0 : UInt32
  count1 : UInt32
  abcd : Registers
  buf : Nat → UInt8

section Process

/-- `T_MASK`. -/
def tMask : UInt32 := ~~~0

def rotateLeft (x n : UInt32) : UInt32 := (x <<< n) ||| (x >>> (32 - n))

/-- `SET`, with the function of the round. -/
def set (f : UInt32 → UInt32 → UInt32 → UInt32) (x : Nat → UInt32) (r : Registers) (o : Op) :
    Registers :=
  let t := r.get o.p + f (r.get o.q) (r.get o.u) (r.get o.v) + x o.k + o.t
  r.put (rotateLeft t o.s + r.get o.q) o.p

def round1 : List Op :=
  [⟨.a, .b, .c, .d, 0, 7, tMask ^^^ 0x28955b87⟩,
   ⟨.d, .a, .b, .c, 1, 12, tMask ^^^ 0x173848a9⟩,
   ⟨.c, .d, .a, .b, 2, 17, 0x242070db⟩,
   ⟨.b, .c, .d, .a, 3, 22, tMask ^^^ 0x3e423111⟩,
   ⟨.a, .b, .c, .d, 4, 7, tMask ^^^ 0x0a83f050⟩,
   ⟨.d, .a, .b, .c, 5, 12, 0x4787c62a⟩,
   ⟨.c, .d, .a, .b, 6, 17, tMask ^^^ 0x57cfb9ec⟩,
   ⟨.b, .c, .d, .a, 7, 22, tMask ^^^ 0x02b96afe⟩,
   ⟨.a, .b, .c, .d, 8, 7, 0x698098d8⟩,
   ⟨.d, .a, .b, .c, 9, 12, tMask ^^^ 0x74bb0850⟩,
   ⟨.c, .d, .a, .b, 10, 17, tMask ^^^ 0x0000a44e⟩,
   ⟨.b, .c, .d, .a, 11, 22, tMask ^^^ 0x76a32841⟩,
   ⟨.a, .b, .c, .d, 12, 7, 0x6b901122⟩,
   ⟨.d, .a, .b, .c, 13, 12, tMask ^^^ 0x02678e6c⟩,
   ⟨.c, .d, .a, .b, 14, 17, tMask ^^^ 0x5986bc71⟩,
   ⟨.b, .c, .d, .a, 15, 22, 0x49b40821⟩]

def round2 : List Op :=
  [⟨.a, .b, .c, .d, 1, 5, tMask ^^^ 0x09e1da9d⟩,
   ⟨.d, .a, .b, .c, 6, 9, tMask ^^^ 0x3fbf4cbf⟩,
   ⟨.c, .d, .a, .b, 11, 14, 0x265e5a51⟩,
   ⟨.b, .c, .d, .a, 0, 20, tMask ^^^ 0x16493855⟩,
   ⟨.a, .b, .c, .d, 5, 5, tMask ^^^ 0x29d0efa2⟩,
   ⟨.d, .a, .b, .c, 10, 9, 0x02441453⟩,
   ⟨.c, .d, .a, .b, 15, 14, tMask ^^^ 0x275e197e⟩,
   ⟨.b, .c, .d, .a, 4, 20, tMask ^^^ 0x182c0437⟩,
   ⟨.a, .b, .c, .d, 9, 5, 0x21e1cde6⟩,
   ⟨.d, .a, .b, .c, 14, 9, tMask ^^^ 0x3cc8f829⟩,
   ⟨.c, .d, .a, .b, 3, 14, tMask ^^^ 0x0b2af278⟩,
   ⟨.b, .c, .d, .a, 8, 20, 0x455a14ed⟩,
   ⟨.a, .b, .c, .d, 13, 5, tMask ^^^ 0x561c16fa⟩,
   ⟨.d, .a, .b, .c, 2, 9, tMask ^^^ 0x03105c07⟩,
   ⟨.c, .d, .a, .b, 7, 14, 0x676f02d9⟩,
   ⟨.b, .c, .d, .a, 12, 20, tMask ^^^ 0x72d5b375⟩]

def round3 : List Op :=
  [⟨.a, .b, .c, .d, 5, 4, tMask ^^^ 0x0005c6bd⟩,
   ⟨.d, .a, .b, .c, 8, 11, tMask ^^^ 0x788e097e⟩,
   ⟨.c, .d, .a, .b, 11, 16, 0x6d9d6122⟩,
   ⟨.b, .c, .d, .a, 14, 23, tMask ^^^ 0x021ac7f3⟩,
   ⟨.a, .b, .c, .d, 1, 4, tMask ^^^ 0x5b4115bb⟩,
   ⟨.d, .a, .b, .c, 4, 11, 0x4bdecfa9⟩,
   ⟨.c, .d, .a, .b, 7, 16, tMask ^^^ 0x0944b49f⟩,
   ⟨.b, .c, .d, .a, 10, 23, tMask ^^^ 0x4140438f⟩,
   ⟨.a, .b, .c, .d, 13, 4, 0x289b7ec6⟩,
   ⟨.d, .a, .b, .c, 0, 11, tMask ^^^ 0x155ed805⟩,
   ⟨.c, .d, .a, .b, 3, 16, tMask ^^^ 0x2b10cf7a⟩,
   ⟨.b, .c, .d, .a, 6, 23, 0x04881d05⟩,
   ⟨.a, .b, .c, .d, 9, 4, tMask ^^^ 0x262b2fc6⟩,
   ⟨.d, .a, .b, .c, 12, 11, tMask ^^^ 0x1924661a⟩,
   ⟨.c, .d, .a, .b, 15, 16, 0x1fa27cf8⟩,
   ⟨.b, .c, .d, .a, 2, 23, tMask ^^^ 0x3b53a99a⟩]

def round4 : List Op :=
  [⟨.a, .b, .c, .d, 0, 6, tMask ^^^ 0x0bd6ddbb⟩,
   ⟨.d, .a, .b, .c, 7, 10, 0x432aff97⟩,
   ⟨.c, .d, .a, .b, 14, 15, tMask ^^^ 0x546bdc58⟩,
   ⟨.b, .c, .d, .a, 5, 21, tMask ^^^ 0x036c5fc6⟩,
   ⟨.a, .b, .c, .d, 12, 6, 0x655b59c3⟩,
   ⟨.d, .a, .b, .c, 3, 10, tMask ^^^ 0x70f3336d⟩,
   ⟨.c, .d, .a, .b, 10, 15, tMask ^^^ 0x00100b82⟩,
   ⟨.b, .c, .d, .a, 1, 21, tMask ^^^ 0x7a7ba22e⟩,
   ⟨.a, .b, .c, .d, 8, 6, 0x6fa87e4f⟩,
   ⟨.d, .a, .b, .c, 15, 10, tMask ^^^ 0x01d3191f⟩,
   ⟨.c, .d, .a, .b, 6, 15, tMask ^^^ 0x5cfebceb⟩,
   ⟨.b, .c, .d, .a, 13, 21, 0x4e0811a1⟩,
   ⟨.a, .b, .c, .d, 4, 6, tMask ^^^ 0x08ac817d⟩,
   ⟨.d, .a, .b, .c, 11, 10, tMask ^^^ 0x42c50dca⟩,
   ⟨.c, .d, .a, .b, 2, 15, 0x2ad7d2bb⟩,
   ⟨.b, .c, .d, .a, 9, 21, tMask ^^^ 0x14792c6e⟩]

def f (x y z : UInt32) : UInt32 := (x &&& y) ||| (~~~x &&& z)

def g (x y z : UInt32) : UInt32 := (x &&& z) ||| (y &&& ~~~z)

def h (x y z : UInt32) : UInt32 := x ^^^ y ^^^ z

def i (x y z : UInt32) : UInt32 := y ^^^ (x ||| ~~~z)

def md5Process (pms : Md5State) (data : List UInt8) : Md5State :=
  let x := word data
  let r := round4.foldl (set i x) (round3.foldl (set h x) (round2.foldl (set g x)
    (round1.foldl (set f x) pms.abcd)))
  { pms with
    abcd := ⟨pms.abcd.a + r.a, pms.abcd.b + r.b, pms.abcd.c + r.c, pms.abcd.d + r.d⟩ }

end Process

section Calls

def md5Init (pms : Md5State) : Md5State :=
  { pms with
    count0 := 0
    count1 := 0
    abcd := ⟨0x67452301, tMask ^^^ 0x10325476, tMask ^^^ 0x67452301, 0x10325476⟩ }

/-- The loop over the full blocks, and what is left. -/
def fullBlocks (pms : Md5State) (p : List UInt8) : Md5State × List UInt8 :=
  if 64 ≤ p.length then fullBlocks (md5Process pms (p.take 64)) (p.drop 64) else (pms, p)
termination_by p.length
decreasing_by
  rw [List.length_drop]
  omega

/-- The full blocks, and the final partial one. -/
def appendBlocks (pms : Md5State) (p : List UInt8) : Md5State :=
  let (pms, left) := fullBlocks pms p
  { pms with buf := store pms.buf 0 left }

/-- The message length, before it is used. -/
def addLength (pms : Md5State) (nbytes : Nat) : Md5State :=
  let nbits := UInt32.ofNat (8 * nbytes)
  let count1 := pms.count1 + UInt32.ofNat (nbytes / 536870912)
  let count0 := pms.count0 + nbits
  { pms with count0 := count0, count1 := if count0 < nbits then count1 + 1 else count1 }

/-- `data` has `nbytes` elements. -/
def md5Append (pms : Md5State) (data : List UInt8) : Md5State :=
  let nbytes := data.length
  let offset := ((pms.count0 >>> 3) &&& 63).toNat
  if nbytes = 0 then pms
  else
    let pms := addLength pms nbytes
    if offset ≠ 0 then
      let copy := if 64 < toInt32 (u32 (offset + nbytes)) then 64 - offset else nbytes
      let pms := { pms with buf := store pms.buf offset (data.take copy) }
      if offset + copy < 64 then pms
      else appendBlocks (md5Process pms (load pms.buf 0 64)) (data.drop copy)
    else appendBlocks pms data

/-- Byte `k` of the count. -/
def countByte (pms : Md5State) (k : Nat) : UInt8 :=
  ((if k < 4 then pms.count0 else pms.count1) >>> UInt32.ofNat (k % 4 * 8)).toUInt8

def pad : List UInt8 := 0x80 :: List.replicate 63 0

def md5Finish (pms : Md5State) : List UInt8 × Md5State :=
  let data := (List.range 8).map (countByte pms)
  let pms := md5Append pms (pad.take ((((55 : UInt32) - (pms.count0 >>> 3)) &&& 63).toNat + 1))
  let pms := md5Append pms data
  (wordBytes pms.abcd.a ++ wordBytes pms.abcd.b ++ wordBytes pms.abcd.c ++ wordBytes pms.abcd.d, pms)

/-- The characters of the text. -/
def textChars : List Char := "abcdefghijklmnopqrstuvwxyzABCDEFGHIJKLMNOPQRSTUVWXYZ0123456789_@".toList

/-- `val`, as the loop first computes it. -/
def textVal (digest : List UInt8) (bit : Nat) : Nat :=
  let first_char := bit / 8
  let val := (digest.getD first_char 0).toNat >>> (bit % 8)
  if (first_char + 1) * 8 < bit + 8 ∧ first_char < 15 then
    val + ((digest.getD (first_char + 1) 0).toNat <<< (8 - bit % 8))
  else val

/-- The loop from `bit` on. Without an `@`, six ones are written as five, and the sixth comes again. -/
def textFrom (allow_at : Bool) (digest : List UInt8) (bit : Nat) : List Char :=
  if bit < 128 then
    let val := textVal digest bit
    if val &&& 0x3F = 0x3F ∧ ¬ allow_at then
      textChars.getD (0x1F &&& 0x3F) ' ' :: textFrom allow_at digest (bit + 6 - 1)
    else textChars.getD (val &&& 0x3F) ' ' :: textFrom allow_at digest (bit + 6)
  else []
termination_by 128 - bit

def md5FinishText (pms : Md5State) (allow_at : Bool) : List Char × Md5State :=
  let (digest, pms) := md5Finish pms
  (textFrom allow_at digest 0, pms)

end Calls

end CS111.P2P
