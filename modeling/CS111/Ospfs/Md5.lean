import CS111.Lib.Md5
import CS111.Lib.Memory

/-!
# The message digest of the formatter

`md5.c`. The machine stores its words low byte first, so the words of a block are copied as they stand.
-/

namespace CS111.Ospfs

set_option autoImplicit false

open Memory Md5

/-- `regs` are `A`, `B`, `C` and `D`. -/
structure Md5Context where
  regs : Registers
  nblocks : UInt32
  buf : Nat → UInt8
  count : Nat
  finalized : Bool

def md5Init (ctx : Md5Context) : Md5Context :=
  { ctx with
    regs := ⟨0x67452301, 0xefcdab89, 0x98badcfe, 0x10325476⟩
    nblocks := 0
    count := 0
    finalized := false }

section Transform

def rol (x n : UInt32) : UInt32 := (x <<< n) ||| (x >>> (32 - n))

def ff (b c d : UInt32) : UInt32 := d ^^^ (b &&& (c ^^^ d))

def fg (b c d : UInt32) : UInt32 := ff d b c

def fh (b c d : UInt32) : UInt32 := b ^^^ c ^^^ d

def fi (b c d : UInt32) : UInt32 := c ^^^ (b ||| ~~~d)

/-- `OP` of the last three rounds. -/
def op (f : UInt32 → UInt32 → UInt32 → UInt32) (words : Nat → UInt32) (r : Registers) (o : Op) :
    Registers :=
  let r := r.put (r.get o.p + (f (r.get o.q) (r.get o.u) (r.get o.v) + words o.k + o.t)) o.p
  let r := r.put (rol (r.get o.p) o.s) o.p
  r.put (r.get o.p + r.get o.q) o.p

/-- An operation of the first round does not name its word. -/
structure Op1 where
  a : Reg
  b : Reg
  c : Reg
  d : Reg
  s : UInt32
  t : UInt32
  deriving Repr, DecidableEq

/-- `OP` of the first round, which takes the word at `cwp` and moves on. -/
def op1 (words : Nat → UInt32) (r : Registers × Nat) (o : Op1) : Registers × Nat :=
  (op ff words r.1 ⟨o.a, o.b, o.c, o.d, r.2, o.s, o.t⟩, r.2 + 1)

def round1 : List Op1 :=
  [⟨.a, .b, .c, .d, 7, 0xd76aa478⟩,
   ⟨.d, .a, .b, .c, 12, 0xe8c7b756⟩,
   ⟨.c, .d, .a, .b, 17, 0x242070db⟩,
   ⟨.b, .c, .d, .a, 22, 0xc1bdceee⟩,
   ⟨.a, .b, .c, .d, 7, 0xf57c0faf⟩,
   ⟨.d, .a, .b, .c, 12, 0x4787c62a⟩,
   ⟨.c, .d, .a, .b, 17, 0xa8304613⟩,
   ⟨.b, .c, .d, .a, 22, 0xfd469501⟩,
   ⟨.a, .b, .c, .d, 7, 0x698098d8⟩,
   ⟨.d, .a, .b, .c, 12, 0x8b44f7af⟩,
   ⟨.c, .d, .a, .b, 17, 0xffff5bb1⟩,
   ⟨.b, .c, .d, .a, 22, 0x895cd7be⟩,
   ⟨.a, .b, .c, .d, 7, 0x6b901122⟩,
   ⟨.d, .a, .b, .c, 12, 0xfd987193⟩,
   ⟨.c, .d, .a, .b, 17, 0xa679438e⟩,
   ⟨.b, .c, .d, .a, 22, 0x49b40821⟩]

def round2 : List Op :=
  [⟨.a, .b, .c, .d, 1, 5, 0xf61e2562⟩,
   ⟨.d, .a, .b, .c, 6, 9, 0xc040b340⟩,
   ⟨.c, .d, .a, .b, 11, 14, 0x265e5a51⟩,
   ⟨.b, .c, .d, .a, 0, 20, 0xe9b6c7aa⟩,
   ⟨.a, .b, .c, .d, 5, 5, 0xd62f105d⟩,
   ⟨.d, .a, .b, .c, 10, 9, 0x02441453⟩,
   ⟨.c, .d, .a, .b, 15, 14, 0xd8a1e681⟩,
   ⟨.b, .c, .d, .a, 4, 20, 0xe7d3fbc8⟩,
   ⟨.a, .b, .c, .d, 9, 5, 0x21e1cde6⟩,
   ⟨.d, .a, .b, .c, 14, 9, 0xc33707d6⟩,
   ⟨.c, .d, .a, .b, 3, 14, 0xf4d50d87⟩,
   ⟨.b, .c, .d, .a, 8, 20, 0x455a14ed⟩,
   ⟨.a, .b, .c, .d, 13, 5, 0xa9e3e905⟩,
   ⟨.d, .a, .b, .c, 2, 9, 0xfcefa3f8⟩,
   ⟨.c, .d, .a, .b, 7, 14, 0x676f02d9⟩,
   ⟨.b, .c, .d, .a, 12, 20, 0x8d2a4c8a⟩]

def round3 : List Op :=
  [⟨.a, .b, .c, .d, 5, 4, 0xfffa3942⟩,
   ⟨.d, .a, .b, .c, 8, 11, 0x8771f681⟩,
   ⟨.c, .d, .a, .b, 11, 16, 0x6d9d6122⟩,
   ⟨.b, .c, .d, .a, 14, 23, 0xfde5380c⟩,
   ⟨.a, .b, .c, .d, 1, 4, 0xa4beea44⟩,
   ⟨.d, .a, .b, .c, 4, 11, 0x4bdecfa9⟩,
   ⟨.c, .d, .a, .b, 7, 16, 0xf6bb4b60⟩,
   ⟨.b, .c, .d, .a, 10, 23, 0xbebfbc70⟩,
   ⟨.a, .b, .c, .d, 13, 4, 0x289b7ec6⟩,
   ⟨.d, .a, .b, .c, 0, 11, 0xeaa127fa⟩,
   ⟨.c, .d, .a, .b, 3, 16, 0xd4ef3085⟩,
   ⟨.b, .c, .d, .a, 6, 23, 0x04881d05⟩,
   ⟨.a, .b, .c, .d, 9, 4, 0xd9d4d039⟩,
   ⟨.d, .a, .b, .c, 12, 11, 0xe6db99e5⟩,
   ⟨.c, .d, .a, .b, 15, 16, 0x1fa27cf8⟩,
   ⟨.b, .c, .d, .a, 2, 23, 0xc4ac5665⟩]

def round4 : List Op :=
  [⟨.a, .b, .c, .d, 0, 6, 0xf4292244⟩,
   ⟨.d, .a, .b, .c, 7, 10, 0x432aff97⟩,
   ⟨.c, .d, .a, .b, 14, 15, 0xab9423a7⟩,
   ⟨.b, .c, .d, .a, 5, 21, 0xfc93a039⟩,
   ⟨.a, .b, .c, .d, 12, 6, 0x655b59c3⟩,
   ⟨.d, .a, .b, .c, 3, 10, 0x8f0ccc92⟩,
   ⟨.c, .d, .a, .b, 10, 15, 0xffeff47d⟩,
   ⟨.b, .c, .d, .a, 1, 21, 0x85845dd1⟩,
   ⟨.a, .b, .c, .d, 8, 6, 0x6fa87e4f⟩,
   ⟨.d, .a, .b, .c, 15, 10, 0xfe2ce6e0⟩,
   ⟨.c, .d, .a, .b, 6, 15, 0xa3014314⟩,
   ⟨.b, .c, .d, .a, 13, 21, 0x4e0811a1⟩,
   ⟨.a, .b, .c, .d, 4, 6, 0xf7537e82⟩,
   ⟨.d, .a, .b, .c, 11, 10, 0xbd3af235⟩,
   ⟨.c, .d, .a, .b, 2, 15, 0x2ad7d2bb⟩,
   ⟨.b, .c, .d, .a, 9, 21, 0xeb86d391⟩]

def transform (ctx : Md5Context) (data : List UInt8) : Md5Context :=
  let words := word data
  let r := round4.foldl (op fi words) (round3.foldl (op fh words) (round2.foldl (op fg words)
    (round1.foldl (op1 words) (ctx.regs, 0)).1))
  { ctx with regs := ⟨ctx.regs.a + r.a, ctx.regs.b + r.b, ctx.regs.c + r.c, ctx.regs.d + r.d⟩ }

end Transform

section Update

/-- `md5_update` without data. -/
def flush (hd : Md5Context) : Md5Context :=
  if hd.count = 64 then
    { transform hd (load hd.buf 0 64) with count := 0, nblocks := hd.nblocks + 1 }
  else hd

/-- A byte goes into the buffer. -/
def Md5Context.push (hd : Md5Context) (byte : UInt8) : Md5Context :=
  { hd with buf := store hd.buf hd.count [byte], count := hd.count + 1 }

/-- The loop that fills the buffer, and what it leaves. -/
def fillBuf (hd : Md5Context) : List UInt8 → Md5Context × List UInt8
  | [] => (hd, [])
  | byte :: inbuf => if hd.count < 64 then fillBuf (hd.push byte) inbuf else (hd, byte :: inbuf)

/-- The loop over the full blocks, and what it leaves. -/
def wholeBlocks (hd : Md5Context) (inbuf : List UInt8) : Md5Context × List UInt8 :=
  if 64 ≤ inbuf.length then
    wholeBlocks { transform hd (inbuf.take 64) with count := 0, nblocks := hd.nblocks + 1 }
      (inbuf.drop 64)
  else (hd, inbuf)
termination_by inbuf.length
decreasing_by
  rw [List.length_drop]
  omega

/-- `md5_update` from the loop over the full blocks on. -/
def updateBlocks (hd : Md5Context) (inbuf : List UInt8) : Md5Context :=
  let (hd, inbuf) := wholeBlocks hd inbuf
  (fillBuf hd inbuf).1

def md5Update (hd : Md5Context) (inbuf : List UInt8) : Md5Context :=
  let hd := flush hd
  if hd.count ≠ 0 then
    let (hd, inbuf) := fillBuf hd inbuf
    let hd := flush hd
    if inbuf.length = 0 then hd else updateBlocks hd inbuf
  else updateBlocks hd inbuf

end Update

section Final

/-- The loops that store zeros up to `n`. -/
def Md5Context.zeroTo (hd : Md5Context) (n : Nat) : Md5Context :=
  { hd with
    buf := store hd.buf hd.count (List.replicate (n - hd.count) 0)
    count := max hd.count n }

/-- `lsb` and `msb`. -/
def bitCount (nblocks : UInt32) (count : Nat) : UInt32 × UInt32 :=
  let t := nblocks
  let lsb := t <<< 6
  let msb : UInt32 := if lsb < t then 1 else 0
  let msb := msb + (t >>> 26)
  let t := lsb
  let lsb := t + UInt32.ofNat count
  let msb := if lsb < t then msb + 1 else msb
  let t := lsb
  let lsb := t <<< 3
  let msb := if lsb < t then msb + 1 else msb
  (lsb, msb + (t >>> 29))

def doFinal (hd : Md5Context) : Md5Context :=
  let hd := flush hd
  let (lsb, msb) := bitCount hd.nblocks hd.count
  let hd :=
    if hd.count < 56 then (hd.push 0x80).zeroTo 56
    else
      let hd := flush ((hd.push 0x80).zeroTo 64)
      { hd with buf := store hd.buf 0 (List.replicate 56 0) }
  let hd := { hd with buf := store hd.buf 56 (wordBytes lsb ++ wordBytes msb) }
  let hd := transform hd (load hd.buf 0 64)
  { hd with
    buf := store hd.buf 0
      (wordBytes hd.regs.a ++ wordBytes hd.regs.b ++ wordBytes hd.regs.c ++ wordBytes hd.regs.d)
    finalized := true }

def md5Final (ctx : Md5Context) : List UInt8 × Md5Context :=
  let ctx := if ctx.finalized then ctx else doFinal ctx
  (load ctx.buf 0 16, ctx)

def textChars : List Char := "abcdefghijklmnopqrstuvwxyz234567".toList

def textVal (ctx : Md5Context) (bit : Nat) : Nat :=
  let first_char := bit / 8
  let val := (ctx.buf first_char).toNat >>> (bit % 8)
  if (first_char + 1) * 8 < bit + 8 ∧ first_char < 15 then
    val + ((ctx.buf (first_char + 1)).toNat <<< (8 - bit % 8))
  else val

/-- The loop has a round for each of 26 characters. -/
def md5FinalText (ctx : Md5Context) : List Char × Md5Context :=
  let ctx := if ctx.finalized then ctx else doFinal ctx
  ((List.range' 0 26 5).map fun bit => textChars.getD (textVal ctx bit &&& 0x1F) ' ', ctx)

end Final

end CS111.Ospfs
