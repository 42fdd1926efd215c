/-!
# MD5

`Md5.digest` is the MD5 digest of a message: four 32-bit words, started at fixed values and
mixed with one block of 64 bytes after the other. The message is filled up with one bit, zeros
and its length in bits (64 bits, low byte first) to whole blocks.

`Digest.hex` writes a digest as 32 lower-case hexadecimal digits.
-/

namespace WordExpr

/-- the four words, also in the middle of a computation -/
structure Digest where
  a : UInt32
  b : UInt32
  c : UInt32
  d : UInt32
deriving DecidableEq, Repr

namespace Digest

def wordBytes (x : UInt32) : List UInt8 :=
  [x.toUInt8, (x >>> 8).toUInt8, (x >>> 16).toUInt8, (x >>> 24).toUInt8]

def bytes (h : Digest) : List UInt8 :=
  wordBytes h.a ++ wordBytes h.b ++ wordBytes h.c ++ wordBytes h.d

def hexDigits (x : UInt8) : List Char :=
  [Nat.digitChar (x.toNat / 16), Nat.digitChar (x.toNat % 16)]

def hex (h : Digest) : String := String.ofList (h.bytes.flatMap hexDigits)

end Digest

namespace Md5

/-! ## tables -/

def start : Digest := ⟨0x67452301, 0xefcdab89, 0x98badcfe, 0x10325476⟩

/-- the whole parts of 2 ^ 32 times the absolute values of the sines of 1 to 64 -/
def sines : Array UInt32 := #[
  0xd76aa478, 0xe8c7b756, 0x242070db, 0xc1bdceee, 0xf57c0faf, 0x4787c62a, 0xa8304613, 0xfd469501,
  0x698098d8, 0x8b44f7af, 0xffff5bb1, 0x895cd7be, 0x6b901122, 0xfd987193, 0xa679438e, 0x49b40821,
  0xf61e2562, 0xc040b340, 0x265e5a51, 0xe9b6c7aa, 0xd62f105d, 0x02441453, 0xd8a1e681, 0xe7d3fbc8,
  0x21e1cde6, 0xc33707d6, 0xf4d50d87, 0x455a14ed, 0xa9e3e905, 0xfcefa3f8, 0x676f02d9, 0x8d2a4c8a,
  0xfffa3942, 0x8771f681, 0x6d9d6122, 0xfde5380c, 0xa4beea44, 0x4bdecfa9, 0xf6bb4b60, 0xbebfbc70,
  0x289b7ec6, 0xeaa127fa, 0xd4ef3085, 0x04881d05, 0xd9d4d039, 0xe6db99e5, 0x1fa27cf8, 0xc4ac5665,
  0xf4292244, 0x432aff97, 0xab9423a7, 0xfc93a039, 0x655b59c3, 0x8f0ccc92, 0xffeff47d, 0x85845dd1,
  0x6fa87e4f, 0xfe2ce6e0, 0xa3014314, 0x4e0811a1, 0xf7537e82, 0xbd3af235, 0x2ad7d2bb, 0xeb86d391]

/-- four rotations for each of the four rounds -/
def rotations : Array UInt32 := #[7, 12, 17, 22, 5, 9, 14, 20, 4, 11, 16, 23, 6, 10, 15, 21]

/-! ## blocks -/

def rotate (x n : UInt32) : UInt32 := (x <<< n) ||| (x >>> (32 - n))

/-- the zero byte behind the end -/
def byteAt (m : ByteArray) (i : Nat) : UInt32 := if h : i < m.size then m[i].toUInt32 else 0

/-- four bytes, low byte first -/
def wordAt (m : ByteArray) (i : Nat) : UInt32 :=
  byteAt m i ||| (byteAt m (i + 1) <<< 8) ||| (byteAt m (i + 2) <<< 16)
    ||| (byteAt m (i + 3) <<< 24)

/-- the mixing function of step `i` -/
def mix (i : Nat) (b c d : UInt32) : UInt32 :=
  if i < 16 then (b &&& c) ||| (~~~b &&& d)
  else if i < 32 then (d &&& b) ||| (~~~d &&& c)
  else if i < 48 then b ^^^ c ^^^ d
  else c ^^^ (b ||| ~~~d)

/-- the word of the block that step `i` takes -/
def place (i : Nat) : Nat :=
  if i < 16 then i
  else if i < 32 then (5 * i + 1) % 16
  else if i < 48 then (3 * i + 5) % 16
  else 7 * i % 16

def step (m : ByteArray) (block : Nat) (h : Digest) (i : Nat) : Digest :=
  let x := h.a + mix i h.b h.c h.d + sines.getD i 0 + wordAt m (block + 4 * place i)
  ⟨h.d, h.b + rotate x (rotations.getD (i / 16 * 4 + i % 4) 0), h.b, h.c⟩

/-- one block, which starts at byte `block` -/
def compress (m : ByteArray) (h : Digest) (block : Nat) : Digest :=
  let g := (List.range 64).foldl (step m block) h
  ⟨h.a + g.a, h.b + g.b, h.c + g.c, h.d + g.d⟩

/-! ## messages -/

def zeros (n : Nat) : ByteArray := ⟨Array.replicate n 0⟩

def lengthBytes (size : Nat) : ByteArray :=
  ⟨(Array.range 8).map (fun i => UInt8.ofNat ((8 * size) >>> (8 * i)))⟩

/-- the fewest zeros that leave room for the length in the last block -/
def pad (m : ByteArray) : ByteArray :=
  m.push 0x80 ++ zeros ((119 - m.size % 64) % 64) ++ lengthBytes m.size

def digest (m : ByteArray) : Digest :=
  let p := pad m
  (List.range (p.size / 64)).foldl (fun h i => compress p h (64 * i)) start

end Md5

end WordExpr
