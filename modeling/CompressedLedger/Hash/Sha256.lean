import CompressedLedger.Bytes.Chunks
import CompressedLedger.Bytes.Fixed

/-!
# SHA-256

A message is padded with one set bit, zeros and its length in bits, cut into blocks of 64 bytes,
and each block updates eight words of 32 bits.  The digest is those words, each written most
significant byte first.
-/

namespace CompressedLedger.Sha256

/-- The eight working words. -/
structure State where
  a : UInt32
  b : UInt32
  c : UInt32
  d : UInt32
  e : UInt32
  f : UInt32
  g : UInt32
  h : UInt32

/-- The words a computation starts from. -/
def start : State :=
  ⟨0x6a09e667, 0xbb67ae85, 0x3c6ef372, 0xa54ff53a, 0x510e527f, 0x9b05688c, 0x1f83d9ab, 0x5be0cd19⟩

/-- The constant of each round. -/
def roundConstants : List UInt32 :=
  [0x428a2f98, 0x71374491, 0xb5c0fbcf, 0xe9b5dba5, 0x3956c25b, 0x59f111f1, 0x923f82a4, 0xab1c5ed5,
    0xd807aa98, 0x12835b01, 0x243185be, 0x550c7dc3, 0x72be5d74, 0x80deb1fe, 0x9bdc06a7, 0xc19bf174,
    0xe49b69c1, 0xefbe4786, 0x0fc19dc6, 0x240ca1cc, 0x2de92c6f, 0x4a7484aa, 0x5cb0a9dc, 0x76f988da,
    0x983e5152, 0xa831c66d, 0xb00327c8, 0xbf597fc7, 0xc6e00bf3, 0xd5a79147, 0x06ca6351, 0x14292967,
    0x27b70a85, 0x2e1b2138, 0x4d2c6dfc, 0x53380d13, 0x650a7354, 0x766a0abb, 0x81c2c92e, 0x92722c85,
    0xa2bfe8a1, 0xa81a664b, 0xc24b8b70, 0xc76c51a3, 0xd192e819, 0xd6990624, 0xf40e3585, 0x106aa070,
    0x19a4c116, 0x1e376c08, 0x2748774c, 0x34b0bcb5, 0x391c0cb3, 0x4ed8aa4a, 0x5b9cca4f, 0x682e6ff3,
    0x748f82ee, 0x78a5636f, 0x84c87814, 0x8cc70208, 0x90befffa, 0xa4506ceb, 0xbef9a3f7, 0xc67178f2]

/-- Rotation towards the least significant bit. -/
def rotateRight (w : UInt32) (n : UInt32) : UInt32 :=
  (w >>> n) ||| (w <<< (32 - n))

/-- Extends a message to a whole number of blocks. -/
def pad (bs : List UInt8) : List UInt8 :=
  let zeros := (119 - bs.length % 64) % 64
  bs ++ 0x80 :: (List.replicate zeros 0 ++ Bytes.toBigEndian 8 (8 * bs.length))

/-- The 64 words of a block: its own sixteen, and each later one from four before it. -/
def schedule (block : List UInt8) : Array UInt32 :=
  let words := (chunks 4 (by decide) block).toArray.map fun bs =>
    UInt32.ofNat (Bytes.ofBigEndian bs)
  (List.range 48).foldl
    (fun w t =>
      let x := w.getD (t + 1) 0
      let y := w.getD (t + 14) 0
      let small := rotateRight x 7 ^^^ rotateRight x 18 ^^^ (x >>> 3)
      let large := rotateRight y 17 ^^^ rotateRight y 19 ^^^ (y >>> 10)
      w.push (w.getD t 0 + small + w.getD (t + 9) 0 + large))
    words

/-- One round with its constant and its word. -/
def round (s : State) (constant word : UInt32) : State :=
  let mixE := rotateRight s.e 6 ^^^ rotateRight s.e 11 ^^^ rotateRight s.e 25
  let choice := (s.e &&& s.f) ^^^ ((~~~ s.e) &&& s.g)
  let t := s.h + mixE + choice + constant + word
  let mixA := rotateRight s.a 2 ^^^ rotateRight s.a 13 ^^^ rotateRight s.a 22
  let majority := (s.a &&& s.b) ^^^ (s.a &&& s.c) ^^^ (s.b &&& s.c)
  ⟨t + (mixA + majority), s.a, s.b, s.c, s.d + t, s.e, s.f, s.g⟩

/-- Updates the words by one block. -/
def absorb (s : State) (block : List UInt8) : State :=
  let rounds := List.zip roundConstants (schedule block).toList
  let r := rounds.foldl (fun r (constant, word) => round r constant word) s
  ⟨s.a + r.a, s.b + r.b, s.c + r.c, s.d + r.d, s.e + r.e, s.f + r.f, s.g + r.g, s.h + r.h⟩

/-- The 32 bytes of the words. -/
def State.toHash (s : State) : Hash :=
  let word (w : UInt32) : List UInt8 := Bytes.toBigEndian 4 w.toNat
  ⟨word s.a ++ word s.b ++ word s.c ++ word s.d ++ word s.e ++ word s.f ++ word s.g ++ word s.h,
    by simp [word]⟩

/-- The digest of a message. -/
def hash (bs : List UInt8) : Hash :=
  ((chunks 64 (by decide) (pad bs)).foldl absorb start).toHash

end CompressedLedger.Sha256
