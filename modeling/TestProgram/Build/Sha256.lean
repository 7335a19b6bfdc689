import TestProgram.Document.Basic
import TestProgram.Number.Power

/-!
# SHA-256

The digest of a row of bytes, as FIPS 180-4 defines it: the message is padded
to whole blocks of 64 bytes (`padded`), every block is stretched to 64 words
(`schedule`), and 64 rounds mix them into the state (`compress`).
-/

namespace TestProgram.Sha256

/-- The first 32 bits of the fractions of the cube roots of the first 64
primes. -/
def roundConstants : List UInt32 := [
  0x428a2f98, 0x71374491, 0xb5c0fbcf, 0xe9b5dba5, 0x3956c25b, 0x59f111f1, 0x923f82a4, 0xab1c5ed5,
  0xd807aa98, 0x12835b01, 0x243185be, 0x550c7dc3, 0x72be5d74, 0x80deb1fe, 0x9bdc06a7, 0xc19bf174,
  0xe49b69c1, 0xefbe4786, 0x0fc19dc6, 0x240ca1cc, 0x2de92c6f, 0x4a7484aa, 0x5cb0a9dc, 0x76f988da,
  0x983e5152, 0xa831c66d, 0xb00327c8, 0xbf597fc7, 0xc6e00bf3, 0xd5a79147, 0x06ca6351, 0x14292967,
  0x27b70a85, 0x2e1b2138, 0x4d2c6dfc, 0x53380d13, 0x650a7354, 0x766a0abb, 0x81c2c92e, 0x92722c85,
  0xa2bfe8a1, 0xa81a664b, 0xc24b8b70, 0xc76c51a3, 0xd192e819, 0xd6990624, 0xf40e3585, 0x106aa070,
  0x19a4c116, 0x1e376c08, 0x2748774c, 0x34b0bcb5, 0x391c0cb3, 0x4ed8aa4a, 0x5b9cca4f, 0x682e6ff3,
  0x748f82ee, 0x78a5636f, 0x84c87814, 0x8cc70208, 0x90befffa, 0xa4506ceb, 0xbef9a3f7, 0xc67178f2]

/-- The eight words that are carried from block to block. -/
structure State where
  a : UInt32
  b : UInt32
  c : UInt32
  d : UInt32
  e : UInt32
  f : UInt32
  g : UInt32
  h : UInt32
  deriving DecidableEq, Repr

namespace State

/-- The first 32 bits of the fractions of the square roots of the first eight
primes. -/
def initial : State :=
  ⟨0x6a09e667, 0xbb67ae85, 0x3c6ef372, 0xa54ff53a, 0x510e527f, 0x9b05688c, 0x1f83d9ab, 0x5be0cd19⟩

def add (s t : State) : State :=
  ⟨s.a + t.a, s.b + t.b, s.c + t.c, s.d + t.d, s.e + t.e, s.f + t.f, s.g + t.g, s.h + t.h⟩

def words (s : State) : List UInt32 := [s.a, s.b, s.c, s.d, s.e, s.f, s.g, s.h]

end State

def rotateRight (x : UInt32) (n : UInt32) : UInt32 := (x >>> n) ||| (x <<< (32 - n))

/-- One round with a word of the schedule and a constant. -/
def round (s : State) (w k : UInt32) : State :=
  let sum1 := rotateRight s.e 6 ^^^ rotateRight s.e 11 ^^^ rotateRight s.e 25
  let choice := (s.e &&& s.f) ^^^ (~~~s.e &&& s.g)
  let t1 := s.h + sum1 + choice + k + w
  let sum0 := rotateRight s.a 2 ^^^ rotateRight s.a 13 ^^^ rotateRight s.a 22
  let majority := (s.a &&& s.b) ^^^ (s.a &&& s.c) ^^^ (s.b &&& s.c)
  ⟨t1 + (sum0 + majority), s.a, s.b, s.c, s.d + t1, s.e, s.f, s.g⟩

/-- The next word after words that are listed newest first. -/
def nextWord (ws : List UInt32) : UInt32 :=
  let back (i : Nat) : UInt32 := ws.getD i 0
  let sigma0 := rotateRight (back 14) 7 ^^^ rotateRight (back 14) 18 ^^^ (back 14 >>> 3)
  let sigma1 := rotateRight (back 1) 17 ^^^ rotateRight (back 1) 19 ^^^ (back 1 >>> 10)
  sigma1 + back 6 + sigma0 + back 15

/-- Adds words to a list with the newest first. -/
def extend : (count : Nat) → List UInt32 → List UInt32
  | 0, ws => ws
  | n + 1, ws => extend n (nextWord ws :: ws)

/-- The words of a block of bytes, the most significant byte first. -/
def wordsOf : List UInt8 → List UInt32
  | a :: b :: c :: d :: bytes =>
    ((a.toUInt32 <<< 24) ||| (b.toUInt32 <<< 16) ||| (c.toUInt32 <<< 8) ||| d.toUInt32) :: wordsOf bytes
  | _ => []

def schedule (block : List UInt8) : List UInt32 := (extend 48 (wordsOf block).reverse).reverse

def compress (s : State) (block : List UInt8) : State :=
  s.add (((schedule block).zip roundConstants).foldl (fun s wk => round s wk.1 wk.2) s)

/-- The number of bits of a message in eight bytes. -/
def lengthBytes (bytes : Nat) : List UInt8 :=
  [56, 48, 40, 32, 24, 16, 8, 0].map fun shift => UInt8.ofNat (8 * bytes / twoTo shift)

/-- The message with one bit, zeros and its length, in whole blocks. -/
def padded (message : List UInt8) : List UInt8 :=
  let n := message.length
  message ++ 0x80 :: List.replicate ((119 - n % 64) % 64) 0 ++ lengthBytes n

theorem length_padded (message : List UInt8) : (padded message).length % 64 = 0 := by
  simp only [padded, lengthBytes, List.length_append, List.length_cons, List.length_replicate,
    List.length_map, List.length_nil]
  omega

/-- Mixes in all blocks, one after the other. -/
def compressAll (s : State) (bytes : List UInt8) : State :=
  if bytes.length < 64 then s else compressAll (compress s (bytes.take 64)) (bytes.drop 64)
termination_by bytes.length
decreasing_by simp only [List.length_drop]; omega

def digest (message : List UInt8) : State := compressAll .initial (padded message)

/-- The digest in 64 hexadecimal digits. -/
def hex (message : List UInt8) : String :=
  String.ofList ((digest message).words.flatMap fun w => Document.hexDigits 8 w.toNat)

end TestProgram.Sha256
