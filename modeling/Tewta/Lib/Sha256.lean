import Tewta.Lib.ByteString

/-!
# SHA-256, as FIPS 180-4 describes it

Words are natural numbers below `2 ^ 32` and every operation on them reduces
modulo `2 ^ 32`, so the kernel evaluates a digest with its own arithmetic.
`digest` pads a byte string, splits it into blocks of sixteen words and folds
`compress` over them; `digest_length` says the result has thirty-two bytes.
-/

namespace Sha256

open ByteString

/-- Reduce to a 32-bit word. -/
def word (n : ℕ) : ℕ := n % 4294967296

def rotr (x n : ℕ) : ℕ := x >>> n ||| word (x <<< (32 - n))

def ch (x y z : ℕ) : ℕ := Nat.xor (x &&& y) (Nat.xor x 4294967295 &&& z)

def maj (x y z : ℕ) : ℕ := Nat.xor (x &&& y) (Nat.xor (x &&& z) (y &&& z))

def bigSigma0 (x : ℕ) : ℕ := Nat.xor (rotr x 2) (Nat.xor (rotr x 13) (rotr x 22))

def bigSigma1 (x : ℕ) : ℕ := Nat.xor (rotr x 6) (Nat.xor (rotr x 11) (rotr x 25))

def smallSigma0 (x : ℕ) : ℕ := Nat.xor (rotr x 7) (Nat.xor (rotr x 18) (x >>> 3))

def smallSigma1 (x : ℕ) : ℕ := Nat.xor (rotr x 17) (Nat.xor (rotr x 19) (x >>> 10))

/-- The round constants. -/
def roundConstants : List ℕ :=
  [0x428a2f98, 0x71374491, 0xb5c0fbcf, 0xe9b5dba5, 0x3956c25b, 0x59f111f1, 0x923f82a4, 0xab1c5ed5,
   0xd807aa98, 0x12835b01, 0x243185be, 0x550c7dc3, 0x72be5d74, 0x80deb1fe, 0x9bdc06a7, 0xc19bf174,
   0xe49b69c1, 0xefbe4786, 0x0fc19dc6, 0x240ca1cc, 0x2de92c6f, 0x4a7484aa, 0x5cb0a9dc, 0x76f988da,
   0x983e5152, 0xa831c66d, 0xb00327c8, 0xbf597fc7, 0xc6e00bf3, 0xd5a79147, 0x06ca6351, 0x14292967,
   0x27b70a85, 0x2e1b2138, 0x4d2c6dfc, 0x53380d13, 0x650a7354, 0x766a0abb, 0x81c2c92e, 0x92722c85,
   0xa2bfe8a1, 0xa81a664b, 0xc24b8b70, 0xc76c51a3, 0xd192e819, 0xd6990624, 0xf40e3585, 0x106aa070,
   0x19a4c116, 0x1e376c08, 0x2748774c, 0x34b0bcb5, 0x391c0cb3, 0x4ed8aa4a, 0x5b9cca4f, 0x682e6ff3,
   0x748f82ee, 0x78a5636f, 0x84c87814, 0x8cc70208, 0x90befffa, 0xa4506ceb, 0xbef9a3f7, 0xc67178f2]

/-- The chaining state, the working variables `a` to `h`. -/
structure State where
  a : ℕ
  b : ℕ
  c : ℕ
  d : ℕ
  e : ℕ
  f : ℕ
  g : ℕ
  h : ℕ

def initial : State :=
  ⟨0x6a09e667, 0xbb67ae85, 0x3c6ef372, 0xa54ff53a, 0x510e527f, 0x9b05688c, 0x1f83d9ab, 0x5be0cd19⟩

/-- `n` words of the message schedule, from a window of the last sixteen. -/
def schedule : ℕ → List ℕ → List ℕ
  | 0, _ => []
  | _, [] => []
  | n + 1, w :: rest =>
    w :: schedule n (rest ++
      [word (w + smallSigma0 (rest.getD 0 0) + rest.getD 8 0 + smallSigma1 (rest.getD 13 0))])

/-- One round, with the round constant already added to the schedule word. -/
def round (s : State) (kw : ℕ) : State :=
  let t1 := s.h + bigSigma1 s.e + ch s.e s.f s.g + kw
  let t2 := bigSigma0 s.a + maj s.a s.b s.c
  ⟨word (t1 + t2), s.a, s.b, s.c, word (s.d + t1), s.e, s.f, s.g⟩

def compress (s : State) (block : List ℕ) : State :=
  let r := ((schedule 64 block).zipWith (· + ·) roundConstants).foldl round s
  ⟨word (s.a + r.a), word (s.b + r.b), word (s.c + r.c), word (s.d + r.d),
   word (s.e + r.e), word (s.f + r.f), word (s.g + r.g), word (s.h + r.h)⟩

/-- The message, a one bit, zeros, and the length in bits in eight bytes. -/
def pad (message : List UInt8) : List UInt8 :=
  message ++ 0x80 :: List.replicate ((119 - message.length % 64) % 64) 0
    ++ be 8 (8 * message.length)

/-- Sixteen big-endian words at a time. -/
def words : ℕ → List UInt8 → List ℕ
  | 0, _ => []
  | n + 1, bs => ofBe (bs.take 4) :: words n (bs.drop 4)

def blocks : ℕ → List UInt8 → List (List ℕ)
  | 0, _ => []
  | n + 1, bs => words 16 bs :: blocks n (bs.drop 64)

/-- **The SHA-256 digest of a byte string.** -/
def digest (message : List UInt8) : List UInt8 :=
  let padded := pad message
  let s := (blocks (padded.length / 64) padded).foldl compress initial
  be 4 s.a ++ be 4 s.b ++ be 4 s.c ++ be 4 s.d ++ be 4 s.e ++ be 4 s.f ++ be 4 s.g ++ be 4 s.h

theorem digest_length (message : List UInt8) : (digest message).length = 32 := by
  simp [digest]

/-- The digest of the three bytes of `abc`. -/
example : digest [0x61, 0x62, 0x63] =
    [0xba, 0x78, 0x16, 0xbf, 0x8f, 0x01, 0xcf, 0xea, 0x41, 0x41, 0x40, 0xde, 0x5d, 0xae, 0x22, 0x23,
     0xb0, 0x03, 0x61, 0xa3, 0x96, 0x17, 0x7a, 0x9c, 0xb4, 0x10, 0xff, 0x61, 0xf2, 0x00, 0x15, 0xad] := by
  decide +kernel

end Sha256
