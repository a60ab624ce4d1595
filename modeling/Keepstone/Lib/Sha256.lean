import Keepstone.Lib.Bytes

/-!
# SHA-256

The hash function of FIPS 180-4 on byte lists, with 32-bit words as natural numbers below `2^32`.
Statements elsewhere take the hash function as a parameter; this one is what concrete inputs are
run with, so every step is a structural recursion the kernel can evaluate.
-/

namespace Keepstone.Lib.Sha256

/-- `2^32`: words are added modulo this. -/
def wordMod : Nat := 0x100000000

/-- Rotate a word right by `n`. -/
def rotr (x n : Nat) : Nat := (x >>> n) ||| ((x <<< (32 - n)) % wordMod)

/-- The round constants: fractional parts of the cube roots of the first 64 primes. -/
def roundConstants : List Nat :=
  [0x428a2f98, 0x71374491, 0xb5c0fbcf, 0xe9b5dba5, 0x3956c25b, 0x59f111f1, 0x923f82a4, 0xab1c5ed5,
   0xd807aa98, 0x12835b01, 0x243185be, 0x550c7dc3, 0x72be5d74, 0x80deb1fe, 0x9bdc06a7, 0xc19bf174,
   0xe49b69c1, 0xefbe4786, 0x0fc19dc6, 0x240ca1cc, 0x2de92c6f, 0x4a7484aa, 0x5cb0a9dc, 0x76f988da,
   0x983e5152, 0xa831c66d, 0xb00327c8, 0xbf597fc7, 0xc6e00bf3, 0xd5a79147, 0x06ca6351, 0x14292967,
   0x27b70a85, 0x2e1b2138, 0x4d2c6dfc, 0x53380d13, 0x650a7354, 0x766a0abb, 0x81c2c92e, 0x92722c85,
   0xa2bfe8a1, 0xa81a664b, 0xc24b8b70, 0xc76c51a3, 0xd192e819, 0xd6990624, 0xf40e3585, 0x106aa070,
   0x19a4c116, 0x1e376c08, 0x2748774c, 0x34b0bcb5, 0x391c0cb3, 0x4ed8aa4a, 0x5b9cca4f, 0x682e6ff3,
   0x748f82ee, 0x78a5636f, 0x84c87814, 0x8cc70208, 0x90befffa, 0xa4506ceb, 0xbef9a3f7, 0xc67178f2]

/-- The eight working words. -/
structure State where
  (a b c d e f g h : Nat)

/-- The initial hash value. -/
def initial : State :=
  ⟨0x6a09e667, 0xbb67ae85, 0x3c6ef372, 0xa54ff53a, 0x510e527f, 0x9b05688c, 0x1f83d9ab, 0x5be0cd19⟩

/-- One round with constant `k` and schedule word `w`. -/
def round (s : State) (k w : Nat) : State :=
  let sum1 := rotr s.e 6 ^^^ rotr s.e 11 ^^^ rotr s.e 25
  let ch := (s.e &&& s.f) ^^^ ((s.e ^^^ 0xffffffff) &&& s.g)
  let temp1 := s.h + sum1 + ch + k + w
  let sum0 := rotr s.a 2 ^^^ rotr s.a 13 ^^^ rotr s.a 22
  let maj := (s.a &&& s.b) ^^^ (s.a &&& s.c) ^^^ (s.b &&& s.c)
  ⟨(temp1 + sum0 + maj) % wordMod, s.a, s.b, s.c, (s.d + temp1) % wordMod, s.e, s.f, s.g⟩

/-- The rounds; the list is the window of the sixteen schedule words still to come. -/
def rounds : List Nat → State → List Nat → State
  | k :: ks, s, [w0, w1, w2, w3, w4, w5, w6, w7, w8, w9, w10, w11, w12, w13, w14, w15] =>
    let sigma0 := rotr w1 7 ^^^ rotr w1 18 ^^^ (w1 >>> 3)
    let sigma1 := rotr w14 17 ^^^ rotr w14 19 ^^^ (w14 >>> 10)
    let w16 := (w0 + sigma0 + w9 + sigma1) % wordMod
    rounds ks (round s k w0)
      [w1, w2, w3, w4, w5, w6, w7, w8, w9, w10, w11, w12, w13, w14, w15, w16]
  | _, s, _ => s

/-- Compress one block of sixteen words into the state. -/
def compress (s : State) (block : List Nat) : State :=
  let r := rounds roundConstants s block
  ⟨(s.a + r.a) % wordMod, (s.b + r.b) % wordMod, (s.c + r.c) % wordMod, (s.d + r.d) % wordMod,
   (s.e + r.e) % wordMod, (s.f + r.f) % wordMod, (s.g + r.g) % wordMod, (s.h + r.h) % wordMod⟩

/-- Big-endian words. -/
def words : List UInt8 → List Nat
  | a :: b :: c :: d :: rest =>
    (((a.toNat * 256 + b.toNat) * 256 + c.toNat) * 256 + d.toNat) :: words rest
  | _ => []

/-- The four bytes of a word. -/
def wordBytes (w : Nat) : List UInt8 :=
  [UInt8.ofNat (w >>> 24), UInt8.ofNat (w >>> 16), UInt8.ofNat (w >>> 8), UInt8.ofNat w]

/-- The message, a one bit, zeros, and the bit length in eight bytes: a multiple of 64 bytes. -/
def pad (message : List UInt8) : List UInt8 :=
  let bits := message.length * 8
  let zeros : List UInt8 := List.replicate ((119 - message.length % 64) % 64) 0
  message ++ 0x80 :: zeros ++ wordBytes (bits >>> 32) ++ wordBytes bits

/-- Compress `n` blocks. -/
def blocks : Nat → List Nat → State → State
  | 0, _, s => s
  | n + 1, w, s => blocks n (w.drop 16) (compress s (w.take 16))

/-- SHA-256. -/
def digest (message : List UInt8) : Bytes 32 :=
  let padded := pad message
  let s := blocks (padded.length / 64) (words padded) initial
  ⟨[s.a, s.b, s.c, s.d, s.e, s.f, s.g, s.h].flatMap wordBytes, by simp [wordBytes]⟩

-- the test vector "abc"
example : (digest [0x61, 0x62, 0x63]).toList =
    [186, 120, 22, 191, 143, 1, 207, 234, 65, 65, 64, 222, 93, 174, 34, 35, 176, 3, 97, 163,
     150, 23, 122, 156, 180, 16, 255, 97, 242, 0, 21, 173] := by decide +kernel

end Keepstone.Lib.Sha256
