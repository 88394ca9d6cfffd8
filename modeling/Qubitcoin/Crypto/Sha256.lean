import Qubitcoin.Primitives

/-! SHA-256, as `bitcoin_hashes` computes it: the hash that the concrete runs
    of this development evaluate. Words are numbers below `2 ^ 32`. -/

namespace qubitcoin.crypto

def roundConstants : List Nat := [
  0x428a2f98, 0x71374491, 0xb5c0fbcf, 0xe9b5dba5, 0x3956c25b, 0x59f111f1, 0x923f82a4, 0xab1c5ed5,
  0xd807aa98, 0x12835b01, 0x243185be, 0x550c7dc3, 0x72be5d74, 0x80deb1fe, 0x9bdc06a7, 0xc19bf174,
  0xe49b69c1, 0xefbe4786, 0x0fc19dc6, 0x240ca1cc, 0x2de92c6f, 0x4a7484aa, 0x5cb0a9dc, 0x76f988da,
  0x983e5152, 0xa831c66d, 0xb00327c8, 0xbf597fc7, 0xc6e00bf3, 0xd5a79147, 0x06ca6351, 0x14292967,
  0x27b70a85, 0x2e1b2138, 0x4d2c6dfc, 0x53380d13, 0x650a7354, 0x766a0abb, 0x81c2c92e, 0x92722c85,
  0xa2bfe8a1, 0xa81a664b, 0xc24b8b70, 0xc76c51a3, 0xd192e819, 0xd6990624, 0xf40e3585, 0x106aa070,
  0x19a4c116, 0x1e376c08, 0x2748774c, 0x34b0bcb5, 0x391c0cb3, 0x4ed8aa4a, 0x5b9cca4f, 0x682e6ff3,
  0x748f82ee, 0x78a5636f, 0x84c87814, 0x8cc70208, 0x90befffa, 0xa4506ceb, 0xbef9a3f7, 0xc67178f2]

/-- The eight working words. -/
structure Words where
  (a b c d e f g h : Nat)

def initialWords : Words :=
  ⟨0x6a09e667, 0xbb67ae85, 0x3c6ef372, 0xa54ff53a, 0x510e527f, 0x9b05688c, 0x1f83d9ab, 0x5be0cd19⟩

def rotateRight (x n : Nat) : Nat := (x >>> n) ||| ((x <<< (32 - n)) % 2 ^ 32)

/-- `f n`, with `n` evaluated before it is passed on, so that the kernel keeps
    words as numerals and not as growing expressions. -/
def withValue {α : Type} (n : Nat) (f : Nat → α) : α :=
  match n with
  | 0 => f 0
  | m + 1 => f (m + 1)

/-- The compression rounds over the constants and the message schedule. -/
def rounds : List Nat → List Nat → Words → Words
  | k :: ks, w :: ws, s =>
    let choose := (s.e &&& s.f) ^^^ ((0xffffffff - s.e) &&& s.g)
    let t1 := s.h + (rotateRight s.e 6 ^^^ rotateRight s.e 11 ^^^ rotateRight s.e 25) + choose + k + w
    let majority := (s.a &&& s.b) ^^^ (s.a &&& s.c) ^^^ (s.b &&& s.c)
    let t2 := (rotateRight s.a 2 ^^^ rotateRight s.a 13 ^^^ rotateRight s.a 22) + majority
    withValue ((s.d + t1) % 2 ^ 32) fun e =>
    withValue ((t1 + t2) % 2 ^ 32) fun a =>
    rounds ks ws ⟨a, s.a, s.b, s.c, e, s.e, s.f, s.g⟩
  | _, _, s => s

/-- Prepend `n` further schedule words; the newest word stands first. -/
def extendSchedule : Nat → List Nat → List Nat
  | 0, w => w
  | n + 1, w =>
    let w15 := w.getD 14 0
    let w2 := w.getD 1 0
    let s0 := rotateRight w15 7 ^^^ rotateRight w15 18 ^^^ (w15 >>> 3)
    let s1 := rotateRight w2 17 ^^^ rotateRight w2 19 ^^^ (w2 >>> 10)
    withValue ((w.getD 15 0 + s0 + w.getD 6 0 + s1) % 2 ^ 32) fun x => extendSchedule n (x :: w)

def compress (s : Words) (block : List Nat) : Words :=
  let r := rounds roundConstants (extendSchedule 48 block.reverse).reverse s
  withValue ((s.a + r.a) % 2 ^ 32) fun a => withValue ((s.b + r.b) % 2 ^ 32) fun b =>
  withValue ((s.c + r.c) % 2 ^ 32) fun c => withValue ((s.d + r.d) % 2 ^ 32) fun d =>
  withValue ((s.e + r.e) % 2 ^ 32) fun e => withValue ((s.f + r.f) % 2 ^ 32) fun f =>
  withValue ((s.g + r.g) % 2 ^ 32) fun g => withValue ((s.h + r.h) % 2 ^ 32) fun h =>
  ⟨a, b, c, d, e, f, g, h⟩

def absorb : Nat → List Nat → Words → Words
  | 0, _, s => s
  | n + 1, ws, s => absorb n (ws.drop 16) (compress s (ws.take 16))

def bigEndianWords : List UInt8 → List Nat
  | a :: b :: c :: d :: rest =>
    (a.toNat * 2 ^ 24 + b.toNat * 2 ^ 16 + c.toNat * 2 ^ 8 + d.toNat) :: bigEndianWords rest
  | _ => []

def bigEndianBytes (word : Nat) : List UInt8 := (littleEndian.toBytes 4 word).reverse

/-- The message with its `0x80` byte, zero bytes and 64-bit length in bits. -/
def padded (message : List UInt8) : List UInt8 :=
  message ++ 0x80 :: List.replicate ((119 - message.length % 64) % 64) 0 ++
    (littleEndian.toBytes 8 (message.length * 8)).reverse

def sha256 (message : List UInt8) : List UInt8 :=
  let words := bigEndianWords (padded message)
  let s := absorb (words.length / 16) words initialWords
  bigEndianBytes s.a ++ bigEndianBytes s.b ++ bigEndianBytes s.c ++ bigEndianBytes s.d ++
    bigEndianBytes s.e ++ bigEndianBytes s.f ++ bigEndianBytes s.g ++ bigEndianBytes s.h

def sha256d (message : List UInt8) : primitives.Uint256 :=
  primitives.Uint256.from_bytes (sha256 (sha256 message))

example : sha256d [] = 0x56944c5d3f98413ef45cf54545538103cc9f298e0575820ad3591376e2e0f65d := by
  decide +kernel

end qubitcoin.crypto
