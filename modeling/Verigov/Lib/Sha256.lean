import Verigov.Lib.Path
import Mathlib.Data.Vector.Defs

/-!
# SHA-256

The hash function, with 32-bit words as numbers, for runs on concrete data.
-/

namespace Sha256

def wordSize : Nat := 0x100000000

def rotr (n x : Nat) : Nat := (x >>> n ||| x <<< (32 - n)) % wordSize

def constants : List Nat :=
  [ 0x428a2f98, 0x71374491, 0xb5c0fbcf, 0xe9b5dba5, 0x3956c25b, 0x59f111f1, 0x923f82a4, 0xab1c5ed5,
    0xd807aa98, 0x12835b01, 0x243185be, 0x550c7dc3, 0x72be5d74, 0x80deb1fe, 0x9bdc06a7, 0xc19bf174,
    0xe49b69c1, 0xefbe4786, 0x0fc19dc6, 0x240ca1cc, 0x2de92c6f, 0x4a7484aa, 0x5cb0a9dc, 0x76f988da,
    0x983e5152, 0xa831c66d, 0xb00327c8, 0xbf597fc7, 0xc6e00bf3, 0xd5a79147, 0x06ca6351, 0x14292967,
    0x27b70a85, 0x2e1b2138, 0x4d2c6dfc, 0x53380d13, 0x650a7354, 0x766a0abb, 0x81c2c92e, 0x92722c85,
    0xa2bfe8a1, 0xa81a664b, 0xc24b8b70, 0xc76c51a3, 0xd192e819, 0xd6990624, 0xf40e3585, 0x106aa070,
    0x19a4c116, 0x1e376c08, 0x2748774c, 0x34b0bcb5, 0x391c0cb3, 0x4ed8aa4a, 0x5b9cca4f, 0x682e6ff3,
    0x748f82ee, 0x78a5636f, 0x84c87814, 0x8cc70208, 0x90befffa, 0xa4506ceb, 0xbef9a3f7, 0xc67178f2 ]

/-- The eight working words, also the state between blocks. -/
structure Words where
  a : Nat
  b : Nat
  c : Nat
  d : Nat
  e : Nat
  f : Nat
  g : Nat
  h : Nat

def initial : Words :=
  ⟨0x6a09e667, 0xbb67ae85, 0x3c6ef372, 0xa54ff53a, 0x510e527f, 0x9b05688c, 0x1f83d9ab, 0x5be0cd19⟩

/-- The next word of the message schedule, from the last sixteen. -/
def schedule (w : List Nat) : Nat :=
  let x := w.getD 1 0
  let y := w.getD 14 0
  let s0 := rotr 7 x ^^^ rotr 18 x ^^^ x >>> 3
  let s1 := rotr 17 y ^^^ rotr 19 y ^^^ y >>> 10
  (w.getD 0 0 + s0 + w.getD 9 0 + s1) % wordSize

def round (v : Words) (k w : Nat) : Words :=
  let s1 := rotr 6 v.e ^^^ rotr 11 v.e ^^^ rotr 25 v.e
  let ch := (v.e &&& v.f) ^^^ ((wordSize - 1 - v.e) &&& v.g)
  let t1 := v.h + s1 + ch + k + w
  let s0 := rotr 2 v.a ^^^ rotr 13 v.a ^^^ rotr 22 v.a
  let maj := (v.a &&& v.b) ^^^ (v.a &&& v.c) ^^^ (v.b &&& v.c)
  ⟨(t1 + s0 + maj) % wordSize, v.a, v.b, v.c, (v.d + t1) % wordSize, v.e, v.f, v.g⟩

def rounds : List Nat → List Nat → Words → Words
  | k :: ks, w, v => rounds ks (w.tail ++ [schedule w]) (round v k (w.headD 0))
  | [], _, v => v

def compress (v : Words) (block : List Nat) : Words :=
  let r := rounds constants block v
  ⟨(v.a + r.a) % wordSize, (v.b + r.b) % wordSize, (v.c + r.c) % wordSize, (v.d + r.d) % wordSize,
    (v.e + r.e) % wordSize, (v.f + r.f) % wordSize, (v.g + r.g) % wordSize, (v.h + r.h) % wordSize⟩

def bigEndian : Nat → Nat → Bytes
  | 0, _ => []
  | n + 1, x => bigEndian n (x / 256) ++ [UInt8.ofNat x]

theorem length_bigEndian (n x : Nat) : (bigEndian n x).length = n := by
  induction n generalizing x with
  | zero => rfl
  | succ n ih => simp [bigEndian, ih]

def pad (message : Bytes) : Bytes :=
  message ++ 0x80 :: List.replicate ((119 - message.length % 64) % 64) 0 ++
    bigEndian 8 (8 * message.length)

def words : Bytes → List Nat
  | a :: b :: c :: d :: rest =>
    (((a.toNat * 256 + b.toNat) * 256 + c.toNat) * 256 + d.toNat) :: words rest
  | _ => []

def blocks : Nat → List Nat → Words → Words
  | 0, _, v => v
  | n + 1, w, v => blocks n (w.drop 16) (compress v (w.take 16))

def digest (v : Words) : Bytes :=
  [v.a, v.b, v.c, v.d, v.e, v.f, v.g, v.h].flatMap (bigEndian 4)

def sha256 (message : Bytes) : List.Vector UInt8 32 :=
  let w := words (pad message)
  ⟨digest (blocks (w.length / 16) w initial), by simp [digest, length_bigEndian]⟩

end Sha256
