import Mathlib.Algebra.Group.Nat.Defs
import Mathlib.Data.List.Basic

/-!
# SHA-256 (FIPS 180-4)

The hash over byte lists, on natural numbers below 2^32, so that it evaluates in the kernel.
Only the shape of the digest is proved: 32 bytes, for every input.
-/
namespace Codec

abbrev Bytes := List UInt8

/-- The low `n` bytes of `x`, most significant first. -/
def beBytes : Nat → Nat → Bytes
  | 0, _ => []
  | n + 1, x => beBytes n (x / 256) ++ [UInt8.ofNat x]

@[simp] theorem beBytes_length (n x : Nat) : (beBytes n x).length = n := by
  induction n generalizing x with
  | zero => rfl
  | succ n ih => simp [beBytes, ih]

/-- The number a big-endian byte string denotes. -/
def ofBeBytes (bs : Bytes) : Nat :=
  bs.foldl (fun x b => x * 256 + b.toNat) 0

theorem ofBeBytes_beBytes (n x : Nat) : ofBeBytes (beBytes n x) = x % 256 ^ n := by
  induction n generalizing x with
  | zero => simp [beBytes, ofBeBytes, Nat.mod_one]
  | succ n ih =>
    have hlast : ∀ bs b, ofBeBytes (bs ++ [b]) = ofBeBytes bs * 256 + b.toNat := by
      intro bs b
      simp [ofBeBytes, List.foldl_append]
    have hsplit : x % 256 ^ (n + 1) = x % 256 + 256 * (x / 256 % 256 ^ n) := by
      rw [Nat.pow_succ', Nat.mod_mul]
    rw [beBytes, hlast, ih, hsplit, UInt8.toNat_ofNat']
    omega

/-- Numbers that fit in `n` bytes are told apart by them. -/
theorem beBytes_inj {n x y : Nat} (hx : x < 256 ^ n) (hy : y < 256 ^ n)
    (h : beBytes n x = beBytes n y) : x = y := by
  have := congrArg ofBeBytes h
  rwa [ofBeBytes_beBytes, ofBeBytes_beBytes, Nat.mod_eq_of_lt hx, Nat.mod_eq_of_lt hy] at this

namespace Sha256

/-- The first 32 bits of the fractional parts of the cube roots of the first 64 primes. -/
def roundConstants : List Nat := [
  0x428a2f98, 0x71374491, 0xb5c0fbcf, 0xe9b5dba5, 0x3956c25b, 0x59f111f1, 0x923f82a4, 0xab1c5ed5,
  0xd807aa98, 0x12835b01, 0x243185be, 0x550c7dc3, 0x72be5d74, 0x80deb1fe, 0x9bdc06a7, 0xc19bf174,
  0xe49b69c1, 0xefbe4786, 0x0fc19dc6, 0x240ca1cc, 0x2de92c6f, 0x4a7484aa, 0x5cb0a9dc, 0x76f988da,
  0x983e5152, 0xa831c66d, 0xb00327c8, 0xbf597fc7, 0xc6e00bf3, 0xd5a79147, 0x06ca6351, 0x14292967,
  0x27b70a85, 0x2e1b2138, 0x4d2c6dfc, 0x53380d13, 0x650a7354, 0x766a0abb, 0x81c2c92e, 0x92722c85,
  0xa2bfe8a1, 0xa81a664b, 0xc24b8b70, 0xc76c51a3, 0xd192e819, 0xd6990624, 0xf40e3585, 0x106aa070,
  0x19a4c116, 0x1e376c08, 0x2748774c, 0x34b0bcb5, 0x391c0cb3, 0x4ed8aa4a, 0x5b9cca4f, 0x682e6ff3,
  0x748f82ee, 0x78a5636f, 0x84c87814, 0x8cc70208, 0x90befffa, 0xa4506ceb, 0xbef9a3f7, 0xc67178f2]

/-- The eight working variables. -/
structure Words where
  a : Nat
  b : Nat
  c : Nat
  d : Nat
  e : Nat
  f : Nat
  g : Nat
  h : Nat

/-- The first 32 bits of the fractional parts of the square roots of the first 8 primes. -/
def initialHash : Words :=
  ⟨0x6a09e667, 0xbb67ae85, 0x3c6ef372, 0xa54ff53a, 0x510e527f, 0x9b05688c, 0x1f83d9ab, 0x5be0cd19⟩

def add32 (x y : Nat) : Nat := (x + y) % 2 ^ 32

def rotr (n x : Nat) : Nat := x >>> n ||| (x <<< (32 - n)) % 2 ^ 32

def bigSigma0 (x : Nat) : Nat := rotr 2 x ^^^ rotr 13 x ^^^ rotr 22 x

def bigSigma1 (x : Nat) : Nat := rotr 6 x ^^^ rotr 11 x ^^^ rotr 25 x

def smallSigma0 (x : Nat) : Nat := rotr 7 x ^^^ rotr 18 x ^^^ x >>> 3

def smallSigma1 (x : Nat) : Nat := rotr 17 x ^^^ rotr 19 x ^^^ x >>> 10

def choose (x y z : Nat) : Nat := (x &&& y) ^^^ ((0xffffffff ^^^ x) &&& z)

def majority (x y z : Nat) : Nat := (x &&& y) ^^^ (x &&& z) ^^^ (y &&& z)

/-- The message schedule is kept as its next sixteen words; a round drops the first and appends
the one sixteen places on. -/
def shiftWindow (ws : List Nat) : List Nat :=
  ws.tail ++ [add32 (add32 (smallSigma1 (ws.getD 14 0)) (ws.getD 9 0))
    (add32 (smallSigma0 (ws.getD 1 0)) (ws.getD 0 0))]

def round (s : Words) (k w : Nat) : Words :=
  let t1 := add32 (add32 (add32 s.h (bigSigma1 s.e)) (add32 (choose s.e s.f s.g) k)) w
  let t2 := add32 (bigSigma0 s.a) (majority s.a s.b s.c)
  ⟨add32 t1 t2, s.a, s.b, s.c, add32 s.d t1, s.e, s.f, s.g⟩

def compressBlock (s : Words) (block : List Nat) : Words :=
  let t := (roundConstants.foldl (fun p k => (round p.1 k (p.2.getD 0 0), shiftWindow p.2)) (s, block)).1
  ⟨add32 s.a t.a, add32 s.b t.b, add32 s.c t.c, add32 s.d t.d,
    add32 s.e t.e, add32 s.f t.f, add32 s.g t.g, add32 s.h t.h⟩

/-- The message, a one bit, zeros up to 56 modulo 64, and its length in bits. -/
def pad (m : Bytes) : Bytes :=
  m ++ [0x80] ++ List.replicate ((119 - m.length % 64) % 64) 0 ++ beBytes 8 (8 * m.length)

/-- Big-endian words. -/
def toWords : Bytes → List Nat
  | a :: b :: c :: d :: rest =>
    (((a.toNat * 256 + b.toNat) * 256 + c.toNat) * 256 + d.toNat) :: toWords rest
  | _ => []

def Words.digest (s : Words) : Bytes :=
  beBytes 4 s.a ++ beBytes 4 s.b ++ beBytes 4 s.c ++ beBytes 4 s.d ++
    beBytes 4 s.e ++ beBytes 4 s.f ++ beBytes 4 s.g ++ beBytes 4 s.h

theorem Words.digest_length (s : Words) : s.digest.length = 32 := by
  simp [Words.digest]

end Sha256

/-- Consecutive pieces of `n` elements, the last one possibly shorter. -/
def pieces {α : Type} (n : Nat) (xs : List α) : List (List α) :=
  (List.range ((xs.length + n - 1) / n)).map fun i => (xs.drop (i * n)).take n

theorem pieces_take {α : Type} (n k : Nat) (xs : List α) :
    ((List.range k).map fun i => (xs.drop (i * n)).take n).flatten = xs.take (k * n) := by
  induction k with
  | zero => simp
  | succ k ih =>
    rw [List.range_succ, List.map_append, List.flatten_append, ih, Nat.succ_mul, List.take_add]
    simp

/-- The pieces make up the list. -/
theorem pieces_flatten {α : Type} {n : Nat} (hn : n ≠ 0) (xs : List α) : (pieces n xs).flatten = xs := by
  have hcover : xs.length ≤ (xs.length + n - 1) / n * n := by
    have h1 := Nat.div_add_mod (xs.length + n - 1) n
    have h2 := Nat.mod_lt (xs.length + n - 1) (Nat.pos_of_ne_zero hn)
    rw [Nat.mul_comm]
    omega
  rw [pieces, pieces_take, List.take_of_length_le hcover]

/-- `hashlib.sha256(m).digest()`, OpenSSL's `SHA256`. -/
def sha256 (m : Bytes) : Bytes :=
  ((pieces 16 (Sha256.toWords (Sha256.pad m))).foldl Sha256.compressBlock Sha256.initialHash).digest

@[simp] theorem sha256_length (m : Bytes) : (sha256 m).length = 32 :=
  Sha256.Words.digest_length _

end Codec
