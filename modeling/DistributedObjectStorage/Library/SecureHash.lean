import Mathlib.Data.Nat.Find
import Mathlib.Data.Nat.NthRoot.Defs
import Mathlib.Data.Nat.Prime.Basic
import DistributedObjectStorage.Library.BlockStream

/-!
# SHA-256 as FIPS 180-4 defines it

Words are bit vectors, the schedule is a recursion over its index, and the
constants are the leading fraction bits of roots of primes.
-/
namespace SecureHash

/-! ## Constants -/

/-- The first 32 bits of the fraction of the `k`-th root of a number. -/
def fraction (k p : ℕ) : BitVec 32 := BitVec.ofNat 32 (Nat.nthRoot k (p * 2 ^ (32 * k)))

/-- The first 64 primes. -/
def primes : List ℕ := (List.range 312).filter fun n => decide n.Prime

/-- Below 18² it is enough to try the divisors below 18. -/
theorem prime_iff {n : ℕ} (small : n < 312) :
    n.Prime ↔ 2 ≤ n ∧ ∀ d < 18, 2 ≤ d → d ∣ n → d = n := by
  constructor
  · intro prime
    refine ⟨prime.two_le, fun d _ proper divides => ?_⟩
    exact ((Nat.dvd_prime prime).mp divides).resolve_left (by omega)
  · rintro ⟨large, none⟩
    by_contra composite
    have square := Nat.minFac_sq_le_self (by omega) composite
    have below : n.minFac < 18 := by
      by_contra above
      have squares := Nat.pow_le_pow_left (Nat.le_of_not_lt above) 2
      omega
    have factor := Nat.minFac_prime (show n ≠ 1 by omega)
    have same := none n.minFac below factor.two_le n.minFac_dvd
    rw [same] at factor
    exact composite factor

theorem primes_eq :
    primes = (List.range 312).filter fun n => decide (2 ≤ n ∧ ∀ d < 18, 2 ≤ d → d ∣ n → d = n) := by
  apply List.filter_congr
  intro n below
  rw [decide_eq_decide]
  exact prime_iff (List.mem_range.mp below)

def roundConstant (t : ℕ) : BitVec 32 := fraction 3 (primes.getD t 0)

/-! ## The compression function -/

/-- The eight working variables, and the eight words of a hash value. -/
structure Vars where
  a : BitVec 32
  b : BitVec 32
  c : BitVec 32
  d : BitVec 32
  e : BitVec 32
  f : BitVec 32
  g : BitVec 32
  h : BitVec 32
  deriving DecidableEq

def initial : Vars :=
  ⟨fraction 2 2, fraction 2 3, fraction 2 5, fraction 2 7, fraction 2 11, fraction 2 13, fraction 2 17, fraction 2 19⟩

def choose (x y z : BitVec 32) : BitVec 32 := (x &&& y) ^^^ (~~~x &&& z)

def majority (x y z : BitVec 32) : BitVec 32 := (x &&& y) ^^^ (x &&& z) ^^^ (y &&& z)

def bigSigma0 (x : BitVec 32) : BitVec 32 := x.rotateRight 2 ^^^ x.rotateRight 13 ^^^ x.rotateRight 22

def bigSigma1 (x : BitVec 32) : BitVec 32 := x.rotateRight 6 ^^^ x.rotateRight 11 ^^^ x.rotateRight 25

def sigma0 (x : BitVec 32) : BitVec 32 := x.rotateRight 7 ^^^ x.rotateRight 18 ^^^ x >>> 3

def sigma1 (x : BitVec 32) : BitVec 32 := x.rotateRight 17 ^^^ x.rotateRight 19 ^^^ x >>> 10

/-- The word of four bytes, the first one the highest. -/
def bigEndian (p q r s : UInt8) : BitVec 32 := p.toBitVec ++ q.toBitVec ++ r.toBitVec ++ s.toBitVec

def word (block : List UInt8) (t : ℕ) : BitVec 32 :=
  bigEndian (block.getD (4 * t) 0) (block.getD (4 * t + 1) 0) (block.getD (4 * t + 2) 0) (block.getD (4 * t + 3) 0)

def schedule (block : List UInt8) (t : ℕ) : BitVec 32 :=
  if t < 16 then word block t
  else
    sigma1 (schedule block (t - 2)) + schedule block (t - 7) + sigma0 (schedule block (t - 15)) +
      schedule block (t - 16)
termination_by t

def round (k w : BitVec 32) (v : Vars) : Vars :=
  let t1 := v.h + bigSigma1 v.e + choose v.e v.f v.g + k + w
  let t2 := bigSigma0 v.a + majority v.a v.b v.c
  { a := t1 + t2, b := v.a, c := v.b, d := v.c, e := v.d + t1, f := v.e, g := v.f, h := v.g }

def compress (hash : Vars) (block : List UInt8) : Vars :=
  let v := (List.range 64).foldl (fun v t => round (roundConstant t) (schedule block t) v) hash
  { a := hash.a + v.a, b := hash.b + v.b, c := hash.c + v.c, d := hash.d + v.d,
    e := hash.e + v.e, f := hash.f + v.f, g := hash.g + v.g, h := hash.h + v.h }

/-! ## Padding and the digest -/

theorem exists_zeros (n : ℕ) : ∃ z, (n + 1 + z + 8) % 64 = 0 := ⟨55 + 63 * n, by omega⟩

/-- The least number of zero bytes that completes a block. -/
def zeros (n : ℕ) : ℕ := Nat.find (exists_zeros n)

/-- The 64 bits of a length, the highest first. -/
def lengthBytes (n : ℕ) : List UInt8 := (List.range 8).map fun i => UInt8.ofNat (n / 256 ^ (7 - i))

def pad (message : List UInt8) : List UInt8 :=
  message ++ 0x80 :: (List.replicate (zeros message.length) 0 ++ lengthBytes (8 * message.length))

def digest (message : List UInt8) : Vars := (BlockStream.blocks 64 (pad message)).foldl compress initial

def hexWord (w : BitVec 32) : List Char := (List.range 8).map fun i => Nat.digitChar (w.toNat / 16 ^ (7 - i) % 16)

/-- The digest in hexadecimal, in lower case. -/
def hex (v : Vars) : String := String.ofList ([v.a, v.b, v.c, v.d, v.e, v.f, v.g, v.h].flatMap hexWord)

end SecureHash
