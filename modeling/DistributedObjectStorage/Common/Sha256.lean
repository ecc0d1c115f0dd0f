import DistributedObjectStorage.Common.Status

/-!
# SHA-256 and the digests built on it

Machine words keep their width. The buffer holds the `buffer_len_` bytes that
are in use; what lies behind them in the source's array is never read.
-/
namespace Dos

/-- The eight words of `state_`, under the names the rounds give them. -/
structure Sha256.Words where
  a : UInt32
  b : UInt32
  c : UInt32
  d : UInt32
  e : UInt32
  f : UInt32
  g : UInt32
  h : UInt32
  deriving DecidableEq, Repr

structure Sha256 where
  state : Sha256.Words
  bitCount : UInt64
  buffer : Bytes
  deriving DecidableEq, Repr

namespace Sha256

def initState : Words :=
  ⟨0x6a09e667, 0xbb67ae85, 0x3c6ef372, 0xa54ff53a, 0x510e527f, 0x9b05688c, 0x1f83d9ab, 0x5be0cd19⟩

def roundConstants : List UInt32 :=
  [0x428a2f98, 0x71374491, 0xb5c0fbcf, 0xe9b5dba5, 0x3956c25b, 0x59f111f1, 0x923f82a4, 0xab1c5ed5,
    0xd807aa98, 0x12835b01, 0x243185be, 0x550c7dc3, 0x72be5d74, 0x80deb1fe, 0x9bdc06a7, 0xc19bf174,
    0xe49b69c1, 0xefbe4786, 0x0fc19dc6, 0x240ca1cc, 0x2de92c6f, 0x4a7484aa, 0x5cb0a9dc, 0x76f988da,
    0x983e5152, 0xa831c66d, 0xb00327c8, 0xbf597fc7, 0xc6e00bf3, 0xd5a79147, 0x06ca6351, 0x14292967,
    0x27b70a85, 0x2e1b2138, 0x4d2c6dfc, 0x53380d13, 0x650a7354, 0x766a0abb, 0x81c2c92e, 0x92722c85,
    0xa2bfe8a1, 0xa81a664b, 0xc24b8b70, 0xc76c51a3, 0xd192e819, 0xd6990624, 0xf40e3585, 0x106aa070,
    0x19a4c116, 0x1e376c08, 0x2748774c, 0x34b0bcb5, 0x391c0cb3, 0x4ed8aa4a, 0x5b9cca4f, 0x682e6ff3,
    0x748f82ee, 0x78a5636f, 0x84c87814, 0x8cc70208, 0x90befffa, 0xa4506ceb, 0xbef9a3f7, 0xc67178f2]

def rotr (x n : UInt32) : UInt32 := (x >>> n) ||| (x <<< (32 - n))

def reset : Sha256 := ⟨initState, 0, []⟩

/-- The sixteen big-endian words of a block. -/
def blockWords : Bytes → List UInt32
  | p :: q :: r :: s :: rest =>
      ((p.toUInt32 <<< 24) ||| (q.toUInt32 <<< 16) ||| (r.toUInt32 <<< 8) ||| s.toUInt32) ::
        blockWords rest
  | _ => []

/-- The next word of the schedule. The list is newest first, so `w[i - 2]` of
the source stands at place 1 and `w[i - 16]` at place 15. -/
def extend (w : List UInt32) : List UInt32 :=
  let w15 := w.getD 14 0
  let w2 := w.getD 1 0
  let s0 := rotr w15 7 ^^^ rotr w15 18 ^^^ (w15 >>> 3)
  let s1 := rotr w2 17 ^^^ rotr w2 19 ^^^ (w2 >>> 10)
  (w.getD 15 0 + s0 + w.getD 6 0 + s1) :: w

def schedule (block : Bytes) : List UInt32 :=
  ((List.range 48).foldl (fun w _ => extend w) (blockWords block).reverse).reverse

/-- One round, for its constant and its schedule word. -/
def round (s : Words) (input : UInt32 × UInt32) : Words :=
  let s1 := rotr s.e 6 ^^^ rotr s.e 11 ^^^ rotr s.e 25
  let ch := (s.e &&& s.f) ^^^ (~~~s.e &&& s.g)
  let temp1 := s.h + s1 + ch + input.1 + input.2
  let s0 := rotr s.a 2 ^^^ rotr s.a 13 ^^^ rotr s.a 22
  let maj := (s.a &&& s.b) ^^^ (s.a &&& s.c) ^^^ (s.b &&& s.c)
  let temp2 := s0 + maj
  ⟨temp1 + temp2, s.a, s.b, s.c, s.d + temp1, s.e, s.f, s.g⟩

def processBlock (s : Words) (block : Bytes) : Words :=
  let t := (roundConstants.zip (schedule block)).foldl round s
  ⟨s.a + t.a, s.b + t.b, s.c + t.c, s.d + t.d, s.e + t.e, s.f + t.f, s.g + t.g, s.h + t.h⟩

/-- The loop of `Update`. An iteration takes at least one byte, so the length
of the data is enough fuel. -/
def updateLoop : ℕ → Sha256 → Bytes → Sha256
  | 0, h, _ => h
  | fuel + 1, h, data =>
      if data.isEmpty then h
      else
        let take := min (64 - h.buffer.length) data.length
        let buffer := h.buffer ++ data.take take
        let h :=
          if buffer.length = 64 then { h with state := processBlock h.state buffer, buffer := [] }
          else { h with buffer := buffer }
        updateLoop fuel h (data.drop take)

def update (h : Sha256) (data : Bytes) : Sha256 :=
  updateLoop data.length { h with bitCount := h.bitCount + data.length.toUInt64 * 8 } data

/-- The zero padding of `HexDigest`; the buffer reaches 56 bytes within a block. -/
def padLoop : ℕ → Sha256 → Sha256
  | 0, h => h
  | fuel + 1, h => if h.buffer.length = 56 then h else padLoop fuel (h.update [0x00])

def hexDigits : Bytes := text "0123456789abcdef"

def hexWord (word : UInt32) : Bytes :=
  ([28, 24, 20, 16, 12, 8, 4, 0] : List UInt32).map fun shift =>
    hexDigits.getD ((word >>> shift) &&& 0xf).toNat 48

def hexDigest (h : Sha256) : Bytes :=
  let totalBits := h.bitCount
  let h := padLoop 64 (h.update [0x80])
  let lenBytes := ([56, 48, 40, 32, 24, 16, 8, 0] : List UInt64).map fun shift =>
    (totalBits >>> shift).toUInt8
  let s := processBlock h.state (h.buffer ++ lenBytes)
  [s.a, s.b, s.c, s.d, s.e, s.f, s.g, s.h].flatMap hexWord

end Sha256

def sha256Hex (data : Bytes) : Bytes := (Sha256.reset.update data).hexDigest

/-- Names the payload file of a key. -/
def keyDigest (key : Bytes) : Bytes := sha256Hex key

/-- The value of one lowercase hex digit. -/
def nibble (c : UInt8) : UInt64 :=
  if 48 ≤ c ∧ c ≤ 57 then (c - 48).toUInt64 else (c - 97 + 10).toUInt64

def hash64 (data : Bytes) : UInt64 :=
  ((sha256Hex data).take 16).foldl (fun value c => (value <<< 4) ||| nibble c) 0

/-- A digest is printable, so it survives a C string. -/
theorem sha256Hex_nonzero (data : Bytes) : (0 : UInt8) ∉ sha256Hex data := by
  have printable : ∀ c ∈ Sha256.hexDigits, c ≠ 0 := by decide +kernel
  have digit : ∀ k, Sha256.hexDigits.getD k 48 ≠ 0 := by
    intro k
    rw [List.getD_eq_getElem?_getD]
    cases found : Sha256.hexDigits[k]? with
    | none => decide
    | some c => exact printable c (List.mem_of_getElem? found)
  intro h
  simp only [sha256Hex, Sha256.hexDigest, List.mem_flatMap] at h
  obtain ⟨word, -, inside⟩ := h
  obtain ⟨shift, -, zero⟩ := List.mem_map.mp inside
  exact digit _ zero

theorem sha256Hex_length (data : Bytes) : (sha256Hex data).length = 64 := by
  simp [sha256Hex, Sha256.hexDigest, Sha256.hexWord]

example : (sha256Hex (text "abc")).take 8 = text "ba7816bf" := by decide +kernel

end Dos
