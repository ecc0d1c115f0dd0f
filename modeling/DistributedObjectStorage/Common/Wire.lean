import DistributedObjectStorage.Common.Status
import DistributedObjectStorage.Library.Framing

/-!
# The on-disk encoding

Integers are big-endian and cut to their width, strings carry their length, and
a reader is the bytes it has not consumed. The logs frame their records with a
length and a CRC-32.
-/
namespace Dos.Wire
open Framing

def putU32 (v : ℕ) : Bytes := bigEndian 4 v

def putU64 (v : ℕ) : Bytes := bigEndian 8 v

def putStr (s : Bytes) : Bytes := putU32 s.length ++ s

/-- One bit of the table-free CRC-32. -/
def crcBit (crc : UInt32) : UInt32 :=
  let mask := 0 - (crc &&& 1)
  (crc >>> 1) ^^^ (0xEDB88320 &&& mask)

def crcByte (crc : UInt32) (b : UInt8) : UInt32 :=
  (List.range 8).foldl (fun crc _ => crcBit crc) (crc ^^^ b.toUInt32)

def crc32 (data : Bytes) : UInt32 := ~~~(data.foldl crcByte 0xFFFFFFFF)

/-- The frame of a record body. -/
def frame (body : Bytes) : Bytes := Framing.frame (fun body => (crc32 body).toNat) body

/-- The loop of `ReadFramedRecords` over the bytes of a file. -/
def readFramedRecords (all : Bytes) : List Bytes := Framing.read (fun body => (crc32 body).toNat) all

/-- The bytes behind the last intact record. -/
def tornTail (all : Bytes) : Bytes := Framing.tail (fun body => (crc32 body).toNat) all

def readWord (width : ℕ) (r : Bytes) : Option (ℕ × Bytes) :=
  if r.length < width then none else some (fromBigEndian (r.take width), r.drop width)

def readU32 (r : Bytes) : Option (ℕ × Bytes) := readWord 4 r

def readU64 (r : Bytes) : Option (ℕ × Bytes) := readWord 8 r

def readStr (r : Bytes) : Option (Bytes × Bytes) :=
  match readU32 r with
  | none => none
  | some (len, r) => if r.length < len then none else some (r.take len, r.drop len)

theorem readWord_put {width v : ℕ} (fits : v < 256 ^ width) (rest : Bytes) :
    readWord width (bigEndian width v ++ rest) = some (v, rest) := by
  unfold readWord
  rw [if_neg (by simp), List.take_left' (bigEndian_length _ _), List.drop_left' (bigEndian_length _ _),
    fromBigEndian_bigEndian fits]

theorem readU64_put {v : ℕ} (fits : v < 2 ^ 64) (rest : Bytes) :
    readU64 (putU64 v ++ rest) = some (v, rest) := readWord_put fits rest

theorem readStr_put {s : Bytes} (fits : s.length < 2 ^ 32) (rest : Bytes) :
    readStr (putStr s ++ rest) = some (s, rest) := by
  have len : readU32 (putU32 s.length ++ (s ++ rest)) = some (s.length, s ++ rest) :=
    readWord_put fits _
  unfold readStr putStr
  rw [List.append_assoc, len]
  simp

/-- A body that a frame can hold. -/
theorem describable {body : Bytes} (nonempty : body ≠ []) (short : body.length < 2 ^ 32) :
    Describable (fun body => (crc32 body).toNat) body :=
  ⟨nonempty, short, UInt32.toNat_lt _⟩

end Dos.Wire
