import Mathlib.Algebra.Group.Nat.Defs

/-! Byte strings, counters and the status type shared by every layer. -/
namespace Dos

/-- A `std::string`: bytes without any encoding. -/
abbrev Bytes := List UInt8

/-- Membership tests on names and keys all go through this instance. -/
instance Bytes.lawfulBEq : LawfulBEq Bytes := inferInstance

/-- The bytes of a string literal of the source. -/
def text (s : String) : Bytes := s.toByteArray.data.toList

/-- `x + 1` for a `uint64_t`. -/
def increment (x : ℕ) : ℕ := (x + 1) % 2 ^ 64

theorem increment_of_lt {x : ℕ} (room : x + 1 < 2 ^ 64) : increment x = x + 1 := Nat.mod_eq_of_lt room

theorem increment_ne (x : ℕ) : increment x ≠ x := by
  unfold increment
  omega

theorem lt_increment {x : ℕ} (room : x + 1 < 2 ^ 64) : x < increment x := by
  rw [increment_of_lt room]
  exact Nat.lt_succ_self x

inductive StatusCode where
  | ok | notFound | checksumMismatch | conflict | invalidArgument | alreadyExists | ioError
  | unavailable
  deriving DecidableEq, Repr

structure Status where
  code : StatusCode
  message : Bytes
  deriving DecidableEq, Repr

def statusCodeName : StatusCode → Bytes
  | .ok => text "OK"
  | .notFound => text "NOT_FOUND"
  | .checksumMismatch => text "CHECKSUM_MISMATCH"
  | .conflict => text "CONFLICT"
  | .invalidArgument => text "INVALID_ARGUMENT"
  | .alreadyExists => text "ALREADY_EXISTS"
  | .ioError => text "IO_ERROR"
  | .unavailable => text "UNAVAILABLE"

namespace Status

/-- An Ok status carries no message. -/
def success : Status := ⟨.ok, []⟩
def notFound (message : Bytes) : Status := ⟨.notFound, message⟩
def checksumMismatch (message : Bytes) : Status := ⟨.checksumMismatch, message⟩
def conflict (message : Bytes) : Status := ⟨.conflict, message⟩
def invalidArgument (message : Bytes) : Status := ⟨.invalidArgument, message⟩
def ioError (message : Bytes) : Status := ⟨.ioError, message⟩
def unavailable (message : Bytes) : Status := ⟨.unavailable, message⟩

def isOk (s : Status) : Bool := s.code == .ok

def toString (s : Status) : Bytes :=
  statusCodeName s.code ++ if s.message = [] then [] else text ": " ++ s.message

end Status

/-- Either a value or a non-Ok status. -/
abbrev StatusOr (α : Type) := Except Status α

end Dos
