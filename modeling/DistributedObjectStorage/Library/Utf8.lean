import Mathlib.Data.List.Basic
import Mathlib.Tactic.Common

/-! Texts as bytes. A byte below 128 is a character of its own wherever it stands. -/
namespace Utf8

def encode (text : List Char) : List UInt8 := text.flatMap String.utf8EncodeChar

/-- The bytes are those of some text. -/
def Valid (bytes : List UInt8) : Prop := ∃ text, encode text = bytes

theorem encode_append (s t : List Char) : encode (s ++ t) = encode s ++ encode t := List.flatMap_append

theorem encode_cons (c : Char) (s : List Char) : encode (c :: s) = String.utf8EncodeChar c ++ encode s :=
  List.flatMap_cons

theorem encode_injective {s t : List Char} (same : encode s = encode t) : s = t := by
  have bytes : s.utf8Encode = t.utf8Encode := by
    rw [List.utf8Encode, List.utf8Encode]
    exact congrArg List.toByteArray same
  have decoded : s.utf8Encode.utf8Decode? = some t.toArray := by
    rw [bytes, List.utf8Decode?_utf8Encode]
  rw [List.utf8Decode?_utf8Encode] at decoded
  simpa using decoded

/-- A character is one byte below 128, or several from 128 on. -/
theorem encodeChar_cases (c : Char) :
    (c.toNat < 128 ∧ String.utf8EncodeChar c = [UInt8.ofNat c.toNat]) ∨
      (128 ≤ c.toNat ∧ ∀ b ∈ String.utf8EncodeChar c, 128 ≤ b.toNat) := by
  rw [String.utf8EncodeChar.eq_def]
  dsimp only
  by_cases small : c.val.toNat ≤ 127
  · rw [if_pos small]
    exact .inl ⟨Nat.lt_succ_of_le small, rfl⟩
  · refine .inr ⟨Nat.lt_of_not_le small, ?_⟩
    rw [if_neg small]
    split
    · simp only [List.forall_mem_cons, UInt8.toNat_ofNat']
      exact ⟨by omega, by omega, by simp⟩
    · split
      · simp only [List.forall_mem_cons, UInt8.toNat_ofNat']
        exact ⟨by omega, by omega, by omega, by simp⟩
      · simp only [List.forall_mem_cons, UInt8.toNat_ofNat']
        exact ⟨by omega, by omega, by omega, by omega, by simp⟩

/-- Below 128 a bound holds for the bytes as it does for the characters. -/
theorem encode_bound {n : Nat} (ascii : n ≤ 128) (s : List Char) :
    (∀ b ∈ encode s, n ≤ b.toNat) ↔ ∀ c ∈ s, n ≤ c.toNat := by
  have one (c : Char) : (∀ b ∈ String.utf8EncodeChar c, n ≤ b.toNat) ↔ n ≤ c.toNat := by
    rcases encodeChar_cases c with ⟨small, bytes⟩ | ⟨large, bytes⟩
    · rw [bytes, List.forall_mem_singleton, UInt8.toNat_ofNat', Nat.mod_eq_of_lt (by omega)]
    · exact ⟨fun _ => by omega, fun _ b member => Nat.le_trans ascii (bytes b member)⟩
  induction s with
  | nil => simp [encode]
  | cons c s ih =>
      rw [encode_cons, List.forall_mem_append, one, List.forall_mem_cons]
      exact and_congr_right fun _ => ih

theorem valid_nil : Valid [] := ⟨[], rfl⟩

theorem Valid.append {x y : List UInt8} (first : Valid x) (second : Valid y) : Valid (x ++ y) := by
  obtain ⟨s, rfl⟩ := first
  obtain ⟨t, rfl⟩ := second
  exact ⟨s ++ t, encode_append s t⟩

theorem valid_singleton {b : UInt8} (ascii : b.toNat < 128) : Valid [b] := by
  refine ⟨[Char.ofNat b.toNat], ?_⟩
  have code : (Char.ofNat b.toNat).toNat = b.toNat := by
    have scalar : b.toNat.isValidChar := .inl (by omega)
    have made : Char.ofNat b.toNat = Char.ofNatAux b.toNat scalar := dif_pos scalar
    rw [made]
    rfl
  rcases encodeChar_cases (Char.ofNat b.toNat) with ⟨-, bytes⟩ | ⟨large, -⟩
  · rw [encode_cons, bytes, code, UInt8.ofNat_toNat]
    rfl
  · omega

/-- A byte below 128 splits a text into two texts. -/
theorem valid_split {x y : List UInt8} {b : UInt8} (ascii : b.toNat < 128) :
    Valid (x ++ b :: y) ↔ Valid x ∧ Valid y := by
  constructor
  · intro valid
    obtain ⟨text, bytes⟩ := valid
    induction text generalizing x with
    | nil => simp [encode] at bytes
    | cons c text ih =>
        rw [encode_cons] at bytes
        rcases List.append_eq_append_iff.mp bytes with ⟨more, rfl, rest⟩ | ⟨more, char, rest⟩
        · obtain ⟨first, second⟩ := ih rest
          have head : Valid (String.utf8EncodeChar c) := ⟨[c], by simp [encode]⟩
          exact ⟨head.append first, second⟩
        · cases more with
          | nil =>
              rw [List.append_nil] at char
              obtain ⟨-, second⟩ := ih (x := []) rest.symm
              exact ⟨⟨[c], by simp [encode, char]⟩, second⟩
          | cons d more =>
              obtain ⟨rfl, behind⟩ := List.cons.inj rest
              have inside : b ∈ String.utf8EncodeChar c := by simp [char]
              rcases encodeChar_cases c with ⟨-, single⟩ | ⟨-, large⟩
              · rw [single] at char
                have one := congrArg List.length char
                simp only [List.length_nil, List.length_append, List.length_cons] at one
                have front : x = [] := List.length_eq_zero_iff.mp (by omega)
                have back : more = [] := List.length_eq_zero_iff.mp (by omega)
                subst front back
                exact ⟨valid_nil, ⟨text, behind.symm⟩⟩
              · exact absurd (large b inside) (by omega)
  · intro valid
    exact valid.1.append ((valid_singleton ascii).append valid.2)

theorem valid_ascii_append {x : List UInt8} (ascii : ∀ b ∈ x, b.toNat < 128) (y : List UInt8) :
    Valid (x ++ y) ↔ Valid y := by
  induction x with
  | nil => rfl
  | cons b x ih =>
      obtain ⟨first, rest⟩ := List.forall_mem_cons.mp ascii
      rw [List.cons_append, ← List.nil_append (b :: (x ++ y)), valid_split first, ih rest]
      exact and_iff_right valid_nil

theorem valid_of_ascii {x : List UInt8} (ascii : ∀ b ∈ x, b.toNat < 128) : Valid x := by
  rw [← List.append_nil x, valid_ascii_append ascii]
  exact valid_nil

end Utf8
