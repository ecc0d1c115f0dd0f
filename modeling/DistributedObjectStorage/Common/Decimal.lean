import Mathlib.Algebra.Group.Nat.Defs
import Mathlib.Data.List.TakeWhile
import Mathlib.Tactic.Common
import DistributedObjectStorage.Common.Status

/-! Numbers in decimal, as `std::to_string` writes them and `std::stoul` reads them. -/
namespace Dos

/-- The test of `isdigit` in the C locale. -/
def isDigit (b : UInt8) : Bool := 48 ≤ b && b ≤ 57

/-- The value of a row of digits. -/
def ofDigits (digits : Bytes) : ℕ := digits.foldl (fun value b => 10 * value + (b.toNat - 48)) 0

/-- The test of `isspace` in the C locale. -/
def isSpace (b : UInt8) : Bool := b == 32 || (9 ≤ b && b ≤ 13)

/-- The exceptions of `std::stoul`. -/
inductive StoulError where
  | invalidArgument
  | outOfRange
  deriving DecidableEq, Repr

/-- Blanks, a sign and digits; what follows them is not looked at. The value of
a number with a minus sign wraps around. -/
def stoul (value : Bytes) : Except StoulError ℕ :=
  let number := value.dropWhile isSpace
  let sign := number.head?.filter fun b => b == 43 || b == 45
  let digits := (number.drop sign.toList.length).takeWhile isDigit
  if digits = [] then .error .invalidArgument
  else if 2 ^ 64 ≤ ofDigits digits then .error .outOfRange
  else .ok (if sign = some 45 then (2 ^ 64 - ofDigits digits) % 2 ^ 64 else ofDigits digits)

/-- The value of `std::atoi` on a text too short to overflow: 0 without digits. -/
def atoi (value : Bytes) : Int :=
  let number := value.dropWhile isSpace
  let sign := number.head?.filter fun b => b == 43 || b == 45
  let digits := (number.drop sign.toList.length).takeWhile isDigit
  if sign = some 45 then -(ofDigits digits) else ofDigits digits

section Digits
variable {c : Char} (n : ℕ)

theorem byte_of_ascii (ascii : c.val.toNat < 128) :
    String.utf8EncodeChar c = [c.val.toUInt8] ∧ c.val.toUInt8.toNat = c.toNat := by
  have byte : c.val.toUInt8.toNat = c.val.toNat := by
    rw [UInt32.toNat_toUInt8]
    omega
  refine ⟨?_, byte⟩
  apply String.utf8EncodeChar_eq_singleton
  rw [Char.utf8Size_eq_one_iff, UInt32.le_iff_toNat_le]
  exact Nat.le_of_lt_succ ascii

/-- ASCII characters are their own bytes. -/
theorem text_ascii {l : List Char} (ascii : ∀ c ∈ l, c.val.toNat < 128) :
    text (String.ofList l) = l.map (·.val.toUInt8) := by
  rw [text, String.toByteArray_ofList]
  induction l with
  | nil => rfl
  | cons c l ih =>
      obtain ⟨first, rest⟩ := List.forall_mem_cons.mp ascii
      rw [List.utf8Encode_cons, ByteArray.toList_data_append, ih rest, List.utf8Encode_singleton,
        (byte_of_ascii first).1, List.toList_data_toByteArray]
      rfl

theorem ascii_of_isDigit (digit : c.isDigit = true) : 48 ≤ c.val.toNat ∧ c.val.toNat ≤ 57 := by
  simp only [Char.isDigit, Bool.and_eq_true, decide_eq_true_eq, ge_iff_le, UInt32.le_iff_toNat_le] at digit
  exact digit

theorem byte_of_isDigit (digit : c.isDigit = true) :
    isDigit c.val.toUInt8 = true ∧ c.val.toUInt8.toNat = c.toNat := by
  obtain ⟨low, high⟩ := ascii_of_isDigit digit
  have byte : c.val.toUInt8.toNat = c.val.toNat := (byte_of_ascii (by omega)).2
  refine ⟨?_, byte⟩
  simp only [isDigit, Bool.and_eq_true, decide_eq_true_eq, UInt8.le_iff_toNat_le, byte]
  exact ⟨low, high⟩

theorem isDigit_of_mem_toDigits : ∀ c ∈ Nat.toDigits 10 n, c.isDigit = true :=
  fun _ member => Nat.isDigit_of_mem_toDigits (by decide) (by decide) member

theorem text_toString : text (toString n) = (Nat.toDigits 10 n).map (·.val.toUInt8) := by
  rw [Nat.toString_eq_ofList_toDigits]
  apply text_ascii
  intro c member
  have digit := ascii_of_isDigit (isDigit_of_mem_toDigits n c member)
  omega

theorem toString_ne_nil : text (toString n) ≠ [] := by
  rw [text_toString, ne_eq, List.map_eq_nil_iff]
  exact Nat.toDigits_ne_nil

theorem isDigit_of_mem_toString : ∀ b ∈ text (toString n), isDigit b = true := by
  intro b member
  rw [text_toString] at member
  obtain ⟨c, digit, rfl⟩ := List.mem_map.mp member
  exact (byte_of_isDigit (isDigit_of_mem_toDigits n c digit)).1

theorem ofDigits_toString : ofDigits (text (toString n)) = n := by
  have folded (l : List Char) (digits : ∀ c ∈ l, c.isDigit = true) (start : ℕ) :
      (l.map (·.val.toUInt8)).foldl (fun value b => 10 * value + (b.toNat - 48)) start =
        Nat.ofDigitChars 10 l start := by
    induction l generalizing start with
    | nil => rfl
    | cons c l ih =>
        obtain ⟨first, rest⟩ := List.forall_mem_cons.mp digits
        rw [List.map_cons, List.foldl_cons, ih rest, (byte_of_isDigit first).2]
        rfl
  rw [text_toString, ofDigits, folded _ (isDigit_of_mem_toDigits n), Nat.ofDigitChars_ten_toDigits]

end Digits

/-- The length of a number below a thousand is the number of its digits. -/
theorem length_toString_of_lt (three : 100 ≤ n ∧ n < 1000) : (text (toString n)).length = 3 := by
  rw [text_toString, List.length_map, Nat.toDigits_of_base_le (by decide) (by omega),
    Nat.toDigits_of_base_le (by decide) (by omega), Nat.toDigits_of_lt_base (by omega)]
  rfl

/-- A digit is neither a blank nor a sign. -/
theorem not_isSpace_of_isDigit {b : UInt8} (digit : isDigit b = true) :
    isSpace b = false ∧ (b == 43 || b == 45) = false := by
  simp only [isDigit, Bool.and_eq_true, decide_eq_true_eq, UInt8.le_iff_toNat_le] at digit
  simp only [isSpace, Bool.or_eq_false_iff, Bool.and_eq_false_iff, beq_eq_false_iff_ne, ne_eq,
    ← UInt8.toNat_inj, decide_eq_false_iff_not, UInt8.le_iff_toNat_le]
  simp at digit ⊢
  omega

/-- A row of digits after blanks and at most one sign. -/
theorem stoul_number {blanks sign digits tail : Bytes} (blank : ∀ b ∈ blanks, isSpace b = true)
    (signed : sign ∈ [[], [43], [45]]) (nonempty : digits ≠ []) (number : ∀ b ∈ digits, isDigit b = true)
    (stop : tail.takeWhile isDigit = []) :
    stoul (blanks ++ (sign ++ (digits ++ tail))) =
      if 2 ^ 64 ≤ ofDigits digits then .error .outOfRange
      else .ok (if sign = [45] then (2 ^ 64 - ofDigits digits) % 2 ^ 64 else ofDigits digits) := by
  obtain ⟨first, digits, rfl⟩ := List.exists_cons_of_ne_nil nonempty
  obtain ⟨solid, unsigned⟩ := not_isSpace_of_isDigit (number first List.mem_cons_self)
  have value : ((first :: digits) ++ tail).takeWhile isDigit = first :: digits := by
    rw [List.takeWhile_append_of_pos number, stop, List.append_nil]
  rw [stoul, List.dropWhile_append_of_pos blank]
  simp only [List.mem_cons, List.not_mem_nil, or_false] at signed
  rcases signed with rfl | rfl | rfl
  · have skip : ((first :: digits) ++ tail).dropWhile isSpace = (first :: digits) ++ tail := by
      simp [solid]
    simp only [List.nil_append, skip]
    simp only [List.cons_append, List.head?_cons, Option.filter_some, unsigned, Bool.false_eq_true, if_false,
      Option.toList_none, List.length_nil, List.drop_zero]
    simp only [← List.cons_append, value, reduceCtorEq, if_false]
  · have skip (rest : Bytes) : ([43] ++ rest).dropWhile isSpace = 43 :: rest := rfl
    have sign : (some (43 : UInt8)).filter (fun b => b == 43 || b == 45) = some 43 := rfl
    simp only [skip, List.head?_cons, sign, Option.toList_some, List.length_singleton, List.drop_one, List.tail_cons,
      value]
    simp
  · have skip (rest : Bytes) : ([45] ++ rest).dropWhile isSpace = 45 :: rest := rfl
    have sign : (some (45 : UInt8)).filter (fun b => b == 43 || b == 45) = some 45 := rfl
    simp only [skip, List.head?_cons, sign, Option.toList_some, List.length_singleton, List.drop_one, List.tail_cons,
      value]
    simp

theorem stoul_digits {blanks digits tail : Bytes} (blank : ∀ b ∈ blanks, isSpace b = true)
    (number : ∀ b ∈ digits, isDigit b = true) (some : digits ≠ []) (stop : tail.takeWhile isDigit = []) :
    stoul (blanks ++ digits ++ tail) =
      if 2 ^ 64 ≤ ofDigits digits then .error .outOfRange else .ok (ofDigits digits) := by
  have unsigned : [] ∈ [[], [43], [(45 : UInt8)]] := List.mem_cons_self
  have value := stoul_number blank unsigned some number stop
  simp only [List.nil_append, reduceCtorEq, if_false] at value
  rw [List.append_assoc, value]

/-- A number below 2^64 after blanks and at most one sign. -/
def Numeric (value : Bytes) : Prop :=
  ∃ blanks sign digits tail, value = blanks ++ (sign ++ (digits ++ tail)) ∧
    (∀ b ∈ blanks, isSpace b = true) ∧ sign ∈ [[], [43], [45]] ∧ digits ≠ [] ∧
    (∀ b ∈ digits, isDigit b = true) ∧ tail.takeWhile isDigit = [] ∧ ofDigits digits < 2 ^ 64

/-- At most one sign stands before the rest of a number. -/
theorem sign_split (number : Bytes) :
    ∃ sign ∈ [[], [43], [45]], number =
      sign ++ number.drop (number.head?.filter fun b => b == 43 || b == 45).toList.length := by
  cases number with
  | nil => exact ⟨[], by simp, rfl⟩
  | cons b number =>
      by_cases signed : (b == 43 || b == 45) = true
      · refine ⟨[b], ?_, ?_⟩
        · simpa using signed
        · simp [Option.filter_some, signed]
      · refine ⟨[], by simp, ?_⟩
        simp [Option.filter_some, signed]

theorem stoul_ok_iff {value : Bytes} : (∃ n, stoul value = .ok n) ↔ Numeric value := by
  constructor
  · rintro ⟨n, ok⟩
    unfold stoul at ok
    dsimp only at ok
    obtain ⟨sign, signed, split⟩ := sign_split (value.dropWhile isSpace)
    generalize (value.dropWhile isSpace).drop _ = rest at ok split
    split at ok
    · cases ok
    · next nonempty =>
        split at ok
        · cases ok
        · next small =>
            refine ⟨value.takeWhile isSpace, sign, rest.takeWhile isDigit, rest.dropWhile isDigit, ?_,
              fun b member => List.mem_takeWhile_imp member, signed, nonempty,
              fun b member => List.mem_takeWhile_imp member, ?_, Nat.lt_of_not_le small⟩
            · rw [List.takeWhile_append_dropWhile, ← split, List.takeWhile_append_dropWhile]
            · exact List.takeWhile_eq_nil_iff.mpr fun some => List.dropWhile_get_zero_not isDigit rest some
  · rintro ⟨blanks, sign, digits, tail, rfl, blank, signed, nonempty, number, stop, small⟩
    rw [stoul_number blank signed nonempty number stop, if_neg (Nat.not_le_of_lt small)]
    exact ⟨_, rfl⟩

theorem atoi_digits {digits : Bytes} (number : ∀ b ∈ digits, isDigit b = true) : atoi digits = ofDigits digits := by
  cases digits with
  | nil => rfl
  | cons first digits =>
      obtain ⟨solid, unsigned⟩ := not_isSpace_of_isDigit (number first List.mem_cons_self)
      have skip : (first :: digits).dropWhile isSpace = first :: digits := by
        rw [List.dropWhile_cons_of_neg]
        simp [solid]
      simp only [atoi, skip, List.head?_cons, Option.filter_some, unsigned]
      simp [List.takeWhile_eq_self_iff.mpr number]

end Dos
