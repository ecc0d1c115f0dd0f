import Mathlib.Data.List.Basic
import Mathlib.Data.Nat.Notation
import Mathlib.Tactic.Common

/-!
# Reading JSON

The grammar of RFC 8259 over code points, with one function per rule. Characters
are written as numbers: 34 is the quotation mark, 92 the backslash, 44 the comma,
58 the colon, 91 and 93 are the brackets, 123 and 125 the braces.
-/
namespace Json

/-- A number is its mantissa times a power of ten. Strings are code points, in
which a surrogate stands for itself when its partner is missing. -/
inductive Value where
  | null
  | bool (b : Bool)
  | number (mantissa exponent : Int)
  | string (points : List ℕ)
  | array (items : List Value)
  | object (members : List (List ℕ × Value))

def isSpace (c : ℕ) : Bool := c == 32 || c == 9 || c == 10 || c == 13

def skip (s : List ℕ) : List ℕ := s.dropWhile isSpace

/-- The text after the character, when it is the next one that is not white space. -/
def after (c : ℕ) (s : List ℕ) : Option (List ℕ) := if (skip s).head? = some c then some ((skip s).drop 1) else none

/-! ## Strings -/

def hexDigit (c : ℕ) : Option ℕ :=
  if 48 ≤ c ∧ c ≤ 57 then some (c - 48)
  else if 97 ≤ c ∧ c ≤ 102 then some (c - 87)
  else if 65 ≤ c ∧ c ≤ 70 then some (c - 55)
  else none

def codeUnit (p q r t : ℕ) : Option ℕ := do
  return 4096 * (← hexDigit p) + 256 * (← hexDigit q) + 16 * (← hexDigit r) + (← hexDigit t)

/-- What a backslash makes of the letter after it. -/
def escape : ℕ → Option ℕ
  | 34 => some 34
  | 92 => some 92
  | 47 => some 47
  | 98 => some 8
  | 102 => some 12
  | 110 => some 10
  | 114 => some 13
  | 116 => some 9
  | _ => none

def prepend (unit : Option ℕ) (tail : Option (List ℕ × List ℕ)) : Option (List ℕ × List ℕ) := do
  let (units, rest) ← tail
  return ((← unit) :: units, rest)

/-- A string from behind its first quotation mark on, and the text after it.
Control characters have to be escaped. -/
def stringTail : List ℕ → Option (List ℕ × List ℕ)
  | [] => none
  | c :: s =>
      if c = 34 then some ([], s)
      else if c = 92 then
        match s with
        | 117 :: p :: q :: r :: t :: s => prepend (codeUnit p q r t) (stringTail s)
        | c :: s => prepend (escape c) (stringTail s)
        | [] => none
      else prepend (if c < 32 then none else some c) (stringTail s)

/-- A text with its quotation marks and backslashes escaped, and nothing else. -/
def escaped (points : List ℕ) : List ℕ := points.flatMap fun c => if c = 34 ∨ c = 92 then [92, c] else [c]

/-- Two escaped surrogates are one code point. -/
def joinSurrogates : List ℕ → List ℕ
  | hi :: lo :: units =>
      if 0xd800 ≤ hi ∧ hi < 0xdc00 ∧ 0xdc00 ≤ lo ∧ lo < 0xe000 then
        (0x10000 + 0x400 * (hi - 0xd800) + (lo - 0xdc00)) :: joinSurrogates units
      else hi :: joinSurrogates (lo :: units)
  | units => units

/-! ## Numbers -/

def isDigit (c : ℕ) : Bool := 48 ≤ c && c ≤ 57

def digits (s : List ℕ) : List ℕ × List ℕ := (s.takeWhile isDigit, s.dropWhile isDigit)

def natural (ds : List ℕ) : ℕ := ds.foldl (fun n d => 10 * n + (d - 48)) 0

/-- At least one digit. -/
def someDigits (s : List ℕ) : Option (List ℕ × List ℕ) := if (digits s).1 = [] then none else some (digits s)

/-- Digits after a point. -/
def fraction (s : List ℕ) : Option (List ℕ × List ℕ) :=
  if s.head? = some 46 then someDigits (s.drop 1) else some ([], s)

def exponent (s : List ℕ) : Option (Int × List ℕ) :=
  if s.head? = some 101 ∨ s.head? = some 69 then do
    let signed := s.drop 1
    let unsigned := if signed.head? = some 43 ∨ signed.head? = some 45 then signed.drop 1 else signed
    let (ds, rest) ← someDigits unsigned
    return (if signed.head? = some 45 then -(natural ds : Int) else natural ds, rest)
  else some (0, s)

/-- No number starts with a zero and another digit. -/
def number (s : List ℕ) : Option (Value × List ℕ) := do
  let unsigned := if s.head? = some 45 then s.drop 1 else s
  let (whole, s') ← someDigits unsigned
  if whole.head? = some 48 ∧ 1 < whole.length then none
  else
    let (part, s') ← fraction s'
    let (power, rest) ← exponent s'
    let mantissa : Int := natural (whole ++ part)
    return (.number (if s.head? = some 45 then -mantissa else mantissa) (power - part.length), rest)

/-! ## Values -/

def word (w : String) : List ℕ := w.toList.map Char.toNat

def literal (s : List ℕ) : Option (Value × List ℕ) :=
  if word "null" <+: s then some (.null, s.drop 4)
  else if word "true" <+: s then some (.bool true, s.drop 4)
  else if word "false" <+: s then some (.bool false, s.drop 5)
  else number s

mutual

/-- A value and the text after it. Of two calls one inside the other at least one
has moved on, so twice the length of the text is enough fuel. -/
def value : ℕ → List ℕ → Option (Value × List ℕ)
  | 0, _ => none
  | fuel + 1, s =>
      match after 34 s with
      | some s => (stringTail s).map fun (units, rest) => (.string (joinSurrogates units), rest)
      | none =>
          match after 91 s with
          | some s =>
              match after 93 s with
              | some rest => some (.array [], rest)
              | none => (items fuel s).map fun (vs, rest) => (.array vs, rest)
          | none =>
              match after 123 s with
              | some s =>
                  match after 125 s with
                  | some rest => some (.object [], rest)
                  | none => (members fuel s).map fun (ms, rest) => (.object ms, rest)
              | none => literal (skip s)

/-- The items of an array from the first one on, up to the closing bracket. -/
def items : ℕ → List ℕ → Option (List Value × List ℕ)
  | 0, _ => none
  | fuel + 1, s => do
      let (v, s) ← value fuel s
      match after 44 s with
      | some s => (items fuel s).map fun (vs, rest) => (v :: vs, rest)
      | none => (after 93 s).map fun rest => ([v], rest)

/-- The members of an object from the first one on, up to the closing brace. -/
def members : ℕ → List ℕ → Option (List (List ℕ × Value) × List ℕ)
  | 0, _ => none
  | fuel + 1, s => do
      let (name, s) ← stringTail (← after 34 s)
      let (v, s) ← value fuel (← after 58 s)
      match after 44 s with
      | some s => (members fuel s).map fun (ms, rest) => ((joinSurrogates name, v) :: ms, rest)
      | none => (after 125 s).map fun rest => ([(joinSurrogates name, v)], rest)

end

/-- The value of a whole text. -/
def parse (s : List ℕ) : Option Value := do
  let (v, rest) ← value (2 * s.length + 2) s
  if skip rest = [] then some v else none

/-! ## Rules for reading -/

section Reading
variable {c d fuel : ℕ} {s ds rest points : List ℕ}

theorem after_self (solid : isSpace c = false) (s : List ℕ) : after c (c :: s) = some s := by
  simp [after, skip, solid]

theorem after_other (solid : isSpace d = false) (other : d ≠ c) (s : List ℕ) : after c (d :: s) = none := by
  simp [after, skip, solid, other]

theorem joinSurrogates_eq (scalar : ∀ c ∈ points, ¬(0xd800 ≤ c ∧ c < 0xe000)) : joinSurrogates points = points := by
  induction points with
  | nil => rfl
  | cons hi points ih =>
      obtain ⟨first, others⟩ := List.forall_mem_cons.mp scalar
      cases points with
      | nil => rfl
      | cons lo points =>
          rw [joinSurrogates, if_neg (by omega), ih others]

theorem escaped_append (p q : List ℕ) : escaped (p ++ q) = escaped p ++ escaped q := List.flatMap_append

/-- A control character ends the reading of an escaped text, and nothing else does. -/
theorem stringTail_escaped (points rest : List ℕ) :
    stringTail (escaped points ++ 34 :: rest) = if ∀ c ∈ points, 32 ≤ c then some (points, rest) else none := by
  induction points with
  | nil =>
      rw [stringTail.eq_def]
      simp [escaped]
  | cons c points ih =>
      by_cases special : c = 34 ∨ c = 92
      · have marked : escaped (c :: points) ++ 34 :: rest = 92 :: c :: (escaped points ++ 34 :: rest) := by
          simp [escaped, special]
        have read : stringTail (92 :: c :: (escaped points ++ 34 :: rest)) =
            prepend (some c) (stringTail (escaped points ++ 34 :: rest)) := by
          rcases special with rfl | rfl <;> rfl
        rw [marked, read, ih]
        by_cases fine : ∀ c ∈ points, 32 ≤ c
        · rw [if_pos fine, if_pos (List.forall_mem_cons.mpr ⟨by omega, fine⟩)]
          rfl
        · rw [if_neg fine, if_neg fun all => fine (List.forall_mem_cons.mp all).2]
          rfl
      · have kept : escaped (c :: points) ++ 34 :: rest = c :: (escaped points ++ 34 :: rest) := by
          simp [escaped, special]
        rw [kept, stringTail.eq_def]
        dsimp only
        rw [if_neg fun quote => special (.inl quote), if_neg fun backslash => special (.inr backslash), ih]
        by_cases fine : ∀ d ∈ c :: points, 32 ≤ d
        · obtain ⟨first, others⟩ := List.forall_mem_cons.mp fine
          rw [if_neg (by omega), if_pos others, if_pos fine]
          rfl
        · rw [if_neg fine]
          by_cases low : c < 32
          · rw [if_pos low]
            split <;> rfl
          · rw [if_neg fun others => fine (List.forall_mem_cons.mpr ⟨by omega, others⟩)]
            rfl

theorem value_string (scalar : ∀ c ∈ points, ¬(0xd800 ≤ c ∧ c < 0xe000)) :
    value (fuel + 1) (34 :: (escaped points ++ 34 :: rest)) =
      if ∀ c ∈ points, 32 ≤ c then some (.string points, rest) else none := by
  rw [Json.value, after_self rfl]
  dsimp only
  rw [stringTail_escaped]
  split
  · rw [Option.map_some, joinSurrogates_eq scalar]
  · rfl

/-- The name of a member that needs no escapes. -/
def Plain (name : List ℕ) : Prop := ∀ c ∈ name, 32 ≤ c ∧ c < 128 ∧ c ≠ 34 ∧ c ≠ 92

instance (name : List ℕ) : Decidable (Plain name) := inferInstanceAs (Decidable (∀ c ∈ name, _))

theorem Plain.stringTail {name : List ℕ} (plain : Plain name) (rest : List ℕ) :
    stringTail (name ++ 34 :: rest) = some (name, rest) := by
  have same : escaped name = name := by
    have kept : ∀ c ∈ name, (if c = 34 ∨ c = 92 then [92, c] else [c]) = [c] := by
      intro c member
      obtain ⟨-, -, quote, backslash⟩ := plain c member
      exact if_neg (not_or.mpr ⟨quote, backslash⟩)
    rw [escaped, List.flatMap_congr kept, List.flatMap_singleton']
  have read := stringTail_escaped name rest
  rw [same, if_pos fun c member => (plain c member).1] at read
  exact read

section Members
variable {name s' : List ℕ} {v : Value}

/-- A member is read as its value is, and what comes behind the value decides
whether there are more. -/
theorem members_step (plain : Plain name) (s : List ℕ) :
    members (fuel + 1) (34 :: (name ++ 34 :: 58 :: s)) =
      (value fuel s).bind fun read =>
        match after 44 read.2 with
        | some s => (members fuel s).map fun out => ((name, read.1) :: out.1, out.2)
        | none => (after 125 read.2).map fun rest => ([(name, read.1)], rest) := by
  have scalar : joinSurrogates name = name := by
    apply joinSurrogates_eq
    intro c member surrogate
    have ascii := (plain c member).2.1
    omega
  rw [members, after_self rfl, Option.bind_eq_bind, Option.bind_some, plain.stringTail]
  simp only [Option.bind_eq_bind, Option.bind_some, after_self (c := 58) rfl, scalar]

theorem members_more (plain : Plain name) (read : value fuel s = some (v, 44 :: s')) :
    members (fuel + 1) (34 :: (name ++ 34 :: 58 :: s)) =
      (members fuel s').map fun out => ((name, v) :: out.1, out.2) := by
  rw [members_step plain, read, Option.bind_some]
  simp only [after_self (c := 44) rfl]

theorem members_last (plain : Plain name) (read : value fuel s = some (v, 125 :: rest)) :
    members (fuel + 1) (34 :: (name ++ 34 :: 58 :: s)) = some ([(name, v)], rest) := by
  rw [members_step plain, read, Option.bind_some]
  simp only [after_other (c := 44) (d := 125) rfl (by decide), after_self (c := 125) rfl, Option.map_some]

theorem members_none (plain : Plain name) (unread : value fuel s = none) :
    members (fuel + 1) (34 :: (name ++ 34 :: 58 :: s)) = none := by
  rw [members_step plain, unread, Option.bind_none]

theorem items_more (read : value fuel s = some (v, 44 :: s')) :
    items (fuel + 1) s = (items fuel s').map fun out => (v :: out.1, out.2) := by
  rw [items, read, Option.bind_eq_bind, Option.bind_some]
  simp only [after_self (c := 44) rfl]

theorem items_last (read : value fuel s = some (v, 93 :: rest)) : items (fuel + 1) s = some ([v], rest) := by
  rw [items, read, Option.bind_eq_bind, Option.bind_some]
  simp only [after_other (c := 44) (d := 93) rfl (by decide), after_self (c := 93) rfl, Option.map_some]

theorem items_none (unread : value fuel s = none) : items (fuel + 1) s = none := by
  rw [items, unread, Option.bind_eq_bind, Option.bind_none]

theorem value_object (s : List ℕ) :
    value (fuel + 1) (123 :: 34 :: s) = (members fuel (34 :: s)).map fun out => (.object out.1, out.2) := by
  rw [Json.value, after_other rfl (by decide), after_other rfl (by decide), after_self rfl]
  dsimp only
  rw [after_other rfl (by decide)]

theorem value_array (solid : isSpace d = false) (other : d ≠ 93) (s : List ℕ) :
    value (fuel + 1) (91 :: d :: s) = (items fuel (d :: s)).map fun out => (.array out.1, out.2) := by
  rw [Json.value, after_other rfl (by decide), after_self rfl]
  dsimp only
  rw [after_other solid other]

end Members

/-- A whole number as it is written. -/
structure Numeral (ds : List ℕ) : Prop where
  nonempty : ds ≠ []
  digit : ∀ c ∈ ds, isDigit c = true
  canonical : ds.head? = some 48 → ds.length = 1

/-- No number goes on here. -/
def Ends (rest : List ℕ) : Prop := ∀ c, rest.head? = some c → isDigit c = false ∧ c ≠ 46 ∧ c ≠ 101 ∧ c ≠ 69

/-- A numeral starts with a digit. -/
theorem Numeral.head (numeral : Numeral ds) (rest : List ℕ) :
    ∃ d tail, ds ++ rest = d :: tail ∧ 48 ≤ d ∧ d ≤ 57 := by
  obtain ⟨d, tail, rfl⟩ := List.exists_cons_of_ne_nil numeral.nonempty
  have digit := numeral.digit d List.mem_cons_self
  simp only [isDigit, Bool.and_eq_true, decide_eq_true_eq] at digit
  exact ⟨d, tail ++ rest, rfl, digit⟩

theorem Numeral.someDigits (numeral : Numeral ds) (ends : Ends rest) : someDigits (ds ++ rest) = some (ds, rest) := by
  have stop : rest.takeWhile isDigit = [] ∧ rest.dropWhile isDigit = rest := by
    cases rest with
    | nil => exact ⟨rfl, rfl⟩
    | cons c rest => simp [(ends c rfl).1]
  have split : digits (ds ++ rest) = (ds, rest) := by
    rw [digits, List.takeWhile_append_of_pos numeral.digit, List.dropWhile_append_of_pos numeral.digit, stop.1, stop.2,
      List.append_nil]
  rw [Json.someDigits, split, if_neg numeral.nonempty]

theorem Numeral.number (numeral : Numeral ds) (ends : Ends rest) :
    number (ds ++ rest) = some (.number (natural ds) 0, rest) := by
  obtain ⟨d, tail, split, low, high⟩ := numeral.head rest
  have unsigned : (ds ++ rest).head? ≠ some 45 := by
    rw [split, List.head?_cons, ne_eq, Option.some.injEq]
    omega
  have noLead : ¬(ds.head? = some 48 ∧ 1 < ds.length) := by
    rintro ⟨zero, long⟩
    have short := numeral.canonical zero
    omega
  have noPart : fraction rest = some ([], rest) := by
    rw [fraction, if_neg]
    exact fun point => (ends 46 point).2.1 rfl
  have noPower : exponent rest = some (0, rest) := by
    rw [exponent, if_neg]
    rintro (small | large)
    · exact (ends 101 small).2.2.1 rfl
    · exact (ends 69 large).2.2.2 rfl
  have whole := numeral.someDigits ends
  generalize ds ++ rest = s at unsigned whole
  simp [Json.number, unsigned, whole, noLead, noPart, noPower]

theorem Numeral.value (numeral : Numeral ds) (ends : Ends rest) :
    value (fuel + 1) (ds ++ rest) = some (.number (natural ds) 0, rest) := by
  obtain ⟨d, tail, split, low, high⟩ := numeral.head rest
  have solid : isSpace d = false := by
    simp only [isSpace, Bool.or_eq_false_iff, beq_eq_false_iff_ne]
    omega
  have other {c : ℕ} (apart : d ≠ c) : after c (ds ++ rest) = none := by
    rw [split]
    exact after_other solid apart tail
  have kept : skip (ds ++ rest) = ds ++ rest := by
    rw [split, skip, List.dropWhile_cons_of_neg (by simp [solid])]
  have noWord {w : List ℕ} {c : ℕ} (apart : d ≠ c) : ¬ c :: w <+: ds ++ rest := by
    rw [split, List.cons_prefix_cons]
    exact fun start => apart start.1.symm
  have noNull : ¬ word "null" <+: ds ++ rest := noWord (c := 110) (by omega)
  have noTrue : ¬ word "true" <+: ds ++ rest := noWord (c := 116) (by omega)
  have noFalse : ¬ word "false" <+: ds ++ rest := noWord (c := 102) (by omega)
  have plain : literal (ds ++ rest) = some (.number (natural ds) 0, rest) := by
    rw [literal, if_neg noNull, if_neg noTrue, if_neg noFalse]
    exact numeral.number ends
  rw [Json.value, other (by omega), other (by omega), other (by omega)]
  dsimp only
  rw [kept, plain]

end Reading
end Json
