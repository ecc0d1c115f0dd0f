import Mathlib.Algebra.GroupWithZero.Nat
import Mathlib.Data.List.Basic
import Mathlib.Data.List.TakeWhile
import Mathlib.Tactic.Common
import DistributedObjectStorage.Library.Scanning

/-!
# The Prometheus text format, version 0.0.4

A reader of the format over bytes: lines end with a line feed, comments are
skipped, and a sample is a name, labels in braces, a value and perhaps a
timestamp. In a quoted value the quotation mark, the backslash and the line feed
are escaped. `number` says which words Go's `ParseFloat` takes.

Each part of the reader is followed by what it has taken off the text: no less
than it has read, and more if there was an escape in it.
-/
namespace Exposition

/-! ## The reader -/

abbrev Labels := List (List UInt8 × List UInt8)

def blank (b : UInt8) : Bool := b == 32 || b == 9

def digit (b : UInt8) : Bool := 48 ≤ b && b ≤ 57

def labelByte (b : UInt8) : Bool := (65 ≤ b && b ≤ 90) || (97 ≤ b && b ≤ 122) || b == 95 || digit b

def metricByte (b : UInt8) : Bool := labelByte b || b == 58

/-- Names are not empty and do not start with a digit. -/
def isName (byte : UInt8 → Bool) : List UInt8 → Bool
  | [] => false
  | b :: s => !digit b && (b :: s).all byte

def readName (byte : UInt8 → Bool) (s : List UInt8) : Option (List UInt8 × List UInt8) :=
  if isName byte (s.takeWhile byte) then some (s.takeWhile byte, s.dropWhile byte) else none

def expect (b : UInt8) : List UInt8 → Option (List UInt8)
  | [] => none
  | a :: s => if a = b then some s else none

def skip (s : List UInt8) : List UInt8 := s.dropWhile blank

def unescape (b : UInt8) : Option UInt8 :=
  if b = 92 then some 92 else if b = 34 then some 34 else if b = 110 then some 10 else none

/-- The value behind an opening quotation mark. -/
def quoted : List UInt8 → Option (List UInt8 × List UInt8)
  | [] => none
  | [b] => if b = 34 then some ([], []) else none
  | b :: c :: s =>
      if b = 34 then some ([], c :: s)
      else if b = 92 then
        (unescape c).bind fun e => (quoted s).map fun (value, rest) => (e :: value, rest)
      else (quoted (c :: s)).map fun (value, rest) => (b :: value, rest)

def label (s : List UInt8) : Option ((List UInt8 × List UInt8) × List UInt8) := do
  let (name, s) ← readName labelByte (skip s)
  let s ← expect 61 (skip s)
  let s ← expect 34 (skip s)
  let (value, s) ← quoted s
  return ((name, value), skip s)

/-- The labels behind an opening brace. The last one may have a comma too. -/
def labelSet : ℕ → List UInt8 → Option (Labels × List UInt8)
  | 0, _ => none
  | fuel + 1, s => do
      let (first, s) ← label s
      match expect 125 s with
      | some s => return ([first], s)
      | none =>
          let s ← expect 44 s
          match expect 125 (skip s) with
          | some s => return ([first], s)
          | none =>
              let (others, s) ← labelSet fuel s
              return (first :: others, s)

abbrev Sample := List UInt8 × Labels

def labelsOf (s : List UInt8) : Option (Labels × List UInt8) :=
  match expect 123 s with
  | some s => labelSet s.length s
  | none => some ([], s)

def decimal (s : List UInt8) : ℕ := s.foldl (fun n b => 10 * n + (b.toNat - 48)) 0

/-- Go's `ParseInt` for 64 bits. -/
def timestamp : List UInt8 → Bool
  | 45 :: s => s ≠ [] && s.all digit && decimal s ≤ 2 ^ 63
  | 43 :: s => s ≠ [] && s.all digit && decimal s < 2 ^ 63
  | s => s ≠ [] && s.all digit && decimal s < 2 ^ 63

section Reader
variable (number : List UInt8 → Bool)

/-- A value and perhaps a timestamp, and nothing behind them. -/
def ending (s : List UInt8) : Bool :=
  let value := Scanning.nextWord blank s
  let stamp := Scanning.nextWord blank value.2
  number value.1 && (value.2.all blank || (timestamp stamp.1 && stamp.2.all blank))

def sample (s : List UInt8) : Option Sample := do
  let (name, s) ← readName metricByte s
  let (labels, s) ← labelsOf (skip s)
  if ending number s then return (name, labels) else none

/-- In the text of a HELP line backslashes and line feeds are escaped. -/
def documented : List UInt8 → Bool
  | [] => true
  | [b] => b ≠ 92
  | b :: c :: s => if b = 92 then (c == 92 || c == 110) && documented s else documented (c :: s)

def types : List (List UInt8) :=
  ["counter", "gauge", "histogram", "summary", "untyped"].map fun s => s.toByteArray.data.toList

/-- What may stand behind `#`. -/
def comment (s : List UInt8) : Bool :=
  let keyword := Scanning.nextWord blank s
  let name := Scanning.nextWord blank keyword.2
  if keyword.1 = "HELP".toByteArray.data.toList then isName metricByte name.1 && documented name.2
  else if keyword.1 = "TYPE".toByteArray.data.toList then
    let type := Scanning.nextWord blank name.2
    isName metricByte name.1 && types.contains type.1 && type.2.all blank
  else true

/-- The samples of one line: one, or none on a blank line and in a comment. -/
def entry (line : List UInt8) : Option (List Sample) :=
  match skip line with
  | [] => some []
  | b :: s => if b = 35 then (if comment s then some [] else none) else (sample number (b :: s)).map fun x => [x]

def entries : List (List UInt8) → Option (List Sample)
  | [] => some []
  | line :: lines => (entry number line).bind fun found => (entries lines).map (found ++ ·)

/-- The last line ends as well. -/
def Ended (text : List UInt8) : Prop := text = [] ∨ text.getLast? = some 10

instance Ended.decidable (text : List UInt8) : Decidable (Ended text) :=
  inferInstanceAs (Decidable (_ ∨ _))

def parse (text : List UInt8) : Option (List Sample) :=
  if Ended text then entries number (Scanning.lines 10 text) else none

end Reader

/-! ## What the readers take off the text -/

/-- Bytes that hold `size` bytes of content and `marks` quotation marks around
values. An escape takes more bytes than it holds. -/
structure Spent (s : List UInt8) (size marks : ℕ) : Prop where
  length : size ≤ s.length
  slashes : s.count 92 + 2 * size ≤ 2 * s.length
  quotes : s.count 34 + size ≤ marks + s.length

theorem Spent.append {s t : List UInt8} {m n p q : ℕ} (first : Spent s m p) (second : Spent t n q) :
    Spent (s ++ t) (m + n) (p + q) := by
  obtain ⟨length, slashes, quotes⟩ := first
  obtain ⟨length', slashes', quotes'⟩ := second
  constructor
  · rw [List.length_append]
    omega
  · rw [List.length_append, List.count_append]
    omega
  · rw [List.length_append, List.count_append]
    omega

/-- Bytes that are no marks may count as content or not. -/
theorem spent_plain {s : List UInt8} (slash : 92 ∉ s) (quote : 34 ∉ s) {size : ℕ} (less : size ≤ s.length) :
    Spent s size 0 := by
  refine ⟨less, ?_, ?_⟩
  · rw [List.count_eq_zero_of_not_mem slash]
    omega
  · rw [List.count_eq_zero_of_not_mem quote]
    omega

theorem spent_mark : Spent [34] 1 1 := ⟨by decide, by decide, by decide⟩

theorem spent_escape (b : UInt8) : Spent [92, b] 1 0 := by
  have slash : [92, b].count 92 ≤ 2 := List.count_le_length
  refine ⟨by simp, by simpa using slash, ?_⟩
  by_cases quote : b = 34
  · simp [quote]
  · simp [quote]

/-- A reader that leaves `rest` has spent what stands in front of it. -/
def Takes (s rest : List UInt8) (size marks : ℕ) : Prop := ∃ c, s = c ++ rest ∧ Spent c size marks

theorem Takes.trans {s t u : List UInt8} {m n p q : ℕ} (first : Takes s t m p) (second : Takes t u n q) :
    Takes s u (m + n) (p + q) := by
  obtain ⟨c, rfl, spent⟩ := first
  obtain ⟨d, rfl, spent'⟩ := second
  exact ⟨c ++ d, (List.append_assoc c d u).symm, spent.append spent'⟩

theorem takes_of_plain {byte : UInt8 → Bool} (plain : byte 92 = false ∧ byte 34 = false) {s : List UInt8}
    (all : ∀ b ∈ s, byte b = true) {size : ℕ} (less : size ≤ s.length) (rest : List UInt8) :
    Takes (s ++ rest) rest size 0 := by
  refine ⟨s, rfl, spent_plain ?_ ?_ less⟩
  · intro member
    exact absurd (all 92 member) (by simp [plain.1])
  · intro member
    exact absurd (all 34 member) (by simp [plain.2])

theorem quoted_takes {s value rest : List UInt8} (found : quoted s = some (value, rest)) :
    Takes s rest (value.length + 1) 1 := by
  fun_induction quoted s generalizing value with
  | case1 => cases found
  | case2 =>
      cases found
      exact ⟨[34], rfl, spent_mark⟩
  | case3 b other => cases found
  | case4 c s =>
      cases found
      exact ⟨[34], rfl, spent_mark⟩
  | case5 c s _ ih =>
      obtain ⟨e, -, found⟩ := Option.bind_eq_some_iff.mp found
      obtain ⟨⟨more, rest'⟩, found, same⟩ := Option.map_eq_some_iff.mp found
      cases same
      have one : Takes (92 :: c :: s) s 1 0 := ⟨[92, c], rfl, spent_escape c⟩
      rw [List.length_cons, Nat.add_comm more.length]
      exact one.trans (ih found)
  | case6 b c s quote slash ih =>
      obtain ⟨⟨more, rest'⟩, found, same⟩ := Option.map_eq_some_iff.mp found
      cases same
      have one : Takes (b :: c :: s) (c :: s) 1 0 := by
        refine ⟨[b], rfl, spent_plain ?_ ?_ (Nat.le_refl 1)⟩
        · simpa using Ne.symm slash
        · simpa using Ne.symm quote
      rw [List.length_cons, Nat.add_comm more.length]
      exact one.trans (ih found)

theorem readName_eq {byte : UInt8 → Bool} {s name rest : List UInt8} (found : readName byte s = some (name, rest)) :
    s = name ++ rest ∧ ∀ b ∈ name, byte b = true := by
  unfold readName at found
  split at found
  · cases found
    exact ⟨List.takeWhile_append_dropWhile.symm, fun b member => List.mem_takeWhile_imp member⟩
  · cases found

theorem readName_takes {s name rest : List UInt8} (found : readName labelByte s = some (name, rest)) :
    Takes s rest name.length 0 := by
  obtain ⟨rfl, all⟩ := readName_eq found
  exact takes_of_plain (by decide) all (Nat.le_refl _) rest

theorem expect_eq {b : UInt8} {s rest : List UInt8} (found : expect b s = some rest) : s = b :: rest := by
  cases s with
  | nil => cases found
  | cons a s =>
      rw [expect] at found
      split at found
      · next same =>
          cases found
          rw [same]
      · cases found

theorem expect_self (b : UInt8) (s : List UInt8) : expect b (b :: s) = some s := if_pos rfl

theorem expect_other {a b : UInt8} (s : List UInt8) (other : a ≠ b) : expect b (a :: s) = none := if_neg other

theorem expect_takes {b : UInt8} (plain : b ≠ 92 ∧ b ≠ 34) {size : ℕ} (less : size ≤ 1) {s rest : List UInt8}
    (found : expect b s = some rest) : Takes s rest size 0 := by
  rw [expect_eq found]
  refine ⟨[b], rfl, spent_plain ?_ ?_ less⟩
  · simpa using Ne.symm plain.1
  · simpa using Ne.symm plain.2

theorem skip_takes (s : List UInt8) : Takes s (skip s) 0 0 := by
  have split : s.takeWhile blank ++ skip s = s := List.takeWhile_append_dropWhile
  have blanks : ∀ b ∈ s.takeWhile blank, blank b = true := fun b member => List.mem_takeWhile_imp member
  have taken := takes_of_plain (by decide) blanks (Nat.zero_le _) (skip s)
  rwa [split] at taken

theorem label_takes {s rest : List UInt8} {l : List UInt8 × List UInt8} (found : label s = some (l, rest)) :
    Takes s rest (l.1.length + l.2.length + 3) 2 := by
  simp only [label, Option.bind_eq_bind, Option.bind_eq_some_iff, Option.pure_def, Option.some.injEq,
    Prod.mk.injEq, Prod.exists] at found
  obtain ⟨name, s₁, named, s₂, equals, s₃, opening, value, s₄, valued, rfl, rfl⟩ := found
  have mark : Takes (skip s₂) s₃ 1 1 := by
    rw [expect_eq opening]
    exact ⟨[34], rfl, spent_mark⟩
  have front := (skip_takes s).trans (readName_takes named)
  have middle := (skip_takes s₁).trans (expect_takes (by decide) (Nat.le_refl 1) equals)
  have back := ((skip_takes s₂).trans mark).trans ((quoted_takes valued).trans (skip_takes s₄))
  have all := (front.trans middle).trans back
  have size : 0 + name.length + (0 + 1) + (0 + 1 + (value.length + 1 + 0)) = name.length + value.length + 3 := by
    omega
  rw [size] at all
  exact all

/-- The bytes that labels need: names, values, and four marks for each. -/
def weight : Labels → ℕ
  | [] => 0
  | l :: labels => l.1.length + l.2.length + 4 + weight labels

/-- The closing brace is what is left of the bytes that the labels need. -/
theorem labelSet_takes {fuel : ℕ} {s rest : List UInt8} {labels : Labels}
    (found : labelSet fuel s = some (labels, rest)) :
    ∃ size, size + 1 = weight labels ∧ Takes s (125 :: rest) size (2 * labels.length) := by
  induction fuel generalizing s labels with
  | zero => cases found
  | succ fuel ih =>
      simp only [labelSet, Option.bind_eq_bind, Option.bind_eq_some_iff] at found
      obtain ⟨⟨first, s₁⟩, one, found⟩ := found
      have taken := label_takes one
      cases closing : expect 125 s₁ with
      | some s₂ =>
          simp only [closing, Option.pure_def, Option.some.injEq, Prod.mk.injEq] at found
          obtain ⟨rfl, rfl⟩ := found
          rw [expect_eq closing] at taken
          exact ⟨first.1.length + first.2.length + 3, rfl, taken⟩
      | none =>
          simp only [closing, Option.bind_eq_some_iff] at found
          obtain ⟨s₂, comma, found⟩ := found
          cases trailing : expect 125 (skip s₂) with
          | some s₃ =>
              simp only [trailing, Option.pure_def, Option.some.injEq, Prod.mk.injEq] at found
              obtain ⟨rfl, rfl⟩ := found
              have blanks := skip_takes s₂
              rw [expect_eq trailing] at blanks
              have all := taken.trans ((expect_takes (by decide) (Nat.zero_le 1) comma).trans blanks)
              exact ⟨first.1.length + first.2.length + 3, rfl, all⟩
          | none =>
              simp only [trailing, Option.bind_eq_some_iff, Option.pure_def, Option.some.injEq,
                Prod.mk.injEq] at found
              obtain ⟨⟨others, s₃⟩, more, rfl, rfl⟩ := found
              obtain ⟨size, exact, behind⟩ := ih more
              have all := (taken.trans (expect_takes (by decide) (Nat.le_refl 1) comma)).trans behind
              refine ⟨first.1.length + first.2.length + 3 + 1 + size, ?_, ?_⟩
              · rw [weight, ← exact]
                omega
              · rw [List.length_cons, Nat.mul_succ, Nat.add_comm (2 * others.length)]
                exact all

end Exposition
