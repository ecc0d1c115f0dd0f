import Mathlib.Data.List.Basic
import Mathlib.Data.List.TakeWhile
import Mathlib.Tactic.Common
import DistributedObjectStorage.Library.Exposition

/-!
# Samples written without escapes

A writer that puts names and values between the marks of the format as they are.
If there is nothing to escape, the sample is read back. If there is, the reader
gets labels with fewer bytes, or fewer labels for the quotation marks it sees.
-/
namespace Exposition

/-! ## Writing without escapes -/

def pair (l : List UInt8 × List UInt8) : List UInt8 := l.1 ++ 61 :: 34 :: (l.2 ++ [34])

/-- The labels behind an opening brace. -/
def written : Labels → List UInt8
  | [] => []
  | [l] => pair l ++ [125]
  | l :: labels => pair l ++ 44 :: written labels

def braces (labels : Labels) : List UInt8 :=
  if labels = [] then [] else 123 :: written labels

/-- Values without anything to escape. -/
def Clean (labels : Labels) : Prop := ∀ l ∈ labels, 34 ∉ l.2 ∧ 92 ∉ l.2 ∧ 10 ∉ l.2

def Named (labels : Labels) : Prop := ∀ l ∈ labels, isName labelByte l.1 = true

theorem isName_append {byte : UInt8 → Bool} {name suffix : List UInt8} (named : isName byte name = true)
    (more : ∀ b ∈ suffix, byte b = true) : isName byte (name ++ suffix) = true := by
  cases name with
  | nil => cases named
  | cons b name =>
      simp only [isName, Bool.and_eq_true, List.cons_append, List.all_cons, List.all_append] at named ⊢
      exact ⟨named.1, named.2.1, named.2.2, List.all_eq_true.mpr more⟩

section Written
variable {labels : Labels}

theorem written_cons (l k : List UInt8 × List UInt8) (labels : Labels) :
    written (l :: k :: labels) = pair l ++ 44 :: written (k :: labels) := rfl

/-- A label more goes in front of the closing brace. -/
theorem written_concat (filled : labels ≠ []) (l : List UInt8 × List UInt8) :
    written (labels ++ [l]) = (written labels).dropLast ++ 44 :: (pair l ++ [125]) := by
  fun_induction written labels with
  | case1 => exact absurd rfl filled
  | case2 k => simp [written]
  | case3 k labels some ih =>
      cases labels with
      | nil => exact absurd rfl some
      | cons j labels =>
          have more : written (j :: labels) ≠ [] := by
            cases labels <;> simp [written, pair]
          have next := ih (List.cons_ne_nil j labels)
          rw [List.cons_append] at next
          simp [written_cons, next, List.dropLast_append_of_ne_nil, List.dropLast_cons_of_ne_nil more]

theorem length_written (labels : Labels) : (written labels).length = weight labels := by
  fun_induction written labels with
  | case1 => rfl
  | case2 l =>
      simp only [weight, pair, List.length_append, List.length_cons, List.length_nil]
      omega
  | case3 l labels _ ih =>
      simp only [weight, pair, List.length_append, List.length_cons, List.length_nil, ih]
      omega

theorem length_le_weight (labels : Labels) : labels.length ≤ weight labels := by
  induction labels with
  | nil => exact Nat.le_refl 0
  | cons l labels ih =>
      rw [weight, List.length_cons]
      omega

theorem all_of_isName {byte : UInt8 → Bool} {name : List UInt8} (named : isName byte name = true) :
    ∀ b ∈ name, byte b = true := by
  cases name with
  | nil => cases named
  | cons a name =>
      simp only [isName, Bool.and_eq_true, List.all_eq_true] at named
      exact named.2

theorem not_mem_of_isName {byte : UInt8 → Bool} {name : List UInt8} (named : isName byte name = true) {b : UInt8}
    (other : byte b = false) : b ∉ name := by
  intro member
  exact absurd (all_of_isName named b member) (by simp [other])

theorem count_pair {l : List UInt8 × List UInt8} (named : isName labelByte l.1 = true) :
    (pair l).count 34 = 2 + l.2.count 34 := by
  have name : l.1.count 34 = 0 := List.count_eq_zero_of_not_mem (not_mem_of_isName named (by decide))
  simp only [pair, List.count_append, List.count_cons, List.count_nil, name]
  simp
  omega

/-- Two quotation marks for each label, and those in the values. -/
theorem count_written (named : Named labels) :
    2 * labels.length ≤ (written labels).count 34 ∧
      ((written labels).count 34 ≤ 2 * labels.length → ∀ l ∈ labels, 34 ∉ l.2) := by
  fun_induction written labels with
  | case1 => simp
  | case2 l =>
      have count : (pair l ++ [125]).count 34 = 2 + l.2.count 34 := by
        rw [List.count_append, count_pair (named l List.mem_cons_self)]
        simp
      rw [count]
      refine ⟨by simp, ?_⟩
      intro less
      rw [List.forall_mem_singleton, ← List.count_eq_zero]
      simp only [List.length_singleton] at less
      omega
  | case3 l labels _ ih =>
      obtain ⟨first, others⟩ := List.forall_mem_cons.mp named
      obtain ⟨enough, tight⟩ := ih others
      have count : (pair l ++ 44 :: written labels).count 34 = 2 + l.2.count 34 + (written labels).count 34 := by
        rw [List.count_append, count_pair first]
        simp
      rw [count, List.length_cons]
      refine ⟨by omega, ?_⟩
      intro less
      rw [List.forall_mem_cons, ← List.count_eq_zero]
      exact ⟨by omega, tight (by omega)⟩

theorem mem_written {l : List UInt8 × List UInt8} (member : l ∈ labels) {b : UInt8} (inside : b ∈ l.2) :
    b ∈ written labels := by
  fun_induction written labels with
  | case1 => cases member
  | case2 k =>
      rw [List.mem_singleton] at member
      subst member
      simp [pair, inside]
  | case3 k labels _ ih =>
      rw [List.mem_cons] at member
      cases member with
      | inl first =>
          subst first
          simp [pair, inside]
      | inr later => simp [ih later]

/-- A reader that leaves no byte out has seen nothing to escape. -/
theorem clean_of_tight (named : Named labels) (line : 10 ∉ written labels) (slash : 92 ∉ written labels)
    (quotes : (written labels).count 34 ≤ 2 * labels.length) : Clean labels := by
  intro l member
  refine ⟨(count_written named).2 quotes l member, ?_, ?_⟩
  · exact fun inside => slash (mem_written member inside)
  · exact fun inside => line (mem_written member inside)

end Written

/-! ## Reading what was written -/

theorem readName_written {byte : UInt8 → Bool} {name : List UInt8} (named : isName byte name = true) {b : UInt8}
    (stop : byte b = false) (rest : List UInt8) : readName byte (name ++ b :: rest) = some (name, b :: rest) := by
  have all := all_of_isName named
  have front : (name ++ b :: rest).takeWhile byte = name := by
    rw [List.takeWhile_append_of_pos all, List.takeWhile_cons_of_neg (by simp [stop]), List.append_nil]
  have back : (name ++ b :: rest).dropWhile byte = b :: rest := by
    rw [List.dropWhile_append_of_pos all, List.dropWhile_cons_of_neg (by simp [stop])]
  rw [readName, front, back, if_pos named]

/-- What ends with an element that the second list lacks ends in the first one. -/
theorem concat_inside {α : Type} {c s t : List α} {a : α} (start : c ++ [a] <+: s ++ t) (outside : a ∉ t) :
    c ++ [a] <+: s := by
  cases List.prefix_or_prefix_of_prefix start (List.prefix_append s t) with
  | inl inside => exact inside
  | inr longer =>
      obtain ⟨more, joined⟩ := longer
      rw [← joined, List.prefix_append_right_inj] at start
      cases List.eq_nil_or_concat more with
      | inl none =>
          rw [none, List.append_nil] at joined
          exact ⟨[], by rw [List.append_nil, joined]⟩
      | inr last =>
          obtain ⟨front, b, rfl⟩ := last
          have same : b = a := by
            have ends := congrArg List.getLast? joined
            simpa [List.concat_eq_append, ← List.append_assoc] using ends
          have behind : b ∈ t := start.subset (by simp)
          exact absurd (same ▸ behind) outside

section Bounds
variable {number : List UInt8 → Bool} {name tail : List UInt8} {labels : Labels}

/-- The labels that are read from a line behind an opening brace end with the braces that were written. -/
theorem labelSet_bounds {fuel : ℕ} {rest : List UInt8} {found : Labels}
    (plain : 125 ∉ tail)
    (read : labelSet fuel ((written labels ++ 32 :: tail).takeWhile (· ≠ 10)) = some (found, rest)) :
    weight found ≤ weight labels ∧
      (weight found = weight labels → 10 ∉ written labels ∧ 92 ∉ written labels ∧
        (written labels).count 34 ≤ 2 * found.length) := by
  obtain ⟨size, exact, c, split, spent⟩ := labelSet_takes read
  have line : (written labels ++ 32 :: tail).takeWhile (· ≠ 10) <+: written labels ++ 32 :: tail :=
    List.takeWhile_prefix _
  have start : c ++ [125] <+: written labels ++ 32 :: tail := by
    refine List.IsPrefix.trans ?_ line
    rw [split]
    exact ⟨rest, by simp⟩
  -- the closing brace is not behind the written labels
  have inside : c ++ [125] <+: written labels := by
    apply concat_inside start
    rw [List.mem_cons, not_or]
    exact ⟨by decide, plain⟩
  have length := inside.length_le
  rw [List.length_append, List.length_singleton, length_written] at length
  have less := spent.length
  refine ⟨by omega, ?_⟩
  intro same
  have whole : c ++ [125] = written labels := by
    apply inside.eq_of_length
    rw [List.length_append, List.length_singleton, length_written]
    omega
  have tight : c.length = size := by omega
  have slashes := spent.slashes
  have quotes := spent.quotes
  rw [← whole]
  refine ⟨?_, ?_, ?_⟩
  · intro member
    have here : (10 : UInt8) ∈ (written labels ++ 32 :: tail).takeWhile (· ≠ 10) := by
      rw [split]
      simp only [List.mem_append, List.mem_singleton] at member
      simp [member.resolve_right (by decide)]
    simpa using List.mem_takeWhile_imp here
  · intro member
    have here : (92 : UInt8) ∈ c := by simpa using member
    have some : 0 < c.count 92 := List.count_pos_iff.mpr here
    omega
  · rw [List.count_append]
    simp only [List.count_singleton]
    simp
    omega

/-- A sample starts with its name. -/
theorem sample_name (named : isName metricByte name = true) {b : UInt8} (stop : metricByte b = false)
    (rest : List UInt8) :
    sample number (name ++ b :: rest) =
      (labelsOf (skip (b :: rest))).bind fun p => if ending number p.2 then some (name, p.1) else none := by
  simp only [sample, readName_written named stop, Option.bind_eq_bind, Option.bind_some]
  rfl

theorem labelsOf_plain {s : List UInt8} (plain : 123 ∉ s) : labelsOf s = some ([], s) := by
  unfold labelsOf
  cases found : expect 123 s with
  | none => rfl
  | some rest =>
      rw [expect_eq found] at plain
      simp at plain

/-- A name ends before its line does. -/
theorem takeWhile_name (named : isName metricByte name = true) (rest : List UInt8) :
    (name ++ rest).takeWhile (· ≠ 10) = name ++ rest.takeWhile (· ≠ 10) := by
  refine List.takeWhile_append_of_pos ?_
  intro b member
  refine decide_eq_true ?_
  rintro rfl
  exact not_mem_of_isName named (by decide) member

/-- The labels on the first line of a sample. -/
theorem sample_bounds (named : isName metricByte name = true) (plain : 123 ∉ tail ∧ 125 ∉ tail) {n : List UInt8}
    {found : Labels}
    (read : sample number ((name ++ (braces labels ++ 32 :: tail)).takeWhile (· ≠ 10)) = some (n, found)) :
    n = name ∧ weight found ≤ weight labels ∧
      (weight found = weight labels → 10 ∉ written labels ∧ 92 ∉ written labels ∧
        (written labels).count 34 ≤ 2 * found.length) := by
  rw [takeWhile_name named] at read
  by_cases none : labels = []
  · subst none
    rw [braces, if_pos rfl, List.nil_append, List.takeWhile_cons_of_pos (by decide),
      sample_name named (by decide), labelsOf_plain] at read
    · simp only [Option.bind_some, Option.ite_none_right_eq_some, Option.some.injEq, Prod.mk.injEq] at read
      obtain ⟨-, rfl, rfl⟩ := read
      simp [weight, written]
    · intro member
      have inside := (List.dropWhile_sublist blank).subset member
      rw [List.mem_cons] at inside
      exact plain.1 ((List.takeWhile_prefix _).subset (inside.resolve_left (by decide)))
  · rw [braces, if_neg none, List.cons_append, List.takeWhile_cons_of_pos (by decide),
      sample_name named (by decide)] at read
    obtain ⟨⟨found', rest⟩, labelled, read⟩ := Option.bind_eq_some_iff.mp read
    simp only [Option.ite_none_right_eq_some, Option.some.injEq, Prod.mk.injEq] at read
    obtain ⟨-, rfl, rfl⟩ := read
    exact ⟨rfl, labelSet_bounds plain.2 labelled⟩

end Bounds

section Clean
variable {number : List UInt8 → Bool} {labels : Labels}

theorem quoted_written {value : List UInt8} (quote : 34 ∉ value) (slash : 92 ∉ value) (rest : List UInt8) :
    quoted (value ++ 34 :: rest) = some (value, rest) := by
  induction value with
  | nil =>
      cases rest with
      | nil => rfl
      | cons c s => rfl
  | cons b value ih =>
      rw [List.mem_cons, not_or] at quote slash
      have again := ih quote.2 slash.2
      obtain ⟨c, s, more⟩ : ∃ c s, value ++ 34 :: rest = c :: s := by
        cases value with
        | nil => exact ⟨34, rest, rfl⟩
        | cons c value => exact ⟨c, value ++ 34 :: rest, rfl⟩
      rw [more] at again
      rw [List.cons_append, more, quoted, if_neg (Ne.symm quote.1), if_neg (Ne.symm slash.1), again]
      rfl

theorem skip_solid {b : UInt8} (solid : blank b = false) (s : List UInt8) : skip (b :: s) = b :: s := by
  rw [skip, List.dropWhile_cons_of_neg (by simp [solid])]

/-- The first byte of a name is no blank. -/
theorem skip_name {byte : UInt8 → Bool} (solid : ∀ b, byte b = true → blank b = false) {name : List UInt8}
    (named : isName byte name = true) (rest : List UInt8) : skip (name ++ rest) = name ++ rest := by
  cases name with
  | nil => cases named
  | cons b name =>
      have first := solid b (all_of_isName named b List.mem_cons_self)
      exact skip_solid first (name ++ rest)

theorem blank_metricByte (b : UInt8) (byte : metricByte b = true) : blank b = false := by
  cases dull : blank b with
  | false => rfl
  | true =>
      simp only [blank, Bool.or_eq_true, beq_iff_eq] at dull
      rcases dull with rfl | rfl
      · exact absurd byte (by decide)
      · exact absurd byte (by decide)

theorem blank_labelByte (b : UInt8) (byte : labelByte b = true) : blank b = false :=
  blank_metricByte b (by rw [metricByte, byte, Bool.true_or])

theorem label_written {l : List UInt8 × List UInt8} (named : isName labelByte l.1 = true) (quote : 34 ∉ l.2)
    (slash : 92 ∉ l.2) {b : UInt8} (solid : blank b = false) (rest : List UInt8) :
    label (pair l ++ b :: rest) = some (l, b :: rest) := by
  have shape : pair l ++ b :: rest = l.1 ++ 61 :: (34 :: (l.2 ++ 34 :: (b :: rest))) := by simp [pair]
  rw [shape, label, skip_name blank_labelByte named, readName_written named (by decide)]
  simp only [Option.bind_eq_bind, Option.bind_some, skip_solid (show blank 61 = false by decide), expect_self,
    skip_solid (show blank 34 = false by decide), quoted_written quote slash, skip_solid solid]
  rfl

/-- Behind a comma stands a name and not the closing brace. -/
theorem expect_written {b : UInt8} (other : labelByte b = false) (filled : labels ≠ []) (named : Named labels)
    (rest : List UInt8) : expect b (skip (written labels ++ rest)) = none := by
  have start : ∃ l more, isName labelByte l = true ∧ written labels ++ rest = l ++ more := by
    cases labels with
    | nil => exact absurd rfl filled
    | cons l labels =>
        have name := named l List.mem_cons_self
        cases labels with
        | nil => exact ⟨l.1, 61 :: 34 :: (l.2 ++ 34 :: 125 :: rest), name, by simp [written, pair]⟩
        | cons k labels =>
            exact ⟨l.1, 61 :: 34 :: (l.2 ++ 34 :: 44 :: (written (k :: labels) ++ rest)), name,
              by simp [written, pair]⟩
  obtain ⟨name, more, named, split⟩ := start
  rw [split, skip_name blank_labelByte named]
  cases name with
  | nil => cases named
  | cons a name =>
      rw [List.cons_append, expect, if_neg]
      rintro rfl
      exact not_mem_of_isName named other List.mem_cons_self

theorem labelSet_written (filled : labels ≠ []) (named : Named labels) (clean : Clean labels) {fuel : ℕ}
    (enough : labels.length ≤ fuel) (rest : List UInt8) :
    labelSet fuel (written labels ++ rest) = some (labels, rest) := by
  induction labels generalizing fuel with
  | nil => exact absurd rfl filled
  | cons l labels ih =>
      obtain ⟨name, names⟩ := List.forall_mem_cons.mp named
      obtain ⟨⟨quote, slash, -⟩, cleaner⟩ := List.forall_mem_cons.mp clean
      cases fuel with
      | zero => simp at enough
      | succ fuel =>
          cases labels with
          | nil =>
              rw [written, List.append_assoc, List.singleton_append, labelSet,
                label_written name quote slash (by decide)]
              rfl
          | cons k labels =>
              have next := ih (List.cons_ne_nil k labels) names cleaner (Nat.le_of_succ_le_succ enough)
              have brace := expect_written (show labelByte 125 = false by decide) (List.cons_ne_nil k labels)
                names rest
              rw [written_cons, List.append_assoc, List.cons_append, labelSet,
                label_written name quote slash (by decide)]
              simp only [Option.bind_eq_bind, Option.bind_some, expect_other _ (show (44 : UInt8) ≠ 125 by decide),
                expect_self, brace, next]
              rfl

/-- Clean label sets are told apart by their texts. -/
theorem braces_injective {others : Labels} (named : Named labels) (clean : Clean labels)
    (named' : Named others) (clean' : Clean others) (same : braces labels = braces others) : labels = others := by
  unfold braces at same
  by_cases none : labels = []
  · by_cases none' : others = []
    · rw [none, none']
    · simp [none, none'] at same
  · by_cases none' : others = []
    · simp [none, none'] at same
    · rw [if_neg none, if_neg none', List.cons.injEq] at same
      have read := labelSet_written none named clean (Nat.le_max_left _ others.length) []
      have read' := labelSet_written none' named' clean' (Nat.le_max_right labels.length _) []
      rw [same.2, read'] at read
      cases read
      rfl

theorem nextWord_blank {word rest : List UInt8} (solid : ∀ b ∈ word, blank b = false) (filled : word ≠ [])
    (boundary : Scanning.Boundary blank rest) : Scanning.nextWord blank (32 :: (word ++ rest)) = (word, rest) := by
  rw [Scanning.nextWord_space (by decide)]
  exact Scanning.nextWord_word solid filled boundary

theorem boundary_nil : Scanning.Boundary blank [] := by
  intro a first
  cases first

theorem boundary_blank (s : List UInt8) : Scanning.Boundary blank (32 :: s) := by
  intro a first
  cases first
  decide

theorem ending_written {tail : List UInt8} (filled : tail ≠ []) (solid : ∀ b ∈ tail, blank b = false) :
    ending number (32 :: tail) = number tail := by
  have word := nextWord_blank solid filled boundary_nil
  rw [List.append_nil] at word
  simp [ending, word]

theorem sample_written {name tail : List UInt8} (named : isName metricByte name = true) (names : Named labels)
    (clean : Clean labels) (filled : tail ≠ []) (solid : ∀ b ∈ tail, blank b = false) (plain : 123 ∉ tail) :
    sample number (name ++ (braces labels ++ 32 :: tail)) = if number tail then some (name, labels) else none := by
  by_cases none : labels = []
  · subst none
    have after : skip (32 :: tail) = tail := by
      cases tail with
      | nil => exact absurd rfl filled
      | cons b tail =>
          have first := skip_solid (solid b List.mem_cons_self) tail
          rw [skip, List.dropWhile_cons_of_pos (by decide)]
          exact first
    have ends : ending number tail = number tail := by
      have read : ending number (32 :: tail) = number tail := ending_written filled solid
      rwa [ending, Scanning.nextWord_space (by decide)] at read
    rw [braces, if_pos rfl, List.nil_append, sample_name named (by decide), after, labelsOf_plain plain]
    simp [ends]
  · have labelled : labelsOf (123 :: (written labels ++ 32 :: tail)) = some (labels, 32 :: tail) := by
      rw [labelsOf, expect, if_pos rfl]
      apply labelSet_written none names clean
      rw [List.length_append, length_written]
      exact Nat.le_trans (length_le_weight labels) (Nat.le_add_right _ _)
    rw [braces, if_neg none, List.cons_append, sample_name named (by decide), skip_solid (by decide), labelled]
    simp [ending_written filled solid]

end Clean

end Exposition
