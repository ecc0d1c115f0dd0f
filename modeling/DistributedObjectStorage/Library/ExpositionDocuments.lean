import Mathlib.Algebra.GroupWithZero.Nat
import Mathlib.Data.List.Basic
import Mathlib.Data.List.Forall2
import DistributedObjectStorage.Library.ExpositionSamples
import DistributedObjectStorage.Library.Utf8

/-!
# Documents written without escapes

Comments and samples, one after the other. The whole is read back, with its
samples and their labels in any order, exactly if every piece of it can be read
for itself. One sample may be read as another one, so the proof compares sums
over all samples: how many they are, the bytes of their labels, and the labels.
-/
namespace Exposition

section Documents
variable {number : List UInt8 → Bool}

theorem entries_append (front back : List (List UInt8)) :
    entries number (front ++ back) =
      (entries number front).bind fun found => (entries number back).map (found ++ ·) := by
  induction front with
  | nil => simp [entries]
  | cons line front ih =>
      rw [List.cons_append, entries, entries, ih]
      cases entry number line with
      | none => rfl
      | some found =>
          cases entries number front with
          | none => rfl
          | some more =>
              cases entries number back with
              | none => rfl
              | some last => simp

theorem parse_append {s : List UInt8} (ended : Ended s) (t : List UInt8) :
    parse number (s ++ t) = (parse number s).bind fun found => (parse number t).map (found ++ ·) := by
  have both : Ended (s ++ t) ↔ Ended t := by
    cases t with
    | nil => simpa [Ended] using ended
    | cons b t => simp [Ended, List.getLast?_append]
  rw [parse, parse, parse, if_pos ended]
  by_cases last : Ended t
  · rw [if_pos (both.mpr last), if_pos last, Scanning.lines_append ended, entries_append]
  · rw [if_neg (mt both.mp last), if_neg last]
    cases entries number (Scanning.lines 10 s) with
    | none => rfl
    | some found => rfl

theorem parse_line {line : List UInt8} (single : 10 ∉ line) : parse number (line ++ [10]) = entry number line := by
  have ended : Ended (line ++ [10]) := .inr List.getLast?_concat
  rw [parse, if_pos ended, Scanning.lines_cut single, Scanning.lines, entries, entries]
  cases entry number line with
  | none => rfl
  | some found => simp

/-! ## Comments -/

theorem entry_comment {s : List UInt8} (ok : comment s = true) : entry number (35 :: s) = some [] := by
  rw [entry, skip_solid (by decide)]
  simp only [if_true, ok]

theorem name_word {name : List UInt8} (named : isName metricByte name = true) :
    (∀ b ∈ name, blank b = false) ∧ name ≠ [] := by
  refine ⟨fun b member => blank_metricByte b (all_of_isName named b member), ?_⟩
  rintro rfl
  cases named

/-- A TYPE line with one of the types. -/
theorem comment_type {name type : List UInt8} (named : isName metricByte name = true) (known : type ∈ types) :
    comment (32 :: ("TYPE".toByteArray.data.toList ++ 32 :: (name ++ 32 :: type))) = true := by
  have word : (∀ b ∈ type, blank b = false) ∧ type ≠ [] := by
    have all : ∀ t ∈ types, (∀ b ∈ t, blank b = false) ∧ t ≠ [] := by decide +kernel
    exact all type known
  have first : Scanning.nextWord blank (32 :: ("TYPE".toByteArray.data.toList ++ 32 :: (name ++ 32 :: type))) =
      ("TYPE".toByteArray.data.toList, 32 :: (name ++ 32 :: type)) :=
    nextWord_blank (by decide +kernel) (by decide) (boundary_blank _)
  have second := nextWord_blank (name_word named).1 (name_word named).2 (boundary_blank type)
  have third := nextWord_blank word.1 word.2 boundary_nil
  rw [List.append_nil] at third
  have other : ¬"TYPE".toByteArray.data.toList = "HELP".toByteArray.data.toList := by decide
  simp only [comment, first, second, third, if_neg other, if_true, named, List.contains_iff_mem.mpr known]
  rfl

theorem documented_plain {s : List UInt8} (slash : 92 ∉ s) : documented s = true := by
  fun_induction documented s with
  | case1 => rfl
  | case2 b =>
      rw [List.mem_singleton] at slash
      exact decide_eq_true (Ne.symm slash)
  | case3 c s => simp at slash
  | case4 b c s other ih => exact ih fun member => slash (List.mem_cons_of_mem b member)

/-- A HELP line with nothing to escape. -/
theorem comment_help {name doc : List UInt8} (named : isName metricByte name = true) (slash : 92 ∉ doc) :
    comment (32 :: ("HELP".toByteArray.data.toList ++ 32 :: (name ++ 32 :: doc))) = true := by
  have first : Scanning.nextWord blank (32 :: ("HELP".toByteArray.data.toList ++ 32 :: (name ++ 32 :: doc))) =
      ("HELP".toByteArray.data.toList, 32 :: (name ++ 32 :: doc)) :=
    nextWord_blank (by decide +kernel) (by decide) (boundary_blank _)
  have second := nextWord_blank (name_word named).1 (name_word named).2 (boundary_blank doc)
  have text : (92 : UInt8) ∉ 32 :: doc := by simpa using slash
  simp only [comment, first, second, if_true, named, documented_plain text]
  rfl

/-- A comment of the two kinds on a line of its own. -/
theorem parse_comment {keyword name rest : List UInt8} (named : isName metricByte name = true)
    (first : 10 ∉ keyword) (last : 10 ∉ rest)
    (ok : comment (32 :: (keyword ++ 32 :: (name ++ 32 :: rest))) = true) :
    parse number ((35 :: 32 :: (keyword ++ 32 :: (name ++ 32 :: rest))) ++ [10]) = some [] := by
  have single : (10 : UInt8) ∉ 35 :: 32 :: (keyword ++ 32 :: (name ++ 32 :: rest)) := by
    have middle := not_mem_of_isName named (show metricByte 10 = false by decide)
    simp [first, middle, last]
  rw [parse_line single, entry_comment ok]

/-! ## Pieces -/

/-- The value of a sample, as a writer prints it. -/
structure Word (number : List UInt8 → Bool) (value : List UInt8) : Prop where
  number : number value = true
  filled : value ≠ []
  ascii : ∀ b ∈ value, b.toNat < 128
  plain : ∀ b ∈ value, blank b = false ∧ b ≠ 10 ∧ b ≠ 123 ∧ b ≠ 125

/-- What a writer prints at a time. -/
inductive Piece where
  | comment (text : List UInt8)
  | sample (name : List UInt8) (labels : Labels) (value : List UInt8)

namespace Piece

def text : Piece → List UInt8
  | comment text => text
  | sample name labels value => name ++ (braces labels ++ 32 :: (value ++ [10]))

def samples : Piece → List Sample
  | comment _ => []
  | sample name labels _ => [(name, labels)]

/-- Names are names, a value is a number, and lines end. -/
def Ok (number : List UInt8 → Bool) : Piece → Prop
  | comment text => Ended text
  | sample name labels value => isName metricByte name = true ∧ Named labels ∧ Word number value

/-- Comments hold no samples, and values have nothing to escape. -/
def Readable (number : List UInt8 → Bool) : Piece → Prop
  | comment text => parse number text = some []
  | sample _ labels _ => Clean labels

theorem text_sample (name : List UInt8) (labels : Labels) (value : List UInt8) :
    (sample name labels value).text = (name ++ (braces labels ++ 32 :: value)) ++ [10] := by
  simp [text]

theorem Ok.ended {p : Piece} (ok : p.Ok number) : Ended p.text := by
  cases p with
  | comment text => exact ok
  | sample name labels value =>
      refine .inr ?_
      rw [text_sample, List.getLast?_concat]

end Piece

/-- A line that starts with a name is a sample. -/
theorem entry_name {name : List UInt8} (named : isName metricByte name = true) (rest : List UInt8) :
    entry number (name ++ rest) = (sample number (name ++ rest)).map fun x => [x] := by
  rw [entry, skip_name blank_metricByte named]
  cases name with
  | nil => cases named
  | cons b name =>
      have other : b ≠ 35 := by
        rintro rfl
        exact not_mem_of_isName named (by decide) List.mem_cons_self
      rw [List.cons_append]
      simp only [if_neg other]

theorem not_mem_written {labels : Labels} (named : Named labels) {b : UInt8}
    (other : labelByte b = false) (mark : b ∉ [61, 34, 44, 125]) (values : ∀ l ∈ labels, b ∉ l.2) :
    b ∉ written labels := by
  have one (l : List UInt8 × List UInt8) (named : isName labelByte l.1 = true) (value : b ∉ l.2) : b ∉ pair l := by
    have name := not_mem_of_isName named other
    simp only [List.mem_cons, not_or] at mark
    simp [pair, name, value, mark]
  simp only [List.mem_cons, not_or] at mark
  fun_induction written labels with
  | case1 => exact List.not_mem_nil
  | case2 l =>
      simp [one l (named l List.mem_cons_self) (values l List.mem_cons_self), mark]
  | case3 l labels _ ih =>
      obtain ⟨name, names⟩ := List.forall_mem_cons.mp named
      obtain ⟨value, values⟩ := List.forall_mem_cons.mp values
      simp [one l name value, mark, ih names values]

section Line
variable {name value : List UInt8} {labels : Labels}

theorem single_sample (ok : (Piece.sample name labels value).Ok number) (clean : Clean labels) :
    10 ∉ name ++ (braces labels ++ 32 :: value) := by
  obtain ⟨named, names, word⟩ := ok
  have first := not_mem_of_isName named (show metricByte 10 = false by decide)
  have last : (10 : UInt8) ∉ value := fun member => (word.plain 10 member).2.1 rfl
  have braced : (10 : UInt8) ∉ braces labels := by
    unfold braces
    split
    · exact List.not_mem_nil
    · simp [not_mem_written names (show labelByte 10 = false by decide) (by decide) fun l member =>
        (clean l member).2.2]
  simp [first, last, braced]

/-- A sample without anything to escape is read back with its value, whatever the reader takes for a number. -/
theorem sample_read (ok : (Piece.sample name labels value).Ok number) (clean : Clean labels)
    (number' : List UInt8 → Bool) :
    sample number' (name ++ (braces labels ++ 32 :: value)) =
      if number' value then some (name, labels) else none := by
  obtain ⟨named, names, word⟩ := ok
  exact sample_written named names clean word.filled (fun b member => (word.plain b member).1)
    fun member => (word.plain 123 member).2.2.1 rfl

end Line

theorem parse_readable {p : Piece} (ok : p.Ok number) (readable : p.Readable number) :
    parse number p.text = some p.samples := by
  cases p with
  | comment text => exact readable
  | sample name labels value =>
      rw [Piece.text_sample, parse_line (single_sample ok readable), entry_name ok.1, sample_read ok readable,
        if_pos ok.2.2.number]
      rfl

/-- What is read from a sample is a sample of that name, with no more bytes in its labels, and perhaps more samples. -/
theorem parse_sample {name value : List UInt8} {labels : Labels}
    (ok : (Piece.sample name labels value).Ok number) {found : List Sample}
    (read : parse number (Piece.sample name labels value).text = some found) :
    ∃ labels' more, found = (name, labels') :: more ∧ weight labels' ≤ weight labels ∧
      (weight labels' = weight labels → 10 ∉ written labels ∧ 92 ∉ written labels ∧
        (written labels).count 34 ≤ 2 * labels'.length) := by
  obtain ⟨named, names, word⟩ := ok
  have ended : Ended (Piece.sample name labels value).text := Piece.Ok.ended ⟨named, names, word⟩
  have plain : (123 : UInt8) ∉ value ++ [10] ∧ (125 : UInt8) ∉ value ++ [10] := by
    constructor
    · simpa using fun member => (word.plain 123 member).2.2.1 rfl
    · simpa using fun member => (word.plain 125 member).2.2.2 rfl
  have first := Scanning.headD_lines 10 (Piece.sample name labels value).text
  rw [parse, if_pos ended] at read
  cases split : Scanning.lines 10 (Piece.sample name labels value).text with
  | nil =>
      rw [split, Piece.text, takeWhile_name named] at first
      cases name with
      | nil => cases named
      | cons b name => simp at first
  | cons line lines =>
      rw [split, List.headD_cons] at first
      rw [split, entries] at read
      obtain ⟨here, one, read⟩ := Option.bind_eq_some_iff.mp read
      obtain ⟨more, -, rfl⟩ := Option.map_eq_some_iff.mp read
      -- the first line starts with the name
      have start : line = name ++ (braces labels ++ 32 :: (value ++ [10])).takeWhile (· ≠ 10) := by
        rw [first, Piece.text, takeWhile_name named]
      rw [start, entry_name named, ← start, first, Piece.text] at one
      obtain ⟨⟨n, labels'⟩, sampled, rfl⟩ := Option.map_eq_some_iff.mp one
      obtain ⟨rfl, bounds⟩ := sample_bounds named plain sampled
      exact ⟨labels', more, rfl, bounds⟩

/-- A document is read piece by piece. -/
theorem parse_pieces {pieces : List Piece} (ended : ∀ p ∈ pieces, Ended p.text) {found : List Sample} :
    parse number (pieces.flatMap Piece.text) = some found ↔
      ∃ founds, List.Forall₂ (fun p here => parse number p.text = some here) pieces founds ∧
        found = founds.flatten := by
  induction pieces generalizing found with
  | nil =>
      have none : parse number (List.flatMap Piece.text []) = some [] := rfl
      rw [none]
      constructor
      · intro read
        cases read
        exact ⟨[], .nil, rfl⟩
      · intro read
        obtain ⟨founds, all, rfl⟩ := read
        cases all
        rfl
  | cons p pieces ih =>
      obtain ⟨first, later⟩ := List.forall_mem_cons.mp ended
      rw [List.flatMap_cons, parse_append first, Option.bind_eq_some_iff]
      constructor
      · intro read
        obtain ⟨here, one, read⟩ := read
        obtain ⟨rest, others, rfl⟩ := Option.map_eq_some_iff.mp read
        obtain ⟨founds, all, rfl⟩ := (ih later).mp others
        exact ⟨here :: founds, .cons one all, rfl⟩
      · intro read
        obtain ⟨founds, all, rfl⟩ := read
        cases all with
        | cons one all =>
            exact ⟨_, one, Option.map_eq_some_iff.mpr ⟨_, (ih later).mpr ⟨_, all, rfl⟩, rfl⟩⟩

/-- Sums that are equal although no term is larger have equal terms. -/
theorem forall₂_eq_of_sum {α β : Type} {r : α → β → Prop} {f : α → ℕ} {g : β → ℕ} {as : List α} {bs : List β}
    (all : List.Forall₂ r as bs) (le : ∀ a b, r a b → f a ≤ g b) (same : (as.map f).sum = (bs.map g).sum) :
    List.Forall₂ (fun a b => r a b ∧ f a = g b) as bs := by
  have less : ∀ {as bs}, List.Forall₂ r as bs → (as.map f).sum ≤ (bs.map g).sum := by
    intro as bs all
    induction all with
    | nil => exact Nat.le_refl _
    | cons one _ ih =>
        rw [List.map_cons, List.map_cons, List.sum_cons, List.sum_cons]
        exact Nat.add_le_add (le _ _ one) ih
  induction all with
  | nil => exact .nil
  | cons one all ih =>
      rw [List.map_cons, List.map_cons, List.sum_cons, List.sum_cons] at same
      have first := le _ _ one
      have rest := less all
      exact .cons ⟨one, by omega⟩ (ih (by omega))

section Identified
variable {canon : Labels → Labels} {pieces : List Piece}
  {founds : List (List Sample)}

/-- Samples that are the same up to the order of their labels have the same sum of any measure. -/
theorem sum_eq_of_perm (measure : Labels → ℕ)
    (same : ∀ labels, measure (canon labels) = measure labels)
    (perm : (founds.flatten.map fun s => (s.1, canon s.2)).Perm
      ((pieces.flatMap Piece.samples).map fun s => (s.1, canon s.2))) :
    (pieces.map fun p => (p.samples.map fun s => measure s.2).sum).sum =
      (founds.map fun here => (here.map fun s => measure s.2).sum).sum := by
  have sums := (perm.map fun s => measure s.2).sum_nat
  simp only [List.map_map, Function.comp_def, same] at sums
  rw [List.map_flatten, List.sum_flatten, List.flatMap, List.map_flatten, List.sum_flatten] at sums
  simpa [List.map_map, Function.comp_def] using sums.symm

theorem weight_perm {labels others : Labels} (perm : labels.Perm others) :
    weight labels = weight others := by
  induction perm with
  | nil => rfl
  | cons l _ ih => rw [weight, weight, ih]
  | swap k l labels =>
      simp only [weight]
      omega
  | trans _ _ first second => exact first.trans second

/-- A piece and what is read from it, when that is no more than it holds. -/
inductive Matched (number : List UInt8 → Bool) : Piece → List Sample → Prop
  | comment {text : List UInt8} : parse number text = some [] → Matched number (.comment text) []
  | sample {name value : List UInt8} {labels labels' : Labels} : Named labels →
      weight labels' ≤ weight labels →
      (weight labels' = weight labels → 10 ∉ written labels ∧ 92 ∉ written labels ∧
        (written labels).count 34 ≤ 2 * labels'.length) →
      Matched number (.sample name labels value) [(name, labels')]

/-- No piece reads as fewer samples than it holds. -/
theorem samples_le {p : Piece} (ok : p.Ok number) {here : List Sample} (read : parse number p.text = some here) :
    (p.samples.map fun _ => 1).sum ≤ (here.map fun _ => 1).sum := by
  cases p with
  | comment text => exact Nat.zero_le _
  | sample name labels value =>
      obtain ⟨labels', more, rfl, -⟩ := parse_sample ok read
      simp [Piece.samples]

theorem matched {p : Piece} (ok : p.Ok number) {here : List Sample} (read : parse number p.text = some here)
    (same : (p.samples.map fun _ => 1).sum = (here.map fun _ => 1).sum) : Matched number p here := by
  cases p with
  | comment text =>
      have none : here = [] := by
        cases here with
        | nil => rfl
        | cons s here =>
            simp only [Piece.samples, List.map_nil, List.sum_nil, List.map_cons, List.sum_cons] at same
            omega
      subst none
      exact .comment read
  | sample name labels value =>
      obtain ⟨labels', more, rfl, less, tight⟩ := parse_sample ok read
      have none : more = [] := by
        cases more with
        | nil => rfl
        | cons s more => simp [Piece.samples] at same
      subst none
      exact .sample ok.2.1 less tight

theorem Matched.weight_le {p : Piece} {here : List Sample} (one : Matched number p here) :
    (here.map fun s => weight s.2).sum ≤ (p.samples.map fun s => weight s.2).sum := by
  cases one with
  | comment _ => exact Nat.le_refl _
  | sample _ less _ => simpa [Piece.samples] using less

theorem Matched.length_le {p : Piece} {here : List Sample} (one : Matched number p here)
    (same : (here.map fun s => weight s.2).sum = (p.samples.map fun s => weight s.2).sum) :
    (p.samples.map fun s => s.2.length).sum ≤ (here.map fun s => s.2.length).sum := by
  cases one with
  | comment _ => exact Nat.le_refl _
  | sample named _ tight =>
      have quotes := (tight (by simpa [Piece.samples] using same)).2.2
      have marks := (count_written named).1
      simp only [Piece.samples, List.map_cons, List.map_nil, List.sum_cons, List.sum_nil]
      omega

theorem Matched.readable {p : Piece} {here : List Sample} (one : Matched number p here)
    (same : (here.map fun s => weight s.2).sum = (p.samples.map fun s => weight s.2).sum)
    (count : (p.samples.map fun s => s.2.length).sum = (here.map fun s => s.2.length).sum) : p.Readable number := by
  cases one with
  | comment read => exact read
  | sample named _ tight =>
      obtain ⟨line, slash, quotes⟩ := tight (by simpa [Piece.samples] using same)
      have labels := (by simpa [Piece.samples] using count : _ = _)
      rw [← labels] at quotes
      exact clean_of_tight named line slash quotes

/-- A document is read back, up to the order of samples and of labels, exactly if its pieces are readable. -/
theorem parse_document_iff (reorders : ∀ labels, (canon labels).Perm labels) (ok : ∀ p ∈ pieces, p.Ok number) :
    (∃ found, parse number (pieces.flatMap Piece.text) = some found ∧
        (found.map fun s => (s.1, canon s.2)).Perm
          ((pieces.flatMap Piece.samples).map fun s => (s.1, canon s.2))) ↔
      ∀ p ∈ pieces, p.Readable number := by
  constructor
  · intro read
    obtain ⟨found, read, perm⟩ := read
    obtain ⟨founds, all, rfl⟩ := (parse_pieces fun p member => (ok p member).ended).mp read
    -- as many samples as pieces hold, then no fewer bytes in their labels, then no more labels
    have known := (List.forall₂_and_left _ _).mpr ⟨ok, all⟩
    have counted := forall₂_eq_of_sum known (fun p here one => samples_le one.1 one.2)
      (sum_eq_of_perm (fun _ => 1) (fun _ => rfl) perm)
    have once : List.Forall₂ (Matched number) pieces founds :=
      counted.imp fun p here one => matched one.1.1 one.1.2 one.2
    have weighed := forall₂_eq_of_sum once.flip (fun here p one => one.weight_le)
      (sum_eq_of_perm weight (fun labels => weight_perm (reorders labels)) perm).symm
    have labelled := forall₂_eq_of_sum weighed.flip (fun p here one => one.1.length_le one.2)
      (sum_eq_of_perm List.length (fun labels => (reorders labels).length_eq) perm)
    have every : List.Forall₂ (fun p _ => p.Readable number ∧ True) pieces founds :=
      labelled.imp fun p here one => ⟨one.1.1.readable one.1.2 one.2, trivial⟩
    exact ((List.forall₂_and_left pieces founds).mp every).1
  · intro readable
    refine ⟨pieces.flatMap Piece.samples, ?_, List.Perm.refl _⟩
    rw [parse_pieces fun p member => (ok p member).ended]
    refine ⟨pieces.map Piece.samples, ?_, rfl⟩
    rw [List.forall₂_map_right_iff, List.forall₂_same]
    intro p member
    exact parse_readable (ok p member) (readable p member)

end Identified

/-! ## Characters -/

theorem Ended.split {text : List UInt8} (ended : Ended text) : text = [] ∨ ∃ front, text = front ++ [10] := by
  cases ended with
  | inl none => exact .inl none
  | inr last => exact .inr ⟨text.dropLast, (List.dropLast_append_getLast? 10 last).symm⟩

/-- Lines share no characters. -/
theorem valid_pieces {pieces : List Piece} (ended : ∀ p ∈ pieces, Ended p.text) :
    Utf8.Valid (pieces.flatMap Piece.text) ↔ ∀ p ∈ pieces, Utf8.Valid p.text := by
  induction pieces with
  | nil => simp [Utf8.valid_nil]
  | cons p pieces ih =>
      obtain ⟨first, later⟩ := List.forall_mem_cons.mp ended
      rw [List.flatMap_cons, List.forall_mem_cons, ← ih later]
      rcases first.split with none | ⟨front, split⟩
      · simp [none, Utf8.valid_nil]
      · rw [split, List.append_assoc, List.singleton_append, Utf8.valid_split (by decide),
          Utf8.valid_split (by decide)]
        simp [Utf8.valid_nil]

theorem ascii_of_metricByte {b : UInt8} (byte : metricByte b = true) : b.toNat < 128 := by
  simp only [metricByte, labelByte, digit, Bool.or_eq_true, Bool.and_eq_true, decide_eq_true_eq, beq_iff_eq,
    UInt8.le_iff_toNat_le, ← UInt8.toNat_inj] at byte
  simp at byte
  omega

theorem ascii_of_isName {byte : UInt8 → Bool} (ascii : ∀ b, byte b = true → b.toNat < 128) {name : List UInt8}
    (named : isName byte name = true) : ∀ b ∈ name, b.toNat < 128 :=
  fun b member => ascii b (all_of_isName named b member)

theorem ascii_of_metricName {name : List UInt8} (named : isName metricByte name = true) :
    ∀ b ∈ name, b.toNat < 128 :=
  ascii_of_isName (fun _ => ascii_of_metricByte) named

theorem valid_pair {l : List UInt8 × List UInt8} (named : isName labelByte l.1 = true) (rest : List UInt8) :
    Utf8.Valid (pair l ++ rest) ↔ Utf8.Valid l.2 ∧ Utf8.Valid rest := by
  have name : ∀ b ∈ l.1, b.toNat < 128 :=
    ascii_of_isName (fun b byte => ascii_of_metricByte (by rw [metricByte, byte, Bool.true_or])) named
  have shape : pair l ++ rest = l.1 ++ ([61, 34] ++ (l.2 ++ 34 :: rest)) := by simp [pair]
  rw [shape, Utf8.valid_ascii_append name, Utf8.valid_ascii_append (by decide +kernel), Utf8.valid_split (by decide)]

theorem valid_written {labels : Labels} (named : Named labels) (rest : List UInt8) :
    Utf8.Valid (written labels ++ rest) ↔ (∀ l ∈ labels, Utf8.Valid l.2) ∧ Utf8.Valid rest := by
  fun_induction written labels with
  | case1 => simp
  | case2 l =>
      rw [List.append_assoc, valid_pair (named l List.mem_cons_self), Utf8.valid_ascii_append (by decide +kernel),
        List.forall_mem_singleton]
  | case3 l labels _ ih =>
      obtain ⟨name, names⟩ := List.forall_mem_cons.mp named
      have comma : 44 :: written labels ++ rest = [44] ++ (written labels ++ rest) := rfl
      rw [List.append_assoc, valid_pair name, comma, Utf8.valid_ascii_append (by decide +kernel), ih names,
        List.forall_mem_cons, and_assoc]

/-- The characters of a sample are those of its values. -/
theorem valid_sample {name value : List UInt8} {labels : Labels}
    (ok : (Piece.sample name labels value).Ok number) :
    Utf8.Valid (Piece.sample name labels value).text ↔ ∀ l ∈ labels, Utf8.Valid l.2 := by
  obtain ⟨named, names, word⟩ := ok
  have behind : Utf8.Valid (32 :: (value ++ [10])) := by
    have shape : 32 :: (value ++ [10]) = [32] ++ (value ++ ([10] ++ [])) := by simp
    rw [shape, Utf8.valid_ascii_append (by decide +kernel), Utf8.valid_ascii_append word.ascii,
      Utf8.valid_ascii_append (by decide +kernel)]
    exact Utf8.valid_nil
  rw [Piece.text, Utf8.valid_ascii_append (ascii_of_metricName named), braces]
  split
  · next none =>
      subst none
      simpa using behind
  · have brace : 123 :: written labels ++ 32 :: (value ++ [10]) =
        [123] ++ (written labels ++ 32 :: (value ++ [10])) := rfl
    rw [brace, Utf8.valid_ascii_append (by decide +kernel), valid_written names]
    exact and_iff_left behind

end Documents
end Exposition
