import Mathlib.Algebra.Order.Ring.Rat
import Mathlib.Data.List.Basic
import Mathlib.Data.Rat.Cast.OfScientific
import Mathlib.Order.Defs.LinearOrder
import DistributedObjectStorage.Common.MetricsText

/-!
# Histograms

An observation is counted once, in the first bucket it fits, and `Serialize`
adds up. With ascending bounds every printed count is the number of values up
to its bound, for each text of labels. A reader of the text finds these counts
for each label set if the labels have nothing to escape and the bounds are
printed apart.
-/
namespace Dos.Metrics

/-! ## One sample -/

section Counts
variable {V : Type} {bounds : List V} {counts : List ℕ}

theorem cumulate_succ (n : ℕ) (bounds : List V) (counts : List ℕ) :
    cumulate (n + 1) bounds counts = (cumulate n bounds counts).map fun p => (p.1, p.2 + 1) := by
  induction bounds generalizing n counts with
  | nil => rfl
  | cons b bounds ih =>
      cases counts with
      | nil => rfl
      | cons c counts =>
          have shift : n + 1 + c = n + c + 1 := by omega
          simp only [cumulate, List.map_cons, shift, ih]

theorem mem_of_mem_cumulate {n : ℕ} {p : V × ℕ} (member : p ∈ cumulate n bounds counts) : p.1 ∈ bounds := by
  induction bounds generalizing n counts with
  | nil => simp [cumulate] at member
  | cons b bounds ih =>
      cases counts with
      | nil => simp [cumulate] at member
      | cons c counts =>
          rw [cumulate, List.mem_cons] at member
          cases member with
          | inl first =>
              rw [first]
              exact List.mem_cons_self
          | inr later => exact List.mem_cons_of_mem b (ih later)

theorem cumulate_replicate (bounds : List V) (n m : ℕ) (sized : bounds.length ≤ m) :
    cumulate n bounds (List.replicate m 0) = bounds.map fun b => (b, n) := by
  induction bounds generalizing m with
  | nil => rfl
  | cons b bounds ih =>
      cases m with
      | zero => simp at sized
      | succ m => rw [List.replicate_succ, cumulate, Nat.add_zero, ih m (Nat.le_of_succ_le_succ sized), List.map_cons]

theorem length_incLast (counts : List ℕ) : (incLast counts).length = counts.length := by
  induction counts with
  | nil => rfl
  | cons c counts ih =>
      cases counts with
      | nil => rfl
      | cons d counts => exact congrArg (· + 1) ih

variable [LinearOrder V]

theorem length_place (value : V) (sized : counts.length = bounds.length + 1) :
    (place value bounds counts).length = bounds.length + 1 := by
  induction bounds generalizing counts with
  | nil => rw [place, length_incLast, sized]
  | cons b bounds ih =>
      cases counts with
      | nil => cases sized
      | cons c counts =>
          rw [place]
          split
          · exact sized
          · rw [List.length_cons, ih (Nat.succ.inj sized), List.length_cons]

/-- One more value raises the counts of the bounds it does not exceed. -/
theorem cumulate_place (value : V) (ascending : bounds.Pairwise (· ≤ ·)) (sized : counts.length = bounds.length + 1)
    (n : ℕ) :
    cumulate n bounds (place value bounds counts) =
      (cumulate n bounds counts).map fun p => (p.1, if value ≤ p.1 then p.2 + 1 else p.2) := by
  induction bounds generalizing n counts with
  | nil => rfl
  | cons b bounds ih =>
      obtain ⟨later, ascending⟩ := List.pairwise_cons.mp ascending
      cases counts with
      | nil => cases sized
      | cons c counts =>
          rw [place]
          by_cases fits : value ≤ b
          · -- the value is counted here, and the bounds behind are no smaller
            have behind : ∀ p ∈ cumulate (n + c) bounds counts,
                (p.1, p.2 + 1) = (p.1, if value ≤ p.1 then p.2 + 1 else p.2) := by
              intro p member
              rw [if_pos (le_trans fits (later p.1 (mem_of_mem_cumulate member)))]
            rw [if_pos fits, cumulate, cumulate, List.map_cons, ← Nat.add_assoc, cumulate_succ,
              List.map_congr_left behind, if_pos fits]
          · rw [if_neg fits, cumulate, cumulate, List.map_cons, ih ascending (Nat.succ.inj sized), if_neg fits]

end Counts

section Tally
variable {V : Type} [LinearOrder V] [Zero V] {bounds values : List V} {s : Sample V}

/-- A sample that counts some values. -/
structure Tallied (bounds values : List V) (s : Sample V) : Prop where
  count : s.count = values.length
  sized : s.bucketCounts.length = bounds.length + 1
  exact : cumulate 0 bounds s.bucketCounts = bounds.map fun b => (b, values.countP (· ≤ b))

theorem Tallied.observe [Add V] (tallied : Tallied bounds values s) (ascending : bounds.Pairwise (· ≤ ·))
    (value : V) : Tallied bounds (values ++ [value]) (observe value bounds s) := by
  have counted : s.bucketCounts ≠ [] := by
    intro empty
    have sized := tallied.sized
    simp [empty] at sized
  constructor
  · simp [Metrics.observe, tallied.count]
  · simp only [Metrics.observe, if_neg counted]
    exact length_place value tallied.sized
  · simp only [Metrics.observe, if_neg counted]
    rw [cumulate_place value ascending tallied.sized, tallied.exact, List.map_map]
    apply List.map_congr_left
    intro b _
    by_cases fits : value ≤ b
    · simp [fits]
    · simp [fits]

theorem tallied_first [Add V] (ascending : bounds.Pairwise (· ≤ ·)) (value : V) :
    Tallied bounds [value] (observe value bounds {}) := by
  have zero : Tallied bounds [] ({ bucketCounts := List.replicate (bounds.length + 1) 0 } : Sample V) := by
    constructor
    · rfl
    · exact List.length_replicate
    · simpa using cumulate_replicate bounds 0 (bounds.length + 1) (Nat.le_succ _)
  exact zero.observe ascending value

end Tally

/-! ## A sequence of observations -/

/-- The arguments of an `ObserveHistogram` call behind the name. -/
structure Observation (V : Type) where
  help : Bytes
  value : V
  labels : Labels
  buckets : List V

section Observations
variable {V : Type}

def Observation.call (name : Bytes) (o : Observation V) : Call V :=
  .observeHistogram name o.help o.value o.labels o.buckets

/-- The bounds the first caller has set. -/
def boundsOf [OfScientific V] : List (Observation V) → List V
  | [] => []
  | o :: _ => chooseBuckets o.buckets []

/-- The values under one text. -/
def valuesAt (obs : List (Observation V)) (key : Bytes) : List V :=
  (obs.filter fun o => labelKey o.labels = key).map (·.value)

/-- The values with one label set. -/
def valuesWith (obs : List (Observation V)) (labels : Labels) : List V :=
  (obs.filter fun o => o.labels.Perm labels).map (·.value)

theorem boundsOf_snoc [OfScientific V] (obs : List (Observation V)) (o : Observation V) :
    boundsOf (obs ++ [o]) = chooseBuckets o.buckets (boundsOf obs) := by
  cases obs with
  | nil => rfl
  | cons first obs =>
      have set : (boundsOf (first :: obs)).isEmpty = false := by
        rw [boundsOf, chooseBuckets, if_pos List.isEmpty_nil]
        split
        · rfl
        · next offered => simpa using offered
      rw [chooseBuckets, set]
      rfl

theorem valuesAt_snoc (obs : List (Observation V)) (o : Observation V) (key : Bytes) :
    valuesAt (obs ++ [o]) key = valuesAt obs key ++ if labelKey o.labels = key then [o.value] else [] := by
  unfold valuesAt
  rw [List.filter_append, List.map_append]
  by_cases here : labelKey o.labels = key
  · simp [here]
  · simp [here]

theorem valuesWith_perm {obs : List (Observation V)} {labels others : Labels} (perm : labels.Perm others) :
    valuesWith obs labels = valuesWith obs others := by
  unfold valuesWith
  congr 1
  apply List.filter_congr
  intro p _
  exact decide_eq_decide.mpr ⟨fun same => same.trans perm, fun same => same.trans perm.symm⟩

theorem valuesAt_eq {obs : List (Observation V)} {labels : Labels}
    (apart : ∀ p ∈ obs, labelKey p.labels = labelKey labels → p.labels.Perm labels) :
    valuesAt obs (labelKey labels) = valuesWith obs labels := by
  unfold valuesAt valuesWith
  congr 1
  apply List.filter_congr
  intro p member
  exact decide_eq_decide.mpr ⟨apart p member, labelKey_perm⟩

variable [LinearOrder V] [Zero V] [Add V] [OfScientific V] {obs : List (Observation V)} {name : Bytes}

/-- The registry after some observations. -/
def observed (name : Bytes) (obs : List (Observation V)) : MetricsRegistry V := run (obs.map (Observation.call name))

/-- A family that holds exactly these observations. -/
structure Family.Holds (obs : List (Observation V)) (f : Family V) : Prop where
  type : f.type = .histogram
  buckets : f.buckets = boundsOf obs
  absent : ∀ key, f.samples[key]? = none → valuesAt obs key = []
  tallied : ∀ key s, f.samples[key]? = some s → valuesAt obs key ≠ [] ∧ Tallied (boundsOf obs) (valuesAt obs key) s

theorem Family.Holds.observe {f : Family V} (holds : f.Holds obs) (o : Observation V)
    (ascending : (boundsOf (obs ++ [o])).Pairwise (· ≤ ·)) :
    Family.Holds (obs ++ [o])
      { f with
        buckets := chooseBuckets o.buckets f.buckets
        samples := f.samples.insert (labelKey o.labels)
          (Metrics.observe o.value (chooseBuckets o.buckets f.buckets)
            ((f.samples[labelKey o.labels]?).getD {})) } := by
  have kept {key : Bytes} (some : valuesAt obs key ≠ []) : boundsOf (obs ++ [o]) = boundsOf obs := by
    cases obs with
    | nil => exact absurd rfl some
    | cons first obs => rfl
  have bounds : chooseBuckets o.buckets f.buckets = boundsOf (obs ++ [o]) := by
    rw [boundsOf_snoc, holds.buckets]
  constructor
  · exact holds.type
  · exact bounds
  · intro key none
    rw [OrderedMap.lookup_insert] at none
    by_cases here : labelKey o.labels = key
    · simp [here] at none
    · rw [if_neg here] at none
      rw [valuesAt_snoc, if_neg here, List.append_nil, holds.absent key none]
  · intro key s found
    rw [OrderedMap.lookup_insert] at found
    rw [valuesAt_snoc]
    by_cases here : labelKey o.labels = key
    · rw [if_pos here, Option.some.injEq, here, bounds] at found
      rw [if_pos here]
      refine ⟨by simp, ?_⟩
      cases before : f.samples[key]? with
      | none =>
          rw [before, Option.getD_none] at found
          rw [holds.absent key before, ← found]
          exact tallied_first ascending o.value
      | some old =>
          obtain ⟨some, tallied⟩ := holds.tallied key old before
          rw [before, Option.getD_some] at found
          rw [← found]
          rw [← kept some] at tallied
          exact tallied.observe ascending o.value
    · rw [if_neg here] at found
      obtain ⟨some, tallied⟩ := holds.tallied key s found
      rw [if_neg here, List.append_nil, kept some]
      exact ⟨some, tallied⟩

/-- The family after any observations, and before the first one the family it will be. -/
theorem holds_run (obs : List (Observation V)) (ascending : (boundsOf obs).Pairwise (· ≤ ·)) (help : Bytes) :
    ((observed name obs).getOrCreate name .histogram help).Holds obs := by
  induction obs using List.reverseRecOn generalizing help with
  | nil =>
      constructor
      · rfl
      · rfl
      · intro key _
        rfl
      · intro key s found
        simp [observed, run, MetricsRegistry.getOrCreate] at found
  | append_singleton obs o ih =>
      have before : (boundsOf obs).Pairwise (· ≤ ·) := by
        cases obs with
        | nil => exact List.Pairwise.nil
        | cons first obs => exact ascending
      have next := (ih before o.help).observe o ascending
      rw [observed, List.map_append, List.map_singleton, run_snoc, MetricsRegistry.getOrCreate]
      simp only [Observation.call, MetricsRegistry.perform, MetricsRegistry.observeHistogram, MetricsRegistry.update,
        OrderedMap.lookup_insert_self, Option.getD_some]
      exact next

end Observations

/-! ## The lines of the text -/

section Lines
variable {V : Type}

/-- The number of values up to a bound, and of all values for `+Inf`. -/
def upTo [LE V] [DecidableLE V] (values : List V) : Option V → ℕ
  | none => values.length
  | some b => values.countP (· ≤ b)

/-- The bounds that are printed: those in force, and `+Inf`. -/
def printedBounds [OfScientific V] (obs : List (Observation V)) : List (Option V) := (boundsOf obs).map some ++ [none]

theorem mem_lines [Zero V] {r : MetricsRegistry V} {l : Line V} :
    l ∈ r.lines ↔ ∃ name f, r.families[name]? = some f ∧
      ((f.help ≠ [] ∧ l = .help name f.help) ∨ l = .type name f.type ∨
        ∃ key s, f.samples[key]? = some s ∧ l ∈ f.sampleLines name key s) := by
  have header (name : Bytes) (f : Family V) :
      (l ∈ if f.help = [] then [] else [.help name f.help]) ↔ f.help ≠ [] ∧ l = .help name f.help := by
    split
    · next none => simp [none]
    · next some => simp [some]
  simp only [MetricsRegistry.lines, Family.lines, List.mem_flatMap, Prod.exists,
    Std.ExtTreeMap.mem_toList_iff_getElem?_eq_some, List.mem_append, header, List.mem_cons]

variable [LinearOrder V] [OfScientific V] {obs : List (Observation V)} {name key : Bytes}

theorem upTo_ascending (ascending : (boundsOf obs).Pairwise (· ≤ ·)) (values : List V) :
    (printedBounds obs).Pairwise fun le le' => upTo values le ≤ upTo values le' := by
  rw [printedBounds, List.pairwise_append, List.pairwise_map]
  refine ⟨ascending.imp ?_, List.pairwise_singleton _ _, ?_⟩
  · intro b b' less
    apply List.countP_mono_left
    intro value _ fits
    exact decide_eq_true (le_trans (of_decide_eq_true fits) less)
  · intro le below le' last
    obtain ⟨b, -, rfl⟩ := List.mem_map.mp below
    rw [List.mem_singleton.mp last]
    exact List.countP_le_length

variable [Zero V]

theorem Family.Holds.sampleLines {f : Family V} (holds : f.Holds obs) {s : Sample V}
    (sample : f.samples[key]? = some s) :
    f.sampleLines name key s =
      (printedBounds obs).map (fun le => .bucket name key le (upTo (valuesAt obs key) le)) ++
        [.sum name key s.sum, .count name key s.count] := by
  obtain ⟨-, tallied⟩ := holds.tallied key s sample
  simp [Family.sampleLines, holds.type, holds.buckets, tallied.exact, tallied.count, printedBounds, upTo,
    Function.comp_def]

variable [Add V] (ascending : (boundsOf obs).Pairwise (· ≤ ·))
include ascending

theorem holds_observed {f : Family V} (family : (observed name obs).families[name]? = some f) : f.Holds obs := by
  have holds : ((observed name obs).getOrCreate name .histogram []).Holds obs := holds_run obs ascending []
  rwa [MetricsRegistry.getOrCreate, family, Option.getD_some] at holds

theorem mem_lines_observed {l : Line V} (member : l ∈ (observed name obs).lines) :
    l = .help name (helpOf (obs.map (Observation.call name)) name) ∨ l = .type name .histogram ∨
      ∃ o ∈ obs, (∃ le ∈ printedBounds obs,
          l = .bucket name (labelKey o.labels) le (upTo (valuesAt obs (labelKey o.labels)) le)) ∨
        (∃ v, l = .sum name (labelKey o.labels) v) ∨ ∃ n, l = .count name (labelKey o.labels) n := by
  obtain ⟨found, f, family, kinds⟩ := mem_lines.mp member
  obtain ⟨help, c, called, here, -⟩ := family_first family
  obtain ⟨o, -, rfl⟩ := List.mem_map.mp called
  obtain rfl : name = found := here
  have holds := holds_observed ascending family
  rw [help, holds.type] at kinds
  rcases kinds with ⟨-, rfl⟩ | rfl | ⟨key, s, sample, inside⟩
  · exact .inl rfl
  · exact .inr (.inl rfl)
  · obtain ⟨c, called, same⟩ := ((registered_run _).sample name f key family).mp (by simp [sample])
    obtain ⟨o, known, rfl⟩ := List.mem_map.mp called
    obtain rfl : labelKey o.labels = key := congrArg Prod.snd same
    rw [holds.sampleLines sample, List.mem_append, List.mem_map, List.mem_pair] at inside
    rcases inside with ⟨le, bound, rfl⟩ | rfl | rfl
    · exact .inr (.inr ⟨o, known, .inl ⟨le, bound, rfl⟩⟩)
    · exact .inr (.inr ⟨o, known, .inr (.inl ⟨_, rfl⟩)⟩)
    · exact .inr (.inr ⟨o, known, .inr (.inr ⟨_, rfl⟩)⟩)

theorem bucket_observed {o : Observation V} (member : o ∈ obs) {le : Option V} (bound : le ∈ printedBounds obs) :
    .bucket name (labelKey o.labels) le (upTo (valuesAt obs (labelKey o.labels)) le) ∈ (observed name obs).lines := by
  have called : o.call name ∈ obs.map (Observation.call name) := List.mem_map_of_mem member
  have listed : (name, labelKey o.labels) ∈ (observed name obs).keys := mem_keys_run.mpr ⟨_, called, rfl⟩
  obtain ⟨f, family, some⟩ := MetricsRegistry.mem_keys.mp listed
  obtain ⟨s, sample⟩ := Option.isSome_iff_exists.mp some
  refine mem_lines.mpr ⟨name, f, family, .inr (.inr ⟨_, s, sample, ?_⟩)⟩
  rw [(holds_observed ascending family).sampleLines sample, List.mem_append, List.mem_map]
  exact .inl ⟨le, bound, rfl⟩

end Lines

/-! ## The text, read back -/

open Exposition (isName metricByte labelByte Named Clean Word)

theorem bucketLabels_braces (labels : Labels) (le : Bytes) :
    bucketLabels (labelKey labels) le = Exposition.braces (sorted labels ++ [(text "le", le)]) := by
  have more : sorted labels ++ [(text "le", le)] ≠ [] := by simp
  have last : Exposition.pair (text "le", le) ++ [125] = text "le=\"" ++ (le ++ text "\"\x7d") := by
    simp only [Exposition.pair, List.append_assoc, List.cons_append]
    rfl
  rw [labelKey_braces, Exposition.braces, Exposition.braces, if_neg more, bucketLabels]
  by_cases none : sorted labels = []
  · rw [if_pos none, if_pos rfl, none, List.nil_append, Exposition.written, last]
    rfl
  · have filled : Exposition.written (sorted labels) ≠ [] := by
      rw [← List.length_pos_iff, Exposition.length_written]
      exact Nat.lt_of_lt_of_le (List.length_pos_iff.mpr none) (Exposition.length_le_weight _)
    rw [if_neg none, if_neg (List.cons_ne_nil _ _), List.dropLast_cons_of_ne_nil filled,
      Exposition.written_concat none, last]
    rfl

/-- The labels of a bucket tell the bound and the labels of the observations. -/
theorem perm_bucket {labels others : Labels} {le bound : Bytes} (free : ∀ l ∈ labels, l.1 ≠ text "le") :
    (sorted labels ++ [(text "le", bound)]).Perm ((text "le", le) :: others) ↔ le = bound ∧ labels.Perm others := by
  have front : (sorted labels ++ [(text "le", bound)]).Perm ((text "le", bound) :: labels) :=
    (List.perm_append_singleton _ _).trans ((sorted_perm labels).cons _)
  constructor
  · intro perm
    have same := front.symm.trans perm
    have inside : (text "le", le) ∈ (text "le", bound) :: labels := same.mem_iff.mpr List.mem_cons_self
    rcases List.mem_cons.mp inside with here | later
    · cases here
      exact ⟨rfl, same.cons_inv⟩
    · exact absurd rfl (free _ later)
  · rintro ⟨rfl, perm⟩
    exact front.trans (perm.cons _)

theorem digits_word (n : ℕ) : Word (fun _ => true) (text (toString n)) :=
  ⟨rfl, (toString_word n).filled, (toString_word n).ascii, (toString_word n).plain⟩

section Reading
variable {V : Type} {obs : List (Observation V)} {name : Bytes} {render : V → Bytes}

/-- A line of the text is read as this bucket of the metric: its labels, its bound and its count. -/
def PrintsBucket [LinearOrder V] [Zero V] [Add V] [OfScientific V] (render : V → Bytes) (name : Bytes)
    (obs : List (Observation V)) (labels : Labels) (le count : Bytes) : Prop :=
  ∃ line ∈ Scanning.lines 10 ((observed name obs).serialize render), ∃ found,
    Exposition.sample (· == count) line = some (name ++ text "_bucket", found) ∧
      found.Perm ((text "le", le) :: labels)

/-- A bound as it is printed. -/
def leText (render : V → Bytes) (le : Option V) : Bytes := (le.map render).getD (text "+Inf")

/-- Numbers are printed as words, and different bounds as different ones. -/
structure Separates (render : V → Bytes) (bounds : List (Option V)) : Prop where
  word : ∀ v, Word (fun _ => true) (render v)
  clean : ∀ v, 34 ∉ render v ∧ 92 ∉ render v
  apart : ∀ le ∈ bounds, ∀ le' ∈ bounds, leText render le = leText render le' → le = le'

/-- Names are valid and none is `le`, values have nothing to escape, and the HELP line is one. -/
structure Legible (name : Bytes) (obs : List (Observation V)) : Prop where
  valid : isName metricByte name = true
  named : ∀ o ∈ obs, Named o.labels
  clean : ∀ o ∈ obs, Clean o.labels
  free : ∀ o ∈ obs, ∀ l ∈ o.labels, l.1 ≠ text "le"
  help : 10 ∉ helpOf (obs.map (Observation.call name)) name

variable (legible : Legible name obs)
include legible

/-- A sample of one of the names that a histogram has. -/
theorem sample_line {suffix value : Bytes} {labels : Labels} (more : ∀ b ∈ suffix, metricByte b = true)
    (named : Named labels) (clean : Clean labels) (word : Word (fun _ => true) value) :
    ∃ line, 10 ∉ line ∧
      name ++ (suffix ++ (Exposition.braces labels ++ (text " " ++ (value ++ text "\n")))) = line ++ [10] ∧
      ∀ count, Exposition.sample (· == count) line =
        if value = count then some (name ++ suffix, labels) else none := by
  have ok : (Exposition.Piece.sample (name ++ suffix) labels value).Ok fun _ => true :=
    ⟨Exposition.isName_append legible.valid more, named, word⟩
  refine ⟨_, Exposition.single_sample ok clean, ?_, ?_⟩
  · simp [text]
    rfl
  · intro count
    rw [Exposition.sample_read ok clean]
    simp

theorem comment_line {keyword rest : Bytes} (first : 10 ∉ keyword) (last : 10 ∉ rest) :
    ∃ line, 10 ∉ line ∧ 35 :: (keyword ++ (name ++ (text " " ++ (rest ++ text "\n")))) = line ++ [10] ∧
      ∀ count, Exposition.sample (· == count) line = none := by
  have middle := Exposition.not_mem_of_isName legible.valid (show metricByte 10 = false by decide)
  refine ⟨35 :: (keyword ++ (name ++ (text " " ++ rest))), ?_, ?_, fun count => rfl⟩
  · simp [first, middle, last]
    decide
  · simp [text]
    rfl

theorem Legible.sorted {o : Observation V} (member : o ∈ obs) :
    Named (Metrics.sorted o.labels) ∧ Clean (Metrics.sorted o.labels) :=
  ⟨named_sorted (legible.named o member),
    fun l inside => legible.clean o member l ((sorted_perm o.labels).mem_iff.mp inside)⟩

variable {bounds : List (Option V)} (separates : Separates render bounds)
include separates

theorem bucket_line {o : Observation V} (member : o ∈ obs) (le : Option V) (n : ℕ) :
    ∃ line, 10 ∉ line ∧ (Line.bucket name (labelKey o.labels) le n).text render = line ++ [10] ∧
      ∀ count, Exposition.sample (· == count) line =
        if text (toString n) = count then
          some (name ++ text "_bucket", sorted o.labels ++ [(text "le", leText render le)])
        else none := by
  have bound : 34 ∉ leText render le ∧ 92 ∉ leText render le ∧ 10 ∉ leText render le := by
    cases le with
    | none => exact show 34 ∉ text "+Inf" ∧ 92 ∉ text "+Inf" ∧ 10 ∉ text "+Inf" by decide
    | some b =>
        exact ⟨(separates.clean b).1, (separates.clean b).2, fun inside => ((separates.word b).plain 10 inside).2.1 rfl⟩
  have own : isName labelByte (text "le") = true := by decide
  obtain ⟨named, clean⟩ := legible.sorted member
  rw [Line.text, bucketLabels_braces]
  exact sample_line legible (by decide +kernel)
    (List.forall_mem_append.mpr ⟨named, List.forall_mem_singleton.mpr own⟩)
    (List.forall_mem_append.mpr ⟨clean, List.forall_mem_singleton.mpr bound⟩) (digits_word n)

variable [LinearOrder V] [Zero V] [Add V] [OfScientific V] (ascending : (boundsOf obs).Pairwise (· ≤ ·))
include ascending

/-- Each line ends, and a reader finds a bucket on it only if it is one. -/
theorem read_line {l : Line V} (member : l ∈ (observed name obs).lines) :
    ∃ line, 10 ∉ line ∧ l.text render = line ++ [10] ∧
      ∀ count found, Exposition.sample (· == count) line = some (name ++ text "_bucket", found) →
        ∃ o ∈ obs, ∃ le ∈ printedBounds obs, found = sorted o.labels ++ [(text "le", leText render le)] ∧
          count = text (toString (upTo (valuesAt obs (labelKey o.labels)) le)) := by
  have plain {suffix value : Bytes} {o : Observation V} (inside : o ∈ obs) (more : ∀ b ∈ suffix, metricByte b = true)
      (other : suffix ≠ text "_bucket") (word : Word (fun _ => true) value) :
      ∃ line, 10 ∉ line ∧
        name ++ (suffix ++ (labelKey o.labels ++ (text " " ++ (value ++ text "\n")))) = line ++ [10] ∧
        ∀ count found, Exposition.sample (· == count) line ≠ some (name ++ text "_bucket", found) := by
    obtain ⟨named, clean⟩ := legible.sorted inside
    obtain ⟨line, single, shape, read⟩ := sample_line legible more named clean word
    rw [← labelKey_braces] at shape
    refine ⟨line, single, shape, ?_⟩
    intro count found same
    rw [read] at same
    simp [other] at same
  rcases mem_lines_observed ascending member with rfl | rfl | ⟨o, inside, ⟨le, bound, rfl⟩ | ⟨v, rfl⟩ | ⟨n, rfl⟩⟩
  · obtain ⟨line, single, shape, read⟩ := comment_line legible (show 10 ∉ text " HELP " by decide) legible.help
    exact ⟨line, single, shape, fun count found same => by simp [read] at same⟩
  · obtain ⟨line, single, shape, read⟩ := comment_line legible (show 10 ∉ text " TYPE " by decide)
      (show 10 ∉ MetricType.histogram.name by decide)
    exact ⟨line, single, shape, fun count found same => by simp [read] at same⟩
  · obtain ⟨line, single, shape, read⟩ := bucket_line legible separates inside le _
    refine ⟨line, single, shape, ?_⟩
    intro count found same
    rw [read, Option.ite_none_right_eq_some] at same
    obtain ⟨rfl, same⟩ := same
    cases same
    exact ⟨o, inside, le, bound, rfl, rfl⟩
  · obtain ⟨line, single, shape, read⟩ := plain inside (show ∀ b ∈ text "_sum", _ by decide +kernel) (by decide)
      (separates.word v)
    exact ⟨line, single, shape, fun count found same => absurd same (read count found)⟩
  · obtain ⟨line, single, shape, read⟩ := plain inside (show ∀ b ∈ text "_count", _ by decide +kernel) (by decide)
      (digits_word n)
    exact ⟨line, single, shape, fun count found same => absurd same (read count found)⟩

/-- A reader finds the buckets of the observed label sets. -/
theorem printsBucket_iff {labels : Labels} {le count : Bytes} :
    PrintsBucket render name obs labels le count ↔
      ∃ o ∈ obs, o.labels.Perm labels ∧ ∃ bound ∈ printedBounds obs, le = leText render bound ∧
        count = text (toString (upTo (valuesWith obs o.labels) bound)) := by
  have values {o : Observation V} (member : o ∈ obs) :
      valuesAt obs (labelKey o.labels) = valuesWith obs o.labels := by
    apply valuesAt_eq
    intro p inside
    exact perm_of_labelKey (legible.named p inside) (legible.clean p inside) (legible.named o member)
      (legible.clean o member)
  have ended : ∀ l ∈ (observed name obs).lines, ∃ line, 10 ∉ line ∧ l.text render = line ++ [10] := by
    intro l member
    obtain ⟨line, single, shape, -⟩ := read_line legible separates ascending member
    exact ⟨line, single, shape⟩
  constructor
  · rintro ⟨line, inside, found, read, perm⟩
    obtain ⟨l, member, -, shape⟩ := (Scanning.mem_lines_flatMap ended).mp inside
    obtain ⟨line', -, shape', reads⟩ := read_line legible separates ascending member
    obtain rfl : line = line' := List.append_cancel_right (shape.symm.trans shape')
    obtain ⟨o, member, bound, listed, rfl, rfl⟩ := reads count found read
    obtain ⟨rfl, same⟩ := (perm_bucket (legible.free o member)).mp perm
    exact ⟨o, member, same, bound, listed, rfl, by rw [values member]⟩
  · rintro ⟨o, member, perm, bound, listed, rfl, rfl⟩
    obtain ⟨line, single, shape, read⟩ := bucket_line legible separates member bound
      (upTo (valuesAt obs (labelKey o.labels)) bound)
    refine ⟨line, (Scanning.mem_lines_flatMap ended).mpr ⟨_, bucket_observed ascending member listed, single, shape⟩, _,
      ?_, (perm_bucket (legible.free o member)).mpr ⟨rfl, perm⟩⟩
    rw [read, if_pos (by rw [values member])]

omit legible separates ascending

/-- For each observed label set a reader finds under each bound the number of its values up to there, and under
`+Inf` their number. The counts do not decrease, and no other label set has any. -/
structure ExactBuckets (render : V → Bytes) (name : Bytes) (obs : List (Observation V)) : Prop where
  count : ∀ o ∈ obs, ∀ le ∈ printedBounds obs, ∀ c,
    PrintsBucket render name obs o.labels (leText render le) c ↔
      c = text (toString (upTo (valuesWith obs o.labels) le))
  ascending : ∀ o ∈ obs, (printedBounds obs).Pairwise fun le le' => ∀ m n : ℕ,
    PrintsBucket render name obs o.labels (leText render le) (text (toString m)) →
      PrintsBucket render name obs o.labels (leText render le') (text (toString n)) → m ≤ n
  others : ∀ labels le c, PrintsBucket render name obs labels le c →
    ∃ o ∈ obs, o.labels.Perm labels

/-- The buckets are exact if the labels have nothing to escape and the bounds are printed apart. -/
theorem Legible.exactBuckets (legible : Legible name obs) (ascending : (boundsOf obs).Pairwise (· ≤ ·))
    (separates : Separates render (printedBounds obs)) : ExactBuckets render name obs := by
  have same {m n : ℕ} (digits : text (toString m) = text (toString n)) : m = n := by
    rw [← ofDigits_toString m, digits, ofDigits_toString]
  have count : ∀ o ∈ obs, ∀ le ∈ printedBounds obs, ∀ c,
      PrintsBucket render name obs o.labels (leText render le) c ↔
        c = text (toString (upTo (valuesWith obs o.labels) le)) := by
    intro o member le inside c
    rw [printsBucket_iff legible separates ascending]
    constructor
    · rintro ⟨p, -, perm, bound, listed, printed, rfl⟩
      rw [separates.apart le inside bound listed printed, valuesWith_perm perm]
    · rintro rfl
      exact ⟨o, member, .refl _, le, inside, rfl, rfl⟩
  refine ⟨count, ?_, ?_⟩
  · intro o member
    refine List.Pairwise.imp_of_mem ?_ (upTo_ascending ascending (valuesWith obs o.labels))
    intro le le' inside inside' less m n first second
    rwa [same ((count o member le inside _).mp first), same ((count o member le' inside' _).mp second)]
  · intro labels le c printed
    obtain ⟨o, member, perm, -⟩ := (printsBucket_iff legible separates ascending).mp printed
    exact ⟨o, member, perm⟩

/-- Two label sets in any order, with values on, below and above the bounds. -/
theorem exactBuckets_apart :
    let obs : List (Observation ℚ) :=
      [⟨text "latency", 0.5, [(text "method", text "GET"), (text "code", text "200")], [1.0, 10.0]⟩,
        ⟨text "latency", 5.0, [(text "code", text "200"), (text "method", text "GET")], []⟩,
        ⟨text "latency", 50.0, [(text "method", text "PUT")], [2.0]⟩,
        ⟨text "latency", 10.0, [(text "method", text "GET"), (text "code", text "200")], [1.0, 10.0]⟩]
    ExactBuckets wholeText (text "lat") obs ∧
      valuesWith obs [(text "method", text "GET"), (text "code", text "200")] = [0.5, 5.0, 10.0] := by
  intro obs
  have mark {b : UInt8} (other : isDigit b = false) (v : ℚ) : b ∉ wholeText v := by
    intro inside
    simp [isDigit_of_mem_toString _ b inside] at other
  have labels : ∀ o ∈ obs, ∀ l ∈ o.labels, isName labelByte l.1 = true ∧
      (34 ∉ l.2 ∧ 92 ∉ l.2 ∧ 10 ∉ l.2) ∧ l.1 ≠ text "le" := by decide +kernel
  have legible : Legible (text "lat") obs := by
    refine ⟨by decide, ?_, ?_, ?_, by decide +kernel⟩
    · exact fun o member l inside => (labels o member l inside).1
    · exact fun o member l inside => (labels o member l inside).2.1
    · exact fun o member l inside => (labels o member l inside).2.2
  refine ⟨legible.exactBuckets (by decide +kernel) ?_, by decide +kernel⟩
  constructor
  · exact fun v => digits_word v.floor.toNat
  · exact fun v => ⟨mark (by decide) v, mark (by decide) v⟩
  · decide +kernel

/-- A quotation mark in a value ends it in the text: one label set looks like another, and a reader finds the
observations of both. -/
theorem shared_sample :
    let merged : Observation ℚ := ⟨text "latency", 0.5, [(text "a", text "x\",b=\"y")], [1.0]⟩
    let other : Observation ℚ := ⟨text "latency", 0.5, [(text "a", text "x"), (text "b", text "y")], [1.0]⟩
    ¬ExactBuckets wholeText (text "lat") [merged, other] := by
  intro merged other exact
  have printed : PrintsBucket wholeText (text "lat") [merged, other] other.labels (leText wholeText (some 1.0))
      (text "2") := by
    refine ⟨text "lat_bucket\x7ba=\"x\",b=\"y\",le=\"1\"\x7d 2", ?_,
      [(text "a", text "x"), (text "b", text "y"), (text "le", text "1")], ?_, ?_⟩
    · decide +kernel
    · decide +kernel
    · decide +kernel
  have count := (exact.count other (List.mem_cons_of_mem _ List.mem_cons_self) (some 1.0) (by decide +kernel) _).mp
    printed
  revert count
  decide +kernel

end Reading
end Dos.Metrics
