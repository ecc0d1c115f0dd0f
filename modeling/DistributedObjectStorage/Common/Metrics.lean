import Mathlib.Data.List.Induction
import Mathlib.Data.List.Sort
import DistributedObjectStorage.Common.OrderedMap

/-!
# The metrics registry

Families by name, samples by the text of their labels. `V` stands for `double`,
`render` for `operator<<` on one. Two calls meet in a sample if their names agree
and their labels have the same text.
-/
namespace Dos.Metrics
open Std

abbrev Labels := List (Bytes × Bytes)

/-- `operator<` on pairs of strings. -/
def compareLabels : Bytes × Bytes → Bytes × Bytes → Ordering := compareLex (compareOn (·.1)) (compareOn (·.2))

def sorted (labels : Labels) : Labels := labels.insertionSort fun a b => (compareLabels a b).isLE

def label (l : Bytes × Bytes) : Bytes := l.1 ++ (text "=\"" ++ (l.2 ++ text "\""))

/-- The loop of `LabelKey`: a comma in front of every label but the first. -/
def joined : Labels → Bytes
  | [] => []
  | [l] => label l
  | l :: labels => label l ++ (text "," ++ joined labels)

def labelKey (labels : Labels) : Bytes :=
  if labels = [] then [] else text "\x7b" ++ (joined (sorted labels) ++ text "\x7d")

inductive MetricType where
  | counter | gauge | histogram
  deriving DecidableEq, Repr

def MetricType.name : MetricType → Bytes
  | .counter => text "counter"
  | .gauge => text "gauge"
  | .histogram => text "histogram"

section Registry
variable (V : Type)

structure Sample [Zero V] where
  value : V := 0
  bucketCounts : List ℕ := []
  sum : V := 0
  count : ℕ := 0

structure Family [Zero V] where
  type : MetricType
  help : Bytes
  buckets : List V := []
  samples : OrderedMap Bytes (Sample V) := ∅

structure MetricsRegistry [Zero V] where
  families : OrderedMap Bytes (Family V) := ∅

end Registry

variable {V : Type} [Zero V]

namespace MetricsRegistry

def getOrCreate (r : MetricsRegistry V) (name : Bytes) (type : MetricType) (help : Bytes) : Family V :=
  (r.families[name]?).getD { type, help }

/-- What the three calls share: the family and the sample are created if they are
not there, and the bounds and the sample are written back. -/
def update (r : MetricsRegistry V) (name : Bytes) (type : MetricType) (help : Bytes) (labels : Labels)
    (bounds : List V → List V) (change : List V → Sample V → Sample V) : MetricsRegistry V :=
  let f := r.getOrCreate name type help
  let buckets := bounds f.buckets
  let key := labelKey labels
  let s := (f.samples[key]?).getD {}
  { families := r.families.insert name
      { f with buckets, samples := f.samples.insert key (change buckets s) } }

def incCounter [Add V] (r : MetricsRegistry V) (name help : Bytes) (amount : V) (labels : Labels) :
    MetricsRegistry V :=
  r.update name .counter help labels id fun _ s => { s with value := s.value + amount }

def setGauge (r : MetricsRegistry V) (name help : Bytes) (value : V) (labels : Labels) : MetricsRegistry V :=
  r.update name .gauge help labels id fun _ s => { s with value }

end MetricsRegistry

/-! ## Histograms -/

section Histogram

def defaultBuckets [OfScientific V] : List V := [0.0005, 0.001, 0.005, 0.01, 0.05, 0.1, 0.5, 1.0, 5.0]

/-- `++s.bucket_counts.back()` -/
def incLast : List ℕ → List ℕ
  | [] => []
  | [c] => [c + 1]
  | c :: counts => c :: incLast counts

/-- The loop that looks for the first bound the value does not exceed. -/
def place [LE V] [DecidableLE V] (value : V) : List V → List ℕ → List ℕ
  | [], counts => incLast counts
  | _ :: _, [] => []
  | b :: buckets, c :: counts => if value ≤ b then (c + 1) :: counts else c :: place value buckets counts

def observe [Add V] [LE V] [DecidableLE V] (value : V) (buckets : List V) (s : Sample V) : Sample V :=
  let counts := if s.bucketCounts = [] then List.replicate (buckets.length + 1) 0 else s.bucketCounts
  { s with bucketCounts := place value buckets counts, sum := s.sum + value, count := s.count + 1 }

/-- The bounds in force after a call: the first caller's, or the default ones. -/
def chooseBuckets [OfScientific V] (offered current : List V) : List V :=
  if current.isEmpty then (if offered.isEmpty then defaultBuckets else offered) else current

def MetricsRegistry.observeHistogram [Add V] [LE V] [DecidableLE V] [OfScientific V] (r : MetricsRegistry V)
    (name help : Bytes) (value : V) (labels : Labels) (buckets : List V) : MetricsRegistry V :=
  r.update name .histogram help labels (chooseBuckets buckets) (observe value)

/-- The loop of `Serialize` over the bounds. -/
def cumulate (cumulative : ℕ) : List V → List ℕ → List (V × ℕ)
  | b :: buckets, c :: counts => (b, cumulative + c) :: cumulate (cumulative + c) buckets counts
  | _, _ => []

end Histogram

/-! ## The text -/

/-- One line that `Serialize` prints. The bound of a bucket is absent for `+Inf`. -/
inductive Line (V : Type) where
  | help (name help : Bytes)
  | type (name : Bytes) (type : MetricType)
  | bucket (name labelkey : Bytes) (le : Option V) (count : ℕ)
  | sum (name labelkey : Bytes) (sum : V)
  | count (name labelkey : Bytes) (count : ℕ)
  | value (name labelkey : Bytes) (value : V)

/-- The labels of a bucket: `le` goes in front of the closing brace. -/
def bucketLabels (labelkey le : Bytes) : Bytes :=
  if labelkey = [] then text "\x7ble=\"" ++ (le ++ text "\"\x7d")
  else labelkey.dropLast ++ (text ",le=\"" ++ (le ++ text "\"\x7d"))

def Line.text (render : V → Bytes) : Line V → Bytes
  | .help name doc => Dos.text "# HELP " ++ (name ++ (Dos.text " " ++ (doc ++ Dos.text "\n")))
  | .type name kind => Dos.text "# TYPE " ++ (name ++ (Dos.text " " ++ (kind.name ++ Dos.text "\n")))
  | .bucket name labelkey le n =>
      name ++ (Dos.text "_bucket" ++ (bucketLabels labelkey ((le.map render).getD (Dos.text "+Inf")) ++
        (Dos.text " " ++ (Dos.text (toString n) ++ Dos.text "\n"))))
  | .sum name labelkey v =>
      name ++ (Dos.text "_sum" ++ (labelkey ++ (Dos.text " " ++ (render v ++ Dos.text "\n"))))
  | .count name labelkey n =>
      name ++ (Dos.text "_count" ++ (labelkey ++ (Dos.text " " ++ (Dos.text (toString n) ++ Dos.text "\n"))))
  | .value name labelkey v => name ++ (labelkey ++ (Dos.text " " ++ (render v ++ Dos.text "\n")))

/-- The lines of one sample. -/
def Family.sampleLines (f : Family V) (name labelkey : Bytes) (s : Sample V) : List (Line V) :=
  if f.type = .histogram then
    (cumulate 0 f.buckets s.bucketCounts).map (fun (b, count) => .bucket name labelkey (some b) count) ++
      [.bucket name labelkey none s.count, .sum name labelkey s.sum, .count name labelkey s.count]
  else [.value name labelkey s.value]

def Family.lines (f : Family V) (name : Bytes) : List (Line V) :=
  (if f.help = [] then [] else [.help name f.help]) ++
    (.type name f.type :: f.samples.toList.flatMap fun (labelkey, s) => f.sampleLines name labelkey s)

namespace MetricsRegistry

def lines (r : MetricsRegistry V) : List (Line V) := r.families.toList.flatMap fun (name, f) => f.lines name

def serialize (render : V → Bytes) (r : MetricsRegistry V) : Bytes := r.lines.flatMap (Line.text render)

end MetricsRegistry

/-! ## Calls -/

inductive Call (V : Type) where
  | incCounter (name help : Bytes) (amount : V) (labels : Labels)
  | setGauge (name help : Bytes) (value : V) (labels : Labels)
  | observeHistogram (name help : Bytes) (value : V) (labels : Labels) (buckets : List V)

namespace Call

def name : Call V → Bytes
  | incCounter name _ _ _ | setGauge name _ _ _ | observeHistogram name _ _ _ _ => name

def help : Call V → Bytes
  | incCounter _ help _ _ | setGauge _ help _ _ | observeHistogram _ help _ _ _ => help

def labels : Call V → Labels
  | incCounter _ _ _ labels | setGauge _ _ _ labels | observeHistogram _ _ _ labels _ => labels

def type : Call V → MetricType
  | incCounter .. => .counter
  | setGauge .. => .gauge
  | observeHistogram .. => .histogram

/-- The sample a call writes, by the keys of the two maps. -/
def sample (c : Call V) : Bytes × Bytes := (c.name, labelKey c.labels)

end Call

section Calls
variable [Add V] [LE V] [DecidableLE V] [OfScientific V]

def MetricsRegistry.perform (r : MetricsRegistry V) : Call V → MetricsRegistry V
  | .incCounter name help amount labels => r.incCounter name help amount labels
  | .setGauge name help value labels => r.setGauge name help value labels
  | .observeHistogram name help value labels buckets => r.observeHistogram name help value labels buckets

def run (calls : List (Call V)) : MetricsRegistry V := calls.foldl MetricsRegistry.perform {}

/-- A call leaves its family with the type and the text that it had, and with the
call's sample. Nothing else changes. -/
theorem perform_family (r : MetricsRegistry V) (c : Call V) :
    ∃ f : Family V, (r.perform c).families = r.families.insert c.name f ∧
      f.type = (r.getOrCreate c.name c.type c.help).type ∧
      f.help = (r.getOrCreate c.name c.type c.help).help ∧
      ∃ s, f.samples = (r.getOrCreate c.name c.type c.help).samples.insert (labelKey c.labels) s := by
  cases c with
  | incCounter name help amount labels => exact ⟨_, rfl, rfl, rfl, _, rfl⟩
  | setGauge name help value labels => exact ⟨_, rfl, rfl, rfl, _, rfl⟩
  | observeHistogram name help value labels buckets => exact ⟨_, rfl, rfl, rfl, _, rfl⟩

theorem run_snoc (calls : List (Call V)) (c : Call V) : run (calls ++ [c]) = (run calls).perform c := by
  rw [run, List.foldl_append]
  rfl

/-- The first call on a name sets type and text, and the samples are those that were written. -/
structure Registered (calls : List (Call V)) (r : MetricsRegistry V) : Prop where
  family : ∀ name, (r.families[name]?).map (fun f => (f.type, f.help)) =
    (calls.find? fun c => c.name = name).map fun c => (c.type, c.help)
  sample : ∀ name f key, r.families[name]? = some f →
    ((f.samples[key]?).isSome ↔ ∃ c ∈ calls, c.sample = (name, key))

theorem Registered.perform {calls : List (Call V)} {r : MetricsRegistry V} (reg : Registered calls r)
    (c : Call V) : Registered (calls ++ [c]) (r.perform c) := by
  obtain ⟨f, families, type, help, s, samples⟩ := perform_family r c
  constructor
  · intro name
    have before := reg.family name
    rw [families, OrderedMap.lookup_insert, List.find?_append]
    by_cases same : c.name = name
    · subst same
      rw [if_pos rfl, Option.map_some, type, help, MetricsRegistry.getOrCreate]
      cases found : r.families[c.name]? with
      | none =>
          rw [found] at before
          have first : calls.find? (fun d => d.name = c.name) = none := by simpa using before.symm
          simp [first]
      | some g =>
          rw [found] at before
          cases first : calls.find? (fun d => d.name = c.name) with
          | none => simp [first] at before
          | some d => simpa [first] using before
    · simpa [same] using before
  · intro name g key found
    rw [families, OrderedMap.lookup_insert] at found
    by_cases same : c.name = name
    · subst same
      rw [if_pos rfl, Option.some.injEq] at found
      subst found
      have before : ((r.getOrCreate c.name c.type c.help).samples[key]?).isSome ↔
          ∃ d ∈ calls, d.sample = (c.name, key) := by
        rw [MetricsRegistry.getOrCreate]
        cases known : r.families[c.name]? with
        | none =>
            have first : calls.find? (fun d => d.name = c.name) = none := by
              simpa [known] using (reg.family c.name).symm
            have fresh : ∀ d ∈ calls, d.sample ≠ (c.name, key) := by
              intro d member equal
              have other := List.find?_eq_none.mp first d member
              simp [Call.sample] at equal
              simp [equal.1] at other
            simpa using fresh
        | some g => exact reg.sample c.name g key known
      rw [samples, OrderedMap.lookup_insert]
      by_cases here : labelKey c.labels = key
      · simp [here, Call.sample]
      · rw [if_neg here, before]
        simp [Call.sample, here]
    · rw [if_neg same] at found
      rw [reg.sample name g key found]
      simp [Call.sample, same]

theorem registered_run (calls : List (Call V)) : Registered calls (run calls) := by
  induction calls using List.reverseRecOn with
  | nil =>
      constructor
      · intro name
        simp [run]
      · intro name f key found
        simp [run] at found
  | append_singleton calls c ih =>
      rw [run_snoc]
      exact ih.perform c

end Calls

/-! ## Label sets -/

instance trans_compareLabels : TransCmp compareLabels := by
  unfold compareLabels
  infer_instance

instance lawful_compareLabels : LawfulEqCmp compareLabels where
  eq_of_compare {a b} same := by
    have parts : compare a.1 b.1 = .eq ∧ compare a.2 b.2 = .eq := by
      simpa [compareLabels, compareLex, compareOn, Ordering.then_eq_eq] using same
    exact Prod.ext (LawfulEqOrd.eq_of_compare parts.1) (LawfulEqOrd.eq_of_compare parts.2)

instance total_compareLabels : Std.Total fun a b => (compareLabels a b).isLE = true where
  total a b := by
    have swap : compareLabels b a = (compareLabels a b).swap := OrientedCmp.eq_swap
    rw [swap]
    cases compareLabels a b <;> simp

instance isTrans_compareLabels : IsTrans (Bytes × Bytes) fun a b => (compareLabels a b).isLE = true where
  trans _ _ _ first second := TransCmp.isLE_trans first second

theorem sorted_perm (labels : Labels) : (sorted labels).Perm labels := List.perm_insertionSort _ labels

/-- Sorting forgets the order and nothing else. -/
theorem sorted_eq_iff {labels others : Labels} : sorted labels = sorted others ↔ labels.Perm others := by
  constructor
  · intro same
    exact (sorted_perm labels).symm.trans (same ▸ sorted_perm others)
  · intro perm
    refine List.Perm.eq_of_pairwise ?_ (List.pairwise_insertionSort _ labels)
      (List.pairwise_insertionSort _ others) ((sorted_perm labels).trans (perm.trans (sorted_perm others).symm))
    intro a b _ _ less more
    exact LawfulEqCmp.eq_of_compare (OrientedCmp.isLE_antisymm less more)

theorem labelKey_perm {labels others : Labels} (perm : labels.Perm others) : labelKey labels = labelKey others := by
  have empty : labels = [] ↔ others = [] := by
    rw [← List.length_eq_zero_iff, ← List.length_eq_zero_iff, perm.length_eq]
  simp only [labelKey, empty, sorted_eq_iff.mpr perm]

end Dos.Metrics
