import Mathlib.Algebra.Order.Ring.Rat
import Mathlib.Data.List.Basic
import Mathlib.Data.List.Dedup
import Mathlib.Data.List.Nodup
import Mathlib.Data.Rat.Cast.OfScientific
import DistributedObjectStorage.Common.Decimal
import DistributedObjectStorage.Common.Metrics
import DistributedObjectStorage.Library.ExpositionDocuments

/-!
# The text of the registry, read back

`LabelKey` prints values as they are, and the registry keeps its samples under
that text. Samples stay apart and are read back exactly if no value needs an
escape.
-/
namespace Dos.Metrics
open Std
open Exposition (Piece isName metricByte labelByte Named Clean Word)

/-! ## Labels -/

theorem sorted_nil_iff {labels : Labels} : sorted labels = [] ↔ labels = [] := by
  rw [← List.length_eq_zero_iff, (sorted_perm labels).length_eq, List.length_eq_zero_iff]

theorem sorted_sorted (labels : Labels) : sorted (sorted labels) = sorted labels :=
  sorted_eq_iff.mpr (sorted_perm labels)

theorem joined_written {labels : Labels} (filled : labels ≠ []) :
    joined labels ++ text "\x7d" = Exposition.written labels := by
  have one (l : Bytes × Bytes) : label l = Exposition.pair l := rfl
  fun_induction joined labels with
  | case1 => exact absurd rfl filled
  | case2 l => rfl
  | case3 l labels some ih =>
      cases labels with
      | nil => exact absurd rfl some
      | cons k labels =>
          rw [List.append_assoc, List.append_assoc, ih (List.cons_ne_nil k labels), one, Exposition.written_cons]
          rfl

/-- `LabelKey` writes the sorted labels without escapes. -/
theorem labelKey_braces (labels : Labels) : labelKey labels = Exposition.braces (sorted labels) := by
  unfold labelKey Exposition.braces
  by_cases none : labels = []
  · rw [if_pos none, if_pos (sorted_nil_iff.mpr none)]
  · rw [if_neg none, if_neg (mt sorted_nil_iff.mp none), joined_written (mt sorted_nil_iff.mp none)]
    rfl

theorem named_sorted {labels : Labels} (named : Named labels) : Named (sorted labels) :=
  fun l member => named l ((sorted_perm labels).mem_iff.mp member)

/-- Clean label sets with the same text are the same. -/
theorem perm_of_labelKey {labels others : Labels} (named : Named labels) (clean : Clean labels)
    (named' : Named others) (clean' : Clean others) (same : labelKey labels = labelKey others) :
    labels.Perm others := by
  have sort {l : Labels} (clean : Clean l) : Clean (sorted l) :=
    fun k member => clean k ((sorted_perm l).mem_iff.mp member)
  rw [labelKey_braces, labelKey_braces] at same
  exact sorted_eq_iff.mp (Exposition.braces_injective (named_sorted named) (sort clean) (named_sorted named')
    (sort clean') same)

/-! ## Comments -/

section Comments
variable {V : Type} {number : Bytes → Bool} {render : V → Bytes} {name : Bytes}

theorem type_readable (named : isName metricByte name = true) (kind : MetricType) :
    Exposition.parse number ((Line.type name kind).text render) = some [] := by
  have word : kind.name ∈ Exposition.types ∧ (10 : UInt8) ∉ kind.name := by
    cases kind with
    | counter => decide
    | gauge => decide
    | histogram => decide
  have shape : (Line.type name kind).text render =
      (35 :: 32 :: ("TYPE".toByteArray.data.toList ++ 32 :: (name ++ 32 :: kind.name))) ++ [10] := by
    simp [Line.text, text]
    rfl
  rw [shape]
  exact Exposition.parse_comment named (by decide) word.2 (Exposition.comment_type named word.1)

theorem valid_type (named : isName metricByte name = true) (kind : MetricType) :
    Utf8.Valid ((Line.type name kind).text render) := by
  have last : ∀ b ∈ kind.name, b.toNat < 128 := by
    cases kind with
    | counter => decide +kernel
    | gauge => decide +kernel
    | histogram => decide +kernel
  rw [Line.text, Utf8.valid_ascii_append (by decide +kernel),
    Utf8.valid_ascii_append (Exposition.ascii_of_metricName named), Utf8.valid_ascii_append (by decide +kernel),
    Utf8.valid_ascii_append last, ← List.append_nil (text "\n"), Utf8.valid_ascii_append (by decide +kernel)]
  exact Utf8.valid_nil

/-- A text without line feeds and backslashes makes a HELP line. -/
theorem help_readable (named : isName metricByte name = true) {help : Bytes}
    (line : 10 ∉ help) (slash : 92 ∉ help) (valid : Utf8.Valid help) :
    Utf8.Valid ((Line.help name help).text render) ∧
      Exposition.parse number ((Line.help name help).text render) = some [] := by
  constructor
  · rw [Line.text, Utf8.valid_ascii_append (by decide +kernel),
      Utf8.valid_ascii_append (Exposition.ascii_of_metricName named), Utf8.valid_ascii_append (by decide +kernel)]
    exact (Utf8.valid_split (by decide)).mpr ⟨valid, Utf8.valid_nil⟩
  · have shape : (Line.help name help).text render =
        (35 :: 32 :: ("HELP".toByteArray.data.toList ++ 32 :: (name ++ 32 :: help))) ++ [10] := by
      simp [Line.text, text]
      rfl
    rw [shape]
    exact Exposition.parse_comment named (by decide) line (Exposition.comment_help named slash)

end Comments

/-! ## What is registered -/

section Registered
variable {V : Type} [Zero V]

/-- The samples by name and text of the labels, in the order they are printed. -/
def MetricsRegistry.keys (r : MetricsRegistry V) : List (Bytes × Bytes) :=
  r.families.toList.flatMap fun (name, f) => f.samples.toList.map fun (key, _) => (name, key)

theorem MetricsRegistry.mem_keys {r : MetricsRegistry V} {name key : Bytes} :
    (name, key) ∈ r.keys ↔ ∃ f, r.families[name]? = some f ∧ (f.samples[key]?).isSome := by
  simp only [keys, List.mem_flatMap, List.mem_map, Prod.exists, Prod.mk.injEq,
    ExtTreeMap.mem_toList_iff_getElem?_eq_some, Option.isSome_iff_exists]
  constructor
  · intro member
    obtain ⟨n, f, family, k, s, sample, rfl, rfl⟩ := member
    exact ⟨f, family, s, sample⟩
  · intro member
    obtain ⟨f, family, s, sample⟩ := member
    exact ⟨name, f, family, key, s, sample, rfl, rfl⟩

theorem MetricsRegistry.nodup_keys (r : MetricsRegistry V) : r.keys.Nodup := by
  rw [keys, List.nodup_flatMap]
  constructor
  · intro p _
    refine List.pairwise_map.mpr (p.2.samples.distinct_toList.imp ?_)
    intro a b other same
    exact other (Prod.mk.inj same).2
  · refine r.families.distinct_toList.imp ?_
    intro p q other x first second
    obtain ⟨a, -, rfl⟩ := List.mem_map.mp first
    obtain ⟨b, -, same⟩ := List.mem_map.mp second
    exact other (Prod.mk.inj same).1.symm

variable [Add V] [LE V] [DecidableLE V] [OfScientific V] {calls : List (Call V)}

theorem mem_keys_run {x : Bytes × Bytes} : x ∈ (run calls).keys ↔ ∃ c ∈ calls, c.sample = x := by
  obtain ⟨name, key⟩ := x
  have reg := registered_run calls
  rw [MetricsRegistry.mem_keys]
  constructor
  · intro registered
    obtain ⟨f, family, sample⟩ := registered
    exact (reg.sample name f key family).mp sample
  · intro called
    obtain ⟨c, member, same⟩ := called
    have family := reg.family name
    cases found : (run calls).families[name]? with
    | none =>
        rw [found, Option.map_none, eq_comm, Option.map_eq_none_iff, List.find?_eq_none] at family
        have other := family c member
        simp [Call.sample] at same
        simp [same.1] at other
    | some f => exact ⟨f, rfl, (reg.sample name f key found).mpr ⟨c, member, same⟩⟩

end Registered

/-! ## Samples and their lines -/

section Reading
variable {V : Type}

/-- `IncCounter` and `SetGauge` calls. -/
def Call.Scalar : Call V → Prop
  | .observeHistogram .. => False
  | _ => True

structure Call.Valid (c : Call V) : Prop where
  name : isName metricByte c.name = true
  labels : Named c.labels

/-- The metric name and the label set of a call. -/
def Call.ident (c : Call V) : Bytes × Labels := (c.name, sorted c.labels)

/-- The text that the first call on a metric has given. -/
def helpOf (calls : List (Call V)) (name : Bytes) : Bytes :=
  ((calls.find? fun c => c.name = name).map Call.help).getD []

/-- No value needs an escape, and a HELP line is one. -/
structure Plain (number : Bytes → Bool) (render : V → Bytes) (calls : List (Call V)) : Prop where
  values : ∀ c ∈ calls, ∀ l ∈ c.labels, Utf8.Valid l.2 ∧ 34 ∉ l.2 ∧ 92 ∉ l.2 ∧ 10 ∉ l.2
  help : ∀ c ∈ calls, helpOf calls c.name ≠ [] →
    Utf8.Valid ((Line.help c.name (helpOf calls c.name)).text render) ∧
      Exposition.parse number ((Line.help c.name (helpOf calls c.name)).text render) = some []

theorem Plain.apart {number : Bytes → Bool} {render : V → Bytes} {calls : List (Call V)}
    (valid : ∀ c ∈ calls, c.Valid) (plain : Plain number render calls) :
    ∀ c ∈ calls, ∀ d ∈ calls, c.sample = d.sample → c.labels.Perm d.labels := by
  have clean {c : Call V} (called : c ∈ calls) : Clean c.labels :=
    fun l member => (plain.values c called l member).2
  intro c called d other same
  exact perm_of_labelKey (valid c called).labels (clean called) (valid d other).labels (clean other)
    (congrArg Prod.snd same)

variable [Zero V] [Add V] [LE V] [DecidableLE V] [OfScientific V]

/-- Calls on a metric meet in a sample exactly if their label sets are equal, and the
text is read as one line for each sample, with its name and its label set. -/
structure Unambiguous (number : Bytes → Bool) (render : V → Bytes) (calls : List (Call V)) : Prop where
  samples : ∀ c ∈ calls, ∀ d ∈ calls, c.name = d.name → (c.sample = d.sample ↔ c.labels.Perm d.labels)
  characters : Utf8.Valid ((run calls).serialize render)
  lines : ∃ found, Exposition.parse number ((run calls).serialize render) = some found ∧
    (found.map fun s => (s.1, sorted s.2)).Perm (calls.map Call.ident).dedup

/-- The values in the registry are printed as numbers. -/
def Prints (number : Bytes → Bool) (render : V → Bytes) (calls : List (Call V)) : Prop :=
  ∀ (name key : Bytes) (f : Family V) (s : Sample V), (run calls).families[name]? = some f →
    f.samples[key]? = some s → Word number (render s.value)

/-! ## The text as a document -/

/-- The label set behind a key, from the first call that wrote the sample. -/
def labelsAt (calls : List (Call V)) (name key : Bytes) : Labels :=
  ((calls.find? fun c => c.sample = (name, key)).map fun c => sorted c.labels).getD []

def familyPieces (render : V → Bytes) (calls : List (Call V)) (name : Bytes) (f : Family V) : List Piece :=
  (if f.help = [] then [] else [.comment ((Line.help name f.help).text render)]) ++
    (.comment ((Line.type name f.type).text render) ::
      f.samples.toList.map fun (key, s) => .sample name (labelsAt calls name key) (render s.value))

def pieces (render : V → Bytes) (calls : List (Call V)) : List Piece :=
  (run calls).families.toList.flatMap fun (name, f) => familyPieces render calls name f

variable {number : Bytes → Bool} {render : V → Bytes} {calls : List (Call V)}

/-- A registered sample comes from a call, whose sorted labels it stands for. -/
theorem labelsAt_spec {name key : Bytes} (registered : (name, key) ∈ (run calls).keys) :
    ∃ c ∈ calls, c.sample = (name, key) ∧ labelsAt calls name key = sorted c.labels := by
  obtain ⟨c, member, same⟩ := mem_keys_run.mp registered
  cases found : calls.find? fun c => c.sample = (name, key) with
  | none => exact absurd same (by simpa using List.find?_eq_none.mp found c member)
  | some d =>
      have here := List.find?_some found
      refine ⟨d, List.mem_of_find?_eq_some found, by simpa using here, ?_⟩
      rw [labelsAt, found]
      rfl

theorem braces_labelsAt {name key : Bytes} (registered : (name, key) ∈ (run calls).keys) :
    Exposition.braces (labelsAt calls name key) = key := by
  obtain ⟨c, -, same, labels⟩ := labelsAt_spec registered
  rw [labels, ← labelKey_braces]
  exact (Prod.mk.inj same).2

/-- A family of the registry, from the call that has created it. -/
theorem family_first {name : Bytes} {f : Family V} (family : (run calls).families[name]? = some f) :
    f.help = helpOf calls name ∧ ∃ c ∈ calls, c.name = name ∧ f.type = c.type := by
  have reg := (registered_run calls).family name
  rw [family, Option.map_some] at reg
  obtain ⟨c, found, same⟩ := Option.map_eq_some_iff.mp reg.symm
  obtain ⟨type, help⟩ := Prod.mk.inj same
  have here := List.find?_some found
  refine ⟨?_, c, List.mem_of_find?_eq_some found, by simpa using here, type.symm⟩
  rw [← help, helpOf, found]
  rfl

theorem family_spec (scalar : ∀ c ∈ calls, c.Scalar) {name : Bytes} {f : Family V}
    (family : (run calls).families[name]? = some f) :
    f.type ≠ .histogram ∧ f.help = helpOf calls name ∧ ∃ c ∈ calls, c.name = name := by
  obtain ⟨help, c, member, here, type⟩ := family_first family
  refine ⟨?_, help, c, member, here⟩
  have kind := scalar c member
  rw [type]
  cases c with
  | incCounter name help amount labels => simp [Call.type]
  | setGauge name help value labels => simp [Call.type]
  | observeHistogram name help value labels buckets => exact absurd kind id

theorem mem_keys_of_family {name key : Bytes} {f : Family V} {s : Sample V}
    (family : (name, f) ∈ (run calls).families.toList) (sample : (key, s) ∈ f.samples.toList) :
    (name, key) ∈ (run calls).keys := by
  rw [ExtTreeMap.mem_toList_iff_getElem?_eq_some] at family sample
  exact MetricsRegistry.mem_keys.mpr ⟨f, family, by simp [sample]⟩

theorem serialize_pieces (scalar : ∀ c ∈ calls, c.Scalar) :
    (run calls).serialize render = (pieces render calls).flatMap Piece.text := by
  unfold MetricsRegistry.serialize MetricsRegistry.lines pieces
  rw [List.flatMap_assoc, List.flatMap_assoc]
  apply List.flatMap_congr
  intro p family
  obtain ⟨name, f⟩ := p
  obtain ⟨type, -⟩ := family_spec scalar (ExtTreeMap.mem_toList_iff_getElem?_eq_some.mp family)
  have samples : (f.samples.toList.flatMap fun (key, s) => f.sampleLines name key s).flatMap (Line.text render) =
      (f.samples.toList.map fun (key, s) =>
        Piece.sample name (labelsAt calls name key) (render s.value)).flatMap Piece.text := by
    rw [List.flatMap_assoc, List.flatMap_map]
    apply List.flatMap_congr
    intro p sample
    obtain ⟨key, s⟩ := p
    have braces := braces_labelsAt (mem_keys_of_family family sample)
    simp only [Family.sampleLines, if_neg type, List.flatMap_singleton, Line.text, Piece.text, braces]
    rfl
  simp only [Family.lines, familyPieces, List.flatMap_append, List.flatMap_cons, samples]
  congr 1
  split
  · rfl
  · simp [Piece.text]

/-- The samples of the document are those of the registry. -/
theorem samples_pieces (render : V → Bytes) (calls : List (Call V)) :
    (pieces render calls).flatMap Piece.samples =
      (run calls).keys.map fun p => (p.1, labelsAt calls p.1 p.2) := by
  unfold pieces MetricsRegistry.keys
  rw [List.flatMap_assoc, List.map_flatMap]
  apply List.flatMap_congr
  intro p _
  have header : (if p.2.help = [] then [] else
      [Piece.comment ((Line.help p.1 p.2.help).text render)]).flatMap Piece.samples = [] := by
    split <;> rfl
  simp only [familyPieces, List.flatMap_append, header, List.flatMap_cons, Piece.samples, List.nil_append,
    List.flatMap_map, List.map_map, Function.comp_def]
  exact List.flatMap_pure_eq_map _ _

/-- What the pieces are. -/
theorem mem_pieces {p : Piece} :
    p ∈ pieces render calls ↔ ∃ name f, (run calls).families[name]? = some f ∧
      ((f.help ≠ [] ∧ p = .comment ((Line.help name f.help).text render)) ∨
        p = .comment ((Line.type name f.type).text render) ∨
        ∃ key s, f.samples[key]? = some s ∧ p = .sample name (labelsAt calls name key) (render s.value)) := by
  have header (name : Bytes) (f : Family V) :
      (p ∈ if f.help = [] then [] else [Piece.comment ((Line.help name f.help).text render)]) ↔
        f.help ≠ [] ∧ p = .comment ((Line.help name f.help).text render) := by
    split
    · next none => simp [none]
    · next some => simp [some]
  simp only [pieces, familyPieces, List.mem_flatMap, Prod.exists, ExtTreeMap.mem_toList_iff_getElem?_eq_some,
    List.mem_append, header, List.mem_cons, List.mem_map, eq_comm]

theorem ok_pieces (prints : Prints number render calls) (valid : ∀ c ∈ calls, c.Valid) :
    ∀ p ∈ pieces render calls, p.Ok number := by
  have feed : (text "\n").getLast? = some 10 := rfl
  intro p member
  obtain ⟨name, f, family, kinds⟩ := mem_pieces.mp member
  rcases kinds with ⟨-, rfl⟩ | rfl | ⟨key, s, sample, rfl⟩
  · exact .inr (by simp [Line.text, List.getLast?_append, feed])
  · exact .inr (by simp [Line.text, List.getLast?_append, feed])
  · have registered : (name, key) ∈ (run calls).keys := MetricsRegistry.mem_keys.mpr ⟨f, family, by simp [sample]⟩
    obtain ⟨c, called, same, labels⟩ := labelsAt_spec registered
    obtain ⟨rfl, -⟩ := Prod.mk.inj same
    refine ⟨(valid c called).name, ?_, prints c.name key f s family sample⟩
    rw [labels]
    exact named_sorted (valid c called).labels

/-- The lines of the document are the label sets of the calls, if calls with the same sample have the same labels. -/
theorem samples_perm (apart : ∀ c ∈ calls, ∀ d ∈ calls, c.sample = d.sample → c.labels.Perm d.labels) :
    (((pieces render calls).flatMap Piece.samples).map fun s => (s.1, sorted s.2)).Perm
      (calls.map Call.ident).dedup := by
  have canonical {p : Bytes × Bytes} (registered : p ∈ (run calls).keys) :
      ∃ c ∈ calls, c.sample = p ∧ (p.1, sorted (labelsAt calls p.1 p.2)) = c.ident := by
    obtain ⟨c, called, same, labels⟩ := labelsAt_spec registered
    refine ⟨c, called, same, ?_⟩
    rw [labels, sorted_sorted, Call.ident, ← congrArg Prod.fst same]
    rfl
  rw [samples_pieces, List.map_map, Function.comp_def]
  apply (List.perm_ext_iff_of_nodup ?_ (List.nodup_dedup _)).mpr
  · intro x
    rw [List.mem_dedup, List.mem_map, List.mem_map]
    constructor
    · intro listed
      obtain ⟨p, registered, rfl⟩ := listed
      obtain ⟨c, called, -, ident⟩ := canonical registered
      exact ⟨c, called, ident.symm⟩
    · intro called
      obtain ⟨c, called, rfl⟩ := called
      have registered : c.sample ∈ (run calls).keys := mem_keys_run.mpr ⟨c, called, rfl⟩
      obtain ⟨d, other, same, ident⟩ := canonical registered
      refine ⟨c.sample, registered, ?_⟩
      have name : d.name = c.name := congrArg Prod.fst same
      rw [ident, Call.ident, Call.ident, sorted_eq_iff.mpr (apart d other c called same), name]
  · refine List.Nodup.map_on ?_ (run calls).nodup_keys
    intro p registered q registered' same
    obtain ⟨c, -, rfl, ident⟩ := canonical registered
    obtain ⟨d, -, rfl, ident'⟩ := canonical registered'
    rw [ident, ident'] at same
    obtain ⟨name, labels⟩ := Prod.mk.inj same
    rw [Call.sample, Call.sample, name, labelKey_braces, labels, ← labelKey_braces]

/-- A call's sample is in the document, under its own labels if samples are apart. -/
theorem sample_piece (apart : ∀ c ∈ calls, ∀ d ∈ calls, c.sample = d.sample → c.labels.Perm d.labels) {c : Call V}
    (called : c ∈ calls) :
    ∃ labels value, labels.Perm c.labels ∧ Piece.sample c.name labels value ∈ pieces render calls := by
  have registered : c.sample ∈ (run calls).keys := mem_keys_run.mpr ⟨c, called, rfl⟩
  obtain ⟨f, family, some⟩ := MetricsRegistry.mem_keys.mp registered
  obtain ⟨s, sample⟩ := Option.isSome_iff_exists.mp some
  obtain ⟨d, other, same, labels⟩ := labelsAt_spec registered
  refine ⟨labelsAt calls c.name (labelKey c.labels), render s.value, ?_, ?_⟩
  · rw [labels]
    exact (sorted_perm d.labels).trans (apart d other c called same)
  · exact mem_pieces.mpr ⟨c.name, f, family, .inr (.inr ⟨labelKey c.labels, s, sample, rfl⟩)⟩

/-- The text that the first call has given is in the document, if there is any. -/
theorem help_piece (scalar : ∀ c ∈ calls, c.Scalar) {c : Call V} (called : c ∈ calls)
    (some : helpOf calls c.name ≠ []) :
    .comment ((Line.help c.name (helpOf calls c.name)).text render) ∈ pieces render calls := by
  have registered : c.sample ∈ (run calls).keys := mem_keys_run.mpr ⟨c, called, rfl⟩
  obtain ⟨f, family, -⟩ := MetricsRegistry.mem_keys.mp registered
  obtain ⟨-, help, -⟩ := family_spec scalar family
  rw [← help] at some ⊢
  exact mem_pieces.mpr ⟨c.name, f, family, .inl ⟨some, rfl⟩⟩

section Criterion
variable (prints : Prints number render calls) (scalar : ∀ c ∈ calls, c.Scalar) (valid : ∀ c ∈ calls, c.Valid)
include prints scalar valid

theorem Unambiguous.plain (clear : Unambiguous number render calls) : Plain number render calls := by
  have ok := ok_pieces prints valid
  have apart : ∀ c ∈ calls, ∀ d ∈ calls, c.sample = d.sample → c.labels.Perm d.labels := by
    intro c called d other same
    exact (clear.samples c called d other (congrArg Prod.fst same)).mp same
  obtain ⟨found, read, perm⟩ := clear.lines
  have characters := clear.characters
  rw [serialize_pieces scalar] at read characters
  have readable := (Exposition.parse_document_iff sorted_perm ok).mp
    ⟨found, read, perm.trans (samples_perm apart).symm⟩
  have valid := (Exposition.valid_pieces fun p member => (ok p member).ended).mp characters
  constructor
  · intro c called l inside
    obtain ⟨labels, value, same, member⟩ := sample_piece apart called
    have here : l ∈ labels := same.mem_iff.mpr inside
    exact ⟨(Exposition.valid_sample (ok _ member)).mp (valid _ member) l here, readable _ member l here⟩
  · intro c called some
    have member : .comment ((Line.help c.name (helpOf calls c.name)).text render) ∈ pieces render calls :=
      help_piece scalar called some
    exact ⟨valid _ member, readable _ member⟩

theorem Plain.piece (plain : Plain number render calls) :
    ∀ p ∈ pieces render calls, p.Readable number ∧ Utf8.Valid p.text := by
  intro p member
  have ok := ok_pieces prints valid p member
  obtain ⟨name, f, family, kinds⟩ := mem_pieces.mp member
  obtain ⟨-, help, c, called, rfl⟩ := family_spec scalar family
  rcases kinds with ⟨some, rfl⟩ | rfl | ⟨key, s, sample, rfl⟩
  · rw [help] at some ⊢
    obtain ⟨characters, read⟩ := plain.help c called some
    exact ⟨read, characters⟩
  · refine ⟨type_readable (valid c called).name f.type, ?_⟩
    change Utf8.Valid ((Line.type c.name f.type).text render)
    exact valid_type (valid c called).name f.type
  · have registered : (c.name, key) ∈ (run calls).keys := MetricsRegistry.mem_keys.mpr ⟨f, family, by simp [sample]⟩
    obtain ⟨d, other, -, labels⟩ := labelsAt_spec registered
    have values : ∀ l ∈ labelsAt calls c.name key, Utf8.Valid l.2 ∧ 34 ∉ l.2 ∧ 92 ∉ l.2 ∧ 10 ∉ l.2 := by
      rw [labels]
      exact fun l inside => plain.values d other l ((sorted_perm d.labels).mem_iff.mp inside)
    exact ⟨fun l inside => (values l inside).2,
      (Exposition.valid_sample ok).mpr fun l inside => (values l inside).1⟩

theorem Plain.unambiguous (plain : Plain number render calls) : Unambiguous number render calls := by
  have ok := ok_pieces prints valid
  have apart := plain.apart valid
  have good := plain.piece prints scalar valid
  constructor
  · intro c called d other name
    refine ⟨apart c called d other, ?_⟩
    intro perm
    rw [Call.sample, Call.sample, name, labelKey_perm perm]
  · rw [serialize_pieces scalar, Exposition.valid_pieces fun p member => (ok p member).ended]
    exact fun p member => (good p member).2
  · obtain ⟨found, read, perm⟩ := (Exposition.parse_document_iff sorted_perm ok).mpr
      fun p member => (good p member).1
    rw [serialize_pieces scalar]
    exact ⟨found, read, perm.trans (samples_perm apart)⟩

end Criterion

/-- Samples stay apart and are read back if and only if nothing needs an escape. -/
theorem unambiguous_iff (prints : Prints number render calls) (scalar : ∀ c ∈ calls, c.Scalar)
    (valid : ∀ c ∈ calls, c.Valid) : Unambiguous number render calls ↔ Plain number render calls :=
  ⟨fun clear => clear.plain prints scalar valid, fun plain => plain.unambiguous prints scalar valid⟩

end Reading

/-! ## Whole numbers -/

/-- Whole numbers as `operator<<` prints them. -/
def wholeText (v : ℚ) : Bytes := text (toString v.floor.toNat)

def wholeNumber (s : Bytes) : Bool := s ≠ [] && s.all isDigit

theorem toString_word (n : ℕ) : Word wholeNumber (text (toString n)) := by
  have digits : ∀ b ∈ text (toString n), 48 ≤ b.toNat ∧ b.toNat ≤ 57 := by
    intro b member
    have digit := isDigit_of_mem_toString _ b member
    simp only [isDigit, Bool.and_eq_true, decide_eq_true_eq, UInt8.le_iff_toNat_le] at digit
    exact digit
  have filled := toString_ne_nil n
  constructor
  · simp only [wholeNumber, Bool.and_eq_true, List.all_eq_true]
    exact ⟨decide_eq_true filled, fun b member => isDigit_of_mem_toString _ b member⟩
  · exact filled
  · intro b member
    have digit := digits b member
    omega
  · intro b member
    have digit := digits b member
    refine ⟨?_, ?_, ?_, ?_⟩
    · cases dull : Exposition.blank b with
      | false => rfl
      | true =>
          simp only [Exposition.blank, Bool.or_eq_true, beq_iff_eq] at dull
          rcases dull with rfl | rfl <;> simp at digit
    all_goals
      rintro rfl
      simp at digit

/-- One metric with two label sets, and calls that give their labels in either order. -/
def requestCalls : List (Call ℚ) :=
  [.incCounter (text "http_total") (text "total requests") 1 [(text "method", text "GET"), (text "code", text "200")],
    .setGauge (text "in_flight") [] 2 [],
    .incCounter (text "http_total") (text "more") 2 [(text "code", text "200"), (text "method", text "GET")],
    .incCounter (text "http_total") [] 1 [(text "method", text "PUT")]]

theorem unambiguous_requests :
    Unambiguous wholeNumber wholeText requestCalls ∧
      (run requestCalls).serialize wholeText =
        text "# HELP http_total total requests\n# TYPE http_total counter\n" ++
          (text "http_total\x7bcode=\"200\",method=\"GET\"\x7d 3\nhttp_total\x7bmethod=\"PUT\"\x7d 1\n" ++
            text "# TYPE in_flight gauge\nin_flight 2\n") := by
  have valid : ∀ c ∈ requestCalls, c.Valid := by
    have names : ∀ c ∈ requestCalls, isName metricByte c.name = true ∧
        ∀ l ∈ c.labels, isName labelByte l.1 = true := by decide +kernel
    exact fun c called => ⟨(names c called).1, (names c called).2⟩
  have scalar : ∀ c ∈ requestCalls, c.Scalar := by simp [requestCalls, Call.Scalar]
  have plain : Plain wholeNumber wholeText requestCalls := by
    have bytes : ∀ c ∈ requestCalls, ∀ l ∈ c.labels,
        (∀ b ∈ l.2, b.toNat < 128) ∧ 34 ∉ l.2 ∧ 92 ∉ l.2 ∧ 10 ∉ l.2 := by decide +kernel
    have texts : ∀ c ∈ requestCalls, (∀ b ∈ helpOf requestCalls c.name, b.toNat < 128) ∧
        10 ∉ helpOf requestCalls c.name ∧ 92 ∉ helpOf requestCalls c.name := by decide +kernel
    constructor
    · intro c called l inside
      obtain ⟨ascii, marks⟩ := bytes c called l inside
      exact ⟨Utf8.valid_of_ascii ascii, marks⟩
    · intro c called _
      obtain ⟨ascii, line, slash⟩ := texts c called
      exact help_readable (valid c called).name line slash (Utf8.valid_of_ascii ascii)
  exact ⟨(unambiguous_iff (fun _ _ _ s _ _ => toString_word s.value.floor.toNat) scalar valid).mpr plain,
    by decide +kernel⟩

/-- A quotation mark in a method breaks the text, and one in a value makes two samples one. -/
theorem ambiguous_quotes :
    ¬Unambiguous wholeNumber wholeText
        [.incCounter (text "dos_http_requests_total") (text "total HTTP requests") 1
          [(text "method", text "G\"T"), (text "code", text "400")]] ∧
      ¬Unambiguous wholeNumber wholeText
        [.incCounter (text "m") [] 1 [(text "a", text "x\",b=\"y")],
          .incCounter (text "m") [] 1 [(text "a", text "x"), (text "b", text "y")]] := by
  constructor
  · intro clear
    obtain ⟨found, read, -⟩ := clear.lines
    have none : Exposition.parse wholeNumber ((run [Call.incCounter (text "dos_http_requests_total")
        (text "total HTTP requests") 1 [(text "method", text "G\"T"), (text "code", text "400")]]).serialize wholeText) =
        none := by decide +kernel
    rw [none] at read
    cases read
  · intro clear
    have merged := (clear.samples _ List.mem_cons_self _ (List.mem_cons_of_mem _ List.mem_cons_self) rfl).mp
      (by decide +kernel)
    exact absurd merged (by decide +kernel)

end Dos.Metrics
