import DistributedObjectStorage.Library.PrefixRange
import DistributedObjectStorage.Storage.MetadataStore

/-!
# Listing the metadata table

A prefix is turned into a range of keys, and the rows of the range are read back
through C strings. The range is the right one unless every byte of the prefix is
255, which includes the empty prefix.
-/
namespace Dos.Storage
open PrefixRange

/-! ## The range of a prefix -/

theorem byte_greatest : Greatest (255 : UInt8) := by
  intro x
  rw [Std.isLE_compare, UInt8.le_iff_toNat_le]
  exact Nat.le_of_lt_succ x.toNat_lt

theorem byte_next {b : UInt8} (room : b ≠ 255) : Next b (b + 1) := by
  intro x
  have small : b.toNat ≠ 255 := fun same => room (UInt8.toNat.inj same)
  have bound := b.toNat_lt
  rw [Std.compare_eq_lt, Std.isLE_compare, UInt8.lt_iff_toNat_lt, UInt8.le_iff_toNat_le, UInt8.toNat_add]
  simp only [UInt8.reduceToNat]
  omega

/-- Every byte is the greatest. -/
def Saturated (pre : Bytes) : Prop := ∀ b ∈ pre, b = 255

instance : DecidablePred Saturated := fun pre => inferInstanceAs (Decidable (∀ b ∈ pre, b = 255))

namespace SqliteMetadataStore

/-- The key is in the range that the statement scans. -/
def Scanned (pre key : Bytes) : Prop :=
  (compare (listBounds pre).1 key).isLE ∧ compare key (listBounds pre).2 = .lt

theorem scanned_iff {pre : Bytes} (room : ¬Saturated pre) (key : Bytes) : Scanned pre key ↔ pre <+: key := by
  have split : pre.rdropWhile (fun b => decide (b = 255)) ++ pre.rtakeWhile (fun b => decide (b = 255)) = pre :=
    List.rdropWhile_append_rtakeWhile
  have tops : ∀ t ∈ pre.rtakeWhile (fun b => decide (b = 255)), Greatest t := by
    intro t member
    have top := List.mem_rtakeWhile_imp member
    rw [of_decide_eq_true top]
    exact byte_greatest
  have some : pre.rdropWhile (fun b => decide (b = 255)) ≠ [] := by
    intro none
    refine room fun b member => ?_
    exact of_decide_eq_true (List.rdropWhile_eq_nil_iff.mp none b member)
  have last := List.rdropWhile_last_not _ pre some
  simp only [Scanned, listBounds, List.getLast?_eq_some_getLast some]
  have ends := List.dropLast_append_getLast some
  generalize (pre.rdropWhile (fun b => decide (b = 255))).getLast some = b at last ends ⊢
  have whole : pre = (pre.rdropWhile fun b => decide (b = 255)).dropLast ++
      b :: pre.rtakeWhile (fun b => decide (b = 255)) := by
    rw [List.append_cons, ends, split]
  have range := between_iff_isPrefix (byte_next (fun top => last (decide_eq_true top))) tops
    (pre.rdropWhile fun b => decide (b = 255)).dropLast key
  rwa [← whole] at range

/-- Without a successor the scan stops below the byte 255. -/
theorem scanned_saturated {pre : Bytes} (full : Saturated pre) (key : Bytes) :
    Scanned pre key ↔ pre = [] ∧ key.head? ≠ some 255 := by
  have none : pre.rdropWhile (fun b => decide (b = 255)) = [] :=
    List.rdropWhile_eq_nil_iff.mpr fun b member => decide_eq_true (full b member)
  have below : compare key [255] = .lt ↔ key.head? ≠ some 255 := by
    cases key with
    | nil => simp
    | cons x key =>
        have top := byte_greatest x
        rw [List.compare_cons_cons, Ordering.then_eq_lt]
        simp only [compare_nil_ne_lt, and_false, or_false, List.head?_cons, ne_eq, Option.some.injEq]
        constructor
        · rintro strict rfl
          simp at strict
        · intro differs
          cases order : compare x 255 with
          | lt => rfl
          | eq => exact absurd (Std.LawfulEqCmp.eq_of_compare order) differs
          | gt => simp [order] at top
  simp only [Scanned, listBounds, none, List.getLast?_nil, below]
  cases pre with
  | nil =>
      have least : (compare [] key).isLE ↔ [] <+: key := greatest_le_iff (List.forall_mem_nil _) key
      simp [least]
  | cons b pre =>
      rw [greatest_le_iff fun t member => full t member ▸ byte_greatest]
      simp only [reduceCtorEq, false_and, iff_false, not_and, not_not]
      rintro ⟨rest, rfl⟩
      simp [full b List.mem_cons_self]

/-! ## The rows of a listing -/

/-- Each row is stored under its own key. -/
def Keyed (s : SqliteMetadataStore) : Prop := 
  ∀ ⦃key : Bytes⦄ ⦃row : ObjectMetadata⦄, s.objects[key]? = some row → row.key = key

theorem Keyed.empty : Keyed ⟨∅⟩ := by
  intro key row stored
  simp at stored

theorem Keyed.put {s : SqliteMetadataStore} (keyed : s.Keyed) (row : ObjectMetadata) : (s.put row).Keyed := by
  intro key held stored
  rw [SqliteMetadataStore.put, OrderedMap.lookup_insert] at stored
  split at stored
  · next same =>
      obtain rfl := Option.some.inj stored
      exact same
  · exact keyed stored

theorem Keyed.delete {s : SqliteMetadataStore} (keyed : s.Keyed) (key : Bytes) : (s.delete key).1.Keyed := by
  intro key' held stored
  unfold SqliteMetadataStore.delete at stored
  split at stored
  · exact keyed stored
  · next row found =>
      split at stored
      · exact keyed stored
      · rw [OrderedMap.lookup_insert] at stored
        split at stored
        · next same =>
            obtain rfl := Option.some.inj stored
            exact (keyed found).trans same
        · exact keyed stored

/-- A row that a listing under the prefix has to show. -/
def Listed (s : SqliteMetadataStore) (pre : Bytes) (row : ObjectMetadata) : Prop :=
  s.objects[row.key]? = some row ∧ row.deleted = false ∧ pre <+: row.key

/-- The stored rows under the prefix, each once and in the order of the keys. -/
structure Exact (s : SqliteMetadataStore) (pre : Bytes) (rows : List ObjectMetadata) : Prop where
  ordered : rows.Pairwise fun a b => compare a.key b.key = .lt
  listed : ∀ row, row ∈ rows ↔ s.Listed pre row

/-- The columns of the row survive being read as C strings. -/
def Readable (row : ObjectMetadata) : Prop :=
  (0 : UInt8) ∉ row.key ∧ (0 : UInt8) ∉ row.checksum ∧ (0 : UInt8) ∉ row.requestId

instance : DecidablePred Readable := fun _ => inferInstanceAs (Decidable (_ ∧ _ ∧ _))

theorem readRow_eq {row : ObjectMetadata} (readable : Readable row) : readRow row = row := by
  obtain ⟨key, checksum, requestId⟩ := readable
  rw [readRow, cString_eq key, cString_eq checksum, cString_eq requestId]

theorem zero_not_mem_cString (s : Bytes) : (0 : UInt8) ∉ cString s := by
  intro member
  have kept := List.mem_takeWhile_imp member
  simp at kept

theorem readable_readRow (row : ObjectMetadata) : Readable (readRow row) :=
  ⟨zero_not_mem_cString _, zero_not_mem_cString _, zero_not_mem_cString _⟩

/-- The rows that the statement returns, before their columns are read. -/
def scan (s : SqliteMetadataStore) (pre : Bytes) : List ObjectMetadata :=
  (s.objects.toList.filter fun entry =>
    !entry.2.deleted && (compare (listBounds pre).1 entry.1).isLE &&
      compare entry.1 (listBounds pre).2 == .lt).map Prod.snd

theorem list_eq_scan (s : SqliteMetadataStore) (pre : Bytes) : s.list pre = .ok ((s.scan pre).map readRow) := by
  rw [list, scan, List.map_map]
  rfl

variable {s : SqliteMetadataStore} {pre : Bytes}

theorem mem_scan (keyed : s.Keyed) (row : ObjectMetadata) :
    row ∈ s.scan pre ↔ s.objects[row.key]? = some row ∧ row.deleted = false ∧ Scanned pre row.key := by
  simp only [scan, List.mem_map, List.mem_filter, Prod.exists, exists_eq_right,
    Std.ExtTreeMap.mem_toList_iff_getElem?_eq_some, Bool.and_eq_true, Bool.not_eq_true', beq_iff_eq, Scanned]
  constructor
  · rintro ⟨key, stored, ⟨live, lower⟩, upper⟩
    obtain rfl := keyed stored
    exact ⟨stored, live, lower, upper⟩
  · rintro ⟨stored, live, lower, upper⟩
    exact ⟨row.key, stored, ⟨live, lower⟩, upper⟩

theorem scan_ordered (keyed : s.Keyed) : (s.scan pre).Pairwise fun a b => compare a.key b.key = .lt := by
  have ordered := (Std.ExtTreeMap.ordered_keys_toList (t := s.objects)).filter fun entry =>
    !entry.2.deleted && (compare (listBounds pre).1 entry.1).isLE && compare entry.1 (listBounds pre).2 == .lt
  rw [scan, List.pairwise_map]
  refine ordered.imp_of_mem ?_
  rintro ⟨key, row⟩ ⟨key', row'⟩ member member' less
  have stored := Std.ExtTreeMap.mem_toList_iff_getElem?_eq_some.mp (List.mem_filter.mp member).1
  have stored' := Std.ExtTreeMap.mem_toList_iff_getElem?_eq_some.mp (List.mem_filter.mp member').1
  rw [keyed stored, keyed stored']
  exact less

/-- What is scanned has the prefix, whatever its bytes. -/
theorem isPrefix_of_scanned {key : Bytes} (scanned : Scanned pre key) : pre <+: key := by
  by_cases full : Saturated pre
  · rw [((scanned_saturated full key).mp scanned).1]
    exact List.nil_prefix
  · exact (scanned_iff full key).mp scanned

/-- And the keys with the prefix are scanned, unless the bound stops short of them. -/
theorem scanned_of_isPrefix {key : Bytes} (fits : pre <+: key) (bounded : Saturated pre → key.head? ≠ some 255) :
    Scanned pre key := by
  by_cases full : Saturated pre
  · refine (scanned_saturated full key).mpr ⟨?_, bounded full⟩
    cases pre with
    | nil => rfl
    | cons b pre =>
        obtain ⟨rest, rfl⟩ := fits
        refine absurd ?_ (bounded full)
        simp [full b List.mem_cons_self]
  · exact (scanned_iff full key).mpr fits

/-- A listing is exact precisely when no row under the prefix has a zero byte in a
text column and, for the empty prefix and prefixes of bytes 255, none of their
keys begins with 255. -/
theorem list_exact_iff (s : SqliteMetadataStore) (keyed : s.Keyed) (pre : Bytes) :
    (∃ rows, s.list pre = .ok rows ∧ s.Exact pre rows) ↔
      ∀ row, s.Listed pre row → Readable row ∧ (Saturated pre → row.key.head? ≠ some 255) := by
  rw [list_eq_scan]
  constructor
  · rintro ⟨rows, returned, exact⟩ row listed
    obtain rfl := Except.ok.inj returned
    -- the row was returned, so it is some scanned row read as C strings
    obtain ⟨held, member, rfl⟩ := List.mem_map.mp ((exact.listed row).mpr listed)
    refine ⟨readable_readRow held, fun full first => ?_⟩
    obtain ⟨-, -, scanned⟩ := (mem_scan keyed held).mp member
    refine ((scanned_saturated full held.key).mp scanned).2 ?_
    obtain ⟨rest, whole⟩ : cString held.key <+: held.key := List.takeWhile_prefix _
    rw [← whole, List.head?_append, show (cString held.key).head? = some 255 from first]
    rfl
  · intro readable
    have unchanged : (s.scan pre).map readRow = s.scan pre := by
      refine (List.map_congr_left fun row member => ?_).trans (List.map_id _)
      obtain ⟨stored, live, scanned⟩ := (mem_scan keyed row).mp member
      exact readRow_eq (readable row ⟨stored, live, isPrefix_of_scanned scanned⟩).1
    refine ⟨_, rfl, ?_⟩
    rw [unchanged]
    refine ⟨scan_ordered keyed, fun row => ?_⟩
    rw [mem_scan keyed]
    constructor
    · rintro ⟨stored, live, scanned⟩
      exact ⟨stored, live, isPrefix_of_scanned scanned⟩
    · rintro ⟨stored, live, fits⟩
      have bounded := (readable row ⟨stored, live, fits⟩).2
      exact ⟨stored, live, scanned_of_isPrefix fits bounded⟩

/-- A committed object of one byte. -/
def sampleRow (key : Bytes) : ObjectMetadata :=
  { key, size := 1, checksum := text "ca978112", version := 1, createdAt := 0, deleted := false,
    requestId := text "r1" }

/-- A table with two objects and a tombstone under the prefix. -/
theorem list_exact_live :
    let s := ((((⟨∅⟩ : SqliteMetadataStore).put (sampleRow (text "a/1"))).put (sampleRow (text "a/2"))).put
      (sampleRow (text "b"))).delete (text "a/1")
    ∃ rows, s.1.list (text "a/") = .ok rows ∧ s.1.Exact (text "a/") rows := by
  refine (list_exact_iff _ (((Keyed.empty.put _).put _).put _ |>.delete _) _).mpr ?_
  rintro row ⟨stored, -, -⟩
  have all : ∀ entry ∈ ((((⟨∅⟩ : SqliteMetadataStore).put (sampleRow (text "a/1"))).put
      (sampleRow (text "a/2"))).put (sampleRow (text "b"))).delete (text "a/1") |>.1.objects.toList,
      Readable entry.2 ∧ (Saturated (text "a/") → entry.2.key.head? ≠ some 255) := by decide +kernel
  exact all (row.key, row) (Std.ExtTreeMap.mem_toList_iff_getElem?_eq_some.mpr stored)

/-- A key with a zero byte is listed under what precedes the byte, and a key that
begins with 255 is not listed at all. -/
theorem list_not_exact :
    (¬∃ rows, ((⟨∅⟩ : SqliteMetadataStore).put (sampleRow [97, 0, 98])).list (text "a") = .ok rows ∧
      ((⟨∅⟩ : SqliteMetadataStore).put (sampleRow [97, 0, 98])).Exact (text "a") rows) ∧
    ¬∃ rows, ((⟨∅⟩ : SqliteMetadataStore).put (sampleRow [255])).list [] = .ok rows ∧
      ((⟨∅⟩ : SqliteMetadataStore).put (sampleRow [255])).Exact [] rows := by
  constructor
  · rintro ⟨rows, returned, exact⟩
    have shown : ((⟨∅⟩ : SqliteMetadataStore).put (sampleRow [97, 0, 98])).list (text "a") =
        .ok [sampleRow [97]] := by decide +kernel
    obtain rfl := Except.ok.inj (returned.symm.trans shown)
    have listed := (exact.listed (sampleRow [97, 0, 98])).mpr (by refine ⟨?_, ?_, ?_⟩ <;> decide +kernel)
    revert listed
    decide
  · rintro ⟨rows, returned, exact⟩
    have shown : ((⟨∅⟩ : SqliteMetadataStore).put (sampleRow [255])).list [] = .ok [] := by decide +kernel
    obtain rfl := Except.ok.inj (returned.symm.trans shown)
    have listed := (exact.listed (sampleRow [255])).mpr (by refine ⟨?_, ?_, ?_⟩ <;> decide +kernel)
    revert listed
    decide

end SqliteMetadataStore
end Dos.Storage
