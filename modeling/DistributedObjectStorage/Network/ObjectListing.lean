import DistributedObjectStorage.Library.Json
import DistributedObjectStorage.Library.Utf8
import DistributedObjectStorage.Network.HttpGateway

/-!
# The listing as JSON

A client decodes the body as UTF-8 and reads it by the grammar of JSON. Keys and
checksums go into strings with nothing but quotes and backslashes escaped.
-/
namespace Dos.Network.HttpGateway
open Storage

/-! ## Texts and bytes -/

theorem text_eq_encode (s : String) : text s = Utf8.encode s.toList := by
  rw [text, ← String.utf8Encode_toList, List.utf8Encode, List.toList_data_toByteArray]
  rfl

def points (s : List Char) : List ℕ := s.map Char.toNat

/-- The bytes are those of a text with these code points. -/
def Spells (bytes : Bytes) (codes : List ℕ) : Prop := ∃ s, Utf8.encode s = bytes ∧ points s = codes

theorem Spells.literal (s : String) : Spells (text s) (Json.word s) := ⟨s.toList, (text_eq_encode s).symm, rfl⟩

theorem Spells.append {x y : Bytes} {p q : List ℕ} (first : Spells x p) (second : Spells y q) :
    Spells (x ++ y) (p ++ q) := by
  obtain ⟨s, rfl, rfl⟩ := first
  obtain ⟨t, rfl, rfl⟩ := second
  exact ⟨s ++ t, Utf8.encode_append s t, List.map_append⟩

theorem jsonEscape_append (x y : Bytes) : jsonEscape (x ++ y) = jsonEscape x ++ jsonEscape y := List.flatMap_append

/-- The bytes of a longer character are from 128 on, so none of them is escaped. -/
theorem Spells.escapeChar (c : Char) : Spells (jsonEscape (String.utf8EncodeChar c)) (Json.escaped [c.toNat]) := by
  rcases Utf8.encodeChar_cases c with ⟨ascii, one⟩ | ⟨large, several⟩
  · have same : UInt8.ofNat c.toNat = 34 ∨ UInt8.ofNat c.toNat = 92 ↔ c.toNat = 34 ∨ c.toNat = 92 := by
      rw [← UInt8.toNat_inj, ← UInt8.toNat_inj, UInt8.toNat_ofNat', Nat.mod_eq_of_lt (by omega)]
      exact Iff.rfl
    by_cases special : c.toNat = 34 ∨ c.toNat = 92
    · have backslash : String.utf8EncodeChar (Char.ofNat 92) = [92] := by decide
      refine ⟨[Char.ofNat 92, c], ?_, ?_⟩
      · simp [Utf8.encode, one, jsonEscape, same, special, backslash]
      · simp [points, Json.escaped, special]
    · refine ⟨[c], ?_, ?_⟩
      · simp [Utf8.encode, one, jsonEscape, same, special]
      · simp [points, Json.escaped, special]
  · have untouched : jsonEscape (String.utf8EncodeChar c) = String.utf8EncodeChar c := by
      have kept : ∀ b ∈ String.utf8EncodeChar c, (if b = 34 ∨ b = 92 then [92, b] else [b]) = [b] := by
        intro b member
        have high := several b member
        rw [if_neg]
        rintro (rfl | rfl) <;> exact absurd high (by decide)
      rw [jsonEscape, List.flatMap_congr kept, List.flatMap_singleton']
    refine ⟨[c], ?_, ?_⟩
    · rw [untouched, Utf8.encode, List.flatMap_singleton]
    · rw [Json.escaped, List.flatMap_singleton, if_neg (by omega)]
      rfl

theorem Spells.escape {x : Bytes} {p : List ℕ} (spells : Spells x p) : Spells (jsonEscape x) (Json.escaped p) := by
  obtain ⟨s, rfl, rfl⟩ := spells
  induction s with
  | nil => exact ⟨[], rfl, rfl⟩
  | cons c s ih =>
      rw [Utf8.encode_cons, jsonEscape_append]
      have split : Json.escaped (points (c :: s)) = Json.escaped [c.toNat] ++ Json.escaped (points s) :=
        Json.escaped_append [c.toNat] (points s)
      rw [split]
      exact (Spells.escapeChar c).append ih

/-! ## What a client reads -/

/-- An object of the listing as a client has it. -/
structure Entry where
  key : List Char
  version : ℕ
  size : ℕ
  checksum : List Char

namespace Entry

/-- The entry is the row, its texts as bytes. -/
structure Of (e : Entry) (m : ObjectMetadata) : Prop where
  key : Utf8.encode e.key = m.key
  version : e.version = m.version
  size : e.size = m.size
  checksum : Utf8.encode e.checksum = m.checksum

def value (e : Entry) : Json.Value :=
  .object
    [(Json.word "key", .string (points e.key)), (Json.word "version", .number e.version 0),
      (Json.word "size", .number e.size 0), (Json.word "checksum", .string (points e.checksum))]

/-- The text of the entry as the gateway writes it. -/
def written (e : Entry) : List ℕ :=
  Json.word "\x7b\"key\":\"" ++ Json.escaped (points e.key) ++ Json.word "\",\"version\":" ++
    Json.word (toString e.version) ++ Json.word ",\"size\":" ++ Json.word (toString e.size) ++
    Json.word ",\"checksum\":\"" ++ Json.escaped (points e.checksum) ++ Json.word "\"\x7d"

/-- No control characters. -/
def Printable (e : Entry) : Prop := (∀ c ∈ points e.key, 32 ≤ c) ∧ ∀ c ∈ points e.checksum, 32 ≤ c

instance (e : Entry) : Decidable e.Printable := inferInstanceAs (Decidable (_ ∧ _))

end Entry

/-- The body is a JSON text in UTF-8 with the rows in their order. -/
def Decodes (body : Bytes) (rows : List ObjectMetadata) : Prop :=
  ∃ s entries, Utf8.encode s = body ∧ List.Forall₂ Entry.Of entries rows ∧
    Json.parse (points s) = some (.array (entries.map Entry.value))

theorem scalar_points (s : List Char) : ∀ c ∈ points s, ¬(0xd800 ≤ c ∧ c < 0xe000) := by
  intro c member surrogate
  obtain ⟨d, -, rfl⟩ := List.mem_map.mp member
  rcases d.valid with low | high
  · exact absurd low (Nat.not_lt.mpr surrogate.1)
  · exact absurd high.1 (Nat.not_lt.mpr (Nat.le_of_lt_succ surrogate.2))

theorem Entry.Of.spells {e : Entry} {m : ObjectMetadata} (of : e.Of m) : Spells (jsonEntry m) e.written := by
  have key : Spells m.key (points e.key) := ⟨e.key, of.key, rfl⟩
  have checksum : Spells m.checksum (points e.checksum) := ⟨e.checksum, of.checksum, rfl⟩
  rw [jsonEntry, Entry.written, of.version, of.size]
  exact ((((((((Spells.literal _).append key.escape).append (.literal _)).append (.literal _)).append
    (.literal _)).append (.literal _)).append (.literal _)).append checksum.escape).append (.literal _)

/-! ## Reading the listing -/

theorem toString_points (n : ℕ) : Json.word (toString n) = points (Nat.toDigits 10 n) := by
  change points (String.ofList (Nat.toDigits 10 n)).toList = _
  rw [String.toList_ofList]

theorem isDigit_of_mem_points {n c : ℕ} (member : c ∈ points (Nat.toDigits 10 n)) : Json.isDigit c = true := by
  obtain ⟨d, digit, rfl⟩ := List.mem_map.mp member
  obtain ⟨low, high⟩ := ascii_of_isDigit (isDigit_of_mem_toDigits n d digit)
  rw [Json.isDigit, Bool.and_eq_true, decide_eq_true_eq, decide_eq_true_eq]
  exact ⟨low, high⟩

/-- A number above zero does not start with a zero. -/
theorem head_toDigits {n : ℕ} (positive : 0 < n) : (points (Nat.toDigits 10 n)).head? ≠ some 48 := by
  induction n using Nat.strong_induction_on with
  | h n ih =>
      by_cases small : n < 10
      · have digits : ∀ n < 10, 0 < n → (points (Nat.toDigits 10 n)).head? ≠ some 48 := by decide
        exact digits n small positive
      · have leading : points (Nat.toDigits 10 (n / 10)) ≠ [] := by simp [points]
        have split : points (Nat.toDigits 10 n) = points (Nat.toDigits 10 (n / 10)) ++ points [(n % 10).digitChar] := by
          rw [Nat.toDigits_of_base_le (by decide) (by omega)]
          exact List.map_append
        rw [split, List.head?_append_of_ne_nil _ leading]
        exact ih (n / 10) (by omega) (by omega)

theorem numeral_toString (n : ℕ) : Json.Numeral (Json.word (toString n)) := by
  rw [toString_points]
  refine ⟨?_, fun c => isDigit_of_mem_points, ?_⟩
  · rw [points, ne_eq, List.map_eq_nil_iff]
    exact Nat.toDigits_ne_nil
  · intro zero
    rcases Nat.eq_zero_or_pos n with rfl | positive
    · rfl
    · exact absurd zero (head_toDigits positive)

theorem natural_toString (n : ℕ) : Json.natural (Json.word (toString n)) = n := by
  have folded (l : List Char) (start : ℕ) :
      (points l).foldl (fun n d => 10 * n + (d - 48)) start = Nat.ofDigitChars 10 l start := by
    induction l generalizing start with
    | nil => rfl
    | cons c l ih => exact ih _
  rw [toString_points, Json.natural, folded, Nat.ofDigitChars_ten_toDigits]

theorem value_toString (n : ℕ) {fuel : ℕ} (s : List ℕ) :
    Json.value (fuel + 1) (Json.word (toString n) ++ 44 :: s) = some (.number n 0, 44 :: s) := by
  have ends : Json.Ends (44 :: s) := by
    intro c head
    cases head
    decide
  rw [(numeral_toString n).value ends, natural_toString]

namespace Entry
variable (e : Entry) (fuel : ℕ) (rest : List ℕ)

/-- The last member, from its quotation mark on. -/
def lastMember (e : Entry) (rest : List ℕ) : List ℕ :=
  34 :: (Json.word "checksum" ++ 34 :: 58 :: 34 :: (Json.escaped (points e.checksum) ++ 34 :: 125 :: rest))

/-- The members behind the key. -/
def laterMembers (e : Entry) (rest : List ℕ) : List ℕ :=
  34 :: (Json.word "version" ++ 34 :: 58 :: (Json.word (toString e.version) ++ 44 ::
    34 :: (Json.word "size" ++ 34 :: 58 :: (Json.word (toString e.size) ++ 44 :: e.lastMember rest))))

theorem written_append :
    e.written ++ rest =
      123 :: 34 :: (Json.word "key" ++ 34 :: 58 :: 34 :: (Json.escaped (points e.key) ++ 34 :: 44 ::
        e.laterMembers rest)) := by
  have opening : Json.word "\x7b\"key\":\"" = 123 :: 34 :: (Json.word "key" ++ [34, 58, 34]) := by decide
  have version : Json.word "\",\"version\":" = 34 :: 44 :: 34 :: (Json.word "version" ++ [34, 58]) := by decide
  have size : Json.word ",\"size\":" = 44 :: 34 :: (Json.word "size" ++ [34, 58]) := by decide
  have checksum : Json.word ",\"checksum\":\"" = 44 :: 34 :: (Json.word "checksum" ++ [34, 58, 34]) := by decide
  have closing : Json.word "\"\x7d" = [34, 125] := by decide
  simp only [written, laterMembers, lastMember, opening, version, size, checksum, closing, List.append_assoc,
    List.cons_append, List.nil_append]

theorem members_later :
    Json.members (fuel + 4) (e.laterMembers rest) =
      (Json.members (fuel + 2) (e.lastMember rest)).map fun out =>
        ((Json.word "version", .number e.version 0) :: (Json.word "size", .number e.size 0) :: out.1, out.2) := by
  have version : Json.Plain (Json.word "version") := by decide
  have size : Json.Plain (Json.word "size") := by decide
  rw [laterMembers, Json.members_more version (value_toString e.version _), Json.members_more size (value_toString e.size _),
    Option.map_map]
  rfl

/-- Reading an entry comes to nothing exactly when one of its texts has a control
character. -/
theorem value_written : Json.value (fuel + 6) (e.written ++ rest) = if e.Printable then some (e.value, rest) else none := by
  have key : Json.Plain (Json.word "key") := by decide
  have checksum : Json.Plain (Json.word "checksum") := by decide
  have first : Json.value (fuel + 4) (34 :: (Json.escaped (points e.key) ++ 34 :: 44 :: e.laterMembers rest)) = _ :=
    Json.value_string (scalar_points e.key)
  have last : Json.value (fuel + 1) (34 :: (Json.escaped (points e.checksum) ++ 34 :: 125 :: rest)) = _ :=
    Json.value_string (scalar_points e.checksum)
  rw [written_append, Json.value_object]
  by_cases fineKey : ∀ c ∈ points e.key, 32 ≤ c
  · rw [if_pos fineKey] at first
    rw [Json.members_more key first, members_later]
    by_cases fineChecksum : ∀ c ∈ points e.checksum, 32 ≤ c
    · rw [if_pos fineChecksum] at last
      rw [lastMember, Json.members_last checksum last, if_pos ⟨fineKey, fineChecksum⟩]
      rfl
    · rw [if_neg fineChecksum] at last
      rw [lastMember, Json.members_none checksum last, if_neg fun both => fineChecksum both.2]
      rfl
  · rw [if_neg fineKey] at first
    rw [Json.members_none key first, if_neg fun both => fineKey both.1]
    rfl

end Entry

/-- The text of the listing from behind its bracket on. -/
def writtenItems (entries : List Entry) : List ℕ := [44].intercalate (entries.map Entry.written) ++ [93]

theorem writtenItems_one (e : Entry) : writtenItems [e] = e.written ++ [93] := by simp [writtenItems]

theorem writtenItems_cons (e f : Entry) (entries : List Entry) :
    writtenItems (e :: f :: entries) = e.written ++ 44 :: writtenItems (f :: entries) := by simp [writtenItems]

theorem length_writtenItems (e : Entry) (entries : List Entry) :
    entries.length + 7 ≤ (writtenItems (e :: entries)).length := by
  have long (e : Entry) : 7 ≤ e.written.length := by
    have shape := congrArg List.length (e.written_append [])
    simp only [List.append_nil, List.length_cons, List.length_append] at shape
    omega
  have first := long e
  induction entries generalizing e with
  | nil =>
      rw [writtenItems_one, List.length_append]
      exact Nat.le_add_right_of_le first
  | cons f entries ih =>
      have others := ih f (long f)
      rw [writtenItems_cons, List.length_append, List.length_cons, List.length_cons]
      omega

/-- One entry with a control character and nothing of the listing is read. -/
theorem items_written {e : Entry} {entries : List Entry} {fuel : ℕ} (enough : entries.length + 7 ≤ fuel) :
    Json.items fuel (writtenItems (e :: entries)) =
      if ∀ d ∈ e :: entries, d.Printable then some ((e :: entries).map Entry.value, []) else none := by
  induction entries generalizing e fuel with
  | nil =>
      obtain ⟨fuel, rfl⟩ := Nat.exists_eq_add_of_le' enough
      have read := e.value_written fuel [93]
      rw [writtenItems_one]
      by_cases fine : e.Printable
      · rw [if_pos fine] at read
        rw [List.length_nil, Nat.zero_add, Json.items_last read, if_pos (List.forall_mem_singleton.mpr fine)]
        rfl
      · rw [if_neg fine] at read
        rw [List.length_nil, Nat.zero_add, Json.items_none read,
          if_neg fun all => fine (List.forall_mem_singleton.mp all)]
  | cons f entries ih =>
      rw [List.length_cons] at enough
      obtain ⟨fuel, rfl⟩ : ∃ left, fuel = left + 7 := Nat.exists_eq_add_of_le' (by omega)
      have left : entries.length + 7 ≤ fuel + 6 := by omega
      have read := e.value_written fuel (44 :: writtenItems (f :: entries))
      rw [writtenItems_cons]
      by_cases fine : e.Printable
      · rw [if_pos fine] at read
        rw [Json.items_more read, ih left]
        by_cases others : ∀ d ∈ f :: entries, d.Printable
        · rw [if_pos others, if_pos (List.forall_mem_cons.mpr ⟨fine, others⟩)]
          rfl
        · rw [if_neg others, if_neg fun all => others (List.forall_mem_cons.mp all).2]
          rfl
      · rw [if_neg fine] at read
        rw [Json.items_none read, if_neg fun all => fine (List.forall_mem_cons.mp all).1]

theorem parse_written (entries : List Entry) :
    Json.parse (91 :: writtenItems entries) =
      if ∀ e ∈ entries, e.Printable then some (.array (entries.map Entry.value)) else none := by
  cases entries with
  | nil =>
      rw [if_pos (by simp)]
      rfl
  | cons e entries =>
      have long := length_writtenItems e entries
      obtain ⟨tail, shape⟩ : ∃ tail, writtenItems (e :: entries) = 123 :: tail := by
        cases entries with
        | nil =>
            rw [writtenItems_one, e.written_append]
            exact ⟨_, rfl⟩
        | cons f entries =>
            rw [writtenItems_cons, e.written_append]
            exact ⟨_, rfl⟩
      have read : Json.items (2 * (91 :: writtenItems (e :: entries)).length + 1) (writtenItems (e :: entries)) = _ :=
        items_written (by rw [List.length_cons]; omega)
      rw [Json.parse, Option.bind_eq_bind]
      rw [shape] at read ⊢
      rw [Json.value_array rfl (by decide), read]
      split <;> rfl

/-! ## The response -/

theorem spells_listing {entries : List Entry} {rows : List ObjectMetadata} (of : List.Forall₂ Entry.Of entries rows) :
    Spells (jsonListing rows) (91 :: writtenItems entries) := by
  have entriesOf : Spells ((text ",").intercalate (rows.map jsonEntry)) ([44].intercalate (entries.map Entry.written)) := by
    induction of with
    | nil => exact ⟨[], rfl, rfl⟩
    | cons first rest ih =>
        cases rest with
        | nil => simpa using first.spells
        | cons second rest =>
            simp only [List.map_cons, List.intercalate_cons_cons] at ih ⊢
            exact (first.spells.append (.literal ",")).append ih
  exact ((Spells.literal "[").append entriesOf).append (.literal "]")

/-- Bytes that a string of the listing carries: UTF-8 without control characters. -/
def Clean (bytes : Bytes) : Prop := Utf8.Valid bytes ∧ ∀ b ∈ bytes, 32 ≤ b.toNat

theorem clean_encode (s : List Char) : Clean (Utf8.encode s) ↔ ∀ c ∈ points s, 32 ≤ c := by
  rw [points, List.forall_mem_map, ← Utf8.encode_bound (by decide)]
  exact and_iff_right ⟨s, rfl⟩

theorem Entry.Of.clean_iff {e : Entry} {m : ObjectMetadata} (of : e.Of m) :
    e.Printable ↔ Clean m.key ∧ Clean m.checksum := by
  rw [← of.key, ← of.checksum, clean_encode, clean_encode]
  rfl

/-- Clean rows are those of some entries. -/
theorem exists_entries {rows : List ObjectMetadata} (clean : ∀ m ∈ rows, Clean m.key ∧ Clean m.checksum) :
    ∃ entries, List.Forall₂ Entry.Of entries rows := by
  induction rows with
  | nil => exact ⟨[], .nil⟩
  | cons m rows ih =>
      obtain ⟨first, others⟩ := List.forall_mem_cons.mp clean
      obtain ⟨entries, of⟩ := ih others
      obtain ⟨⟨⟨key, sameKey⟩, -⟩, ⟨⟨checksum, sameChecksum⟩, -⟩⟩ := first
      exact ⟨⟨key, m.version, m.size, checksum⟩ :: entries, .cons ⟨sameKey, rfl, rfl, sameChecksum⟩ of⟩

theorem printable_iff {entries : List Entry} {rows : List ObjectMetadata} (of : List.Forall₂ Entry.Of entries rows) :
    (∀ e ∈ entries, e.Printable) ↔ ∀ m ∈ rows, Clean m.key ∧ Clean m.checksum := by
  induction of with
  | nil => simp
  | cons first rest ih => rw [List.forall_mem_cons, List.forall_mem_cons, first.clean_iff, ih]

theorem decodes_iff (rows : List ObjectMetadata) :
    Decodes (jsonListing rows) rows ↔ ∀ m ∈ rows, Clean m.key ∧ Clean m.checksum := by
  constructor
  · rintro ⟨s, entries, bytes, of, parsed⟩
    obtain ⟨t, same, codes⟩ := spells_listing of
    obtain rfl : s = t := Utf8.encode_injective (bytes.trans same.symm)
    rw [codes, parse_written] at parsed
    apply (printable_iff of).mp
    by_contra unprintable
    rw [if_neg unprintable] at parsed
    cases parsed
  · intro clean
    obtain ⟨entries, of⟩ := exists_entries clean
    obtain ⟨s, bytes, codes⟩ := spells_listing of
    refine ⟨s, entries, bytes, of, ?_⟩
    rw [codes, parse_written, if_pos ((printable_iff of).mpr clean)]

/-- The prefix that a listing is asked for. -/
def listPrefix (req : HttpRequest) : Bytes := req.query[text "prefix"]?.getD []

theorem route_listing {req : HttpRequest} (get : req.method = text "GET")
    (path : req.path = kPrefix ∨ req.path = text "/objects/") :
    route req = .ask (.list (listPrefix req)) listReply := by
  have collection : route req = routeKey req [] := by
    rcases path with bare | slash
    · rw [route, bare, if_pos List.prefix_rfl, if_neg (by simp)]
    · exact route_past slash
  rw [collection, routeKey, get, if_neg (by decide), if_pos rfl, if_pos rfl]
  rfl

/-- The listing decodes to what the coordinator lists exactly when all keys and
checksums in it are UTF-8 without control characters. -/
theorem listing_decodes_iff (c : Coordinator) {req : HttpRequest} {rows : List ObjectMetadata}
    (get : req.method = text "GET") (path : req.path = kPrefix ∨ req.path = text "/objects/")
    (listed : c.list (listPrefix req) = .ok rows) :
    route req = .ask (.list (listPrefix req)) listReply ∧
      (Decodes (listReply (c.list (listPrefix req))).body rows ↔ ∀ m ∈ rows, Clean m.key ∧ Clean m.checksum) := by
  refine ⟨route_listing get path, ?_⟩
  rw [listed]
  exact decodes_iff rows

/-- A cluster of one node with one object, and the request for its listing. -/
def holding (key : Bytes) : Coordinator :=
  ((Coordinator.fresh 1 [text "a"] ⟨1, 1⟩).put key [1] (fun _ => .acknowledged) 0).1

def listAll : HttpRequest := ⟨text "GET", kPrefix, ∅, []⟩

def rowOf (key : Bytes) : ObjectMetadata := ⟨key, 1, sha256Hex [1], 1, 0, false, []⟩

def digestOfOne : String := "4bf5122f344554c53bde2ebb8cd2b7e3d1600ad631c385a5d7cce23c7785459a"

theorem sha256Hex_one : sha256Hex [1] = text digestOfOne := by decide +kernel

/-- Quotation marks and backslashes in a key. -/
theorem listing_decodes_quoted :
    Decodes (listReply ((holding (text "a\"b\\c")).list (listPrefix listAll))).body [rowOf (text "a\"b\\c")] := by
  have listed : (holding (text "a\"b\\c")).list (listPrefix listAll) = .ok [rowOf (text "a\"b\\c")] := by decide +kernel
  have clean (s : String) (low : ∀ b ∈ text s, 32 ≤ b.toNat) : Clean (text s) :=
    ⟨⟨s.toList, (text_eq_encode s).symm⟩, low⟩
  apply (listing_decodes_iff _ rfl (.inl rfl) listed).2.mpr
  intro m member
  obtain rfl := List.mem_singleton.mp member
  refine ⟨clean _ (by decide +kernel), ?_⟩
  change Clean (sha256Hex [1])
  rw [sha256Hex_one]
  exact clean _ (by decide +kernel)

def controlKey : Bytes := [97, 1, 98]

/-- A key with a control character can be stored, and then the listing is no JSON. -/
theorem listing_control_character :
    (∀ b ∈ controlKey, plain b = true) ∧
      (route ⟨text "PUT", text "/objects/" ++ controlKey, ∅, [1]⟩).key = some controlKey ∧
      (holding controlKey).list (listPrefix listAll) = .ok [rowOf controlKey] ∧
      route listAll = .ask (.list (listPrefix listAll)) listReply ∧
      (∀ s, Utf8.encode s = (listReply ((holding controlKey).list (listPrefix listAll))).body →
        Json.parse (points s) = none) ∧
      ¬ Decodes (listReply ((holding controlKey).list (listPrefix listAll))).body [rowOf controlKey] := by
  have listed : (holding controlKey).list (listPrefix listAll) = .ok [rowOf controlKey] := by decide +kernel
  have unread (s : List Char) (bytes : Utf8.encode s = jsonListing [rowOf controlKey]) :
      Json.parse (points s) = none := by
    have of : Entry.Of ⟨[Char.ofNat 97, Char.ofNat 1, Char.ofNat 98], 1, 1, digestOfOne.toList⟩ (rowOf controlKey) :=
      ⟨by decide, rfl, rfl, (text_eq_encode digestOfOne).symm.trans sha256Hex_one.symm⟩
    obtain ⟨t, same, codes⟩ := spells_listing (.cons of .nil)
    obtain rfl : s = t := Utf8.encode_injective (bytes.trans same.symm)
    rw [codes, parse_written, if_neg]
    intro all
    exact absurd ((all _ List.mem_cons_self).1 1 (by decide)) (by decide)
  refine ⟨by decide +kernel, by decide +kernel, listed, route_listing rfl (.inl rfl), ?_⟩
  rw [listed]
  refine ⟨unread, ?_⟩
  rintro ⟨s, entries, bytes, -, parsed⟩
  cases (unread s bytes).symm.trans parsed

end Dos.Network.HttpGateway
