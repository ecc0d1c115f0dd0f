import DistributedObjectStorage.Common.Decimal
import DistributedObjectStorage.Common.OrderedMap
import DistributedObjectStorage.Library.Scanning

/-!
# The HTTP server

One connection carries one request. The server looks for the blank line in what
it has read so far, takes the request apart and reads on until the body is as
long as announced. Bytes are written as numbers: 10 and 13 end a line, 32 is the
blank, 38 the ampersand, 58 the colon, 61 the equals sign, 63 the question mark.
-/
namespace Dos.Network
open Scanning

structure HttpRequest where
  method : Bytes
  path : Bytes
  query : OrderedMap Bytes Bytes
  body : Bytes

structure HttpResponse where
  status : ℕ := 200
  contentType : Bytes := text "application/octet-stream"
  body : Bytes := []
  headers : OrderedMap Bytes Bytes := ∅

/-- What `read` returns on a connection, up to the result that is not positive. -/
structure Socket where
  reads : List Bytes
  nonempty : ∀ block ∈ reads, block ≠ []
  fits : ∀ block ∈ reads, block.length ≤ 8192

def Socket.arrived (s : Socket) : Bytes := s.reads.flatten

namespace HttpServer

def crlf : Bytes := [13, 10]

def blankLine : Bytes := crlf ++ crlf

def reasonPhrase : ℕ → Bytes
  | 200 => text "OK"
  | 201 => text "Created"
  | 204 => text "No Content"
  | 400 => text "Bad Request"
  | 404 => text "Not Found"
  | 409 => text "Conflict"
  | 422 => text "Unprocessable Entity"
  | 500 => text "Internal Server Error"
  | 503 => text "Service Unavailable"
  | _ => text "OK"

/-- The text before the first occurrence of a byte, and the text after it. -/
def splitAt (b : UInt8) (s : Bytes) : Bytes × Bytes :=
  (s.takeWhile (· ≠ b), (s.dropWhile (· ≠ b)).drop 1)

/-- The path ends at the first question mark. A parameter without an equals sign
has the empty value. -/
def parseTarget (target : Bytes) : Bytes × OrderedMap Bytes Bytes :=
  let (path, query) := splitAt 63 target
  (path, (lines 38 query).foldl (fun params pair => params.insert (splitAt 61 pair).1 (splitAt 61 pair).2) ∅)

def dropCr (line : Bytes) : Bytes := if line.getLast? = some 13 then line.dropLast else line

def toLower (b : UInt8) : UInt8 := if 65 ≤ b ∧ b ≤ 90 then b + 32 else b

/-- Name and value of a header line; none without a colon. -/
def headerField (line : Bytes) : Option (Bytes × Bytes) :=
  if 58 ∈ line then
    let (name, value) := splitAt 58 line
    some (name.map toLower, value.dropWhile (· = 32))
  else none

def isContentLength (name : Bytes) : Bool := name = text "content-length"

/-- The last announcement counts. -/
def contentLengthStep (contentLength : ℕ) (line : Bytes) : Except StoulError ℕ :=
  match headerField line with
  | some (name, value) => if isContentLength name then stoul value else .ok contentLength
  | none => .ok contentLength

/-- Method and target are the first two words. -/
def parseRequestLine (line : Bytes) : HttpRequest :=
  let (method, rest) := nextWord isSpace line
  let (path, query) := parseTarget (nextWord isSpace rest).1
  { method := method, path := path, query := query, body := [] }

/-- The request without its body, and the length of that body. -/
def parseHead (head : Bytes) : Except StoulError (HttpRequest × ℕ) := do
  let rows := (lines 10 head).map dropCr
  let contentLength ← (rows.drop 1).foldlM contentLengthStep 0
  return (parseRequestLine (rows.headD []), contentLength)

def fieldLine (name value : Bytes) : Bytes := name ++ text ": " ++ value ++ crlf

def statusLine (status : ℕ) : Bytes :=
  text "HTTP/1.1 " ++ text (toString status) ++ text " " ++ reasonPhrase status ++ crlf

def encode (resp : HttpResponse) : Bytes :=
  statusLine resp.status ++ fieldLine (text "Content-Length") (text (toString resp.body.length)) ++
    fieldLine (text "Content-Type") resp.contentType ++
    resp.headers.toList.flatMap (fun field => fieldLine field.1 field.2) ++
    fieldLine (text "Connection") (text "close") ++ crlf ++ resp.body

/-- How the work on a connection ends: closed before the blank line, left by an
exception of the parser, or with a request for the handler and its answer. -/
inductive Served where
  | closed
  | threw (error : StoulError)
  | answered (req : HttpRequest) (out : Bytes)

def Served.request : Served → Option HttpRequest
  | .answered req _ => some req
  | _ => none

def serveConnection (handler : HttpRequest → HttpResponse) (socket : Socket) : Served :=
  let (buf, reads) := readUntil (fun buf => (find blankLine buf).isSome) [] socket.reads
  match find blankLine buf with
  | none => .closed
  | some headerEnd =>
      match parseHead (buf.take headerEnd) with
      | .error error => .threw error
      | .ok (req, contentLength) =>
          let body := (readUntil (fun body => contentLength ≤ body.length) (buf.drop (headerEnd + 4)) reads).1
          .answered { req with body := body } (encode (handler { req with body := body }))

section Serving
variable {handler : HttpRequest → HttpResponse} {socket : Socket} {whole : Bytes} {headerEnd : ℕ}

/-- The server goes by the position of the blank line alone: it reads up to the
first block that ends past the announced body. -/
theorem serveConnection_found (found : find blankLine whole = some headerEnd)
    (arrived : socket.arrived <+: whole) :
    serveConnection handler socket =
      if socket.arrived.length < headerEnd + 4 then .closed
      else match parseHead (whole.take headerEnd) with
        | .error error => .threw error
        | .ok (req, n) =>
            let body := (readUntil (fun s => decide (headerEnd + 4 + n ≤ s.length)) [] socket.reads).1.drop
              (headerEnd + 4)
            .answered { req with body := body } (encode (handler { req with body := body })) := by
  have shown {s : Bytes} (cut : s <+: whole) :
      find blankLine s = if headerEnd + 4 ≤ s.length then some headerEnd else none := find_cut found cut
  have loop : readUntil (fun buf => (find blankLine buf).isSome) [] socket.reads =
      readUntil (fun s => decide (headerEnd + 4 ≤ s.length)) [] socket.reads := by
    apply readUntil_congr
    intro s cut
    rw [shown (cut.trans arrived)]
    split <;> simp [*]
  unfold serveConnection
  simp only [loop]
  have part : _ <+: socket.arrived :=
    readUntil_nil_start (fun s => decide (headerEnd + 4 ≤ s.length)) socket.reads
  have enough (long : headerEnd + 4 ≤ socket.arrived.length) := le_length_readUntil Nat.le.refl long
  have onwards (n : ℕ) := readUntil_readUntil (fun s => decide (headerEnd + 4 ≤ s.length))
    (fun s => decide (headerEnd + 4 + n ≤ s.length))
    (fun s long => decide_eq_true (Nat.le_trans (Nat.le_add_right ..) (of_decide_eq_true long))) [] socket.reads
  generalize readUntil (fun s => decide (headerEnd + 4 ≤ s.length)) [] socket.reads = read at part enough onwards
  rw [shown (part.trans arrived)]
  by_cases short : socket.arrived.length < headerEnd + 4
  · have few := part.length_le
    rw [if_pos short, if_neg (by omega)]
  · have enough := enough (Nat.le_of_not_lt short)
    have head : read.1.take headerEnd = whole.take headerEnd := by
      obtain ⟨rest, rfl⟩ := part.trans arrived
      rw [List.take_append_of_le_length (by omega)]
    simp only [if_neg short, if_pos enough, head]
    cases parseHead (whole.take headerEnd) with
    | error error => rfl
    | ok parsed =>
        dsimp only
        rw [← drop_readUntil enough, onwards]

theorem serveConnection_request (found : find blankLine whole = some headerEnd)
    (arrived : socket.arrived <+: whole) :
    (serveConnection handler socket).request =
      if socket.arrived.length < headerEnd + 4 then none
      else (parseHead (whole.take headerEnd)).toOption.map fun parsed =>
        { parsed.1 with
          body := (readUntil (fun s => decide (headerEnd + 4 + parsed.2 ≤ s.length)) [] socket.reads).1.drop
            (headerEnd + 4) } := by
  rw [serveConnection_found found arrived]
  split
  · rfl
  · cases parseHead (whole.take headerEnd) with
    | error error => rfl
    | ok parsed => rfl

/-- Without a blank line the server reads to the end and closes. -/
theorem serveConnection_absent (absent : find blankLine socket.arrived = none) :
    serveConnection handler socket = .closed := by
  have part := readUntil_nil_start (fun buf => (find blankLine buf).isSome) socket.reads
  unfold serveConnection
  dsimp only
  rw [find_none_cut absent part]

/-- What is written to the connection is the handler's answer to the request. -/
theorem serveConnection_answered {req : HttpRequest} (served : (serveConnection handler socket).request = some req) :
    serveConnection handler socket = .answered req (encode (handler req)) := by
  unfold serveConnection at served ⊢
  dsimp only at served ⊢
  split at served
  · cases served
  · split at served
    · cases served
    · cases served
      rfl

end Serving

/-! ## Request lines -/

theorem find_past {lead : Bytes} (absent : 13 ∉ lead) (s : Bytes) :
    find blankLine (lead ++ s) = (find blankLine s).map (· + lead.length) := find_append absent [10, 13, 10] s

/-- At most a carriage return after the given text is dropped. -/
theorem dropCr_append {lead : Bytes} (clean : 13 ∉ lead) (tail : Bytes) :
    ∃ shorter, shorter <+: tail ∧ dropCr (lead ++ tail) = lead ++ shorter := by
  unfold dropCr
  split
  · next last =>
      have some : tail ≠ [] := by
        rintro rfl
        rw [List.append_nil] at last
        exact clean (List.mem_of_getLast? last)
      exact ⟨tail.dropLast, List.dropLast_prefix tail, List.dropLast_append_of_ne_nil some⟩
  · exact ⟨tail, List.prefix_rfl, rfl⟩

/-- A text that names method and target as its first two words. -/
structure Words (method target tail : Bytes) : Prop where
  solidMethod : ∀ b ∈ method, isSpace b = false
  solidTarget : ∀ b ∈ target, isSpace b = false
  nonempty : method ≠ [] ∧ target ≠ []
  boundary : Boundary isSpace tail

section Words
variable {method target tail : Bytes}

theorem Words.parseRequestLine_eq (words : Words method target tail) :
    parseRequestLine (method ++ 32 :: (target ++ tail)) =
      { method := method, path := (parseTarget target).1, query := (parseTarget target).2, body := [] } := by
  have blank : Boundary isSpace (32 :: (target ++ tail)) := by
    intro a first
    cases first
    rfl
  have first := nextWord_word words.solidMethod words.nonempty.1 blank
  have second : nextWord isSpace (32 :: (target ++ tail)) = (target, tail) :=
    (nextWord_space rfl _).trans (nextWord_word words.solidTarget words.nonempty.2 words.boundary)
  simp only [parseRequestLine, first, second]

theorem Words.cut (words : Words method target tail) {shorter : Bytes} (cut : shorter <+: tail) :
    Words method target shorter :=
  { words with boundary := words.boundary.cut cut }

/-- The two words hold no line end. -/
theorem Words.clean (words : Words method target tail) {b : UInt8} (space : isSpace b = true) (other : b ≠ 32) :
    b ∉ method ++ 32 :: target := by
  rw [List.mem_append, List.mem_cons]
  rintro (inMethod | same | inTarget)
  · cases space.symm.trans (words.solidMethod b inMethod)
  · exact other same
  · cases space.symm.trans (words.solidTarget b inTarget)

/-- The first line of a header block keeps both words. -/
theorem Words.parseHead_fst (words : Words method target tail) {parsed : HttpRequest × ℕ}
    (ok : parseHead (method ++ 32 :: (target ++ tail)) = .ok parsed) :
    parsed.1 =
      { method := method, path := (parseTarget target).1, query := (parseTarget target).2, body := [] } := by
  have reach : ∀ b ∈ method ++ 32 :: target, decide (b ≠ 10) = true := by
    intro b member
    apply decide_eq_true
    rintro rfl
    exact words.clean rfl (by decide) member
  obtain ⟨shorter, cut, line⟩ := dropCr_append (words.clean rfl (by decide)) (tail.takeWhile (· ≠ 10))
  have row (rows : List Bytes) : (rows.map dropCr).headD [] = dropCr (rows.headD []) := by
    cases rows <;> rfl
  have first : ((lines 10 (method ++ 32 :: (target ++ tail))).map dropCr).headD [] =
      method ++ 32 :: (target ++ shorter) := by
    rw [row, headD_lines, ← List.cons_append, ← List.append_assoc, List.takeWhile_append_of_pos reach, line,
      List.append_assoc, List.cons_append]
  simp only [parseHead, first, (words.cut (cut.trans (List.takeWhile_prefix _))).parseRequestLine_eq] at ok
  generalize List.foldlM contentLengthStep 0 _ = length at ok
  cases length with
  | error error => cases ok
  | ok n =>
      cases ok
      rfl

/-- Whatever follows the two words, a request that reaches the handler has them
as its method and target. -/
theorem Words.served (words : Words method target tail) {handler : HttpRequest → HttpResponse} {socket : Socket}
    {headerEnd : ℕ} (found : find blankLine (method ++ 32 :: (target ++ tail)) = some headerEnd)
    (arrived : socket.arrived <+: method ++ 32 :: (target ++ tail)) {req : HttpRequest}
    (served : (serveConnection handler socket).request = some req) :
    req.method = method ∧ req.path = (parseTarget target).1 := by
  have lead : method ++ 32 :: (target ++ tail) = (method ++ 32 :: target) ++ tail := by simp
  have past := found
  rw [lead, find_past (words.clean rfl (by decide)), Option.map_eq_some_iff] at past
  obtain ⟨i, -, rfl⟩ := past
  have head : (method ++ 32 :: (target ++ tail)).take (i + (method ++ 32 :: target).length) =
      method ++ 32 :: (target ++ tail.take i) := by
    rw [lead, Nat.add_comm, List.take_length_add_append]
    simp
  rw [serveConnection_request found arrived, head] at served
  split at served
  · cases served
  · obtain ⟨parsed, ok, rfl⟩ := Option.map_eq_some_iff.mp served
    cases parsing : parseHead (method ++ 32 :: (target ++ tail.take i)) with
    | error error =>
        rw [parsing] at ok
        cases ok
    | ok result =>
        rw [parsing] at ok
        cases ok
        rw [(words.cut (List.take_prefix ..)).parseHead_fst parsing]
        exact ⟨rfl, rfl⟩

end Words

/-! ## Well-formed header blocks -/

/-- A line of a header block has no line end inside. -/
def IsRow (row : Bytes) : Prop := row ≠ [] ∧ 13 ∉ row ∧ 10 ∉ row

instance : DecidablePred IsRow := fun row => inferInstanceAs (Decidable (row ≠ [] ∧ 13 ∉ row ∧ 10 ∉ row))

theorem find_row {row : Bytes} (fine : IsRow row) (s : Bytes) :
    find blankLine (crlf ++ row ++ s) = (find blankLine s).map (· + (crlf ++ row).length) := by
  obtain ⟨some, noCr, -⟩ := fine
  obtain ⟨c, row, rfl⟩ := List.exists_cons_of_ne_nil some
  have other : c ≠ 13 := fun same => noCr (same ▸ List.mem_cons_self)
  have notHere : ¬ blankLine <+: 13 :: 10 :: (c :: row ++ s) := by
    simp [blankLine, crlf, List.cons_prefix_cons, other.symm]
  have notThere : ¬ blankLine <+: 10 :: (c :: row ++ s) := by
    simp [blankLine, crlf, List.cons_prefix_cons]
  change find blankLine (13 :: 10 :: (c :: row ++ s)) = _
  rw [find, if_neg notHere, find, if_neg notThere, find_past noCr, Option.map_map, Option.map_map]
  rfl

theorem find_rows {rows : List Bytes} (fine : ∀ row ∈ rows, IsRow row) (rest : Bytes) :
    find blankLine (rows.flatMap (crlf ++ ·) ++ blankLine ++ rest) =
      some (rows.flatMap (crlf ++ ·)).length := by
  induction rows with
  | nil => exact find_start (List.prefix_append ..)
  | cons row rows ih =>
      obtain ⟨first, others⟩ := List.forall_mem_cons.mp fine
      rw [List.flatMap_cons, List.append_assoc, List.append_assoc, find_row first, ← List.append_assoc,
        ih others, Option.map_some, Nat.add_comm, ← List.length_append]

theorem dropCr_row {row : Bytes} (fine : IsRow row) : dropCr row = row := by
  rw [dropCr, if_neg]
  intro last
  exact fine.2.1 (List.mem_of_getLast? last)

theorem lines_rows {first : Bytes} {rows : List Bytes} (fine : ∀ row ∈ first :: rows, IsRow row) :
    (lines 10 (first ++ rows.flatMap (crlf ++ ·))).map dropCr = first :: rows := by
  induction rows generalizing first with
  | nil =>
      have row := fine first List.mem_cons_self
      rw [List.flatMap_nil, List.append_nil, lines_last row.2.2 row.1, List.map_singleton, dropCr_row row]
  | cons row rows ih =>
      obtain ⟨head, others⟩ := List.forall_mem_cons.mp fine
      have clean : (10 : UInt8) ∉ first ++ [13] := by
        simpa using head.2.2
      have cut : lines 10 (first ++ (row :: rows).flatMap (crlf ++ ·)) =
          (first ++ [13]) :: lines 10 (row ++ rows.flatMap (crlf ++ ·)) := by
        rw [← lines_cut clean]
        simp [crlf]
      have ended : dropCr (first ++ [13]) = first := by simp [dropCr]
      rw [cut, List.map_cons, ended, ih others]

/-- The request line, and the fields with their names and values. -/
structure HeaderBlock where
  requestLine : Bytes
  fields : List (Bytes × Bytes)
  requestRow : IsRow requestLine
  fieldRow : ∀ field ∈ fields, 58 ∉ field.1 ∧ IsRow (field.1 ++ 58 :: field.2)

namespace HeaderBlock

def rows (block : HeaderBlock) : List Bytes := block.fields.map fun field => field.1 ++ 58 :: field.2

def bytes (block : HeaderBlock) : Bytes := block.requestLine ++ block.rows.flatMap (crlf ++ ·)

theorem isRow_of_mem_rows (block : HeaderBlock) : ∀ row ∈ block.rows, IsRow row := by
  intro row member
  obtain ⟨field, listed, rfl⟩ := List.mem_map.mp member
  exact (block.fieldRow field listed).2

theorem find_bytes (block : HeaderBlock) (rest : Bytes) :
    find blankLine (block.bytes ++ blankLine ++ rest) = some block.bytes.length := by
  rw [bytes, List.append_assoc, List.append_assoc, ← List.append_assoc _ blankLine,
    find_past block.requestRow.2.1, find_rows block.isRow_of_mem_rows, Option.map_some, Nat.add_comm,
    ← List.length_append]

/-- The value spells the number: digits, with blanks around them. -/
def Spells (value : Bytes) (n : ℕ) : Prop :=
  ∃ blanks digits tail, value = blanks ++ digits ++ tail ∧ (∀ b ∈ blanks ++ tail, b = 32 ∨ b = 9) ∧
    digits ≠ [] ∧ (∀ b ∈ digits, isDigit b = true) ∧ ofDigits digits = n

/-- One field announces the length of the body. -/
def Announces (block : HeaderBlock) (n : ℕ) : Prop :=
  ∃ before name value after, block.fields = before ++ (name, value) :: after ∧
    isContentLength (name.map toLower) = true ∧ Spells value n ∧
    ∀ field ∈ before ++ after, isContentLength (field.1.map toLower) = false

end HeaderBlock

theorem splitAt_append {b : UInt8} {s : Bytes} (absent : b ∉ s) (t : Bytes) :
    splitAt b (s ++ b :: t) = (s, t) := by
  have before : ∀ c ∈ s, decide (c ≠ b) = true := by
    intro c member
    exact decide_eq_true fun same => absent (same ▸ member)
  rw [splitAt, List.takeWhile_append_of_pos before, List.dropWhile_append_of_pos before]
  simp

theorem headerField_row {name : Bytes} (single : 58 ∉ name) (value : Bytes) :
    headerField (name ++ 58 :: value) = some (name.map toLower, value.dropWhile (· = 32)) := by
  rw [headerField, if_pos (by simp), splitAt_append single]

theorem HeaderBlock.Spells.stoul_eq {value : Bytes} {n : ℕ} (spells : HeaderBlock.Spells value n) :
    stoul (value.dropWhile (· = 32)) = if 2 ^ 64 ≤ n then .error .outOfRange else .ok n := by
  obtain ⟨blanks, digits, tail, rfl, blank, some, number, rfl⟩ := spells
  have space {b : UInt8} (member : b ∈ blanks ++ tail) : isSpace b = true := by
    rcases blank b member with rfl | rfl <;> rfl
  have stop : tail.takeWhile isDigit = [] := by
    cases tail with
    | nil => rfl
    | cons b tail =>
        rw [List.takeWhile_cons_of_neg]
        rcases blank b (List.mem_append_right _ List.mem_cons_self) with rfl | rfl <;> decide
  have start : (digits ++ tail).dropWhile (· = 32) = digits ++ tail := by
    cases digits with
    | nil => exact absurd rfl some
    | cons b digits =>
        have solid := (not_isSpace_of_isDigit (number b List.mem_cons_self)).1
        rw [List.cons_append, List.dropWhile_cons_of_neg]
        intro blankFirst
        rw [of_decide_eq_true blankFirst] at solid
        cases solid
  have lead : (blanks ++ digits ++ tail).dropWhile (· = 32) =
      blanks.dropWhile (· = 32) ++ digits ++ tail := by
    rw [List.append_assoc, List.dropWhile_append, start, List.append_assoc]
    split
    · next none => rw [List.isEmpty_iff.mp none, List.nil_append]
    · rfl
  rw [lead]
  apply stoul_digits _ number some stop
  intro b member
  exact space (List.mem_append_left _ ((List.dropWhile_suffix _).subset member))

/-- Other fields leave the length as it is. -/
theorem foldlM_other {fields : List (Bytes × Bytes)} (single : ∀ field ∈ fields, 58 ∉ field.1)
    (other : ∀ field ∈ fields, isContentLength (field.1.map toLower) = false) (n : ℕ) :
    (fields.map fun field => field.1 ++ 58 :: field.2).foldlM contentLengthStep n = .ok n := by
  induction fields with
  | nil => rfl
  | cons field fields ih =>
      obtain ⟨first, single⟩ := List.forall_mem_cons.mp single
      obtain ⟨apart, other⟩ := List.forall_mem_cons.mp other
      have step : contentLengthStep n (field.1 ++ 58 :: field.2) = .ok n := by
        simp only [contentLengthStep, headerField_row first, apart, Bool.false_eq_true, if_false]
      rw [List.map_cons, List.foldlM_cons, step]
      exact ih single other

/-- The one field that announces a length decides. -/
theorem HeaderBlock.Announces.foldlM_rows {block : HeaderBlock} {n : ℕ} (announces : block.Announces n) :
    block.rows.foldlM contentLengthStep 0 = if 2 ^ 64 ≤ n then .error .outOfRange else .ok n := by
  obtain ⟨before, name, value, after, fields, length, spells, other⟩ := announces
  have single : ∀ field ∈ before ++ (name, value) :: after, 58 ∉ field.1 := by
    intro field listed
    exact (block.fieldRow field (fields ▸ listed)).1
  simp only [List.forall_mem_append, List.forall_mem_cons] at single other
  obtain ⟨singleBefore, singleName, singleAfter⟩ := single
  have step : contentLengthStep 0 (name ++ 58 :: value) =
      if 2 ^ 64 ≤ n then .error .outOfRange else .ok n := by
    simp only [contentLengthStep, headerField_row singleName, length, if_true]
    exact spells.stoul_eq
  rw [rows, fields, List.map_append, List.foldlM_append, foldlM_other singleBefore other.1, List.map_cons]
  change (_ :: _).foldlM contentLengthStep 0 = _
  rw [List.foldlM_cons, step]
  split
  · rfl
  · exact foldlM_other singleAfter other.2 n

theorem HeaderBlock.parseHead_bytes {block : HeaderBlock} {n : ℕ} (announces : block.Announces n) :
    parseHead block.bytes =
      if 2 ^ 64 ≤ n then .error .outOfRange else .ok (parseRequestLine block.requestLine, n) := by
  have lined : (lines 10 block.bytes).map dropCr = block.requestLine :: block.rows :=
    lines_rows (List.forall_mem_cons.mpr ⟨block.requestRow, block.isRow_of_mem_rows⟩)
  rw [parseHead, lined]
  change (block.rows.foldlM contentLengthStep 0 >>= _) = _
  rw [announces.foldlM_rows]
  split <;> rfl

/-! ## The body -/

/-- The body that is announced, once all of it has arrived. -/
def announcedBody (bodyStart n : ℕ) (arrived : Bytes) : Option Bytes :=
  if bodyStart + n ≤ arrived.length then some ((arrived.drop bodyStart).take n) else none

theorem announcedBody_eq_iff {read arrived : Bytes} {bodyStart : ℕ} (part : read <+: arrived)
    (reached : bodyStart ≤ read.length) (n : ℕ) :
    some (read.drop bodyStart) = announcedBody bodyStart n arrived ↔ read.length = bodyStart + n := by
  obtain ⟨more, rfl⟩ := part
  unfold announcedBody
  constructor
  · intro same
    split at same
    · next whole =>
        have lengths := congrArg List.length (Option.some.inj same)
        rw [List.length_append] at whole
        simp only [List.length_take, List.length_drop, List.length_append] at lengths
        omega
    · cases same
  · intro exact
    have whole : bodyStart + n ≤ (read ++ more).length := by
      rw [List.length_append]
      omega
    have size : (read.drop bodyStart).length = n := by
      rw [List.length_drop]
      omega
    rw [if_pos whole, List.drop_append_of_le_length reached, ← size, List.take_left]

/-- The handler gets the announced body, and nothing when it has not arrived,
exactly when the peer closes before the blank line or a block ends where the
body does. -/
theorem body_announced_iff (handler : HttpRequest → HttpResponse) {socket : Socket} {block : HeaderBlock}
    {n : ℕ} {rest : Bytes} (announces : block.Announces n)
    (arrived : socket.arrived <+: block.bytes ++ blankLine ++ rest) :
    (serveConnection handler socket).request.map (·.body) =
        announcedBody (block.bytes.length + 4) n socket.arrived ↔
      socket.arrived.length < block.bytes.length + 4 ∨
        (n < 2 ^ 64 ∧ ∃ k, (socket.reads.take k).flatten.length = block.bytes.length + 4 + n) ∨
        (2 ^ 64 ≤ n ∧ socket.arrived.length < block.bytes.length + 4 + n) := by
  have head : (block.bytes ++ blankLine ++ rest).take block.bytes.length = block.bytes := by
    rw [List.append_assoc, List.take_left]
  rw [serveConnection_request (block.find_bytes rest) arrived, head, HeaderBlock.parseHead_bytes announces]
  by_cases short : socket.arrived.length < block.bytes.length + 4
  · rw [if_pos short, announcedBody, if_neg (by omega)]
    exact ⟨fun _ => .inl short, fun _ => rfl⟩
  · rw [if_neg short]
    by_cases large : 2 ^ 64 ≤ n
    · rw [if_pos large, announcedBody]
      constructor
      · intro same
        split at same
        · cases same
        · next few => exact .inr (.inr ⟨large, Nat.lt_of_not_le few⟩)
      · intro condition
        have few : socket.arrived.length < block.bytes.length + 4 + n := by omega
        rw [if_neg (Nat.not_le_of_lt few)]
        rfl
    · rw [if_neg large]
      have reached := le_length_readUntil (Nat.le_add_right (block.bytes.length + 4) n) (Nat.le_of_not_lt short)
      have part := readUntil_nil_start (fun s => decide (block.bytes.length + 4 + n ≤ s.length)) socket.reads
      have ends := announcedBody_eq_iff part reached n
      rw [length_readUntil_nil_iff] at ends
      refine ends.trans ?_
      constructor
      · exact fun cut => .inr (.inl ⟨Nat.lt_of_not_le large, cut⟩)
      · rintro (early | ⟨-, cut⟩ | ⟨late, -⟩)
        · exact absurd early short
        · exact cut
        · exact absurd late large

/-- A PUT that announces five bytes. -/
def upload : HeaderBlock where
  requestLine := text "PUT /objects/k HTTP/1.1"
  fields := [(text "Content-Length", text " 5")]
  requestRow := by decide +kernel
  fieldRow := by decide +kernel

theorem upload_announces : upload.Announces 5 :=
  ⟨[], text "Content-Length", text " 5", [], rfl, by decide +kernel,
    ⟨[32], [53], [], by decide +kernel, by decide +kernel, by decide +kernel, by decide +kernel, by decide +kernel⟩,
    by decide⟩

/-- The upload in two blocks. -/
def inTwoBlocks : Socket where
  reads := [upload.bytes ++ blankLine ++ text "hel", text "lo"]
  nonempty := by decide +kernel
  fits := by decide +kernel

theorem body_announced_in_two_blocks :
    (serveConnection (fun _ => {}) inTwoBlocks).request.map (·.body) = some (text "hello") := by
  have arrived : inTwoBlocks.arrived <+: upload.bytes ++ blankLine ++ text "hello" := by decide +kernel
  have ends : ((inTwoBlocks.reads.take 2).flatten).length = upload.bytes.length + 4 + 5 := by decide +kernel
  have body := (body_announced_iff (fun _ => {}) upload_announces arrived).mpr
    (.inr (.inl ⟨by decide, 2, ends⟩))
  rw [body]
  decide +kernel

/-- The peer closes after three of the five bytes. -/
def cutOff : Socket where
  reads := [upload.bytes ++ blankLine ++ text "hel"]
  nonempty := by decide +kernel
  fits := by decide +kernel

/-- Three bytes follow the body in the same block. -/
def runOn : Socket where
  reads := [upload.bytes ++ blankLine ++ text "helloGET"]
  nonempty := by decide +kernel
  fits := by decide +kernel

/-- The same bytes with the body in a block of its own. -/
def runOnApart : Socket where
  reads := [upload.bytes ++ blankLine, text "hello", text "GET"]
  nonempty := by decide +kernel
  fits := by decide +kernel

/-- A body that is cut off reaches the handler, and one that is followed by more
bytes depends on the blocks. -/
theorem body_not_announced :
    ((serveConnection (fun _ => {}) cutOff).request.map (·.body) = some (text "hel") ∧
        announcedBody (upload.bytes.length + 4) 5 cutOff.arrived = none) ∧
      runOn.arrived = runOnApart.arrived ∧
      (serveConnection (fun _ => {}) runOn).request.map (·.body) = some (text "helloGET") ∧
      (serveConnection (fun _ => {}) runOnApart).request.map (·.body) = some (text "hello") := by
  decide +kernel

end HttpServer
end Dos.Network
