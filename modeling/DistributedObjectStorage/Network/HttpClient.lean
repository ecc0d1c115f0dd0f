import DistributedObjectStorage.Network.HttpServer

/-!
# The HTTP client

The target goes into the request line as it is. A client whose host is no IPv4
address sends nothing.
-/
namespace Dos.Network
open Scanning HttpServer

/-- The test of `inet_pton` for IPv4: four numbers below 256 between dots,
written without leading zeros. A C string ends before its first NUL. -/
def inetPton (host : Bytes) : Bool :=
  let host := host.takeWhile (· ≠ 0)
  let parts := host.splitOn 46
  host.all (fun b => isDigit b || b == 46) && parts.length == 4 &&
    parts.all fun part => part ≠ [] && ofDigits part ≤ 255 && (part.length == 1 || part.head? != some 48)

/-- The host is part of a command line. -/
structure HttpClient where
  host : Bytes
  terminated : (0 : UInt8) ∉ host

structure HttpClientResponse where
  status : Int := 0
  body : Bytes := []
  headers : OrderedMap Bytes Bytes := ∅

namespace HttpClient

def encode (c : HttpClient) (method target body contentType : Bytes) : Bytes :=
  method ++ text " " ++ target ++ text " HTTP/1.1" ++ crlf ++
    (fieldLine (text "Host") c.host ++ fieldLine (text "Content-Type") contentType ++
      fieldLine (text "Content-Length") (text (toString body.length)) ++
      fieldLine (text "Connection") (text "close")) ++
    crlf ++ body

/-- The bytes that are written to the connection. -/
def request (c : HttpClient) (method target body : Bytes)
    (contentType : Bytes := text "application/octet-stream") : StatusOr Bytes :=
  if inetPton c.host then .ok (c.encode method target body contentType)
  else .error (.invalidArgument (text "bad host: " ++ c.host))

theorem request_ok {c : HttpClient} {method target body contentType sent : Bytes} :
    c.request method target body contentType = .ok sent ↔
      inetPton c.host = true ∧ c.encode method target body contentType = sent := by
  unfold request
  split
  · next accepted => simp [accepted]
  · next refused => simp [refused]

theorem encode_words (c : HttpClient) (method target body contentType : Bytes) :
    ∃ rest, c.encode method target body contentType = method ++ 32 :: (target ++ 32 :: rest) := by
  have blank : text " " = [32] := rfl
  have protocol : text " HTTP/1.1" = 32 :: text "HTTP/1.1" := by decide +kernel
  simp only [encode, blank, protocol, List.append_assoc, List.cons_append, List.nil_append]
  exact ⟨_, rfl⟩

theorem blankLine_in_encode (c : HttpClient) (method target body contentType : Bytes) :
    blankLine <:+: c.encode method target body contentType := by
  have regroup (x y z : Bytes) : x ++ (y ++ z) ++ blankLine ++ body = x ++ (y ++ (z ++ crlf)) ++ crlf ++ body := by
    simp only [blankLine, List.append_assoc]
  exact ⟨_, body, regroup _ _ _⟩

/-! ## The response -/

/-- A later field with the same name replaces the earlier one. -/
def addField (headers : OrderedMap Bytes Bytes) (line : Bytes) : OrderedMap Bytes Bytes :=
  match headerField line with
  | some (name, value) => headers.insert name value
  | none => headers

/-- The walk over the header lines, from the start of a line to the end of the
block. The last line has no line end. -/
def parseFields (headers : OrderedMap Bytes Bytes) (rest : Bytes) : OrderedMap Bytes Bytes :=
  match found : find crlf rest with
  | none => addField headers rest
  | some lineEnd => parseFields (addField headers (rest.take lineEnd)) (rest.drop (lineEnd + 2))
termination_by rest.length
decreasing_by
  have inside := find_le found
  rw [List.length_drop]
  simp only [crlf, List.length_cons, List.length_nil] at inside
  omega

/-- The status is the three bytes after the first blank. -/
def parseStatus (resp : Bytes) : Int :=
  match find [32] resp with
  | some sp => if sp + 4 ≤ resp.length then atoi ((resp.drop (sp + 1)).take 3) else 0
  | none => 0

def parseResponse (resp : Bytes) : HttpClientResponse :=
  match find blankLine resp with
  | none => { status := parseStatus resp }
  | some hdrEnd =>
      let head := resp.take hdrEnd
      { status := parseStatus resp
        body := resp.drop (hdrEnd + 4)
        headers :=
          match find crlf head with
          | none => ∅
          | some pos => parseFields ∅ (head.drop (pos + 2)) }

/-- The client reads until the server closes. -/
def receive (socket : Socket) : HttpClientResponse := parseResponse socket.arrived

/-! ## A request for a target without blanks -/

/-- A text without line ends. -/
def IsValue (value : Bytes) : Prop := 13 ∉ value ∧ 10 ∉ value

instance : DecidablePred IsValue := fun value => inferInstanceAs (Decidable (13 ∉ value ∧ 10 ∉ value))

theorem isValue_digits (n : ℕ) : IsValue (text (toString n)) := by
  constructor
  · intro member
    cases isDigit_of_mem_toString n 13 member
  · intro member
    cases isDigit_of_mem_toString n 10 member

theorem isValue_host {c : HttpClient} (accepted : inetPton c.host = true) : IsValue c.host := by
  have whole : c.host.takeWhile (· ≠ 0) = c.host :=
    List.takeWhile_eq_self_iff.mpr fun b member => decide_eq_true fun nul => c.terminated (nul ▸ member)
  simp only [inetPton, whole, Bool.and_eq_true, List.all_eq_true] at accepted
  constructor
  · intro member
    cases accepted.1.1 13 member
  · intro member
    cases accepted.1.1 10 member

theorem isValue_word {word : Bytes} (solid : ∀ b ∈ word, isSpace b = false) : IsValue word := by
  constructor
  · intro member
    cases solid 13 member
  · intro member
    cases solid 10 member

theorem IsValue.append {s t : Bytes} (first : IsValue s) (second : IsValue t) : IsValue (s ++ t) :=
  ⟨List.not_mem_append first.1 second.1, List.not_mem_append first.2 second.2⟩

/-- A name between line start and colon. -/
def IsName (name : Bytes) : Prop := 58 ∉ name ∧ IsValue name

instance : DecidablePred IsName := fun name => inferInstanceAs (Decidable (58 ∉ name ∧ IsValue name))

theorem isRow_field {name value : Bytes} (known : IsName name) (clean : IsValue value) :
    IsRow (name ++ 58 :: value) := by
  have colon : IsValue [58] := by decide
  have line := (known.2.append colon).append clean
  rw [List.append_assoc, List.singleton_append] at line
  exact ⟨by simp, line⟩

section Requests
variable {c : HttpClient} {method target contentType : Bytes}

/-- What is known of a request whose words are free of blanks. -/
structure Proper (c : HttpClient) (method target contentType : Bytes) : Prop where
  host : inetPton c.host = true
  method : ∀ b ∈ method, isSpace b = false
  target : ∀ b ∈ target, isSpace b = false
  contentType : IsValue contentType

/-- The lines that the client writes before the blank line. -/
def headerBlock (proper : c.Proper method target contentType) (n : ℕ) : HeaderBlock where
  requestLine := method ++ text " " ++ target ++ text " HTTP/1.1"
  fields := [(text "Host", text " " ++ c.host), (text "Content-Type", text " " ++ contentType),
    (text "Content-Length", text " " ++ text (toString n)), (text "Connection", text " close")]
  requestRow := by
    have line := (((isValue_word proper.method).append (by decide : IsValue (text " "))).append
      (isValue_word proper.target)).append (by decide +kernel : IsValue (text " HTTP/1.1"))
    exact ⟨List.append_ne_nil_of_right_ne_nil _ (by decide +kernel), line⟩
  fieldRow := by
    have blank : IsValue (text " ") := by decide
    have row {name value : Bytes} (known : IsName name) (clean : IsValue value) :
        58 ∉ name ∧ IsRow (name ++ 58 :: value) := ⟨known.1, isRow_field known clean⟩
    simp only [List.forall_mem_cons]
    refine ⟨row (by decide +kernel) (blank.append (isValue_host proper.host)),
      row (by decide +kernel) (blank.append proper.contentType),
      row (by decide +kernel) (blank.append (isValue_digits n)),
      row (by decide +kernel) (by decide +kernel), ?_⟩
    intro field none
    cases none

theorem encode_eq (proper : c.Proper method target contentType) (body : Bytes) :
    c.encode method target body contentType =
      (headerBlock proper body.length).bytes ++ blankLine ++ body := by
  have colon : text ": " = 58 :: text " " := by decide
  have close : text " close" = text " " ++ text "close" := by decide
  simp only [encode, fieldLine, colon, HeaderBlock.bytes, HeaderBlock.rows, headerBlock, close, blankLine,
    List.map_cons, List.map_nil, List.flatMap_cons, List.flatMap_nil, List.append_assoc, List.cons_append,
    List.nil_append]

theorem headerBlock_announces (proper : c.Proper method target contentType) (n : ℕ) :
    (headerBlock proper n).Announces n := by
  refine ⟨[(text "Host", text " " ++ c.host), (text "Content-Type", text " " ++ contentType)],
    text "Content-Length", text " " ++ text (toString n), [(text "Connection", text " close")], rfl,
    by decide +kernel, ?_, ?_⟩
  · exact ⟨text " ", text (toString n), [], (List.append_nil _).symm, by decide +kernel, toString_ne_nil n,
      isDigit_of_mem_toString n, ofDigits_toString n⟩
  · simp only [List.cons_append, List.nil_append, List.forall_mem_cons]
    refine ⟨by decide +kernel, by decide +kernel, by decide +kernel, ?_⟩
    intro field none
    cases none

/-- A request that has all arrived reaches the handler with its own body. -/
theorem encode_served (proper : c.Proper method target contentType) (named : method ≠ [] ∧ target ≠ [])
    {body : Bytes} (size : body.length < 2 ^ 64) {socket : Socket}
    (delivered : socket.arrived = c.encode method target body contentType)
    (handler : HttpRequest → HttpResponse) :
    (serveConnection handler socket).request = some
      { method := method, path := (parseTarget target).1, query := (parseTarget target).2, body := body } := by
  have words : Words method target (text " HTTP/1.1") :=
    ⟨proper.method, proper.target, named, by
      intro b first
      cases first
      rfl⟩
  have line : (headerBlock proper body.length).requestLine =
      method ++ 32 :: (target ++ text " HTTP/1.1") := by
    change method ++ text " " ++ target ++ text " HTTP/1.1" = _
    simp [show text " " = [32] from rfl]
  have whole := delivered.trans (encode_eq proper body)
  generalize known : headerBlock proper body.length = block at line whole
  have announces : block.Announces body.length := known ▸ headerBlock_announces proper body.length
  have goal : socket.arrived.length = block.bytes.length + 4 + body.length := by
    rw [whole, List.length_append, List.length_append]
    rfl
  have head : (block.bytes ++ blankLine ++ body).take block.bytes.length = block.bytes := by
    rw [List.append_assoc, List.take_left]
  have start : (block.bytes ++ blankLine).length = block.bytes.length + 4 := List.length_append
  rw [serveConnection_request (block.find_bytes body) (whole ▸ List.prefix_rfl), head,
    HeaderBlock.parseHead_bytes announces, if_neg (by omega), if_neg (by omega), line, words.parseRequestLine_eq]
  simp only [Except.toOption, Option.map_some, readUntil_nil_all (Nat.le_of_eq goal)]
  change some { method := _, path := _, query := _, body := socket.arrived.drop _ : HttpRequest } = _
  rw [whole, ← start, List.drop_left]

end Requests
end HttpClient
end Dos.Network
