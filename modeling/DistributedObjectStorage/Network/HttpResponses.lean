import DistributedObjectStorage.Network.HttpClient

/-!
# Responses from server to client

The server writes the response in one piece, the client looks for the first
blank line and walks over the lines before it.
-/
namespace Dos.Network
open Scanning HttpServer HttpClient

/-- A response that fits between the lines. Extra headers are told apart by their
names in lower case, also from those that the server adds. -/
structure HttpResponse.Sendable (resp : HttpResponse) : Prop where
  status : 100 ≤ resp.status ∧ resp.status < 1000
  contentType : IsValue resp.contentType
  names : ∀ field ∈ resp.headers.toList, IsName field.1
  values : ∀ field ∈ resp.headers.toList, IsValue field.2 ∧ field.2.head? ≠ some 32
  distinct : ∀ field ∈ resp.headers.toList, ∀ field' ∈ resp.headers.toList,
    field.1.map toLower = field'.1.map toLower → field.1 = field'.1
  reserved : ∀ field ∈ resp.headers.toList,
    field.1.map toLower ∉ [text "content-length", text "content-type", text "connection"]

section Written
variable {resp : HttpResponse}

/-- The fields in the order in which the server writes them. -/
def writtenFields (resp : HttpResponse) : List (Bytes × Bytes) :=
  (text "Content-Length", text (toString resp.body.length)) :: (text "Content-Type", resp.contentType) ::
    (resp.headers.toList ++ [(text "Connection", text "close")])

theorem HttpResponse.Sendable.mem_writtenFields (sendable : resp.Sendable) :
    ∀ field ∈ writtenFields resp, IsName field.1 ∧ IsValue field.2 := by
  intro field member
  simp only [writtenFields, List.mem_cons, List.mem_append, List.not_mem_nil, or_false] at member
  rcases member with rfl | rfl | extra | rfl
  · exact ⟨(by decide +kernel : IsName (text "Content-Length")), isValue_digits _⟩
  · exact ⟨(by decide +kernel : IsName (text "Content-Type")), sendable.contentType⟩
  · exact ⟨sendable.names field extra, (sendable.values field extra).1⟩
  · exact ⟨by decide +kernel, by decide +kernel⟩

theorem isValue_reasonPhrase (status : ℕ) : IsValue (reasonPhrase status) := by
  unfold reasonPhrase
  split <;> decide +kernel

/-- The lines that the server writes before the blank line. -/
def writtenBlock (sendable : resp.Sendable) : HeaderBlock where
  requestLine := text "HTTP/1.1 " ++ text (toString resp.status) ++ text " " ++ reasonPhrase resp.status
  fields := (writtenFields resp).map fun field => (field.1, text " " ++ field.2)
  requestRow := by
    have line := (((by decide +kernel : IsValue (text "HTTP/1.1 ")).append (isValue_digits resp.status)).append
      (by decide : IsValue (text " "))).append (isValue_reasonPhrase resp.status)
    refine ⟨?_, line⟩
    simp [show text " " = [32] from rfl]
  fieldRow := by
    have blank : IsValue (text " ") := by decide
    intro field member
    obtain ⟨written, listed, rfl⟩ := List.mem_map.mp member
    obtain ⟨name, value⟩ := sendable.mem_writtenFields written listed
    exact ⟨name.1, isRow_field name (blank.append value)⟩

theorem writtenBlock_rows (sendable : resp.Sendable) :
    (writtenBlock sendable).rows =
      (writtenFields resp).map fun field => field.1 ++ 58 :: (text " " ++ field.2) := by
  rw [HeaderBlock.rows, writtenBlock, List.map_map]
  rfl

/-- The line ends belong to the lines before them or to those after them. -/
theorem crlf_flatMap_fieldLine (fields : List (Bytes × Bytes)) :
    crlf ++ fields.flatMap (fun field => fieldLine field.1 field.2) =
      (fields.map fun field => field.1 ++ 58 :: (text " " ++ field.2)).flatMap (crlf ++ ·) ++ crlf := by
  have colon : text ": " = 58 :: text " " := by decide
  induction fields with
  | nil => rfl
  | cons field fields ih =>
      rw [List.flatMap_cons, List.map_cons, List.flatMap_cons, List.append_assoc, ← ih]
      simp only [fieldLine, colon, List.append_assoc, List.cons_append]

theorem encode_writtenBlock (sendable : resp.Sendable) :
    HttpServer.encode resp = (writtenBlock sendable).bytes ++ blankLine ++ resp.body := by
  have fields : HttpServer.encode resp = (writtenBlock sendable).requestLine ++
      (crlf ++ (writtenFields resp).flatMap (fun field => fieldLine field.1 field.2)) ++ crlf ++ resp.body := by
    simp only [HttpServer.encode, statusLine, writtenBlock, writtenFields, List.flatMap_cons, List.flatMap_append,
      List.flatMap_nil, List.append_nil, List.append_assoc]
  rw [fields, crlf_flatMap_fieldLine, ← writtenBlock_rows sendable, HeaderBlock.bytes, blankLine]
  simp only [List.append_assoc]

end Written

/-! ## The walk over the lines -/

section Walk
variable {headers : OrderedMap Bytes Bytes}

theorem parseFields_last {rest : Bytes} (last : find crlf rest = none) :
    parseFields headers rest = addField headers rest := by
  rw [parseFields]
  split
  · rfl
  · next more => cases last.symm.trans more

theorem parseFields_line {line : Bytes} (single : 13 ∉ line) (rest : Bytes) :
    parseFields headers (line ++ (crlf ++ rest)) = parseFields (addField headers line) rest := by
  have found : find crlf (line ++ (crlf ++ rest)) = some line.length := by
    rw [crlf, find_append single, find_start (List.prefix_append ..), Option.map_some, Nat.zero_add]
  rw [parseFields]
  split
  · next none => cases found.symm.trans none
  · next lineEnd here =>
      obtain rfl := Option.some.inj (found.symm.trans here)
      have skip : (line ++ (crlf ++ rest)).drop (line.length + 2) = rest := by
        rw [← List.append_assoc, show line.length + 2 = (line ++ crlf).length by simp [crlf], List.drop_left]
      rw [List.take_left, skip]

theorem parseFields_rows {first : Bytes} {rows : List Bytes} (fine : ∀ row ∈ first :: rows, IsRow row) :
    parseFields headers (first ++ rows.flatMap (crlf ++ ·)) = (first :: rows).foldl addField headers := by
  induction rows generalizing first headers with
  | nil =>
      have absent := (fine first List.mem_cons_self).2.1
      have last : find crlf (first ++ []) = none := by
        rw [crlf, find_append absent]
        rfl
      rw [List.flatMap_nil, parseFields_last last, List.append_nil]
      rfl
  | cons row rows ih =>
      obtain ⟨head, others⟩ := List.forall_mem_cons.mp fine
      rw [List.flatMap_cons, List.append_assoc, parseFields_line head.2.1, ih others]
      rfl

theorem addField_row {name : Bytes} (single : 58 ∉ name) (value : Bytes) :
    addField headers (name ++ 58 :: (text " " ++ value)) =
      headers.insert (name.map toLower) (value.dropWhile (· = 32)) := by
  have blank : (text " " ++ value).dropWhile (· = 32) = value.dropWhile (· = 32) := by
    simp [show text " " = [32] from rfl]
  rw [addField, headerField_row single, blank]

/-- Fields with other names leave an entry as it is. -/
theorem lookup_foldl_other {fields : List (Bytes × Bytes)} {key : Bytes}
    (single : ∀ field ∈ fields, 58 ∉ field.1) (other : ∀ field ∈ fields, field.1.map toLower ≠ key) :
    ((fields.map fun field => field.1 ++ 58 :: (text " " ++ field.2)).foldl addField headers)[key]? =
      headers[key]? := by
  induction fields generalizing headers with
  | nil => rfl
  | cons field fields ih =>
      obtain ⟨colon, single⟩ := List.forall_mem_cons.mp single
      obtain ⟨apart, other⟩ := List.forall_mem_cons.mp other
      rw [List.map_cons, List.foldl_cons, ih single other, addField_row colon, OrderedMap.lookup_insert_ne _ _ apart]

end Walk

section Received
variable {resp : HttpResponse} (sendable : resp.Sendable)
include sendable

/-- No later line has the name of an extra header. -/
theorem HttpResponse.Sendable.later {before after : List (Bytes × Bytes)}
    {field : Bytes × Bytes} (split : resp.headers.toList = before ++ field :: after) :
    ∀ later ∈ after ++ [(text "Connection", text "close")], later.1.map toLower ≠ field.1.map toLower := by
  have ordered := Std.ExtTreeMap.ordered_keys_toList (t := resp.headers)
  have listed : field ∈ resp.headers.toList := split ▸ List.mem_append_right _ List.mem_cons_self
  rw [split, List.pairwise_append, List.pairwise_cons] at ordered
  intro later member same
  rcases List.mem_append.mp member with extra | own
  · have listed' : later ∈ resp.headers.toList :=
      split ▸ List.mem_append_right _ (List.mem_cons_of_mem _ extra)
    have less := ordered.2.1.1 later extra
    rw [sendable.distinct later listed' field listed same] at less
    simp at less
  · rw [List.mem_singleton.mp own] at same
    have name : (text "Connection").map toLower = text "connection" := by decide +kernel
    apply sendable.reserved field listed
    rw [← same, name]
    simp

/-- Each extra header is found under its name in lower case. -/
theorem HttpResponse.Sendable.lookup {name value : Bytes}
    (listed : (name, value) ∈ resp.headers.toList) :
    ((writtenBlock sendable).rows.foldl addField ∅)[name.map toLower]? = some value := by
  obtain ⟨before, after, split⟩ := List.append_of_mem listed
  obtain ⟨lead, fields⟩ : ∃ lead, writtenFields resp =
      lead ++ (name, value) :: (after ++ [(text "Connection", text "close")]) := by
    refine ⟨(text "Content-Length", text (toString resp.body.length)) ::
      (text "Content-Type", resp.contentType) :: before, ?_⟩
    simp only [writtenFields, split, List.append_assoc, List.cons_append]
  have single : ∀ later ∈ after ++ [(text "Connection", text "close")], 58 ∉ later.1 := by
    intro later member
    refine (sendable.mem_writtenFields later ?_).1.1
    rw [fields]
    exact List.mem_append_right _ (List.mem_cons_of_mem _ member)
  have other : ∀ later ∈ after ++ [(text "Connection", text "close")], later.1.map toLower ≠ name.map toLower :=
    sendable.later split
  have solid : value.dropWhile (· = 32) = value := by
    cases value with
    | nil => rfl
    | cons b value =>
        have first := (sendable.values _ listed).2
        rw [List.dropWhile_cons_of_neg]
        intro blank
        exact first (congrArg some (of_decide_eq_true blank))
  rw [writtenBlock_rows, fields, List.map_append, List.foldl_append, List.map_cons, List.foldl_cons,
    lookup_foldl_other single other, addField_row (sendable.names _ listed).1,
    OrderedMap.lookup_insert_self, solid]

theorem parseStatus_encode : parseStatus (HttpServer.encode resp) = resp.status := by
  have size := length_toString_of_lt sendable.status
  obtain ⟨rest, split⟩ : ∃ rest, HttpServer.encode resp =
      text "HTTP/1.1" ++ ([32] ++ (text (toString resp.status) ++ rest)) := by
    have version : text "HTTP/1.1 " = text "HTTP/1.1" ++ [32] := by decide +kernel
    simp only [HttpServer.encode, statusLine, version, List.append_assoc]
    exact ⟨_, rfl⟩
  have found : find [32] (HttpServer.encode resp) = some 8 := by
    have solid : (32 : UInt8) ∉ text "HTTP/1.1" := by decide +kernel
    rw [split, find_append solid, find_start (List.prefix_append ..)]
    rfl
  have digits : ((HttpServer.encode resp).drop 9).take 3 = text (toString resp.status) := by
    rw [split, ← List.append_assoc, ← size]
    exact List.take_left
  have long : 8 + 4 ≤ (HttpServer.encode resp).length := by
    rw [split]
    have version : (text "HTTP/1.1").length = 8 := by decide +kernel
    simp only [List.length_append, List.length_singleton, size, version]
    omega
  rw [parseStatus, found]
  simp only [if_pos long, digits]
  rw [atoi_digits (isDigit_of_mem_toString resp.status), ofDigits_toString]

/-- The walk starts after the status line and covers all lines of the block. -/
theorem walk_writtenBlock :
    ∃ pos, find crlf (writtenBlock sendable).bytes = some pos ∧
      parseFields ∅ ((writtenBlock sendable).bytes.drop (pos + 2)) =
        (writtenBlock sendable).rows.foldl addField ∅ := by
  have fine := (writtenBlock sendable).isRow_of_mem_rows
  obtain ⟨first, rows, split⟩ : ∃ first rows, (writtenBlock sendable).rows = first :: rows := by
    rw [writtenBlock_rows]
    exact ⟨_, _, rfl⟩
  have absent := (writtenBlock sendable).requestRow.2.1
  refine ⟨(writtenBlock sendable).requestLine.length, ?_, ?_⟩
  · rw [HeaderBlock.bytes, split, List.flatMap_cons, List.append_assoc, crlf, find_append absent,
      find_start (List.prefix_append ..), Option.map_some, Nat.zero_add]
  · rw [split] at fine ⊢
    rw [HeaderBlock.bytes, split, List.drop_length_add_append, List.flatMap_cons, List.append_assoc]
    exact parseFields_rows fine

/-- What the client makes of a response, in whatever blocks it arrives. -/
theorem receive_encode {socket : Socket} (arrived : socket.arrived = HttpServer.encode resp) :
    receive socket =
      { status := resp.status
        body := resp.body
        headers := (writtenBlock sendable).rows.foldl addField ∅ } := by
  have block := encode_writtenBlock sendable
  have found : find blankLine (HttpServer.encode resp) = some (writtenBlock sendable).bytes.length := by
    rw [block, HeaderBlock.find_bytes]
  have start : ((writtenBlock sendable).bytes ++ blankLine).length = (writtenBlock sendable).bytes.length + 4 :=
    List.length_append
  have head : (HttpServer.encode resp).take (writtenBlock sendable).bytes.length = (writtenBlock sendable).bytes := by
    rw [block, List.append_assoc, List.take_left]
  have body : (HttpServer.encode resp).drop ((writtenBlock sendable).bytes.length + 4) = resp.body := by
    rw [block, ← start, List.drop_left]
  obtain ⟨pos, first, walk⟩ := walk_writtenBlock sendable
  rw [receive, arrived]
  simp only [parseResponse, found, head, body, first, walk, parseStatus_encode sendable]

omit sendable

/-- The client gets the status, the body and every extra header, in whatever
blocks the bytes of the server arrive. -/
theorem receive_answered {handler : HttpRequest → HttpResponse} {incoming outgoing : Socket} {req : HttpRequest}
    {out : Bytes} (served : serveConnection handler incoming = .answered req out)
    (delivered : outgoing.arrived = out) (sendable : (handler req).Sendable) :
    (receive outgoing).status = (handler req).status ∧ (receive outgoing).body = (handler req).body ∧
      ∀ name value : Bytes, (handler req).headers[name]? = some value →
        (receive outgoing).headers[name.map toLower]? = some value := by
  have written : out = HttpServer.encode (handler req) := by
    have answered := serveConnection_answered (congrArg Served.request served)
    cases served.symm.trans answered
    rfl
  rw [receive_encode sendable (delivered.trans written)]
  refine ⟨rfl, rfl, fun name value stored => ?_⟩
  exact sendable.lookup (Std.ExtTreeMap.mem_toList_iff_getElem?_eq_some.mpr stored)

end Received

/-- The response to an upload, with a body that looks like the end of a head. -/
def uploadResponse : HttpResponse where
  status := 201
  contentType := text "text/plain"
  headers := (∅ : OrderedMap Bytes Bytes).insert (text "X-Object-Version") (text "7")
  body := blankLine ++ text "X-Object-Version: 8" ++ blankLine

theorem uploadResponse_sendable : uploadResponse.Sendable where
  status := by decide
  contentType := by decide +kernel
  names := by decide +kernel
  values := by decide +kernel
  distinct := by decide +kernel
  reserved := by decide +kernel

/-- The response in two blocks. -/
def uploadAnswer : Socket where
  reads := [(HttpServer.encode uploadResponse).take 20, (HttpServer.encode uploadResponse).drop 20]
  nonempty := by decide +kernel
  fits := by decide +kernel

theorem receive_uploadAnswer :
    (receive uploadAnswer).status = 201 ∧
      (receive uploadAnswer).body = blankLine ++ text "X-Object-Version: 8" ++ blankLine ∧
      (receive uploadAnswer).headers[text "x-object-version"]? = some (text "7") := by
  have asked : (serveConnection (fun _ => uploadResponse) inTwoBlocks).request.isSome := by decide +kernel
  obtain ⟨req, request⟩ := Option.isSome_iff_exists.mp asked
  have arrived : uploadAnswer.arrived = HttpServer.encode uploadResponse := by
    rw [Socket.arrived, uploadAnswer, List.flatten_cons, List.flatten_cons, List.flatten_nil, List.append_nil,
      List.take_append_drop]
  have lower : (text "X-Object-Version").map toLower = text "x-object-version" := by decide +kernel
  obtain ⟨status, body, headers⟩ :=
    receive_answered (serveConnection_answered request) arrived uploadResponse_sendable
  exact ⟨status, body, lower ▸ headers _ _ (OrderedMap.lookup_insert_self _ _ _)⟩

end Dos.Network
