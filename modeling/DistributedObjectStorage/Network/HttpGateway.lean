import DistributedObjectStorage.Network.Coordinator
import DistributedObjectStorage.Network.HttpClient

/-!
# The HTTP gateway

A request is routed to a call on the coordinator, and the answer to a response.
The metrics around the routing are in `GatewayInstruments`; logging is left out.
-/
namespace Dos.Network
open Scanning Storage HttpServer

/-- The calls on the coordinator that a request can lead to. -/
inductive CoordinatorCall where
  | put (key data : Bytes)
  | get (key : Bytes)
  | list (pre : Bytes)
  | head (key : Bytes)
  | delete (key : Bytes)
  deriving DecidableEq, Repr

namespace CoordinatorCall

def Answer : CoordinatorCall → Type
  | .put .. => StatusOr ObjectMetadata
  | .get _ => StatusOr Bytes
  | .list _ => StatusOr (List ObjectMetadata)
  | .head _ => StatusOr ObjectMetadata
  | .delete _ => Status

/-- The object that the call is about. -/
def key : CoordinatorCall → Option Bytes
  | .put key _ => some key
  | .get key => some key
  | .list _ => none
  | .head key => some key
  | .delete key => some key

end CoordinatorCall

/-- The gateway responds at once, or with what the coordinator answers. -/
inductive Routed where
  | respond (resp : HttpResponse)
  | ask (call : CoordinatorCall) (reply : call.Answer → HttpResponse)

namespace Routed

/-- The object that the coordinator is called for. -/
def key : Routed → Option Bytes
  | .respond _ => none
  | .ask call _ => call.key

/-- The status of a response that the coordinator has no part in. -/
def status : Routed → Option ℕ
  | .respond resp => some resp.status
  | .ask .. => none

end Routed

namespace HttpGateway

def httpStatusFor : StatusCode → ℕ
  | .ok => 200
  | .notFound => 404
  | .conflict => 409
  | .invalidArgument => 400
  | .checksumMismatch => 422
  | .unavailable => 503
  | .alreadyExists => 409
  | .ioError => 500

def textError (s : Status) : HttpResponse where
  status := httpStatusFor s.code
  contentType := text "text/plain"
  body := s.toString ++ text "\n"

/-- Only quotes and backslashes are escaped. -/
def jsonEscape (s : Bytes) : Bytes := s.flatMap fun b => if b = 34 ∨ b = 92 then [92, b] else [b]

def jsonEntry (m : ObjectMetadata) : Bytes :=
  text "\x7b\"key\":\"" ++ jsonEscape m.key ++ text "\",\"version\":" ++ text (toString m.version) ++
    text ",\"size\":" ++ text (toString m.size) ++ text ",\"checksum\":\"" ++ jsonEscape m.checksum ++
    text "\"\x7d"

def jsonListing (rows : List ObjectMetadata) : Bytes :=
  text "[" ++ (text ",").intercalate (rows.map jsonEntry) ++ text "]"

def kPrefix : Bytes := text "/objects"

def notFound : HttpResponse where
  status := 404
  contentType := text "text/plain"
  body := text "not found; use /objects/<key>\n"

def putReply (key : Bytes) : StatusOr ObjectMetadata → HttpResponse
  | .error status => textError status
  | .ok m =>
      { status := 201
        contentType := text "text/plain"
        headers := (∅ : OrderedMap Bytes Bytes).insert (text "X-Object-Version") (text (toString m.version))
        body := text "stored " ++ key ++ text " (v" ++ text (toString m.version) ++ text ")\n" }

def listReply : StatusOr (List ObjectMetadata) → HttpResponse
  | .error status => textError status
  | .ok rows => { status := 200, contentType := text "application/json", body := jsonListing rows }

def getReply : StatusOr Bytes → HttpResponse
  | .error status => textError status
  | .ok data => { status := 200, body := data }

/-- A failed HEAD has no body. -/
def headReply : StatusOr ObjectMetadata → HttpResponse
  | .error status => { status := httpStatusFor status.code }
  | .ok m =>
      { status := 200
        headers := (((∅ : OrderedMap Bytes Bytes).insert
          (text "X-Object-Version") (text (toString m.version))).insert
          (text "X-Object-Size") (text (toString m.size))).insert
          (text "X-Object-Checksum") m.checksum }

def deleteReply (s : Status) : HttpResponse := if s.isOk then { status := 204 } else textError s

def needsKey (method : Bytes) : Routed :=
  .respond (textError (.invalidArgument (method ++ text " requires a key")))

/-- The routing by the method. The empty key stands for the collection. -/
def routeKey (req : HttpRequest) (key : Bytes) : Routed :=
  if req.method = text "PUT" then
    if key = [] then needsKey req.method else .ask (.put key req.body) (putReply key)
  else if req.method = text "GET" then
    if key = [] then .ask (.list (req.query[text "prefix"]?.getD [])) listReply else .ask (.get key) getReply
  else if req.method = text "HEAD" then
    if key = [] then needsKey req.method else .ask (.head key) headReply
  else if req.method = text "DELETE" then
    if key = [] then needsKey req.method else .ask (.delete key) deleteReply
  else
    .respond
      { status := 400
        contentType := text "text/plain"
        body := text "unsupported method: " ++ req.method ++ text "\n" }

/-- The path has to start with the prefix; one more byte is skipped, whatever it
is, and the rest is the key. -/
def route (req : HttpRequest) : Routed :=
  if kPrefix <+: req.path then
    routeKey req
      (if kPrefix.length + 1 < req.path.length then req.path.drop (kPrefix.length + 1) else [])
  else .respond notFound

def objectMethods : List Bytes := [text "PUT", text "GET", text "HEAD", text "DELETE"]

section Routing
variable {req : HttpRequest}

theorem routeKey_key (req : HttpRequest) (key : Bytes) :
    (routeKey req key).key = if key ≠ [] ∧ req.method ∈ objectMethods then some key else none := by
  by_cases none : key = []
  · rw [if_neg (fun both => both.1 none)]
    simp only [routeKey, none, if_true, needsKey]
    split <;> [rfl; split <;> [rfl; split <;> [rfl; split <;> rfl]]]
  · simp only [routeKey, none, if_false, ne_eq, not_false_eq_true, true_and, objectMethods, List.mem_cons,
      List.not_mem_nil, or_false]
    by_cases put : req.method = text "PUT"
    · rw [if_pos put, if_pos (.inl put)]
      rfl
    · rw [if_neg put]
      by_cases get : req.method = text "GET"
      · rw [if_pos get, if_pos (.inr (.inl get))]
        rfl
      · rw [if_neg get]
        by_cases head : req.method = text "HEAD"
        · rw [if_pos head, if_pos (.inr (.inr (.inl head)))]
          rfl
        · rw [if_neg head]
          by_cases delete : req.method = text "DELETE"
          · rw [if_pos delete, if_pos (.inr (.inr (.inr delete)))]
            rfl
          · rw [if_neg delete, if_neg (by simp [put, get, head, delete])]
            rfl

/-- Past the prefix test the gateway itself responds with 400 at most. -/
theorem routeKey_status (req : HttpRequest) (key : Bytes) :
    (routeKey req key).status = none ∨ (routeKey req key).status = some 400 := by
  unfold routeKey
  split
  · split
    · exact .inr rfl
    · exact .inl rfl
  · split
    · split <;> exact .inl rfl
    · split
      · split
        · exact .inr rfl
        · exact .inl rfl
      · split
        · split
          · exact .inr rfl
          · exact .inl rfl
        · exact .inr rfl

theorem route_status_iff : (route req).status = some 404 ↔ ¬ kPrefix <+: req.path := by
  unfold route
  split
  · next start =>
      refine ⟨fun refused => ?_, fun other => absurd start other⟩
      rcases routeKey_status req
        (if kPrefix.length + 1 < req.path.length then req.path.drop (kPrefix.length + 1) else []) with none | bad
      · cases none.symm.trans refused
      · cases bad.symm.trans refused
  · next other => exact ⟨fun _ => other, fun _ => rfl⟩

theorem route_past {b : UInt8} {key : Bytes} (path : req.path = kPrefix ++ b :: key) :
    route req = routeKey req key := by
  rw [route, if_pos (path ▸ List.prefix_append ..), path, List.drop_length_add_append, List.length_append]
  cases key with
  | nil => simp
  | cons a key => simp

/-- The key is all of the path but the prefix and one more byte. -/
theorem route_key_iff {key : Bytes} :
    (route req).key = some key ↔
      key ≠ [] ∧ req.method ∈ objectMethods ∧ ∃ b, req.path = kPrefix ++ b :: key := by
  constructor
  · intro found
    by_cases start : kPrefix <+: req.path
    · obtain ⟨rest, path⟩ := start
      cases rest with
      | nil =>
          rw [route, ← path, List.append_nil, if_pos List.prefix_rfl, if_neg (by simp), routeKey_key,
            if_neg (by simp)] at found
          cases found
      | cons b rest =>
          rw [route_past path.symm, routeKey_key] at found
          split at found
          · next both =>
              cases found
              exact ⟨both.1, both.2, b, path.symm⟩
          · cases found
    · rw [route, if_neg start] at found
      cases found
  · rintro ⟨some, known, b, path⟩
    rw [route_past path, routeKey_key, if_pos ⟨some, known⟩]

end Routing

/-! ## Keys and paths -/

/-- The paths that the gateway documents. -/
def Addressable (path : Bytes) : Prop := path = kPrefix ∨ text "/objects/" <+: path

theorem objects_append (key : Bytes) : text "/objects/" ++ key = kPrefix ++ 47 :: key := by
  have slash : text "/objects/" = kPrefix ++ [47] := by decide
  rw [slash, List.append_assoc, List.singleton_append]

/-- A path addresses the object that it spells out, and all others are refused. -/
def Exact (req : HttpRequest) : Prop :=
  (∀ key, (route req).key = some key → req.path = text "/objects/" ++ key) ∧
    (¬ Addressable req.path → (route req).status = some 404)

/-- The byte after the prefix is never looked at. -/
theorem exact_iff (req : HttpRequest) : Exact req ↔ (kPrefix <+: req.path → Addressable req.path) := by
  constructor
  · intro exact start
    by_contra stray
    exact route_status_iff.mp (exact.2 stray) start
  · intro fine
    constructor
    · intro key found
      obtain ⟨-, -, b, path⟩ := route_key_iff.mp found
      rcases fine (path ▸ List.prefix_append ..) with whole | slash
      · cases List.append_cancel_left (path.symm.trans (whole.trans (List.append_nil _).symm))
      · rw [path, ← List.append_nil (text "/objects/"), objects_append, List.prefix_append_right_inj,
          List.cons_prefix_cons] at slash
        rw [path, objects_append, ← slash.1]
    · intro stray
      exact route_status_iff.mpr fun start => stray (fine start)

/-- Bytes that the request line and the target carry through. -/
def plain (b : UInt8) : Bool := ! isSpace b && b ≠ 63

theorem plain_iff {b : UInt8} : plain b = true ↔ isSpace b = false ∧ b ≠ 63 := by simp [plain]

theorem plain_objects {key : Bytes} (all : ∀ b ∈ key, plain b = true) :
    ∀ b ∈ text "/objects/" ++ key, plain b = true :=
  List.forall_mem_append.mpr ⟨by decide +kernel, all⟩

section Sent
variable {c : HttpClient} {method key body contentType : Bytes} {socket : Socket}
  (handler : HttpRequest → HttpResponse)

theorem solid_of_mem_objectMethods (known : method ∈ objectMethods) :
    method ≠ [] ∧ ∀ b ∈ method, isSpace b = false := by
  have all : ∀ method ∈ objectMethods, method ≠ [] ∧ ∀ b ∈ method, isSpace b = false := by decide +kernel
  exact all method known

theorem parseTarget_objects (key : Bytes) :
    (parseTarget (text "/objects/" ++ key)).1 = text "/objects/" ++ key.takeWhile (· ≠ 63) := by
  have before : ∀ b ∈ text "/objects/", decide (b ≠ 63) = true := by decide +kernel
  change (text "/objects/" ++ key).takeWhile (· ≠ 63) = _
  rw [List.takeWhile_append_of_pos before]

/-- The path that the handler sees goes no further than the first blank or
question mark of the key. -/
theorem path_of_served (known : method ∈ objectMethods)
    (delivered : socket.arrived = c.encode method (text "/objects/" ++ key) body contentType) {req : HttpRequest}
    (served : (serveConnection handler socket).request = some req) :
    req.path = text "/objects/" ++ (key.takeWhile (! isSpace ·)).takeWhile (· ≠ 63) := by
  obtain ⟨named, solid⟩ := solid_of_mem_objectMethods known
  obtain ⟨rest, whole⟩ := c.encode_words method (text "/objects/" ++ key) body contentType
  obtain ⟨i, found⟩ := exists_find (c.blankLine_in_encode method (text "/objects/" ++ key) body contentType)
  rw [whole] at delivered found
  -- The key ends for the server where its first blank is.
  rw [← List.takeWhile_append_dropWhile (p := (! isSpace ·)) (l := key), ← List.append_assoc,
    List.append_assoc _ _ (32 :: rest)] at delivered found
  have words : Words method (text "/objects/" ++ key.takeWhile (! isSpace ·))
      (key.dropWhile (! isSpace ·) ++ 32 :: rest) := by
    refine ⟨solid, ?_, ⟨named, by simp [objects_append]⟩, boundary_dropWhile (by decide) _ _⟩
    refine List.forall_mem_append.mpr ⟨by decide +kernel, ?_⟩
    intro b member
    simpa using List.mem_takeWhile_imp member
  have path := (words.served found (delivered ▸ List.prefix_rfl) served).2
  rw [path, parseTarget_objects]

/-- A key of plain bytes is all in the target. -/
theorem proper_of_plain (accepted : inetPton c.host = true) (known : method ∈ objectMethods)
    (type : HttpClient.IsValue contentType) (all : ∀ b ∈ key, plain b = true) :
    c.Proper method (text "/objects/" ++ key) contentType := by
  refine ⟨accepted, (solid_of_mem_objectMethods known).2, ?_, type⟩
  intro b member
  exact (plain_iff.mp (plain_objects all b member)).1

theorem parseTarget_plain (all : ∀ b ∈ key, plain b = true) :
    parseTarget (text "/objects/" ++ key) = (text "/objects/" ++ key, ∅) := by
  have before : ∀ b ∈ text "/objects/" ++ key, decide (b ≠ 63) = true := by
    intro b member
    exact decide_eq_true (plain_iff.mp (plain_objects all b member)).2
  have whole : splitAt 63 (text "/objects/" ++ key) = (text "/objects/" ++ key, []) := by
    rw [splitAt, List.takeWhile_eq_self_iff.mpr before, List.dropWhile_eq_nil_iff.mpr before]
    rfl
  simp only [parseTarget, whole]
  rfl

/-- A request for a key of plain bytes reaches the handler as it was meant. -/
theorem served_plain {sent : Bytes} (request : c.request method (text "/objects/" ++ key) body contentType = .ok sent)
    (known : method ∈ objectMethods) (all : ∀ b ∈ key, plain b = true) (type : HttpClient.IsValue contentType)
    (size : body.length < 2 ^ 64) (delivered : socket.arrived = sent) :
    (serveConnection handler socket).request =
      some { method := method, path := text "/objects/" ++ key, query := ∅, body := body } := by
  obtain ⟨accepted, rfl⟩ := HttpClient.request_ok.mp request
  have named : method ≠ [] ∧ text "/objects/" ++ key ≠ [] :=
    ⟨(solid_of_mem_objectMethods known).1, by simp [objects_append]⟩
  rw [HttpClient.encode_served (proper_of_plain accepted known type all) named size delivered, parseTarget_plain all]

/-- The coordinator is called for exactly the key that was sent when all bytes
of the key are plain. -/
theorem arrives_iff {sent : Bytes} (request : c.request method (text "/objects/" ++ key) body contentType = .ok sent)
    (known : method ∈ objectMethods) (some : key ≠ []) (type : HttpClient.IsValue contentType)
    (size : body.length < 2 ^ 64) (delivered : socket.arrived = sent) :
    ((serveConnection handler socket).request.bind fun req => (route req).key) = .some key ↔
      ∀ b ∈ key, plain b = true := by
  obtain ⟨accepted, rfl⟩ := HttpClient.request_ok.mp request
  constructor
  · intro arrives
    obtain ⟨req, served, routed⟩ := Option.bind_eq_some_iff.mp arrives
    obtain ⟨-, -, b, path⟩ := route_key_iff.mp routed
    rw [path_of_served handler known delivered served, objects_append, List.append_cancel_left_eq,
      List.cons.injEq] at path
    intro b member
    rw [← path.2] at member
    have solid := List.mem_takeWhile_imp ((List.takeWhile_prefix _).subset member)
    have unmarked := List.mem_takeWhile_imp member
    exact plain_iff.mpr ⟨by simpa using solid, of_decide_eq_true unmarked⟩
  · intro all
    rw [served_plain handler request known all type size delivered, Option.bind_some]
    apply route_key_iff.mpr
    exact ⟨some, known, 47, objects_append key⟩

/-- A key reaches the coordinator unchanged exactly when it has neither blanks
nor question marks. A path is exact unless a byte other than a slash follows the
prefix, and different exact paths address different objects. -/
theorem keys_unaliased_iff {sent : Bytes}
    (request : c.request method (text "/objects/" ++ key) body contentType = .ok sent)
    (known : method ∈ objectMethods) (some : key ≠ []) (type : HttpClient.IsValue contentType)
    (size : body.length < 2 ^ 64) (delivered : socket.arrived = sent) (req req' : HttpRequest) :
    (((serveConnection handler socket).request.bind fun req => (route req).key) = .some key ↔
        ∀ b ∈ key, plain b = true) ∧
      (Exact req ↔ (kPrefix <+: req.path → Addressable req.path)) ∧
      (Exact req → Exact req' → ∀ object, (route req).key = .some object → (route req').key = .some object →
        req.path = req'.path) := by
  refine ⟨arrives_iff handler request known some type size delivered, exact_iff req, ?_⟩
  intro exact exact' object found found'
  exact (exact.1 object found).trans (exact'.1 object found').symm

end Sent

def loopback : HttpClient := ⟨text "127.0.0.1", by decide +kernel⟩

def octets : Bytes := text "application/octet-stream"

/-- The upload of a greeting, in one block. -/
def greeting : Socket where
  reads := [loopback.encode (text "PUT") (text "/objects/" ++ text "greeting/hello") (text "hi") octets]
  nonempty := by decide +kernel
  fits := by decide +kernel

theorem keys_unaliased_greeting :
    ((serveConnection (fun _ => {}) greeting).request.bind fun req => (route req).key) =
        some (text "greeting/hello") ∧
      Exact ⟨text "GET", text "/objects/k", ∅, []⟩ := by
  have sent : loopback.request (text "PUT") (text "/objects/" ++ text "greeting/hello") (text "hi") octets =
      .ok (loopback.encode (text "PUT") (text "/objects/" ++ text "greeting/hello") (text "hi") octets) :=
    if_pos (by decide +kernel)
  obtain ⟨known, some, type, size, all⟩ : text "PUT" ∈ objectMethods ∧ text "greeting/hello" ≠ [] ∧
      HttpClient.IsValue octets ∧ (text "hi").length < 2 ^ 64 ∧ ∀ b ∈ text "greeting/hello", plain b = true := by
    decide +kernel
  have whole : greeting.arrived =
      loopback.encode (text "PUT") (text "/objects/" ++ text "greeting/hello") (text "hi") octets :=
    List.append_nil _
  obtain ⟨arrives, exact, -⟩ := keys_unaliased_iff (fun _ => {}) sent known some type size whole
    ⟨text "GET", text "/objects/k", ∅, []⟩ ⟨[], [], ∅, []⟩
  exact ⟨arrives.mpr all, exact.mpr fun _ => .inr (by decide +kernel)⟩

/-- The upload of an object whose key has a blank. -/
def blankKey : Socket where
  reads := [loopback.encode (text "PUT") (text "/objects/" ++ text "a b") (text "hi") octets]
  nonempty := by decide +kernel
  fits := by decide +kernel

/-- The upload is stored under another key, two paths address one object, and a
path that is not documented gets the listing. -/
theorem keys_aliased :
    ((serveConnection (fun _ => {}) blankKey).request.bind fun req => (route req).key) = some (text "a") ∧
      (route ⟨text "GET", text "/objectsXk", ∅, []⟩).key = some (text "k") ∧
      (route ⟨text "GET", text "/objects/k", ∅, []⟩).key = some (text "k") ∧
      (route ⟨text "GET", text "/objectsX", ∅, []⟩).status = none := by
  decide +kernel

end HttpGateway

/-! ## Over the coordinator -/

def Coordinator.serveCall (c : Coordinator) (net : Bytes → Delivery) (now : Int) :
    (call : CoordinatorCall) → Coordinator × call.Answer
  | .put key data => c.put key data net now
  | .get key => c.get key net
  | .list pre => (c, c.list pre)
  | .head key => (c, c.head key)
  | .delete key => c.delete key net

/-- What a routed request does to the coordinator, and the response. -/
def Routed.run (c : Coordinator) (net : Bytes → Delivery) (now : Int) : Routed → Coordinator × HttpResponse
  | .respond resp => (c, resp)
  | .ask call reply => ((c.serveCall net now call).1, reply (c.serveCall net now call).2)

end Dos.Network
