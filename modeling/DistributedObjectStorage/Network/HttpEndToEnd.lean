import Mathlib.Algebra.Order.Ring.Rat
import Mathlib.Data.Rat.Cast.OfScientific
import DistributedObjectStorage.Network.GatewayInstruments
import DistributedObjectStorage.Network.HttpResponses
import DistributedObjectStorage.Network.ReplicationTransparency

/-!
# From the command line to the map

A call goes out as the bytes of a request and comes back as the bytes of a
response, in whatever blocks the connections make of them. In between are the
parser, the gateway with its instruments, the coordinator and its nodes. What the
client reads off the response is what one versioned map would have answered.
-/
namespace Dos.Network
open ControlPlane HttpServer HttpClient HttpGateway Metrics Scanning Storage Transition

/-- A connection hands the bytes over in blocks of its own choice. -/
structure Link where
  carry : Bytes → Socket
  whole : ∀ bytes, (carry bytes).arrived = bytes

namespace CoordinatorCall

/-! ## The requests of the command line -/

def method : CoordinatorCall → Bytes
  | .put .. => text "PUT"
  | .get _ | .list _ => text "GET"
  | .head _ => text "HEAD"
  | .delete _ => text "DELETE"

def listTarget (pre : Bytes) : Bytes := if pre = [] then kPrefix else text "/objects?prefix=" ++ pre

def target : CoordinatorCall → Bytes
  | .put key _ | .get key | .head key | .delete key => text "/objects/" ++ key
  | .list pre => listTarget pre

def body : CoordinatorCall → Bytes
  | .put _ data => data
  | _ => []

/-- The call as a request to the service. -/
def asked (call : CoordinatorCall) (now : Int) : ObjectRequest :=
  match call with
  | .put key data => .put key data now
  | .get key => .get key
  | .list pre => .list pre
  | .head key => .head key
  | .delete key => .delete key

/-- The response that the gateway makes of an answer. An answer of another kind
never comes. -/
def respond : CoordinatorCall → ObjectAnswer → HttpResponse
  | .put key _, .row result => putReply key result
  | .get _, .bytes result => getReply result
  | .list _, .rows result => listReply result
  | .head _, .row result => headReply result
  | .delete _, .status status => deleteReply status
  | _, _ => {}

/-- The call fits into a target: keys are of plain bytes, and a listing asks for
neither blanks nor ampersands. -/
def Fits : CoordinatorCall → Prop
  | .put key data => key ≠ [] ∧ (∀ b ∈ key, plain b = true) ∧ data.length < 2 ^ 64
  | .get key | .head key | .delete key => key ≠ [] ∧ ∀ b ∈ key, plain b = true
  | .list pre => ∀ b ∈ pre, isSpace b = false ∧ b ≠ 38

end CoordinatorCall

/-! ## One exchange -/

/-- The gateway in front of its coordinator. -/
structure WebGateway (V : Type) [Zero V] where
  coordinator : Coordinator
  instruments : Instruments V := {}

/-- A call, and what happens around it: to its connection and to the calls that
the coordinator makes for it. -/
structure Exchange (V : Type) where
  call : CoordinatorCall
  env : Surroundings V
  now : Int
  net : Bytes → Delivery
  out : Link
  back : Link

section Machine
variable {V : Type} [Zero V] [One V] [Add V] [NatCast V] [IntCast V] [LE V] [DecidableLE V] [OfScientific V]
  (render : V → Bytes)

/-- The metrics are served before any routing. -/
def WebGateway.handle (g : WebGateway V) (x : Exchange V) (req : HttpRequest) : WebGateway V × HttpResponse :=
  let routed :=
    if req.path = text "/metrics" then (g.coordinator, {}) else (route req).run g.coordinator x.net x.now
  let handled := g.instruments.handle render x.env req routed.2
  (⟨routed.1, handled.1⟩, handled.2)

def WebGateway.exchange (client : HttpClient) (g : WebGateway V) (x : Exchange V) :
    WebGateway V × StatusOr HttpClientResponse :=
  match client.request x.call.method x.call.target x.call.body with
  | .error status => (g, .error status)
  | .ok sent =>
      match serveConnection (fun req => (g.handle render x req).2) (x.out.carry sent) with
      | .answered req bytes => ((g.handle render x req).1, .ok (receive (x.back.carry bytes)))
      | .closed | .threw _ => (g, .ok (receive (x.back.carry [])))

end Machine

/-! ## The request -/

namespace CoordinatorCall

theorem parseTarget_list {pre : Bytes} (clean : 38 ∉ pre) :
    parseTarget (text "/objects?prefix=" ++ pre) =
      (kPrefix, (∅ : OrderedMap Bytes Bytes).insert (text "prefix") pre) := by
  have cut : text "/objects?prefix=" ++ pre = kPrefix ++ 63 :: (text "prefix=" ++ pre) := by
    have head : text "/objects?prefix=" = kPrefix ++ 63 :: text "prefix=" := by decide +kernel
    rw [head, List.append_assoc, List.cons_append]
  have pair : text "prefix=" ++ pre = text "prefix" ++ 61 :: pre := by
    have head : text "prefix=" = text "prefix" ++ [61] := by decide +kernel
    rw [head, List.append_assoc, List.singleton_append]
  have single : 38 ∉ text "prefix=" ++ pre := List.not_mem_append (by decide +kernel) clean
  have some : text "prefix=" ++ pre ≠ [] := by simp [pair]
  simp only [parseTarget]
  rw [cut, splitAt_append (by decide +kernel), lines_last single some, List.foldl_cons, List.foldl_nil, pair,
    splitAt_append (by decide +kernel)]

theorem listTarget_spec {pre : Bytes} (clean : ∀ b ∈ pre, isSpace b = false ∧ b ≠ 38) :
    (∀ b ∈ listTarget pre, isSpace b = false) ∧ listTarget pre ≠ [] ∧
      ∃ query, parseTarget (listTarget pre) = (kPrefix, query) ∧ query[text "prefix"]?.getD [] = pre := by
  unfold listTarget
  split
  · next none =>
      have split : splitAt 63 kPrefix = (kPrefix, []) := by decide +kernel
      refine ⟨by decide +kernel, by decide +kernel, ∅, ?_, by simp [none]⟩
      simp only [parseTarget, split]
      rfl
  · have solid : ∀ b ∈ text "/objects?prefix=", isSpace b = false := by decide +kernel
    refine ⟨List.forall_mem_append.mpr ⟨solid, fun b member => (clean b member).1⟩, ?_, _,
      parseTarget_list fun member => (clean 38 member).2 rfl, by simp⟩
    exact List.append_ne_nil_of_left_ne_nil (by decide +kernel) _

theorem route_list (query : OrderedMap Bytes Bytes) :
    route ⟨text "GET", kPrefix, query, []⟩ = .ask (.list (query[text "prefix"]?.getD [])) listReply := by
  have other : text "GET" ≠ text "PUT" := by decide +kernel
  rw [route, if_pos List.prefix_rfl, if_neg (by simp), routeKey, if_neg other, if_pos rfl, if_pos rfl]

theorem object_path (key : Bytes) : text "/objects/" ++ key ≠ text "/metrics" := by
  intro same
  have start : text "/objects/" <+: text "/metrics" := same ▸ List.prefix_append ..
  revert start
  decide +kernel

section Arrival
variable {client : HttpClient} {socket : Socket} (handler : HttpRequest → HttpResponse)

/-- The server hands the gateway the request that the call stands for. -/
theorem arrives (accepted : inetPton client.host = true) {call : CoordinatorCall} (fits : call.Fits)
    (sent : socket.arrived = client.encode call.method call.target call.body octets) :
    ∃ req, (serveConnection handler socket).request = some req ∧ req.path ≠ text "/metrics" ∧
      ∀ c net now, (route req).run c net now =
        ((c.serve net (call.asked now)).1, call.respond (c.serve net (call.asked now)).2) := by
  have type : IsValue octets := by decide +kernel
  have object (method key body : Bytes) (known : method ∈ objectMethods) (all : ∀ b ∈ key, plain b = true)
      (size : body.length < 2 ^ 64)
      (sent : socket.arrived = client.encode method (text "/objects/" ++ key) body octets) :
      (serveConnection handler socket).request = some ⟨method, text "/objects/" ++ key, ∅, body⟩ :=
    served_plain handler (if_pos accepted) known all type size sent
  obtain ⟨first, second, third⟩ : text "GET" ≠ text "PUT" ∧ (text "HEAD" ≠ text "PUT" ∧ text "HEAD" ≠ text "GET") ∧
      text "DELETE" ≠ text "PUT" ∧ text "DELETE" ≠ text "GET" ∧ text "DELETE" ≠ text "HEAD" := by decide +kernel
  cases call with
  | put key data =>
      refine ⟨_, object (text "PUT") key data (by decide) fits.2.1 fits.2.2 sent, object_path key, fun c net now => ?_⟩
      rw [route_past (objects_append key), routeKey, if_pos rfl, if_neg fits.1]
      rfl
  | get key =>
      refine ⟨_, object (text "GET") key [] (by decide) fits.2 (by decide) sent, object_path key, fun c net now => ?_⟩
      rw [route_past (objects_append key), routeKey, if_neg first, if_pos rfl, if_neg fits.1]
      rfl
  | head key =>
      refine ⟨_, object (text "HEAD") key [] (by decide) fits.2 (by decide) sent, object_path key, fun c net now => ?_⟩
      rw [route_past (objects_append key), routeKey, if_neg second.1, if_neg second.2, if_pos rfl, if_neg fits.1]
      rfl
  | delete key =>
      refine ⟨_, object (text "DELETE") key [] (by decide) fits.2 (by decide) sent, object_path key,
        fun c net now => ?_⟩
      rw [route_past (objects_append key), routeKey, if_neg third.1, if_neg third.2.1, if_neg third.2.2, if_pos rfl,
        if_neg fits.1]
      rfl
  | list pre =>
      obtain ⟨solid, some, query, parsed, asked⟩ := listTarget_spec fits
      have proper : client.Proper (text "GET") (listTarget pre) octets := ⟨accepted, by decide +kernel, solid, type⟩
      have small : ([] : Bytes).length < 2 ^ 64 := by decide
      have served : (serveConnection handler socket).request = Option.some ⟨text "GET", kPrefix, query, []⟩ := by
        rw [encode_served proper ⟨by decide +kernel, some⟩ small sent handler, parsed]
      have path : kPrefix ≠ text "/metrics" := by decide +kernel
      refine ⟨_, served, path, fun c net now => ?_⟩
      rw [route_list, asked]
      rfl

end Arrival
end CoordinatorCall

/-! ## The response -/

/-- What a client of the command line can read off a response. -/
structure Seen where
  status : Int
  body : Bytes
  version : Option Bytes
  size : Option Bytes
  checksum : Option Bytes

def HttpClientResponse.seen (r : HttpClientResponse) : Seen where
  status := r.status
  body := r.body
  version := r.headers[text "x-object-version"]?
  size := r.headers[text "x-object-size"]?
  checksum := r.headers[text "x-object-checksum"]?

def HttpResponse.shown (r : HttpResponse) : Seen where
  status := r.status
  body := r.body
  version := r.headers[text "X-Object-Version"]?
  size := r.headers[text "X-Object-Size"]?
  checksum := r.headers[text "X-Object-Checksum"]?

def objectHeaders : List Bytes := [text "X-Object-Version", text "X-Object-Size", text "X-Object-Checksum"]

def requestHeaders : List Bytes := text "X-Request-Id" :: objectHeaders

/-- A text of hexadecimal digits. -/
def IsHex (s : Bytes) : Prop := ∀ b ∈ s, b ∈ Sha256.hexDigits

theorem IsHex.isValue {s : Bytes} (hex : IsHex s) : IsValue s ∧ s.head? ≠ some 32 := by
  have clean : 13 ∉ Sha256.hexDigits ∧ 10 ∉ Sha256.hexDigits ∧ 32 ∉ Sha256.hexDigits := by decide +kernel
  refine ⟨⟨fun member => clean.1 (hex 13 member), fun member => clean.2.1 (hex 10 member)⟩, fun first => ?_⟩
  exact clean.2.2 (hex 32 (List.mem_of_mem_head? first))

theorem isHex_toString (n : ℕ) : IsHex (text (toString n)) := by
  intro b member
  have digits : ∀ k < 256, isDigit (UInt8.ofNat k) = true → UInt8.ofNat k ∈ Sha256.hexDigits := by decide +kernel
  have known := digits b.toNat b.toNat_lt
  rw [UInt8.ofNat_toNat] at known
  exact known (isDigit_of_mem_toString n b member)

theorem isHex_sha256Hex (data : Bytes) : IsHex (sha256Hex data) := by
  have digit (k : ℕ) : Sha256.hexDigits.getD k 48 ∈ Sha256.hexDigits := by
    rw [List.getD_eq_getElem?_getD]
    cases found : Sha256.hexDigits[k]? with
    | none => decide +kernel
    | some c => exact List.mem_of_getElem? found
  intro b member
  simp only [sha256Hex, Sha256.hexDigest, List.mem_flatMap] at member
  obtain ⟨word, -, member⟩ := member
  obtain ⟨shift, -, rfl⟩ := List.mem_map.mp member
  exact digit _

theorem isHex_newRequestId (n r : UInt64) : IsHex (newRequestId n r) := by
  have digits (m : ℕ) : ∀ c ∈ Nat.toDigits 16 m, ∃ k < 16, c = Nat.digitChar k := by
    induction m using Nat.strongRecOn with
    | _ m ih =>
        by_cases small : m < 16
        · rw [Nat.toDigits_of_lt_base small]
          intro c member
          exact ⟨m, small, List.mem_singleton.mp member⟩
        · rw [Nat.toDigits_of_base_le (by decide) (Nat.le_of_not_lt small)]
          intro c member
          rcases List.mem_append.mp member with high | low
          · exact ih (m / 16) (by omega) c high
          · exact ⟨m % 16, Nat.mod_lt _ (by decide), List.mem_singleton.mp low⟩
  have each : ∀ k < 16, (Nat.digitChar k).val.toNat < 128 ∧ (Nat.digitChar k).val.toUInt8 ∈ Sha256.hexDigits := by
    decide +kernel
  unfold newRequestId
  rw [text_ascii]
  · intro b member
    obtain ⟨c, listed, rfl⟩ := List.mem_map.mp member
    obtain ⟨k, small, rfl⟩ := digits _ c listed
    exact (each k small).2
  · intro c listed
    obtain ⟨k, small, rfl⟩ := digits _ c listed
    exact (each k small).1

section Received
variable {resp : HttpResponse} {socket : Socket}

/-- A header is read back, also as missing. -/
theorem lookup_written (sendable : resp.Sendable) {name : Bytes}
    (apart : ∀ field ∈ writtenFields resp, field.1.map toLower = name.map toLower → field.1 = name)
    (own : name ∉ [text "Content-Length", text "Content-Type", text "Connection"]) :
    ((writtenBlock sendable).rows.foldl addField ∅)[name.map toLower]? = resp.headers[name]? := by
  cases stored : resp.headers[name]? with
  | some value => exact sendable.lookup (Std.ExtTreeMap.mem_toList_iff_getElem?_eq_some.mpr stored)
  | none =>
      rw [writtenBlock_rows, lookup_foldl_other (fun field member => (sendable.mem_writtenFields field member).1.1)]
      · simp
      · intro field member same
        have equal := apart field member same
        simp only [writtenFields, List.mem_cons, List.mem_append, List.not_mem_nil, or_false] at member
        rcases member with rfl | rfl | listed | rfl
        · exact own (equal ▸ by simp)
        · exact own (equal ▸ by simp)
        · rw [Std.ExtTreeMap.mem_toList_iff_getElem?_eq_some, equal, stored] at listed
          cases listed
        · exact own (equal ▸ by simp)

end Received

/-- Only headers about an object, with values of hexadecimal digits. -/
def ObjectFields (headers : OrderedMap Bytes Bytes) : Prop :=
  ∀ name value : Bytes, headers[name]? = some value → name ∈ objectHeaders ∧ IsHex value

theorem ObjectFields.empty : ObjectFields ∅ := by
  intro name value found
  simp at found

theorem ObjectFields.insert {headers : OrderedMap Bytes Bytes} (fields : ObjectFields headers) {name value : Bytes}
    (known : name ∈ objectHeaders) (hex : IsHex value) : ObjectFields (headers.insert name value) := by
  intro name' value' found
  rw [OrderedMap.lookup_insert] at found
  split at found
  · next same =>
      cases found
      exact ⟨same ▸ known, hex⟩
  · exact fields name' value' found

/-- What the responses of the gateway have in common, before the request id. -/
structure HttpResponse.Presentable (resp : HttpResponse) : Prop where
  status : 100 ≤ resp.status ∧ resp.status < 1000
  contentType : IsValue resp.contentType
  headers : ObjectFields resp.headers

/-- The same response with the id of its request. -/
def HttpResponse.tagged (resp : HttpResponse) (id : Bytes) : HttpResponse :=
  { resp with headers := resp.headers.insert (text "X-Request-Id") id }

section Tagged
variable {resp : HttpResponse} {id : Bytes}

theorem HttpResponse.Presentable.mem_tagged (presentable : resp.Presentable) (hex : IsHex id) :
    ∀ field ∈ (resp.tagged id).headers.toList, field.1 ∈ requestHeaders ∧ IsHex field.2 := by
  intro field listed
  have found := Std.ExtTreeMap.mem_toList_iff_getElem?_eq_some.mp listed
  unfold HttpResponse.tagged at found
  rw [OrderedMap.lookup_insert] at found
  split at found
  · next same =>
      cases found
      exact ⟨same ▸ List.mem_cons_self, hex⟩
  · obtain ⟨known, value⟩ := presentable.headers _ _ found
    exact ⟨List.mem_cons_of_mem _ known, value⟩

theorem HttpResponse.Presentable.sendable (presentable : resp.Presentable) (hex : IsHex id) :
    (resp.tagged id).Sendable := by
  have each := presentable.mem_tagged hex
  have names : ∀ name ∈ requestHeaders, IsName name := by decide +kernel
  have distinct : ∀ name ∈ requestHeaders, ∀ name' ∈ requestHeaders,
      name.map toLower = name'.map toLower → name = name' := by decide +kernel
  have reserved : ∀ name ∈ requestHeaders,
      name.map toLower ∉ [text "content-length", text "content-type", text "connection"] := by decide +kernel
  exact ⟨presentable.status, presentable.contentType, fun field listed => names _ (each field listed).1,
    fun field listed => (each field listed).2.isValue,
    fun field listed field' listed' => distinct _ (each field listed).1 _ (each field' listed').1,
    fun field listed => reserved _ (each field listed).1⟩

/-- The client sees the response, whatever the request id and the blocks. -/
theorem HttpResponse.Presentable.seen (presentable : resp.Presentable) (hex : IsHex id) {socket : Socket}
    (arrived : socket.arrived = HttpServer.encode (resp.tagged id)) : (receive socket).seen = resp.shown := by
  have sendable := presentable.sendable hex
  have apart : ∀ name ∈ objectHeaders, ∀ field ∈ writtenFields (resp.tagged id),
      field.1.map toLower = name.map toLower → field.1 = name := by
    have known : ∀ name ∈ objectHeaders,
        ∀ name' ∈ [text "Content-Length", text "Content-Type", text "Connection"] ++ requestHeaders,
        name'.map toLower = name.map toLower → name' = name := by decide +kernel
    intro name listed field member
    refine known name listed field.1 ?_
    simp only [writtenFields, List.mem_cons, List.mem_append, List.not_mem_nil, or_false] at member
    rcases member with rfl | rfl | extra | rfl
    · simp
    · simp
    · exact List.mem_append_right _ (presentable.mem_tagged hex field extra).1
    · simp
  have read (name : Bytes) (listed : name ∈ objectHeaders) :
      ((writtenBlock sendable).rows.foldl addField ∅)[name.map toLower]? = resp.headers[name]? := by
    have own : ∀ name ∈ objectHeaders, name ∉ [text "Content-Length", text "Content-Type", text "Connection"] ∧
        text "X-Request-Id" ≠ name := by decide +kernel
    rw [lookup_written sendable (apart name listed) (own name listed).1]
    exact OrderedMap.lookup_insert_ne _ _ (own name listed).2
  obtain ⟨version, size, checksum⟩ : (text "X-Object-Version").map toLower = text "x-object-version" ∧
      (text "X-Object-Size").map toLower = text "x-object-size" ∧
      (text "X-Object-Checksum").map toLower = text "x-object-checksum" := by decide +kernel
  rw [receive_encode sendable arrived]
  simp only [HttpClientResponse.seen, HttpResponse.shown, ← version, ← size, ← checksum,
    read (text "X-Object-Version") (by decide), read (text "X-Object-Size") (by decide),
    read (text "X-Object-Checksum") (by decide)]
  rfl

end Tagged
/-! ## The replies -/

section Replies

theorem presentable_of_known {resp : HttpResponse}
    (status : resp.status ∈ [200, 201, 204, 400, 404, 409, 422, 500, 503])
    (type : resp.contentType ∈ [text "text/plain", text "application/json", octets])
    (headers : ObjectFields resp.headers) : resp.Presentable := by
  have codes : ∀ code ∈ [200, 201, 204, 400, 404, 409, 422, 500, 503], 100 ≤ code ∧ code < 1000 := by decide
  have types : ∀ type ∈ [text "text/plain", text "application/json", octets], IsValue type := by decide +kernel
  exact ⟨codes _ status, types _ type, headers⟩

theorem mem_httpStatusFor (code : StatusCode) : httpStatusFor code ∈ [200, 201, 204, 400, 404, 409, 422, 500, 503] := by
  cases code <;> decide

theorem textError_presentable (status : Status) : (textError status).Presentable :=
  presentable_of_known (mem_httpStatusFor status.code) (by simp [textError]) .empty

theorem getReply_presentable (result : StatusOr Bytes) : (getReply result).Presentable := by
  cases result with
  | error status => exact textError_presentable status
  | ok data => exact presentable_of_known (by simp [getReply]) (by simp [getReply, octets]) .empty

theorem listReply_presentable (result : StatusOr (List ObjectMetadata)) : (listReply result).Presentable := by
  cases result with
  | error status => exact textError_presentable status
  | ok rows => exact presentable_of_known (by simp [listReply]) (by simp [listReply]) .empty

theorem deleteReply_presentable (status : Status) : (deleteReply status).Presentable := by
  unfold deleteReply
  split
  · exact presentable_of_known (by simp) (by simp [octets]) .empty
  · exact textError_presentable status

theorem putReply_presentable (key : Bytes) (result : StatusOr ObjectMetadata) : (putReply key result).Presentable := by
  cases result with
  | error status => exact textError_presentable status
  | ok row =>
      exact presentable_of_known (by simp [putReply]) (by simp [putReply])
        (ObjectFields.empty.insert (by decide) (isHex_toString _))

theorem headReply_presentable {result : StatusOr ObjectMetadata} (hex : ∀ row, result = .ok row → IsHex row.checksum) :
    (headReply result).Presentable := by
  cases result with
  | error status =>
      exact presentable_of_known (mem_httpStatusFor status.code) (by simp [headReply, octets]) .empty
  | ok row =>
      exact presentable_of_known (by simp [headReply]) (by simp [headReply, octets])
        (((ObjectFields.empty.insert (by decide) (isHex_toString _)).insert (by decide) (isHex_toString _)).insert
          (by decide) (hex row rfl))

end Replies

namespace ObjectService

/-- Every location has a checksum of hexadecimal digits. -/
def Signed (s : ObjectService) : Prop :=
  ∀ (key : Bytes) (loc : ObjectLocation), s.locations[key]? = some loc → IsHex loc.checksum

theorem Signed.empty : ObjectService.empty.Signed := by
  intro key loc found
  simp [ObjectService.empty] at found

variable {s : ObjectService}

theorem lookup_ok {key : Bytes} {loc : ObjectLocation} (found : s.lookup key = .ok loc) :
    s.locations[key]? = some loc := by
  unfold lookup at found
  split at found
  · cases found
  · next here =>
      split at found
      · cases found
      · cases found
        exact here

theorem Signed.register (signed : s.Signed) {row : ObjectMetadata} (hex : IsHex row.checksum) :
    (s.register row).1.Signed := by
  intro key loc found
  simp only [ObjectService.register] at found
  rw [OrderedMap.lookup_insert] at found
  split at found
  · cases found
    exact hex
  · exact signed key loc found

theorem Signed.serve (signed : s.Signed) (req : ObjectRequest) : (s.serve req).1.Signed := by
  cases req with
  | put key data now =>
      have kept : ObjectService.Signed
          { s with map := (s.map.write (.putWithVersion key data (s.nextVersion key)) now).1 } :=
        signed
      exact kept.register (isHex_sha256Hex data)
  | putConditional key data expectedVersion requestId now =>
      have kept : ObjectService.Signed
          { s with map := (s.map.write (.putConditional key data expectedVersion requestId) now).1 } := signed
      simp only [ObjectService.serve, ObjectService.putConditional]
      split
      · exact kept.register (isHex_sha256Hex data)
      · exact kept
  | get key => exact signed
  | head key => exact signed
  | list pre => exact signed
  | delete key =>
      simp only [ObjectService.serve, ObjectService.delete]
      split
      · exact signed
      · next loc found =>
          intro key' loc' here
          rw [OrderedMap.lookup_insert] at here
          split at here
          · cases here
            exact signed key loc (lookup_ok found)
          · exact signed key' loc' here

theorem Signed.respond (signed : s.Signed) (call : CoordinatorCall) (now : Int) :
    (call.respond (s.serve (call.asked now)).2).Presentable := by
  cases call with
  | put key data => exact putReply_presentable key (.ok _)
  | get key => exact getReply_presentable _
  | list pre => exact listReply_presentable (.ok _)
  | head key =>
      refine headReply_presentable fun row answered => ?_
      unfold ObjectService.head at answered
      cases found : s.lookup key with
      | error status =>
          rw [found] at answered
          cases answered
      | ok loc =>
          rw [found] at answered
          cases answered
          exact signed key loc (lookup_ok found)
  | delete key =>
      change (CoordinatorCall.respond (.delete key) (s.delete key).2).Presentable
      unfold ObjectService.delete
      dsimp only
      split <;> exact deleteReply_presentable _

end ObjectService

theorem CoordinatorCall.asked_plain {K : Set Bytes} (call : CoordinatorCall) (now : Int)
    (within : ∀ key, call.key = some key → key ∈ K) : (call.asked now).Plain K := by
  cases call with
  | put key data => exact within key rfl
  | get key => exact within key rfl
  | list pre => trivial
  | head key => exact within key rfl
  | delete key => exact within key rfl

/-! ## Whole sessions -/

section Sessions
variable {V : Type} [Zero V] [One V] [Add V] [NatCast V] [IntCast V] [LE V] [DecidableLE V] [OfScientific V]
  (render : V → Bytes)

/-- What the client gets to see of an exchange. -/
def WebGateway.observe (client : HttpClient) (g : WebGateway V) (x : Exchange V) : WebGateway V × StatusOr Seen :=
  ((g.exchange render client x).1, (g.exchange render client x).2.map HttpClientResponse.seen)

/-- What it would see of one versioned map. -/
def ObjectService.show (s : ObjectService) (x : Exchange V) : ObjectService × StatusOr Seen :=
  ((s.serve (x.call.asked x.now)).1, .ok (x.call.respond (s.serve (x.call.asked x.now)).2).shown)

theorem Instruments.handle_object (i : Instruments V) (env : Surroundings V) {req : HttpRequest}
    (other : req.path ≠ text "/metrics") (routed : HttpResponse) :
    (i.handle render env req routed).2 = routed.tagged (newRequestId i.counter env.random) := by
  rw [Instruments.handle, if_neg other]
  rfl

/-- One exchange is one request to the coordinator, and the client sees the
response to it. -/
theorem WebGateway.observe_eq {client : HttpClient} (accepted : inetPton client.host = true) (g : WebGateway V)
    (x : Exchange V) (fits : x.call.Fits)
    (presentable : (x.call.respond (g.coordinator.serve x.net (x.call.asked x.now)).2).Presentable) :
    (g.observe render client x).1.coordinator = (g.coordinator.serve x.net (x.call.asked x.now)).1 ∧
      (g.observe render client x).2 =
        .ok (x.call.respond (g.coordinator.serve x.net (x.call.asked x.now)).2).shown := by
  obtain ⟨req, served, path, routed⟩ := CoordinatorCall.arrives (fun req => (g.handle render x req).2)
    accepted fits (x.out.whole (client.encode x.call.method x.call.target x.call.body octets))
  have answered := serveConnection_answered served
  have sent : client.request x.call.method x.call.target x.call.body =
      .ok (client.encode x.call.method x.call.target x.call.body octets) := if_pos accepted
  have handled : (g.handle render x req).1.coordinator = (g.coordinator.serve x.net (x.call.asked x.now)).1 ∧
      (g.handle render x req).2 =
        (x.call.respond (g.coordinator.serve x.net (x.call.asked x.now)).2).tagged
          (newRequestId g.instruments.counter x.env.random) := by
    simp only [WebGateway.handle, if_neg path, routed g.coordinator x.net x.now,
      Instruments.handle_object render _ _ path, and_self]
  simp only [WebGateway.observe, WebGateway.exchange, sent, answered]
  refine ⟨handled.1, ?_⟩
  rw [Except.map, handled.2, presentable.seen (isHex_newRequestId g.instruments.counter x.env.random) (x.back.whole _)]

/-- Through the client, the parser, the gateway and the coordinator, every session
looks like one with a single versioned map: status, body and object headers of
every response. It depends neither on how the connections cut the bytes, nor on
the request ids, nor on the members, the replication factor and the quorum, as
long as every call of the coordinator to a node is answered. -/
theorem http_transparent {client : HttpClient} (accepted : inetPton client.host = true) (vnodes : ℕ)
    (members : List Bytes) (opts : Options) {K : Set Bytes} (digests : Set.InjOn keyDigest K)
    (legible : ∀ key ∈ K, key ≠ [] ∧ (0 : UInt8) ∉ key) (positive : 1 ≤ opts.writeQuorum)
    (enough : ∀ key ∈ K, opts.writeQuorum ≤ ((Coordinator.fresh vnodes members opts).metadata.placementFor key
      opts.replicationFactor).length)
    {session : List (Exchange V)} (fits : ∀ x ∈ session, x.call.Fits)
    (within : ∀ x ∈ session, ∀ key, x.call.key = some key → key ∈ K)
    (answered : ∀ x ∈ session, ∀ id, x.net id = .acknowledged) :
    outputs (WebGateway.observe render client) ⟨Coordinator.fresh vnodes members opts, {}⟩ session =
      outputs ObjectService.show .empty session := by
  apply outputs_eq (fun g s => Coordinator.Mirrors K (Coordinator.fresh vnodes members opts).metadata.cluster opts
    g.coordinator s ∧ s.Signed) _ ⟨Coordinator.Mirrors.start K vnodes members opts, ObjectService.Signed.empty⟩
  rintro x member g s ⟨mirrors, signed⟩
  obtain ⟨after, same⟩ := mirrors.serve digests legible positive enough (answered x member)
    (x.call.asked_plain x.now fun key asked => within x member key asked)
  obtain ⟨moved, seen⟩ := g.observe_eq render accepted x (fits x member) (same ▸ signed.respond x.call x.now)
  exact ⟨⟨moved ▸ after, signed.serve _⟩, by rw [seen, same]; rfl⟩

/-- A connection that brings one byte at a time. -/
def drip : Link where
  carry bytes :=
    { reads := bytes.map ([·])
      nonempty := by simp
      fits := by simp }
  whole bytes := by simp [Socket.arrived, ← List.flatMap_def]

/-- Upload, inspect, download, delete and download again. -/
def shortSession : List (Exchange ℚ) :=
  [.put [107] (blankLine ++ [120]), .head [107], .get [107], .delete [107], .get [107]].map fun call =>
    ⟨call, ⟨0, 0, ⟨none, ∅⟩⟩, 0, delivered, drip, drip⟩

theorem http_transparent_shortSession :
    outputs (WebGateway.observe (fun _ => []) loopback)
        ⟨Coordinator.fresh 1 [text "a", text "b"] ⟨2, 2⟩, {}⟩ shortSession =
      outputs ObjectService.show .empty shortSession ∧
    (outputs ObjectService.show .empty shortSession)[2]? = some (.ok ⟨200, blankLine ++ [120], none, none, none⟩) := by
  have legible : ∀ key ∈ ({[107]} : Set Bytes), key ≠ [] ∧ (0 : UInt8) ∉ key := by
    rintro _ rfl
    decide
  have enough : ∀ key ∈ ({[107]} : Set Bytes),
      2 ≤ ((Coordinator.fresh 1 [text "a", text "b"] ⟨2, 2⟩).metadata.placementFor key 2).length := by
    rintro _ rfl
    decide +kernel
  have fits : ∀ x ∈ shortSession, x.call.Fits := by
    have key : ([107] : Bytes) ≠ [] ∧ ∀ b ∈ ([107] : Bytes), plain b = true := by decide +kernel
    simp [shortSession, CoordinatorCall.Fits, key, blankLine, crlf]
  have within : ∀ x ∈ shortSession, ∀ key, x.call.key = some key → key ∈ ({[107]} : Set Bytes) := by
    simp [shortSession, CoordinatorCall.key]
  exact ⟨http_transparent (fun _ => []) (by decide +kernel) 1 [text "a", text "b"] ⟨2, 2⟩ (Set.injOn_singleton _ _)
    legible (by decide) enough fits within (by simp [shortSession]), rfl⟩

end Sessions
end Dos.Network
