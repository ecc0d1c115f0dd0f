import Mathlib.Data.Int.Cast.Defs
import DistributedObjectStorage.Common.Metrics
import DistributedObjectStorage.Network.HttpGateway

/-!
# The instruments of the gateway

`Handle` gives a request an id, counts it in and out, routes it and reports to
the registry. `V` stands for `double`. Logging is left out.
-/
namespace Dos.Network
open Metrics

/-- `NewRequestId`: the counter and a random number, in hexadecimal. -/
def newRequestId (n r : UInt64) : Bytes :=
  text (String.ofList (Nat.toDigits 16 (r ^^^ (n * 0x9e3779b97f4a7c15)).toNat))

/-! ## The calls on the registry -/

section Calls
variable {V : Type}

def inFlightGauge [IntCast V] (n : ℤ) : Call V :=
  .setGauge (text "dos_http_in_flight") (text "requests being served") n []

def requestsTotal [One V] (method : Bytes) (status : ℕ) : Call V :=
  .incCounter (text "dos_http_requests_total") (text "total HTTP requests") 1
    [(text "method", method), (text "code", text (toString status))]

def errorsTotal [One V] (method : Bytes) : Call V :=
  .incCounter (text "dos_http_errors_total") (text "5xx responses") 1 [(text "method", method)]

def requestDuration (method : Bytes) (seconds : V) : Call V :=
  .observeHistogram (text "dos_http_request_duration_seconds") (text "request latency") seconds
    [(text "method", method)] []

structure CacheStats (V : Type) where
  hits : ℕ
  misses : ℕ
  hitRate : V

/-- What `MetricsText` reads from the cache, if there is one, and from the
coordinator. -/
structure Scrape (V : Type) where
  cache : Option (CacheStats V)
  health : OrderedMap Bytes ReplicaHealth

def Scrape.replicas (scrape : Scrape V) (state : ReplicaHealth) : ℕ :=
  scrape.health.toList.countP (·.2 = state)

def replicasGauge [NatCast V] (scrape : Scrape V) (state : ReplicaHealth) (name : Bytes) : Call V :=
  .setGauge (text "dos_replicas") (text "replica count by state") (scrape.replicas state) [(text "state", name)]

def Scrape.calls [NatCast V] (scrape : Scrape V) : List (Call V) :=
  scrape.cache.elim [] (fun stats =>
    [.setGauge (text "dos_cache_hits") (text "metadata cache hits") stats.hits [],
      .setGauge (text "dos_cache_misses") (text "metadata cache misses") stats.misses [],
      .setGauge (text "dos_cache_hit_ratio") (text "metadata cache hit ratio") stats.hitRate []]) ++
  [replicasGauge scrape .healthy (text "healthy"), replicasGauge scrape .lagging (text "lagging"),
    replicasGauge scrape .failed (text "failed")]

end Calls

structure Instruments (V : Type) [Zero V] where
  metrics : MetricsRegistry V := {}
  inFlight : ℤ := 0
  counter : UInt64 := 0

/-- What `Handle` finds outside the gateway. -/
structure Surroundings (V : Type) where
  random : UInt64
  seconds : V
  scrape : Scrape V

namespace Instruments
variable {V : Type} [Zero V] [One V] [Add V] [NatCast V] [IntCast V] [LE V] [DecidableLE V] [OfScientific V]
  (render : V → Bytes)

def perform (i : Instruments V) (call : Call V) : Instruments V :=
  { i with metrics := i.metrics.perform call }

/-- The response of the router is used for all requests but those for the metrics. -/
def handle (i : Instruments V) (env : Surroundings V) (req : HttpRequest) (routed : HttpResponse) :
    Instruments V × HttpResponse :=
  if req.path = text "/metrics" then
    let metrics := env.scrape.calls.foldl MetricsRegistry.perform i.metrics
    ({ i with metrics := metrics },
      { status := 200
        contentType := text "text/plain; version=0.0.4"
        body := metrics.serialize render })
  else
    let requestId := newRequestId i.counter env.random
    let i : Instruments V := { i with counter := i.counter + 1, inFlight := i.inFlight + 1 }
    let i := i.perform (inFlightGauge i.inFlight)
    let resp := routed
    let i : Instruments V := { i with inFlight := i.inFlight - 1 }
    let i := i.perform (inFlightGauge i.inFlight)
    let i := i.perform (requestsTotal req.method resp.status)
    let i := if 500 ≤ resp.status then i.perform (errorsTotal req.method) else i
    let i := i.perform (requestDuration req.method env.seconds)
    (i, { resp with headers := resp.headers.insert (text "X-Request-Id") requestId })

end Instruments
end Dos.Network
