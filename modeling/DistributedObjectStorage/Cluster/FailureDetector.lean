import Mathlib.Algebra.Group.Nat.Defs
import Mathlib.Data.List.Induction
import Mathlib.Data.List.TakeDrop
import DistributedObjectStorage.Cluster.ClusterMap

/-!
# The failure detector

Heartbeat outcomes drive one small machine for each node. Its miss counter is a
`size_t` and wraps. What a state means is said over the whole history of events:
which of them started the count anew, and how many failures came since.
-/
namespace Dos.ControlPlane

structure FailureDetector.Entry where
  state : NodeState := .healthy
  misses : ℕ := 0
  deriving DecidableEq, Repr

structure FailureDetector where
  missThreshold : ℕ
  nodes : OrderedMap Bytes FailureDetector.Entry

namespace FailureDetector

def create (missThreshold : ℕ) : FailureDetector where
  missThreshold := if missThreshold = 0 then 1 else missThreshold
  nodes := ∅

def addNode (d : FailureDetector) (id : Bytes) : FailureDetector :=
  { d with nodes := d.nodes.insertIfNew id {} }

/-- `nodes_[id]`: a node that is not tracked yet gets an entry. -/
def entry (d : FailureDetector) (id : Bytes) : Entry := (d.nodes[id]?).getD {}

/-- A node that comes back after it was declared dead has to be repaired first. -/
def onSuccess : NodeState → NodeState
  | .unavailable | .recovering => .recovering
  | .healthy | .suspect | .joining => .healthy

def recordSuccess (d : FailureDetector) (id : Bytes) : FailureDetector :=
  { d with nodes := d.nodes.insert id ⟨onSuccess (d.entry id).state, 0⟩ }

def onFailure (missThreshold : ℕ) (e : Entry) : Entry :=
  let misses := (e.misses + 1) % 2 ^ 64
  if missThreshold ≤ misses then ⟨.unavailable, misses⟩
  else if e.state = .healthy ∨ e.state = .joining then ⟨.suspect, misses⟩
  else ⟨e.state, misses⟩

def recordFailure (d : FailureDetector) (id : Bytes) : FailureDetector :=
  { d with nodes := d.nodes.insert id (onFailure d.missThreshold (d.entry id)) }

def recordRepairComplete (d : FailureDetector) (id : Bytes) : FailureDetector :=
  match d.nodes[id]? with
  | none => d
  | some e => if e.state = .recovering then { d with nodes := d.nodes.insert id ⟨.healthy, 0⟩ } else d

def getState (d : FailureDetector) (id : Bytes) : NodeState :=
  match d.nodes[id]? with
  | none => .joining
  | some e => e.state

/-! ## Histories -/

inductive Event where
  | addNode (id : Bytes)
  | recordSuccess (id : Bytes)
  | recordFailure (id : Bytes)
  | recordRepairComplete (id : Bytes)
  deriving DecidableEq, Repr

def Event.node : Event → Bytes
  | .addNode id | .recordSuccess id | .recordFailure id | .recordRepairComplete id => id

def exec (d : FailureDetector) : Event → FailureDetector
  | .addNode id => d.addNode id
  | .recordSuccess id => d.recordSuccess id
  | .recordFailure id => d.recordFailure id
  | .recordRepairComplete id => d.recordRepairComplete id

def after (missThreshold : ℕ) (history : List Event) : FailureDetector :=
  history.foldl exec (create missThreshold)

/-- The event begins a new count of the node's failures: a success, a repair
that found it recovering, or the event that made it tracked. -/
def Restarts (d : FailureDetector) (id : Bytes) (e : Event) : Prop :=
  e = .recordSuccess id ∨ (e = .recordRepairComplete id ∧ d.getState id = .recovering) ∨
    (d.nodes[id]? = none ∧ (d.exec e).nodes[id]? ≠ none)

/-- The latest such event is the one at position `p`. -/
structure LastRestart (missThreshold : ℕ) (history : List Event) (id : Bytes) (p : ℕ) : Prop where
  here : ∃ e, history[p]? = some e ∧ (after missThreshold (history.take p)).Restarts id e
  last : ∀ q > p, ∀ e, history[q]? = some e → ¬(after missThreshold (history.take q)).Restarts id e

/-- The failures of the node from that event on, the event included. -/
def failuresFrom (history : List Event) (id : Bytes) (p : ℕ) : ℕ :=
  (history.drop p).count (.recordFailure id)

/-! ## One event -/

section Exec
variable {d : FailureDetector} {id : Bytes} {e : Event} {found : Entry}

theorem exec_missThreshold (d : FailureDetector) (e : Event) : (d.exec e).missThreshold = d.missThreshold := by
  cases e with
  | recordRepairComplete id =>
      simp only [exec, recordRepairComplete]
      split
      · rfl
      · split <;> rfl
  | _ => rfl

/-- An event on one node leaves the others alone. -/
theorem exec_frame (d : FailureDetector) (other : e.node ≠ id) : (d.exec e).nodes[id]? = d.nodes[id]? := by
  cases e with
  | addNode who =>
      change (d.nodes.insertIfNew who {})[id]? = d.nodes[id]?
      rw [Std.ExtTreeMap.getElem?_insertIfNew, if_neg]
      rintro ⟨same, -⟩
      exact other (Std.LawfulEqCmp.eq_of_compare same)
  | recordSuccess who => exact OrderedMap.lookup_insert_ne _ _ other
  | recordFailure who => exact OrderedMap.lookup_insert_ne _ _ other
  | recordRepairComplete who =>
      simp only [exec, recordRepairComplete]
      split
      · rfl
      · split
        · exact OrderedMap.lookup_insert_ne _ _ other
        · rfl

theorem getState_eq (tracked : d.nodes[id]? = some found) : d.getState id = found.state := by
  unfold getState
  rw [tracked]

theorem lookup_addNode (d : FailureDetector) (id : Bytes) :
    (d.exec (.addNode id)).nodes[id]? = some ((d.nodes[id]?).getD {}) := by
  change (d.nodes.insertIfNew id {})[id]? = _
  rw [Std.ExtTreeMap.getElem?_insertIfNew]
  have known : id ∈ d.nodes ↔ (d.nodes[id]?).isSome := Std.ExtTreeMap.mem_iff_isSome_getElem?
  cases tracked : d.nodes[id]? with
  | none => simp [known, tracked]
  | some found => simp [known, tracked]

theorem lookup_success (d : FailureDetector) (id : Bytes) :
    (d.exec (.recordSuccess id)).nodes[id]? = some ⟨onSuccess (d.entry id).state, 0⟩ :=
  OrderedMap.lookup_insert_self _ _ _

theorem lookup_failure (d : FailureDetector) (id : Bytes) :
    (d.exec (.recordFailure id)).nodes[id]? = some (onFailure d.missThreshold (d.entry id)) :=
  OrderedMap.lookup_insert_self _ _ _

theorem lookup_repair (d : FailureDetector) (id : Bytes) :
    (d.exec (.recordRepairComplete id)).nodes[id]? =
      (d.nodes[id]?).map fun e => if e.state = .recovering then ⟨.healthy, 0⟩ else e := by
  simp only [exec, recordRepairComplete]
  cases tracked : d.nodes[id]? with
  | none => simp [tracked]
  | some found =>
      by_cases recovering : found.state = .recovering
      · simp [recovering]
      · simp [recovering, tracked]

end Exec

/-! ## The position of the last restart -/

section Position
variable {m : ℕ} {history : List Event} {id : Bytes} {p : ℕ} {x : Event}

theorem after_concat (m : ℕ) (history : List Event) (x : Event) :
    after m (history ++ [x]) = (after m history).exec x := by
  simp [after]

theorem after_missThreshold (m : ℕ) (history : List Event) : (after m history).missThreshold = max 1 m := by
  induction history using List.reverseRecOn with
  | nil =>
      change (if m = 0 then 1 else m) = max 1 m
      split <;> omega
  | append_singleton history x ih => rw [after_concat, exec_missThreshold, ih]

theorem LastRestart.inside (last : LastRestart m history id p) : p < history.length := by
  obtain ⟨e, found, -⟩ := last.here
  exact (List.getElem?_eq_some_iff.mp found).1

theorem LastRestart.keep (last : LastRestart m history id p) (quiet : ¬(after m history).Restarts id x) :
    LastRestart m (history ++ [x]) id p := by
  have inside := last.inside
  constructor
  · obtain ⟨e, found, restarts⟩ := last.here
    refine ⟨e, ?_, ?_⟩
    · rw [List.getElem?_append_left inside, found]
    · rwa [List.take_append_of_le_length (Nat.le_of_lt inside)]
  · intro q later e found
    rcases Nat.lt_trichotomy q history.length with before | rfl | beyond
    · rw [List.getElem?_append_left before] at found
      rw [List.take_append_of_le_length (Nat.le_of_lt before)]
      exact last.last q later e found
    · rw [List.getElem?_concat_length] at found
      cases found
      rwa [List.take_left]
    · rw [List.getElem?_eq_none (by simp; omega)] at found
      cases found

theorem LastRestart.new (restarts : (after m history).Restarts id x) :
    LastRestart m (history ++ [x]) id history.length := by
  constructor
  · refine ⟨x, List.getElem?_concat_length, ?_⟩
    rwa [List.take_left]
  · intro q later e found
    rw [List.getElem?_eq_none (by simp; omega)] at found
    cases found

theorem failuresFrom_concat (inside : p ≤ history.length) :
    failuresFrom (history ++ [x]) id p = failuresFrom history id p + [x].count (.recordFailure id) := by
  rw [failuresFrom, List.drop_append_of_le_length inside, List.count_append]
  rfl

theorem failuresFrom_length : failuresFrom (history ++ [x]) id history.length = [x].count (.recordFailure id) := by
  rw [failuresFrom, List.drop_left]

theorem failuresFrom_le (history : List Event) (id : Bytes) (p : ℕ) :
    failuresFrom history id p ≤ history.count (.recordFailure id) :=
  (List.drop_sublist p history).count_le _

end Position

/-! ## What the counter and the state say -/

section Counting
variable {m : ℕ} {history : List Event} {id : Bytes} {e : Entry} {x : Event}

/-- The counter holds the failures since the last restart, and the node is
unavailable exactly at the threshold. -/
structure Counted (m : ℕ) (history : List Event) (id : Bytes) (e : Entry) : Prop where
  counts : ∃ p, LastRestart m history id p ∧ e.misses = failuresFrom history id p
  declared : e.state = .unavailable ↔ max 1 m ≤ e.misses

theorem onSuccess_available (state : NodeState) : onSuccess state ≠ .unavailable := by
  cases state <;> decide

/-- An event that restarts the count and is no failure. -/
theorem Counted.restart (restarts : (after m history).Restarts id x) (other : x ≠ .recordFailure id)
    {state : NodeState} (available : state ≠ .unavailable) : Counted m (history ++ [x]) id ⟨state, 0⟩ := by
  refine ⟨⟨history.length, .new restarts, ?_⟩, fun unavailable => absurd unavailable available, ?_⟩
  · rw [failuresFrom_length, List.count_singleton, if_neg (by simpa using other)]
  · intro reached
    simp only at reached
    omega

/-- An event that means nothing to the node. -/
theorem Counted.ignore (counted : Counted m history id e) (quiet : ¬(after m history).Restarts id x)
    (other : x ≠ .recordFailure id) : Counted m (history ++ [x]) id e := by
  obtain ⟨p, last, misses⟩ := counted.counts
  refine ⟨⟨p, last.keep quiet, ?_⟩, counted.declared⟩
  rw [failuresFrom_concat (Nat.le_of_lt last.inside), List.count_singleton, if_neg (by simpa using other), misses]
  rfl

theorem onFailure_declared (threshold : ℕ) (before : e.state = .unavailable → threshold ≤ e.misses)
    (bound : e.misses + 1 < 2 ^ 64) :
    (onFailure threshold e).misses = e.misses + 1 ∧
      ((onFailure threshold e).state = .unavailable ↔ threshold ≤ e.misses + 1) := by
  simp only [onFailure, Nat.mod_eq_of_lt bound]
  split
  · next reached => exact ⟨rfl, fun _ => reached, fun _ => rfl⟩
  · next short =>
      have available : e.state ≠ .unavailable := fun unavailable => short (Nat.le_succ_of_le (before unavailable))
      split
      · exact ⟨rfl, fun suspect => absurd suspect (by simp), fun reached => absurd reached short⟩
      · exact ⟨rfl, fun unavailable => absurd unavailable available, fun reached => absurd reached short⟩

/-- What restarts the count of a tracked node is a success or a repair. -/
theorem not_restarts {d : FailureDetector} (tracked : d.nodes[id]? = some e) (failed : x ≠ .recordSuccess id)
    (settled : x = .recordRepairComplete id → e.state ≠ .recovering) : ¬d.Restarts id x := by
  rintro (success | ⟨repair, recovering⟩ | ⟨untracked, -⟩)
  · exact failed success
  · exact settled repair ((getState_eq tracked).symm.trans recovering)
  · rw [tracked] at untracked
    cases untracked

theorem Counted.room (counted : Counted m history id e)
    (few : (history ++ [Event.recordFailure id]).count (.recordFailure id) < 2 ^ 64) : e.misses + 1 < 2 ^ 64 := by
  obtain ⟨p, -, misses⟩ := counted.counts
  rw [List.count_append, List.count_singleton_self] at few
  have within := failuresFrom_le history id p
  omega

/-- A failure of a tracked node adds one. -/
theorem Counted.failure (counted : Counted m history id e) (tracked : (after m history).nodes[id]? = some e)
    (few : (history ++ [Event.recordFailure id]).count (.recordFailure id) < 2 ^ 64) :
    Counted m (history ++ [.recordFailure id]) id (onFailure (max 1 m) e) := by
  obtain ⟨p, last, misses⟩ := counted.counts
  have grown : failuresFrom (history ++ [.recordFailure id]) id p = e.misses + 1 := by
    rw [failuresFrom_concat (Nat.le_of_lt last.inside), List.count_singleton_self, misses]
  obtain ⟨next, state⟩ := onFailure_declared (max 1 m) counted.declared.mp (counted.room few)
  refine ⟨⟨p, last.keep (not_restarts tracked (by simp) (by simp)), next.trans grown.symm⟩, ?_⟩
  rw [state, next]

/-- A failure may also be the first that is heard of a node. -/
theorem Counted.first (untracked : (after m history).nodes[id]? = none) :
    Counted m (history ++ [.recordFailure id]) id (onFailure (max 1 m) {}) := by
  obtain ⟨next, state⟩ := @onFailure_declared {} (max 1 m) (fun unavailable => by cases unavailable) (by decide)
  have restarts : (after m history).Restarts id (.recordFailure id) := by
    refine .inr (.inr ⟨untracked, ?_⟩)
    rw [lookup_failure]
    exact Option.some_ne_none _
  refine ⟨⟨history.length, .new restarts, ?_⟩, ?_⟩
  · rw [failuresFrom_length, List.count_singleton_self, next]
  · rw [state, next]

/-- The step lemma. -/
theorem Counted.step (before : ∀ e, (after m history).nodes[id]? = some e → Counted m history id e)
    (few : (history ++ [x]).count (Event.recordFailure id) < 2 ^ 64)
    (tracked : (after m (history ++ [x])).nodes[id]? = some e) : Counted m (history ++ [x]) id e := by
  rw [after_concat] at tracked
  by_cases other : x.node = id
  swap
  · -- the event is about another node
    have same := exec_frame (after m history) other
    refine (before e (same ▸ tracked)).ignore ?_ ?_
    · rintro (rfl | ⟨rfl, -⟩ | ⟨untracked, arrived⟩)
      · exact other rfl
      · exact other rfl
      · exact arrived (same.trans untracked)
    · rintro rfl
      exact other rfl
  subst other
  cases x with
  | addNode id =>
      simp only [Event.node] at before tracked ⊢
      rw [lookup_addNode] at tracked
      cases found : (after m history).nodes[id]? with
      | none =>
          rw [found] at tracked
          cases tracked
          refine .restart (.inr (.inr ⟨found, ?_⟩)) (by simp) (by decide)
          rw [lookup_addNode]
          exact Option.some_ne_none _
      | some old =>
          rw [found] at tracked
          cases tracked
          exact (before old found).ignore (not_restarts found (by simp) (by simp)) (by simp)
  | recordSuccess id =>
      simp only [Event.node] at before tracked ⊢
      rw [lookup_success] at tracked
      cases tracked
      exact .restart (.inl rfl) (by simp) (onSuccess_available _)
  | recordFailure id =>
      simp only [Event.node] at before few tracked ⊢
      rw [lookup_failure, after_missThreshold, entry] at tracked
      cases found : (after m history).nodes[id]? with
      | none =>
          rw [found] at tracked
          cases tracked
          exact .first found
      | some old =>
          rw [found] at tracked
          cases tracked
          exact (before old found).failure found few
  | recordRepairComplete id =>
      simp only [Event.node] at before tracked ⊢
      rw [lookup_repair] at tracked
      obtain ⟨old, found, rfl⟩ := Option.map_eq_some_iff.mp tracked
      split
      · next recovering =>
          exact .restart (.inr (.inl ⟨rfl, (getState_eq found).trans recovering⟩)) (by simp) (by decide)
      · next settled =>
          exact (before old found).ignore (not_restarts found (by simp) fun _ => settled) (by simp)

/-- The run lemma. -/
theorem counted_run (few : history.count (Event.recordFailure id) < 2 ^ 64)
    (tracked : (after m history).nodes[id]? = some e) : Counted m history id e := by
  induction history using List.reverseRecOn generalizing e with
  | nil => cases tracked
  | append_singleton history x ih =>
      refine Counted.step (fun e found => ih ?_ found) few tracked
      exact Nat.lt_of_le_of_lt ((List.sublist_append_left history [x]).count_le _) few

end Counting

/-! ## Trust after an outage -/

section Trust
variable {m : ℕ} {history : List Event} {id : Bytes} {x : Event}

/-- A repair that found the node recovering came after all its outages. -/
def RepairedSince (m : ℕ) (history : List Event) (id : Bytes) : Prop :=
  ∃ j, history[j]? = some (.recordRepairComplete id) ∧ (after m (history.take j)).getState id = .recovering ∧
    ∀ k, (after m (history.take k)).getState id = .unavailable → k ≤ j

/-- A node that is down or recovering. -/
def Untrusted (state : NodeState) : Prop := state = .unavailable ∨ state = .recovering

theorem onFailure_untrusted {e : Entry} (counted : Counted m history id e)
    (few : (history ++ [Event.recordFailure id]).count (.recordFailure id) < 2 ^ 64)
    (untrusted : Untrusted e.state) : Untrusted (onFailure (max 1 m) e).state := by
  rcases untrusted with down | recovering
  · have declared := (onFailure_declared (max 1 m) counted.declared.mp (counted.room few)).2
    exact .inl (declared.mpr (Nat.le_succ_of_le (counted.declared.mp down)))
  · simp only [onFailure]
    split
    · exact .inl rfl
    · rw [if_neg (by simp [recovering])]
      exact .inr recovering

/-- Only a repair makes such a node trusted again, and only while it is recovering. -/
theorem exec_untrusted (counted : ∀ e, (after m history).nodes[id]? = some e → Counted m history id e)
    (few : (history ++ [x]).count (Event.recordFailure id) < 2 ^ 64)
    (untrusted : Untrusted ((after m history).getState id)) :
    Untrusted ((after m (history ++ [x])).getState id) ∨
      (x = .recordRepairComplete id ∧ (after m history).getState id = .recovering) := by
  rw [after_concat]
  by_cases other : x.node = id
  swap
  · left
    unfold getState at untrusted ⊢
    rwa [exec_frame (after m history) other]
  subst other
  cases found : (after m history).nodes[x.node]? with
  | none =>
      have joining : (after m history).getState x.node = .joining := by simp [getState, found]
      rw [joining] at untrusted
      rcases untrusted with down | recovering
      · cases down
      · cases recovering
  | some e =>
      rw [getState_eq found] at untrusted ⊢
      cases x with
      | addNode id =>
          left
          have same : ((after m history).exec (.addNode id)).nodes[id]? = some e := by
            rw [lookup_addNode, show (after m history).nodes[id]? = some e from found]
            rfl
          rwa [Event.node, getState_eq same]
      | recordSuccess id =>
          left
          rw [Event.node, getState_eq (lookup_success _ id), entry,
            show (after m history).nodes[id]? = some e from found]
          rcases untrusted with down | recovering
          · exact .inr (by simp [down, onSuccess])
          · exact .inr (by simp [recovering, onSuccess])
      | recordFailure id =>
          left
          rw [Event.node, getState_eq (lookup_failure _ id), entry,
            show (after m history).nodes[id]? = some e from found, after_missThreshold]
          exact onFailure_untrusted (counted e found) few untrusted
      | recordRepairComplete id =>
          rcases untrusted with down | recovering
          · left
            have same : ((after m history).exec (.recordRepairComplete id)).nodes[id]? = some e := by
              rw [lookup_repair, show (after m history).nodes[id]? = some e from found]
              simp [down]
            rw [Event.node, getState_eq same]
            exact .inl down
          · exact .inr ⟨rfl, recovering⟩

theorem take_concat (history : List Event) (x : Event) (k : ℕ) :
    (k ≤ history.length ∧ (history ++ [x]).take k = history.take k) ∨
      (history ++ [x]).take k = history ++ [x] := by
  rcases Nat.lt_or_ge history.length k with beyond | inside
  · exact .inr (List.take_of_length_le (by simp; omega))
  · exact .inl ⟨inside, List.take_append_of_le_length inside⟩

/-- The run lemma. -/
theorem untrusted_run (few : history.count (Event.recordFailure id) < 2 ^ 64) :
    Untrusted ((after m history).getState id) ∨
      (∀ k, (after m (history.take k)).getState id ≠ .unavailable) ∨ RepairedSince m history id := by
  induction history using List.reverseRecOn with
  | nil =>
      refine .inr (.inl fun k => ?_)
      rw [List.take_nil]
      change NodeState.joining ≠ .unavailable
      decide
  | append_singleton history x ih =>
      have fewer : history.count (Event.recordFailure id) < 2 ^ 64 :=
        Nat.lt_of_le_of_lt ((List.sublist_append_left history [x]).count_le _) few
      by_cases untrusted : Untrusted ((after m (history ++ [x])).getState id)
      · exact .inl untrusted
      have trusted : (after m (history ++ [x])).getState id ≠ .unavailable := fun down => untrusted (.inl down)
      right
      rcases ih fewer with before | never | ⟨j, repair, recovering, last⟩
      · -- the event ended the outage
        rcases exec_untrusted (fun e => counted_run fewer) few before with still | ⟨rfl, recovering⟩
        · exact absurd still untrusted
        refine .inr ⟨history.length, List.getElem?_concat_length, ?_, fun k down => ?_⟩
        · rwa [List.take_left]
        · rcases take_concat history (.recordRepairComplete id) k with ⟨inside, -⟩ | whole
          · exact inside
          · rw [whole] at down
            exact absurd down trusted
      · refine .inl fun k down => ?_
        rcases take_concat history x k with ⟨-, same⟩ | whole
        · exact never k (same ▸ down)
        · exact trusted (whole ▸ down)
      · have inside : j < history.length := (List.getElem?_eq_some_iff.mp repair).1
        refine .inr ⟨j, ?_, ?_, fun k down => ?_⟩
        · rw [List.getElem?_append_left inside, repair]
        · rwa [List.take_append_of_le_length (Nat.le_of_lt inside)]
        · rcases take_concat history x k with ⟨-, same⟩ | whole
          · exact last k (same ▸ down)
          · exact absurd (whole ▸ down) trusted

end Trust

/-- What the states mean over every history: a tracked node is unavailable
exactly if the failures since its last restart reach the threshold, it is
trusted after an outage only because of a repair, and no event concerns any
other node. -/
theorem trust_discipline (m : ℕ) (history : List Event)
    (few : ∀ id, history.count (Event.recordFailure id) < 2 ^ 64) :
    (∀ id, (after m history).nodes[id]? ≠ none → ∃ p, LastRestart m history id p ∧
      ((after m history).getState id = .unavailable ↔ max 1 m ≤ failuresFrom history id p)) ∧
    (∀ id k, (after m (history.take k)).getState id = .unavailable →
      (after m history).getState id = .healthy ∨ (after m history).getState id = .suspect →
      RepairedSince m history id) ∧
    ∀ e id, e.node ≠ id → ((after m history).exec e).nodes[id]? = (after m history).nodes[id]? := by
  refine ⟨fun id tracked => ?_, fun id k down trusted => ?_, fun e id other => exec_frame _ other⟩
  · obtain ⟨e, found⟩ := Option.ne_none_iff_exists'.mp tracked
    have counted : Counted m history id e := counted_run (few id) found
    obtain ⟨p, last, misses⟩ := counted.counts
    refine ⟨p, last, ?_⟩
    rw [getState_eq found, counted.declared, misses]
  · rcases untrusted_run (m := m) (few id) with untrusted | never | repaired
    · rcases untrusted with bad | bad
      · simp [bad] at trusted
      · simp [bad] at trusted
    · exact absurd down (never k)
    · exact repaired

/-- A node fails twice, comes back, is repaired and misses once more. -/
def outage : List Event :=
  [.addNode [97], .recordFailure [97], .recordFailure [97], .recordSuccess [97], .recordRepairComplete [97],
    .recordFailure [97]]

theorem trust_discipline_outage :
    (after 2 (outage.take 3)).getState [97] = .unavailable ∧ (after 2 outage).getState [97] = .suspect ∧
      RepairedSince 2 outage [97] := by
  have few (id : Bytes) : outage.count (Event.recordFailure id) < 2 ^ 64 :=
    Nat.lt_of_le_of_lt List.count_le_length (by decide)
  obtain ⟨down, suspect⟩ : (after 2 (outage.take 3)).getState [97] = .unavailable ∧
      (after 2 outage).getState [97] = .suspect := by decide +kernel
  exact ⟨down, suspect, (trust_discipline 2 outage few).2.1 [97] 3 down (.inr suspect)⟩

end FailureDetector
end Dos.ControlPlane
