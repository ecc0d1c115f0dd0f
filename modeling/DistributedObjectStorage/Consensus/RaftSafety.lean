import DistributedObjectStorage.Consensus.RaftSchedule
import DistributedObjectStorage.Consensus.RaftSimulation

/-! Safety of the Raft group: elections, logs, commits and application. -/
namespace Dos.Consensus
open ReplicatedLog (take_le)

variable {g : Group} {c : Cluster}

/-- A leader commits and ships an entry, a follower applies it, crashes, and is
elected after its restart. -/
def failover : List Action :=
  campaign alpha 0 gamma ++ .propose alpha [120] :: ship alpha beta 1 ++ ship alpha beta 1 ++
    .restart beta :: campaign beta 1 alpha

/-! ## One leader in each term -/

theorem election_safety (reachable : Cluster.Reachable g c) {n n' : Bytes} {t : ℕ}
    {log log' : List LogEntry} (won : Event.becameLeader n t log ∈ c.history)
    (won' : Event.becameLeader n' t log' ∈ c.history) : n = n' := by
  obtain ⟨a, -, related⟩ := reachable_refines reachable
  have first : a.leader t = some n := (related.history _ won).1
  have second : a.leader t = some n' := (related.history _ won').1
  exact Option.some.inj (first.symm.trans second)

theorem election_safety_failover :
    Event.becameLeader beta 2 [⟨1, 1, [120]⟩] ∈ (Cluster.run trio failover).history ∧
      ∀ n log, Event.becameLeader n 2 log ∈ (Cluster.run trio failover).history → n = beta := by
  have won : Event.becameLeader beta 2 [⟨1, 1, [120]⟩] ∈ (Cluster.run trio failover).history := by
    decide +kernel
  exact ⟨won, fun n log other => election_safety (Cluster.run_reachable trio failover) other won⟩

/-! ## Logs -/

theorem log_matching (reachable : Cluster.Reachable g c) {n m : Bytes} (hn : n ∈ g.members)
    (hm : m ∈ g.members) :
    (∀ k e, (c.nodes n).node.log[k]? = some e → e.index = k + 1) ∧
    (∀ k e, (c.nodes m).node.log[k]? = some e → e.index = k + 1) ∧
    ∀ k e f, (c.nodes n).node.log[k]? = some e → (c.nodes m).node.log[k]? = some f →
      e.term = f.term → (c.nodes n).node.log.take (k + 1) = (c.nodes m).node.log.take (k + 1) := by
  obtain ⟨a, sound, related⟩ := reachable_refines reachable
  have first := (related.nodes n hn).node
  have second := (related.nodes m hm).node
  refine ⟨first.indexed, second.indexed, ?_⟩
  have coherent := sound.invariant.logs.log n
  have coherent' := sound.invariant.logs.log m
  rw [first.log] at coherent
  rw [second.log] at coherent'
  exact coherent_matching coherent coherent'

theorem log_matching_failover :
    ((Cluster.run trio failover).nodes alpha).node.log.take 1 =
      ((Cluster.run trio failover).nodes beta).node.log.take 1 :=
  (log_matching (Cluster.run_reachable trio failover) (n := alpha) (m := beta) (by decide)
    (by decide)).2.2 0 ⟨1, 1, [120]⟩ ⟨1, 1, [120]⟩ (by decide +kernel) (by decide +kernel) rfl

/-! ## Commits survive elections -/

/-- Some leader moved its commit index over the entry at position `i`. -/
def Committed (c : Cluster) (i : ℕ) (e : LogEntry) : Prop :=
  ∃ n t commitIndex log, Event.advancedCommit n t commitIndex log ∈ c.history ∧
    1 ≤ i ∧ i ≤ commitIndex ∧ log[i - 1]? = some e

theorem leader_completeness (reachable : Cluster.Reachable g c) {n m : Bytes}
    {t u commitIndex i : ℕ} {log log' : List LogEntry} {e : LogEntry}
    (advanced : Event.advancedCommit n t commitIndex log ∈ c.history) (first : 1 ≤ i)
    (covered : i ≤ commitIndex) (held : log[i - 1]? = some e)
    (won : Event.becameLeader m u log' ∈ c.history) (later : t < u) : log'[i - 1]? = some e := by
  obtain ⟨a, sound, related⟩ := reachable_refines reachable
  obtain ⟨-, -, chosen⟩ := related.history _ advanced
  obtain ⟨led, rfl⟩ := related.history _ won
  have whole : log.take commitIndex <+: a.electionLog u :=
    sound.invariant.leader_complete chosen u m later led
  have inside : (log.take commitIndex)[i - 1]? = some e := by
    rw [List.getElem?_take_of_lt (by omega), held]
  obtain ⟨bound, rfl⟩ := List.getElem?_eq_some_iff.mp inside
  exact List.prefix_iff_getElem?.mp whole _ bound

theorem leader_completeness_failover :
    Event.becameLeader beta 2 [⟨1, 1, [120]⟩] ∈ (Cluster.run trio failover).history ∧
      ∀ log, Event.becameLeader beta 2 log ∈ (Cluster.run trio failover).history →
        log[0]? = some ⟨1, 1, [120]⟩ := by
  obtain ⟨won, advanced⟩ :
      Event.becameLeader beta 2 [⟨1, 1, [120]⟩] ∈ (Cluster.run trio failover).history ∧
        Event.advancedCommit alpha 1 1 [⟨1, 1, [120]⟩] ∈ (Cluster.run trio failover).history := by
    decide +kernel
  refine ⟨won, fun log won => ?_⟩
  exact leader_completeness (Cluster.run_reachable trio failover) (i := 1) advanced (by decide)
    (by decide) rfl won (by decide)

/-! ## Application -/

/-- What one incarnation of a node passed to its apply callback, up to now or
up to its crash. -/
inductive Incarnation (g : Group) (c : Cluster) : List LogEntry → Prop
  | live {n} : n ∈ g.members → Incarnation g c (c.nodes n).node.applied
  | crashed {n applied} : Event.crashed n applied ∈ c.history → Incarnation g c applied

theorem Incarnation.committed {a : Spec} {applied : List LogEntry} (related : Refines g c a)
    (h : Incarnation g c applied) : Indexed applied ∧ ∃ t, SpecCommitted g a t applied := by
  cases h with
  | live hn =>
      have node := (related.nodes _ hn).node
      rw [node.applied]
      exact ⟨node.indexed.shorten (take_le _ _), _, node.committed⟩
  | crashed event => exact related.history _ event

theorem Indexed.map_index {log : List LogEntry} (h : Indexed log) :
    log.map LogEntry.index = List.range' 1 log.length := by
  refine List.ext_getElem (by simp) (fun k inside _ => ?_)
  simp only [List.length_map] at inside
  rw [List.getElem_map, List.getElem_range', h k _ (List.getElem?_eq_getElem inside)]
  omega

theorem state_machine_safety (reachable : Cluster.Reachable g c) {applied applied' : List LogEntry}
    (h : Incarnation g c applied) (h' : Incarnation g c applied') :
    applied.map LogEntry.index = List.range' 1 applied.length ∧
    ∀ e ∈ applied, ∀ e' ∈ applied', e.index = e'.index → e = e' := by
  obtain ⟨a, sound, related⟩ := reachable_refines reachable
  obtain ⟨indexed, t, committed⟩ := h.committed related
  obtain ⟨indexed', t', committed'⟩ := h'.committed related
  refine ⟨indexed.map_index, fun e he e' he' same => ?_⟩
  have place := (indexed.position he).2
  have place' := (indexed'.position he').2
  rw [← same] at place'
  obtain ⟨inside, here⟩ := List.getElem?_eq_some_iff.mp place
  obtain ⟨inside', here'⟩ := List.getElem?_eq_some_iff.mp place'
  -- of two committed lists one continues the other
  rcases committed.comparable committed' sound.invariant with short | short
  · rw [← here, ← here', short.getElem inside]
  · rw [← here, ← here', short.getElem inside']

theorem state_machine_safety_failover :
    Incarnation trio (Cluster.run trio failover) [⟨1, 1, [120]⟩] ∧
    ∀ e ∈ ((Cluster.run trio failover).nodes alpha).node.applied, e.index = 1 →
      e = ⟨1, 1, [120]⟩ := by
  have crashed : Incarnation trio (Cluster.run trio failover) [⟨1, 1, [120]⟩] :=
    .crashed (n := beta) (by decide +kernel)
  refine ⟨crashed, fun e he one => ?_⟩
  exact (state_machine_safety (Cluster.run_reachable trio failover) (.live (by decide)) crashed).2
    e he _ (by simp) one

end Dos.Consensus
