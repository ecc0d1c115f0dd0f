import DistributedObjectStorage.Consensus.CatchUp
import DistributedObjectStorage.Consensus.RaftBounds
import DistributedObjectStorage.Consensus.RaftTerms

/-!
# Late and repeated append requests

A leader's requests are cut from versions of one growing log. Once a follower has
taken over a later version, an earlier request finds all of its entries in place
and a commit index that the follower has reached.
-/
namespace Dos.Consensus
open Transition
open ReplicatedLog (take_le)

/-! ## One request at a follower -/

namespace RaftNode

/-- What the commit index and the applied entries are after the append loop. -/
theorem acceptEntries_commit (n : RaftNode) (req : AppendEntriesRequest) :
    (n.acceptEntries req).commitIndex =
        (if n.commitIndex < req.leaderCommit then min req.leaderCommit (lastLogIndex (n.acceptEntries req).log)
          else n.commitIndex) ∧
      (¬ n.commitIndex < req.leaderCommit → (n.acceptEntries req).applied = n.applied) := by
  rw [acceptEntries_log]
  obtain ⟨storage, outcome⟩ := acceptEntries_cases n req
  rw [outcome]
  dsimp only
  by_cases behind : n.commitIndex < req.leaderCommit
  · rw [if_pos behind, if_pos behind, applyCommittedLocked, applyLoop_commitIndex]
    exact ⟨rfl, fun reached => absurd behind reached⟩
  · rw [if_neg behind, if_neg behind]
    exact ⟨rfl, fun _ => rfl⟩

end RaftNode

/-- The request is cut from a version of the leader's log, which reaches at least
as far as what it calls committed. -/
structure CutFrom (sent : List LogEntry) (m : AppendEntriesRequest) : Prop where
  start : m.prevLogIndex ≤ sent.length
  entries : m.entries = sent.drop m.prevLogIndex
  prevTerm : m.prevLogTerm = termAt sent m.prevLogIndex
  commit : m.leaderCommit ≤ sent.length

/-- A node of the leader's term whose log satisfies log matching with the leader's. -/
structure Follows (F : List LogEntry) (T : ℕ) (f : RaftNode) : Prop where
  term : f.currentTerm = T
  indexed : Indexed f.log
  matching : Matching f.log F

/-- What a successful request does. -/
structure Accepted (F sent : List LogEntry) (m : AppendEntriesRequest) (f f' : RaftNode) : Prop where
  holds : sent <+: f'.log
  origin : f'.log = f.log ∨ f'.log = F.take sent.length
  shared : ∀ P, P <+: f.log → P <+: F → P <+: f'.log
  commit : f'.commitIndex = if f.commitIndex < m.leaderCommit then min m.leaderCommit f'.log.length else f.commitIndex
  applied : ¬ f.commitIndex < m.leaderCommit → f'.applied = f.applied

section Follower
variable {F L sent : List LogEntry} {T k : ℕ} {m : AppendEntriesRequest} {f : RaftNode}

theorem matching_take (F : List LogEntry) (k : ℕ) : Matching (F.take k) F := by
  intro j e x here _ _
  obtain ⟨inside, -⟩ := List.getElem?_eq_some_iff.mp here
  rw [List.length_take] at inside
  rw [List.take_take, Nat.min_eq_left (by omega)]

theorem CutFrom.entries_eq (cut : CutFrom sent m) (held : sent <+: F) :
    m.entries = (F.drop m.prevLogIndex).take (sent.length - m.prevLogIndex) := by
  rw [cut.entries, ← List.drop_take, ← List.prefix_iff_eq_take.mp held]

/-- A request reaches to the end of the log it is cut from. -/
theorem CutFrom.upto (cut : CutFrom sent m) : m.prevLogIndex + m.entries.length = sent.length := by
  rw [cut.entries, List.length_drop]
  exact Nat.add_sub_of_le cut.start

/-- A log that is the old one or a piece of the leader's keeps matching it. -/
theorem Follows.keep (follows : Follows F T f) (indexed : Indexed F) {log : List LogEntry}
    (origin : log = f.log ∨ log = F.take k) : Indexed log ∧ Matching log F := by
  rcases origin with rfl | rfl
  · exact ⟨follows.indexed, follows.matching⟩
  · exact ⟨indexed.shorten (take_le _ _), matching_take F k⟩

section Request
variable (follows : Follows F T f) (indexed : Indexed F) (held : sent <+: F) (cut : CutFrom sent m) (term : m.term = T)
include follows indexed held cut

/-- Past the consistency check. -/
theorem Follows.accept (reached : m.prevLogIndex ≤ f.log.length)
    (check : ¬ (0 < m.prevLogIndex ∧ termAt f.log m.prevLogIndex ≠ m.prevLogTerm)) :
    Accepted F sent m f (f.acceptEntries m) := by
  have start : F.take m.prevLogIndex <+: f.log :=
    check_start follows.matching held cut.start reached (cut.prevTerm ▸ check)
  have upto : m.prevLogIndex + (sent.length - m.prevLogIndex) = sent.length := Nat.add_sub_of_le cut.start
  have splice := appendLoop_splice follows.indexed indexed follows.matching start
    (upto.trans_le held.length_le)
  rw [← cut.entries_eq held, upto] at splice
  obtain ⟨holds, origin, shared, -⟩ := splice
  obtain ⟨commit, applied⟩ := RaftNode.acceptEntries_commit f m
  rw [← RaftNode.acceptEntries_log f m] at holds origin shared
  rw [← List.prefix_iff_eq_take.mp held] at holds
  rw [lastLogIndex_eq (follows.keep indexed origin).1] at commit
  exact ⟨holds, origin, shared, commit, applied⟩

include term

/-- A request of the follower's term is refused with nothing changed, or accepted. -/
theorem Follows.handle_cases :
    ((f.handleAppendEntries m).2.success = false ∧ (f.handleAppendEntries m).1.log = f.log ∧
        (f.handleAppendEntries m).1.commitIndex = f.commitIndex ∧ (f.handleAppendEntries m).1.applied = f.applied) ∨
      ((f.handleAppendEntries m).2.success = true ∧ Accepted F sent m f (f.handleAppendEntries m).1) := by
  have current : ¬ m.term < f.currentTerm := by
    rw [follows.term, term]
    exact Nat.lt_irrefl T
  have settled : f.stepDownIfStaleLocked m.term = f := if_neg (by rw [follows.term, term]; exact Nat.lt_irrefl T)
  have last : lastLogIndex f.log = f.log.length := lastLogIndex_eq follows.indexed
  rw [RaftNode.handleAppendEntries, if_neg current, settled]
  unfold RaftNode.checkEntries RaftNode.lastLogIndexLocked RaftNode.termAtLocked
  dsimp only
  split
  · exact .inl ⟨rfl, rfl, rfl, rfl⟩
  · next reached =>
      split
      · exact .inl ⟨rfl, rfl, rfl, rfl⟩
      · next check =>
          have enough : m.prevLogIndex ≤ f.log.length := by omega
          have met : Follows F T { f with role := .follower, leaderId := m.leaderId } :=
            ⟨follows.term, follows.indexed, follows.matching⟩
          obtain ⟨holds, origin, shared, commit, applied⟩ := met.accept indexed held cut enough check
          exact .inr ⟨rfl, holds, origin, shared, commit, applied⟩

theorem Follows.handle : Follows F T (f.handleAppendEntries m).1 := by
  have same : (f.handleAppendEntries m).1.currentTerm = T := by
    rw [(RaftNode.handleAppendEntries_max f m).1, follows.term, term, max_self]
  rcases follows.handle_cases indexed held cut term with ⟨-, log, -⟩ | ⟨-, accepted⟩
  · exact ⟨same, log ▸ follows.indexed, log ▸ follows.matching⟩
  · obtain ⟨kept, matching⟩ := follows.keep indexed accepted.origin
    exact ⟨same, kept, matching⟩

/-! ## What a success leaves behind -/

/-- The node has a version of the leader's log and has committed that far. -/
structure Holds (L : List LogEntry) (k : ℕ) (f : RaftNode) : Prop where
  log : L <+: f.log
  commit : k ≤ f.commitIndex

theorem Follows.holds_of_success (ok : (f.handleAppendEntries m).2.success = true) :
    Holds sent m.leaderCommit (f.handleAppendEntries m).1 := by
  rcases follows.handle_cases indexed held cut term with ⟨refused, -⟩ | ⟨-, accepted⟩
  · cases ok.symm.trans refused
  · refine ⟨accepted.holds, ?_⟩
    have long := accepted.holds.length_le
    have inside := cut.commit
    rw [accepted.commit]
    split
    · exact le_min (Nat.le_refl _) (by omega)
    · omega

/-- No request of the leader takes any of it back. -/
theorem Holds.handle (holds : Holds L k f) (inside : k ≤ L.length) (part : L <+: F) :
    Holds L k (f.handleAppendEntries m).1 := by
  rcases follows.handle_cases indexed held cut term with ⟨-, log, commit, -⟩ | ⟨-, accepted⟩
  · exact ⟨log ▸ holds.log, commit ▸ holds.commit⟩
  · have kept := accepted.shared L holds.log part
    refine ⟨kept, ?_⟩
    have long := kept.length_le
    have before := holds.commit
    rw [accepted.commit]
    split
    · exact le_min (by omega) (by omega)
    · exact before

end Request

/-- A request whose version of the log is there already changes nothing: compared
with the node's own log it can cut nothing off. -/
theorem Holds.again (holds : Holds L k f) (follows : Follows F T f) (cut : CutFrom sent m) (term : m.term = T)
    (part : sent <+: L) (reached : m.leaderCommit ≤ k) :
    (f.handleAppendEntries m).1.log = f.log ∧ (f.handleAppendEntries m).1.commitIndex = f.commitIndex ∧
      (f.handleAppendEntries m).1.applied = f.applied := by
  have own : Follows f.log T f := ⟨follows.term, follows.indexed, fun j e e' _ _ _ => rfl⟩
  rcases own.handle_cases follows.indexed (part.trans holds.log) cut term with ⟨-, unchanged⟩ | ⟨-, accepted⟩
  · exact unchanged
  · have caught : ¬ f.commitIndex < m.leaderCommit := Nat.not_lt.mpr (reached.trans holds.commit)
    have whole : f.log <+: (f.handleAppendEntries m).1.log :=
      accepted.shared f.log (List.prefix_refl _) (List.prefix_refl _)
    have commit := accepted.commit
    rw [if_neg caught] at commit
    refine ⟨?_, commit, accepted.applied caught⟩
    rcases accepted.origin with same | front
    · exact same
    · rw [front] at whole ⊢
      exact (take_le _ _).eq_of_length_le whole.length_le

/-- Any requests of the leader one after another. -/
theorem Holds.run (holds : Holds L k f) (inside : k ≤ L.length) (part : L <+: F) (follows : Follows F T f)
    (indexed : Indexed F) {between : List AppendEntriesRequest}
    (cut : ∀ m ∈ between, m.term = T ∧ ∃ sent, sent <+: F ∧ CutFrom sent m) :
    Holds L k (between.foldl (fun f m => (f.handleAppendEntries m).1) f) ∧
      Follows F T (between.foldl (fun f m => (f.handleAppendEntries m).1) f) := by
  induction between generalizing f with
  | nil => exact ⟨holds, follows⟩
  | cons m between ih =>
      obtain ⟨⟨term, sent, held, first⟩, others⟩ := List.forall_mem_cons.mp cut
      exact ih (holds.handle follows indexed held first term inside part) (follows.handle indexed held first term)
        others

end Follower

/-! ## The leader of a term -/

namespace Cluster
variable {g : Group} {a : Spec} {c c' c₁ c₂ : Cluster} {n : Bytes} {T : ℕ} {m m₁ m₂ : AppendEntriesRequest}

def Leads (c : Cluster) (n : Bytes) (T : ℕ) : Prop :=
  (c.nodes n).node.role = .leader ∧ (c.nodes n).node.currentTerm = T

/-- The node can build the request for one of its peers now. -/
def Builds (g : Group) (c : Cluster) (n : Bytes) (T : ℕ) (m : AppendEntriesRequest) : Prop :=
  ∃ peer ∈ g.peers n, (c.nodes n).node.replicateRequest peer T = some m

/-- A section that ends with the node leading began with it leading, in the same
term, and took no commit back. -/
def LeadsOn (r r' : RaftNode) : Prop :=
  r'.role = .leader → r.role = .leader ∧ r'.currentTerm = r.currentTerm ∧ r.commitIndex ≤ r'.commitIndex

theorem LeadsOn.refl (r : RaftNode) : LeadsOn r r := fun leads => ⟨leads, rfl, Nat.le_refl _⟩

theorem LeadsOn.calm {r r' : RaftNode} (calm : Calm r r') : LeadsOn r r' := by
  intro leads
  obtain ⟨before, same⟩ := calm.leader leads
  exact ⟨before, same, calm.commit.ge⟩

/-- Once it has been elected in a term, a node leads it without a break. -/
theorem LeadsOn.step (related : Refines g c a) (step : Step g c c') (hn : n ∈ g.members)
    (elected : a.leader (c'.nodes n).node.currentTerm = some n) : LeadsOn (c.nodes n).node (c'.nodes n).node := by
  have ran := step.ran n
  generalize (c'.nodes n).node = r' at ran elected ⊢
  cases ran with
  | nothing => exact .refl _
  | restart => exact nofun
  | countVote req resp => exact .calm (countVote_calm _ req resp)
  | becomeCandidate => exact .calm (becomeCandidate_calm _)
  | becomeLeader stands =>
      -- A candidate has not been elected in its term yet.
      exact absurd elected ((related.nodes n hn).node.candidate stands).2
  | handleRequestVote req leaderless => exact .calm (handleRequestVote_calm _ req leaderless)
  | handleAppendEntries req =>
      intro leads
      have same := (handleAppendEntries_frame (c.nodes n).node req).1 leads
      rw [same] at leads ⊢
      exact ⟨leads, rfl, Nat.le_refl _⟩
  | propose command =>
      intro leads
      obtain ⟨role, term⟩ := propose_frame (c.nodes n).node command
      exact ⟨role ▸ leads, term, RaftNode.propose_commitIndex command⟩
  | replicateReply peer req resp =>
      intro leads
      obtain ⟨before, term⟩ := replicateReply_leader (c.nodes n).node peer req resp leads
      exact ⟨before, term, RaftNode.replicateReply_commitIndex _ _ _⟩

/-- The abstract history of a run continues that of its beginning. -/
theorem refines_many (sound : Sound g a) (related : Refines g c a) (steps : Relation.ReflTransGen (Step g) c c') :
    ∃ a', Sound g a' ∧ Refines g c' a' ∧ ReplicatedLog.Extends a a' := by
  induction steps with
  | refl => exact ⟨a, sound, related, .refl a⟩
  | tail _ step ih =>
      obtain ⟨b, soundB, relatedB, ext⟩ := ih
      obtain ⟨a', moves, related'⟩ := relatedB.next soundB.reachable step
      have reached := soundB.reachable.many moves
      exact ⟨a', ⟨reached, related'.indexed⟩, related',
        ext.trans (ReplicatedLog.reachable_extends soundB.reachable moves)⟩

theorem Leads.elected (related : Refines g c a) (hn : n ∈ g.members) (leads : c.Leads n T) : a.leader T = some n := by
  rw [← leads.2]
  exact (related.nodes n hn).node.leader leads.1

theorem Leads.log_eq (sound : Sound g a) (related : Refines g c a) (hn : n ∈ g.members) (leads : c.Leads n T) :
    (c.nodes n).node.log = a.leaderLog T := by
  rw [← leads.2]
  exact leader_holds sound (related.nodes n hn).node leads.1

/-- Between two moments at which a node leads a term its commit index only grows. -/
theorem Leads.commit_le (reachable : Reachable g c) (steps : Relation.ReflTransGen (Step g) c c') (hn : n ∈ g.members)
    (leads : c.Leads n T) (leads' : c'.Leads n T) :
    (c.nodes n).node.commitIndex ≤ (c'.nodes n).node.commitIndex := by
  obtain ⟨a, sound, related⟩ := reachable_refines reachable
  have elected := leads.elected related hn
  induction steps with
  | refl => exact Nat.le_refl _
  | tail first step ih =>
      obtain ⟨b, -, relatedB, ext⟩ := refines_many sound related first
      have electedB := ext.leader T n elected
      obtain ⟨role, term, commit⟩ := LeadsOn.step relatedB step hn (leads'.2.symm ▸ electedB) leads'.1
      exact (ih ⟨role, term.symm.trans leads'.2⟩).trans commit

/-- Earlier requests of a term are cut from earlier versions of the leader's log. -/
theorem Leads.log_le (reachable : Reachable g c) (steps : Relation.ReflTransGen (Step g) c c') (hn : n ∈ g.members)
    (leads : c.Leads n T) (leads' : c'.Leads n T) : (c.nodes n).node.log <+: (c'.nodes n).node.log := by
  obtain ⟨a, sound, related⟩ := reachable_refines reachable
  obtain ⟨b, soundB, relatedB, ext⟩ := refines_many sound related steps
  rw [leads.log_eq sound related hn, leads'.log_eq soundB relatedB hn]
  exact ext.leaderLog T

theorem Builds.leads (builds : Builds g c n T m) :
    c.Leads n T ∧ m.term = T ∧ m.leaderCommit = (c.nodes n).node.commitIndex := by
  obtain ⟨peer, -, made⟩ := builds
  obtain ⟨role, term, prev, -, rfl⟩ := replicateRequest_some made
  exact ⟨⟨role, term⟩, rfl, rfl⟩

theorem Builds.cut (reachable : Reachable g c) (hn : n ∈ g.members) (builds : Builds g c n T m) :
    CutFrom (c.nodes n).node.log m := by
  obtain ⟨a, sound, related⟩ := reachable_refines reachable
  obtain ⟨peer, hp, made⟩ := builds
  have ok := replicateRequest_ok 0 sound hn (related.nodes n hn).node hp made
  exact ⟨ok.start, ok.entries, ok.prevTerm, ok.commit⟩

/-! ## Late requests -/

/-- After a follower has taken over a request, no earlier request of the same
leader and term changes its log, its commit index or what it has applied, with
whatever requests of that leader in between. -/
theorem late_append_harmless (reachable : Reachable g c₁) (toSecond : Relation.ReflTransGen (Step g) c₁ c₂)
    (toLast : Relation.ReflTransGen (Step g) c₂ c) (hn : n ∈ g.members) (first : Builds g c₁ n T m₁)
    (second : Builds g c₂ n T m₂) (leads : c.Leads n T) {between : List AppendEntriesRequest}
    (others : ∀ m ∈ between, ∃ c', Reachable g c' ∧ Relation.ReflTransGen (Step g) c' c ∧ Builds g c' n T m)
    {f : RaftNode} (current : f.currentTerm = T) (indexed : Indexed f.log)
    (matching : Matching f.log (c.nodes n).node.log) (ok : (f.handleAppendEntries m₂).2.success = true) :
    let f' := between.foldl (fun f m => (f.handleAppendEntries m).1) (f.handleAppendEntries m₂).1
    (f'.handleAppendEntries m₁).1.log = f'.log ∧ (f'.handleAppendEntries m₁).1.commitIndex = f'.commitIndex ∧
      (f'.handleAppendEntries m₁).1.applied = f'.applied := by
  have reachable₂ := reachable.many toSecond
  obtain ⟨leads₁, term₁, commit₁⟩ := first.leads
  obtain ⟨leads₂, term₂, commit₂⟩ := second.leads
  obtain ⟨a, -, related⟩ := reachable_refines (reachable₂.many toLast)
  have indexedF : Indexed (c.nodes n).node.log := (related.nodes n hn).node.indexed
  have part := Leads.log_le reachable₂ toLast hn leads₂ leads
  have cut₂ := second.cut reachable₂ hn
  have follows : Follows (c.nodes n).node.log T f := ⟨current, indexed, matching⟩
  have holds := follows.holds_of_success indexedF part cut₂ term₂ ok
  have cuts : ∀ m ∈ between, m.term = T ∧ ∃ sent, sent <+: (c.nodes n).node.log ∧ CutFrom sent m := by
    intro m member
    obtain ⟨c', reachable', steps, builds⟩ := others m member
    exact ⟨builds.leads.2.1, _, Leads.log_le reachable' steps hn builds.leads.1 leads, builds.cut reachable' hn⟩
  obtain ⟨still, follows'⟩ := holds.run cut₂.commit part (follows.handle indexedF part cut₂ term₂) indexedF cuts
  have reached : m₁.leaderCommit ≤ m₂.leaderCommit := by
    rw [commit₁, commit₂]
    exact Leads.commit_le reachable toSecond hn leads₁ leads₂
  have earlier := Leads.log_le reachable toSecond hn leads₁ leads₂
  exact still.again follows' (first.cut reachable hn) term₁ earlier reached

/-- A leader with one entry, and the same leader after a follower has taken it
over and a second one has been proposed. -/
def oneEntry : List Action := campaign alpha 0 gamma ++ [.propose alpha [120]]

def twoEntries : List Action := ship alpha beta 1 ++ [.propose alpha [121]]

theorem late_append_harmless_twoEntries :
    let f := ((run trio (oneEntry ++ twoEntries)).nodes beta).node
    let m₁ : AppendEntriesRequest := ⟨1, alpha, 0, 0, [⟨1, 1, [120]⟩], 0⟩
    let m₂ : AppendEntriesRequest := ⟨1, alpha, 1, 1, [⟨1, 2, [121]⟩], 1⟩
    let f' := (f.handleAppendEntries m₂).1
    f'.log = [⟨1, 1, [120]⟩, ⟨1, 2, [121]⟩] ∧ f'.commitIndex = 1 ∧ (f'.handleAppendEntries m₁).1.log = f'.log ∧
      (f'.handleAppendEntries m₁).1.commitIndex = f'.commitIndex := by
  intro f m₁ m₂ f'
  have steps := run_steps trio oneEntry twoEntries
  obtain ⟨a, -, related⟩ := reachable_refines (run_reachable trio (oneEntry ++ twoEntries))
  have indexed : Indexed f.log := (related.nodes beta (by decide)).node.indexed
  have matching : Matching f.log ((run trio (oneEntry ++ twoEntries)).nodes alpha).node.log := by
    have front : f.log = ((run trio (oneEntry ++ twoEntries)).nodes alpha).node.log.take 1 := by decide +kernel
    rw [front]
    exact matching_take _ 1
  obtain ⟨log, commit⟩ : f'.log = [⟨1, 1, [120]⟩, ⟨1, 2, [121]⟩] ∧ f'.commitIndex = 1 := by decide +kernel
  have first : Builds trio (run trio oneEntry) alpha 1 m₁ := ⟨beta, by decide, by decide +kernel⟩
  have second : Builds trio (run trio (oneEntry ++ twoEntries)) alpha 1 m₂ := ⟨beta, by decide, by decide +kernel⟩
  have none : ∀ m ∈ ([] : List AppendEntriesRequest), ∃ c', Reachable trio c' ∧
      Relation.ReflTransGen (Step trio) c' (run trio (oneEntry ++ twoEntries)) ∧ Builds trio c' alpha 1 m := by simp
  have late := late_append_harmless (run_reachable trio oneEntry) steps .refl (by decide) first second
    second.leads.1 none (f := f) (by decide +kernel) indexed matching (by decide +kernel)
  exact ⟨log, commit, late.1, late.2.1⟩

end Cluster
end Dos.Consensus
