import DistributedObjectStorage.Consensus.RaftCluster
import DistributedObjectStorage.Consensus.RaftLog
import DistributedObjectStorage.Library.ReplicatedLogCommit

/-!
# How a Raft group represents log replication

The abstract machine carries the history that the code does not: who was
elected, with which log, and what was acknowledged. `Refines` says how nodes,
threads and messages in flight are tied to that history.
-/
namespace Dos.Consensus
open Quorum Transition
open ReplicatedLog (Extends Committed Chosen Invariant)

abbrev Spec := ReplicatedLog.State Bytes LogEntry

abbrev Group.quorums (g : Group) : Finset Bytes := g.members.toFinset

abbrev Group.spec (g : Group) : System Spec := ReplicatedLog.system LogEntry.term g.quorums

abbrev SpecStep (g : Group) : Spec → Spec → Prop := ReplicatedLog.Step LogEntry.term g.quorums

abbrev SpecCommitted (g : Group) (a : Spec) (t : ℕ) (P : List LogEntry) : Prop :=
  Committed LogEntry.term g.quorums a t P

/-- An abstract state of some run whose leaders numbered their entries. -/
structure Sound (g : Group) (a : Spec) : Prop where
  reachable : g.spec.Reachable a
  indexed : ∀ t, Indexed (a.leaderLog t)

theorem Sound.invariant {g : Group} {a : Spec} (h : Sound g a) :
    Invariant LogEntry.term g.quorums a := ReplicatedLog.reachable_invariant h.reachable

/-- What a step of some other node leaves alone. -/
structure Untouched (a a' : Spec) (n : Bytes) : Prop where
  term : a'.term n = a.term n
  vote : a'.vote n = a.vote n
  log : a'.log n = a.log n
  leader : ∀ t, a'.leader t = some n → a.leader t = some n

/-- Abstract steps that only one node takes. -/
structure Moves (g : Group) (n : Bytes) (a a' : Spec) : Prop where
  steps : Relation.ReflTransGen (SpecStep g) a a'
  others : ∀ v, v ≠ n → Untouched a a' v

section Moves
variable {g : Group} {n : Bytes} {a a' a'' : Spec}

theorem Moves.refl (a : Spec) : Moves g n a a :=
  ⟨.refl, fun _ _ => ⟨rfl, rfl, rfl, fun _ h => h⟩⟩

theorem Moves.trans (h : Moves g n a a') (h' : Moves g n a' a'') : Moves g n a a'' := by
  refine ⟨h.steps.trans h'.steps, fun v hv => ?_⟩
  have u := h.others v hv
  have u' := h'.others v hv
  exact ⟨u'.term.trans u.term, u'.vote.trans u.vote, u'.log.trans u.log,
    fun t ht => u.leader t (u'.leader t ht)⟩

theorem Moves.extends (h : Moves g n a a') (sound : Sound g a) : Extends a a' :=
  ReplicatedLog.reachable_extends sound.reachable h.steps

/-- Some abstract steps of the node lead to a state with the postcondition. -/
def Reaches (g : Group) (n : Bytes) (a : Spec) (post : Spec → Prop) : Prop :=
  ∃ a', Moves g n a a' ∧ Sound g a' ∧ post a'

theorem Reaches.stay {post : Spec → Prop} (sound : Sound g a) (h : post a) :
    Reaches g n a post := ⟨a, .refl a, sound, h⟩

theorem Reaches.bind {post post' : Spec → Prop} (h : Reaches g n a post)
    (next : ∀ a', Moves g n a a' → Sound g a' → post a' → Reaches g n a' post') :
    Reaches g n a post' := by
  obtain ⟨a', moves, sound, holds⟩ := h
  obtain ⟨a'', moves', sound', holds'⟩ := next a' moves sound holds
  exact ⟨a'', moves.trans moves', sound', holds'⟩

/-- One abstract step, with what it leaves alone and the numbering it keeps. -/
theorem Reaches.step {post : Spec → Prop} (sound : Sound g a) (step : SpecStep g a a')
    (others : ∀ v, v ≠ n → Untouched a a' v) (indexed : ∀ t, Indexed (a'.leaderLog t))
    (holds : post a') : Reaches g n a post :=
  ⟨a', ⟨.single step, others⟩, ⟨sound.reachable.next step, indexed⟩, holds⟩

end Moves

/-! ## Messages -/

def Granted (a : Spec) (v c : Bytes) (t : ℕ) : Prop :=
  ∃ M late, (⟨v, c, t, M, late⟩ : ReplicatedLog.Grant Bytes LogEntry) ∈ a.grants

/-- A real vote request describes the log its candidate stood with. -/
structure VoteCallOk (g : Group) (a : Spec) (call : VoteCall) : Prop where
  dst : call.dst ∈ g.members
  candidate : call.req.preVote = false → call.req.candidateId ∈ g.members ∧
    ∃ L, (call.req.candidateId, call.req.term, L) ∈ a.candidacies ∧
      call.req.lastLogIndex = L.length ∧
      call.req.lastLogTerm = ReplicatedLog.lastTerm LogEntry.term L

def VoteReplyOk (a : Spec) (reply : VoteCall × RequestVoteResponse) : Prop :=
  reply.1.req.preVote = false → reply.2.voteGranted = true →
    Granted a reply.1.dst reply.1.req.candidateId reply.1.req.term

/-- An append request is cut from one version of its leader's log. That version
ends where the payload ends, so the commit index it carries is inside it. -/
structure AppendCallOk (g : Group) (a : Spec) (call : AppendCall) (sent : List LogEntry) :
    Prop where
  dst : call.dst ∈ g.members
  leader : a.leader call.req.term = some call.src
  held : sent <+: a.leaderLog call.req.term
  start : call.req.prevLogIndex ≤ sent.length
  entries : call.req.entries = sent.drop call.req.prevLogIndex
  prevTerm : call.req.prevLogTerm = termAt sent call.req.prevLogIndex
  commit : call.req.leaderCommit ≤ sent.length
  committed : SpecCommitted g a call.req.term (sent.take call.req.leaderCommit)

/-- Success acknowledges the payload; a refusal never points past the request. -/
structure AppendReplyOk (a : Spec) (reply : AppendCall × AppendEntriesResponse) : Prop where
  success : reply.2.success = true → (reply.1.dst, reply.1.req.term,
    reply.1.req.prevLogIndex + reply.1.req.entries.length) ∈ a.acks
  refused : reply.2.success = false → reply.2.conflictIndex ≤ reply.1.req.prevLogIndex

/-! ## Nodes and threads -/

structure NodeOk (g : Group) (a : Spec) (n : Bytes) (r : RaftNode) : Prop where
  config : r.config = g.config n
  hardState : r.storage.hardState = ⟨r.currentTerm, r.votedFor⟩
  stored : r.storage.log = r.log
  term : a.term n = r.currentTerm
  vote : a.vote n = if r.votedFor = [] then none else some r.votedFor
  log : a.log n = r.log
  indexed : Indexed r.log
  leader : r.role = .leader → a.leader r.currentTerm = some n
  candidate : r.role = .candidate →
    (n, r.currentTerm, r.log) ∈ a.candidacies ∧ a.leader r.currentTerm ≠ some n
  next : r.role = .leader → ∀ peer ∈ g.peers n, ∀ k, r.nextIndex peer = some k →
    1 ≤ k ∧ k ≤ r.log.length + 1
  matched : r.role = .leader → ∀ peer ∈ g.peers n, ∀ m, r.matchIndex peer = some m →
    m = 0 ∨ (peer, r.currentTerm, m) ∈ a.acks
  commit : r.commitIndex ≤ r.log.length
  lastApplied : r.lastApplied = r.commitIndex
  applied : r.applied = r.log.take r.commitIndex
  committed : SpecCommitted g a r.currentTerm (r.log.take r.commitIndex)

/-- The counted peers granted the vote, and no peer is counted twice. -/
structure RoundOk (g : Group) (a : Spec) (n : Bytes) (r : VoteRound) : Prop where
  candidate : r.req.candidateId = n
  self : Granted a n n r.req.term
  waiting_nodup : r.waiting.Nodup
  waiting : ∀ p ∈ r.waiting, p ∈ g.peers n
  granted_nodup : r.granted.Nodup
  granted : ∀ p ∈ r.granted, p ∈ g.peers n ∧ p ∉ r.waiting ∧ Granted a p n r.req.term

def ElectionOk (g : Group) (a : Spec) (n : Bytes) : Election → Prop
  | .idle | .preVoteWon _ => True
  | .voting r => r.req.preVote = false → RoundOk g a n r
  | .voteWon t => ∃ Q, Majority g.quorums Q ∧ ∀ v ∈ Q, Granted a v n t

structure ProcessOk (g : Group) (a : Spec) (n : Bytes) (p : Process) : Prop where
  node : NodeOk g a n p.node
  election : ElectionOk g a n p.election
  sending : ∀ peer call, p.sending peer = some call → call.src = n ∧ call.dst = peer ∧
    peer ∈ g.peers n ∧ ∃ sent, AppendCallOk g a call sent

def EventOk (g : Group) (a : Spec) : Event → Prop
  | .becameLeader n t log => a.leader t = some n ∧ a.electionLog t = log
  | .advancedCommit _ t i log => log <+: a.leaderLog t ∧ i ≤ log.length ∧
      Chosen LogEntry.term g.quorums a t (log.take i)
  | .crashed _ applied => Indexed applied ∧ ∃ t, SpecCommitted g a t applied

structure Refines (g : Group) (c : Cluster) (a : Spec) : Prop where
  indexed : ∀ t, Indexed (a.leaderLog t)
  nodes : ∀ n ∈ g.members, ProcessOk g a n (c.nodes n)
  voteCalls : ∀ call ∈ c.voteCalls, VoteCallOk g a call
  voteReplies : ∀ reply ∈ c.voteReplies, VoteReplyOk a reply
  appendCalls : ∀ call ∈ c.appendCalls, ∃ sent, AppendCallOk g a call sent
  appendReplies : ∀ reply ∈ c.appendReplies, AppendReplyOk a reply
  history : ∀ e ∈ c.history, EventOk g a e

/-! ## Everything but the acting node survives abstract steps -/

section Extends
variable {g : Group} {a a' : Spec} {n : Bytes}

theorem Granted.extends {v c : Bytes} {t : ℕ} (h : Granted a v c t) (ext : Extends a a') :
    Granted a' v c t := by
  obtain ⟨M, late, hg⟩ := h
  exact ⟨M, late, ext.grants hg⟩

theorem VoteCallOk.extends {call : VoteCall} (h : VoteCallOk g a call) (ext : Extends a a') :
    VoteCallOk g a' call := by
  refine ⟨h.dst, fun real => ?_⟩
  obtain ⟨member, L, cand, rest⟩ := h.candidate real
  exact ⟨member, L, ext.candidacies cand, rest⟩

theorem VoteReplyOk.extends {reply : VoteCall × RequestVoteResponse} (h : VoteReplyOk a reply)
    (ext : Extends a a') : VoteReplyOk a' reply :=
  fun real granted => (h real granted).extends ext

theorem AppendCallOk.extends {call : AppendCall} {sent : List LogEntry}
    (h : AppendCallOk g a call sent) (ext : Extends a a') : AppendCallOk g a' call sent :=
  { h with
    leader := ext.leader _ _ h.leader
    held := h.held.trans (ext.leaderLog _)
    committed := h.committed.extends ext (Nat.le_refl _) }

theorem AppendReplyOk.extends {reply : AppendCall × AppendEntriesResponse}
    (h : AppendReplyOk a reply) (ext : Extends a a') : AppendReplyOk a' reply :=
  { h with success := fun ok => ext.acks (h.success ok) }

theorem RoundOk.extends {r : VoteRound} (h : RoundOk g a n r) (ext : Extends a a') :
    RoundOk g a' n r :=
  { h with
    self := h.self.extends ext
    granted := fun p hp => (h.granted p hp).imp_right (And.imp_right (·.extends ext)) }

theorem ElectionOk.extends {e : Election} (h : ElectionOk g a n e) (ext : Extends a a') :
    ElectionOk g a' n e := by
  cases e with
  | idle => trivial
  | preVoteWon t => trivial
  | voting r => exact fun real => (h real).extends ext
  | voteWon t =>
      obtain ⟨Q, majority, votes⟩ := h
      exact ⟨Q, majority, fun v hv => (votes v hv).extends ext⟩

theorem EventOk.extends {e : Event} (h : EventOk g a e) (ext : Extends a a') :
    EventOk g a' e := by
  cases e with
  | becameLeader v t log =>
      exact ⟨ext.leader t v h.1, (ext.electionLog t v h.1).trans h.2⟩
  | advancedCommit v t i log =>
      exact ⟨h.1.trans (ext.leaderLog t), h.2.1, h.2.2.extends ext⟩
  | crashed v applied =>
      obtain ⟨indexed, t, committed⟩ := h
      exact ⟨indexed, t, committed.extends ext (Nat.le_refl _)⟩

theorem NodeOk.frame {r : RaftNode} (h : NodeOk g a n r) (same : Untouched a a' n)
    (ext : Extends a a') : NodeOk g a' n r :=
  { h with
    term := same.term.trans h.term
    vote := same.vote.trans h.vote
    log := same.log.trans h.log
    leader := fun lead => ext.leader _ _ (h.leader lead)
    candidate := fun cand => ⟨ext.candidacies (h.candidate cand).1,
      fun elected => (h.candidate cand).2 (same.leader _ elected)⟩
    matched := fun lead peer hp m hm => (h.matched lead peer hp m hm).imp_right (ext.acks ·)
    committed := h.committed.extends ext (Nat.le_refl _) }

theorem sending_extends {p : Process}
    (h : ∀ peer call, p.sending peer = some call → call.src = n ∧ call.dst = peer ∧
      peer ∈ g.peers n ∧ ∃ sent, AppendCallOk g a call sent) (ext : Extends a a') :
    ∀ peer call, p.sending peer = some call → call.src = n ∧ call.dst = peer ∧
      peer ∈ g.peers n ∧ ∃ sent, AppendCallOk g a' call sent := by
  intro peer call hc
  obtain ⟨src, dst, member, sent, ok⟩ := h peer call hc
  exact ⟨src, dst, member, sent, ok.extends ext⟩

/-- A thread that is done waiting needs no account of its call. -/
theorem sending_clear {sending : Bytes → Option AppendCall} {P : Bytes → AppendCall → Prop}
    (h : ∀ peer call, sending peer = some call → P peer call) (done : Bytes) :
    ∀ peer call, Function.update sending done none peer = some call → P peer call := by
  intro peer call hc
  by_cases same : peer = done
  · subst same
    simp at hc
  · rw [Function.update_of_ne same] at hc
    exact h peer call hc

theorem ProcessOk.frame {p : Process} (h : ProcessOk g a n p) (same : Untouched a a' n)
    (ext : Extends a a') : ProcessOk g a' n p :=
  ⟨h.node.frame same ext, h.election.extends ext, sending_extends h.sending ext⟩

end Extends

section Recorded
variable {α : Type} {P : α → Prop} {old : List α}

theorem recorded_append {new : List α} (ok : ∀ x ∈ new, P x) : ∀ x ∈ new ++ old, x ∈ old ∨ P x := by
  intro x hx
  rcases List.mem_append.mp hx with added | kept
  · exact .inr (ok x added)
  · exact .inl kept

theorem recorded_cons {y : α} (ok : P y) : ∀ x ∈ y :: old, x ∈ old ∨ P x := by
  intro x hx
  rcases List.mem_cons.mp hx with rfl | kept
  · exact .inr ok
  · exact .inl kept

end Recorded

/-- A step replaces one process and adds messages and events; what they say has
to be shown only for the new ones. -/
theorem Refines.act {g : Group} {c c' : Cluster} {a : Spec} {n : Bytes} {p : Process}
    (h : Refines g c a) (sound : Sound g a) (nodes : c'.nodes = Function.update c.nodes n p)
    (reaches : Reaches g n a fun a' => ProcessOk g a' n p ∧
      (∀ call ∈ c'.voteCalls, call ∈ c.voteCalls ∨ VoteCallOk g a' call) ∧
      (∀ reply ∈ c'.voteReplies, reply ∈ c.voteReplies ∨ VoteReplyOk a' reply) ∧
      (∀ call ∈ c'.appendCalls, call ∈ c.appendCalls ∨ ∃ sent, AppendCallOk g a' call sent) ∧
      (∀ reply ∈ c'.appendReplies, reply ∈ c.appendReplies ∨ AppendReplyOk a' reply) ∧
      ∀ e ∈ c'.history, e ∈ c.history ∨ EventOk g a' e) :
    ∃ a', Relation.ReflTransGen g.spec.step a a' ∧ Refines g c' a' := by
  obtain ⟨a', moves, sound', process, voteCalls, voteReplies, appendCalls, appendReplies,
    history⟩ := reaches
  have ext := moves.extends sound
  refine ⟨a', moves.steps, sound'.indexed, ?_, ?_, ?_, ?_, ?_, ?_⟩
  · intro v hv
    rw [nodes]
    by_cases same : v = n
    · subst same
      simpa using process
    · rw [Function.update_of_ne same]
      exact (h.nodes v hv).frame (moves.others v same) ext
  · exact fun call hc => (voteCalls call hc).elim (fun old => (h.voteCalls call old).extends ext) id
  · exact fun reply hr =>
      (voteReplies reply hr).elim (fun old => (h.voteReplies reply old).extends ext) id
  · intro call hc
    rcases appendCalls call hc with old | new
    · obtain ⟨sent, ok⟩ := h.appendCalls call old
      exact ⟨sent, ok.extends ext⟩
    · exact new
  · exact fun reply hr =>
      (appendReplies reply hr).elim (fun old => (h.appendReplies reply old).extends ext) id
  · exact fun e he => (history e he).elim (fun old => (h.history e old).extends ext) id

theorem Refines.initial (g : Group) : Refines g (Cluster.initial g) ReplicatedLog.initial := by
  refine ⟨fun _ => Indexed.nil, fun n _ => ⟨?_, trivial, by simp [Cluster.initial, Process.boot]⟩,
    ?_, ?_, ?_, ?_, ?_⟩
  · refine ⟨rfl, rfl, rfl, rfl, rfl, rfl, Indexed.nil, ?_, ?_, ?_, ?_, Nat.le_refl _, rfl, rfl,
      Committed.nil 0⟩ <;> simp [Cluster.initial, Process.boot, RaftNode.create]
  all_goals simp [Cluster.initial]

end Dos.Consensus
