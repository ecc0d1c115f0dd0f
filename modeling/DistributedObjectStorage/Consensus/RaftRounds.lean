import DistributedObjectStorage.Consensus.CatchUp
import DistributedObjectStorage.Consensus.RaftSimulation
import DistributedObjectStorage.Consensus.RaftTerms

/-!
# Steps of a part of the group

What the nodes of a set can do among themselves: close a round of votes, win one,
exchange a replication request. Nobody restarts, and no other node takes part.
An election starts only where its thread runs: `ElectionLoop` sleeps while its
node leads, and a handler that deposes the leader does not wake it.
-/
namespace Dos.Consensus
namespace Cluster

/-- The crashes so far. -/
def crashes (c : Cluster) : List Event :=
  c.history.filter fun
    | .crashed .. => true
    | _ => false

/-- The node became leader after its last start, in a history with the newest event first. -/
def ledSince (n : Bytes) : List Event → Bool
  | [] => false
  | .becameLeader m _ _ :: rest => m == n || ledSince n rest
  | .crashed m _ :: rest => m != n && ledSince n rest
  | .advancedCommit .. :: rest => ledSince n rest

/-- Only a node that has led can have its election thread asleep. -/
def Awake (c : Cluster) (n : Bytes) : Prop := ledSince n c.history = false

/-- A step of one of the nodes. None restarts, nothing happens at the others, and
no election starts where the thread may be asleep. -/
structure StepIn (g : Group) (Q : List Bytes) (c c' : Cluster) : Prop where
  step : Step g c c'
  still : ∀ p, p ∉ Q → c'.nodes p = c.nodes p
  crashes : c'.crashes = c.crashes
  awake : ∀ p, (c.nodes p).election = .idle → (c'.nodes p).election ≠ .idle → c.Awake p

abbrev Within (g : Group) (Q : List Bytes) : Cluster → Cluster → Prop := Relation.ReflTransGen (StepIn g Q)

variable {g : Group} {Q : List Bytes} {c c' : Cluster} {n q m : Bytes}

theorem Within.reachable (within : Within g Q c c') (reachable : Reachable g c) : Reachable g c' := by
  induction within with
  | refl => exact reachable
  | tail _ last ih => exact ih.next last.step

/-- The usual step: one process is replaced. -/
theorem StepIn.update {p : Process} (step : Step g c c') (member : n ∈ Q)
    (nodes : c'.nodes = Function.update c.nodes n p) (same : c'.crashes = c.crashes)
    (thread : (c.nodes n).election = .idle → p.election = .idle ∨ c.Awake n) : StepIn g Q c c' := by
  refine ⟨step, fun other outside => ?_, same, fun other idle busy => ?_⟩
  · rw [nodes, Function.update_of_ne]
    rintro rfl
    exact outside member
  · rw [nodes] at busy
    by_cases self : other = n
    · subst self
      rw [Function.update_self] at busy
      exact (thread idle).resolve_left busy
    · rw [Function.update_of_ne self] at busy
      exact absurd idle busy

theorem crashes_commitEvents (n : Bytes) (before after : RaftNode) (rest : List Event) :
    (commitEvents n before after ++ rest).filter (fun | .crashed .. => true | _ => false) =
      rest.filter fun | .crashed .. => true | _ => false := by
  unfold commitEvents
  split <;> rfl

/-! ## Closing a round -/

/-- The request threads that still wait give up. -/
theorem loseAll {round : VoteRound} (hn : n ∈ g.members) (member : n ∈ Q)
    (running : (c.nodes n).election = .voting round) :
    ∃ c', Within g Q c c' ∧ c'.history = c.history ∧ c'.nodes = Function.update c.nodes n
      { c.nodes n with election := .voting { round with waiting := [] } } := by
  obtain ⟨id, req, waiting, granted⟩ := round
  induction waiting generalizing c with
  | nil =>
      refine ⟨c, .refl, rfl, ?_⟩
      rw [← running, Function.update_eq_self_iff.mpr rfl]
  | cons peer waiting ih =>
      have step : Step g c (c.loseVote n peer ⟨id, req, peer :: waiting, granted⟩) :=
        .loseVote hn running List.mem_cons_self
      have left : ((c.loseVote n peer ⟨id, req, peer :: waiting, granted⟩).nodes n).election =
          .voting ⟨id, req, waiting, granted⟩ := by
        simp [loseVote, setElection, setProcess]
      obtain ⟨c', rest, history, nodes⟩ := ih left
      refine ⟨c', .head (.update step member rfl rfl (by simp [running])) rest, history, ?_⟩
      rw [nodes]
      simp [loseVote, setElection, setProcess]

/-- All threads joined, the round is decided. -/
theorem closeRound {round : VoteRound} (hn : n ∈ g.members) (member : n ∈ Q)
    (running : (c.nodes n).election = .voting round) :
    ∃ c', Within g Q c c' ∧ c'.history = c.history ∧ c'.nodes = Function.update c.nodes n
      { c.nodes n with election :=
          if (c.nodes n).node.majorityLocked ≤ round.votes then
            if round.req.preVote then .preVoteWon round.req.term else .voteWon round.req.term
          else .idle } := by
  obtain ⟨joined, within, history, nodes⟩ := loseAll (c := c) hn member running
  have here : (joined.nodes n).election = .voting { round with waiting := [] } := by
    rw [nodes, Function.update_self]
  refine ⟨joined.finishRound n { round with waiting := [] },
    within.tail (.update (.finishRound hn here rfl) member rfl rfl (by simp [here])), history, ?_⟩
  simp only [finishRound, setElection, setProcess, nodes, Function.update_self, Function.update_idem]
  rfl

/-- One exchange of a replication thread, which first gives up on whatever call it
was waiting for. -/
theorem exchange (hn : n ∈ g.members) (isPeer : m ∈ g.peers n) (member : n ∈ Q) (inQ : m ∈ Q)
    (leads : (c.nodes n).node.role = .leader) :
    let rounded := (Replication.round m ⟨(c.nodes n).node, (c.nodes m).node⟩).1
    ∃ c', Within g Q c c' ∧ (c'.nodes n).node = rounded.leader ∧ (c'.nodes n).election = (c.nodes n).election ∧
      c'.nodes m = { c.nodes m with node := rounded.follower } ∧ ∀ p, p ≠ n → p ≠ m → c'.nodes p = c.nodes p := by
  intro rounded
  have ne : m ≠ n := ((g.mem_peers n hn m).mp isPeer).2
  obtain ⟨req, made⟩ : ∃ req, (c.nodes n).node.replicateRequest m (c.nodes n).node.currentTerm = some req := by
    rw [RaftNode.replicateRequest, if_neg (by simp [leads])]
    exact ⟨_, rfl⟩
  let free := c.loseAppend n m
  let call : AppendCall := ⟨c.nextId, n, m, req⟩
  let sent := free.replicate n m (c.nodes n).node.currentTerm
  let resp := ((c.nodes m).node.handleAppendEntries req).2
  let handled := sent.deliverAppend call
  have sentEq : sent = { free.setProcess n { free.nodes n with
      sending := Function.update (free.nodes n).sending m (some call) } with
        appendCalls := call :: free.appendCalls, nextId := free.nextId + 1 } := by
    simp [sent, replicate, free, loseAppend, setProcess, made, call]
  have peer : sent.nodes m = c.nodes m := by simp [sentEq, free, loseAppend, setProcess, ne]
  have handledEq : handled = { sent.setNode m ((c.nodes m).node.handleAppendEntries req).1 with
      appendReplies := (call, resp) :: sent.appendReplies } := by
    simp only [handled, deliverAppend, call, peer, resp]
  have lost : StepIn g Q c free := .update (.loseAppend hn) member rfl rfl .inl
  have replicated : StepIn g Q free sent := by
    have step : Step g free sent := .replicate _ hn isPeer (by simp [free, loseAppend, setProcess])
    exact .update step member (by rw [sentEq]; rfl) (by rw [sentEq]; rfl) (by exact .inl)
  have delivered : StepIn g Q sent handled := by
    have step : Step g sent handled := .deliverAppend (by rw [sentEq]; exact List.mem_cons_self)
    exact .update step inQ (by rw [handledEq]; rfl) (by rw [handledEq]; rfl) (by exact .inl)
  have caller : handled.nodes n = sent.nodes n := by
    rw [handledEq]
    simp [setNode, setProcess, ne.symm]
  have received : StepIn g Q handled (handled.receiveAppend call resp) := by
    have waits : (handled.nodes n).sending m = some call := by
      rw [caller, sentEq]
      simp [setProcess]
    have step : Step g handled (handled.receiveAppend call resp) :=
      .receiveAppend hn waits (by rw [handledEq]; exact List.mem_cons_self)
    exact .update step member rfl (crashes_commitEvents _ _ _ _) .inl
  have outcome : rounded =
      ⟨(c.nodes n).node.replicateReply m req resp, ((c.nodes m).node.handleAppendEntries req).1⟩ := by
    simp only [rounded, Replication.round, made, resp]
  have node : (sent.nodes n).node = (c.nodes n).node := by simp [sentEq, setProcess, free, loseAppend]
  refine ⟨_, .head lost (.head replicated (.head delivered (.single received))), ?_, ?_, ?_, fun p other other' => ?_⟩
  · simp only [receiveAppend, setProcess, call, Function.update_self, caller, node, outcome]
  · simp [receiveAppend, setProcess, call, caller, sentEq, free, loseAppend]
  · simp [receiveAppend, setProcess, call, ne, handledEq, setNode, outcome, peer]
  · simp [receiveAppend, setProcess, call, other, other', handledEq, setNode, sentEq, free, loseAppend]

/-! ## A round of votes -/

/-- The node runs the round, and every peer it waits for has been asked. -/
structure Asked (c : Cluster) (n : Bytes) (round : VoteRound) : Prop where
  election : (c.nodes n).election = .voting round
  calls : ∀ p ∈ round.waiting, ⟨round.id, n, p, round.req⟩ ∈ c.voteCalls

/-- The peer grants the request, in a term that the candidate knows. -/
structure Grants (c : Cluster) (n : Bytes) (req : RequestVoteRequest) (q : Bytes) : Prop where
  other : q ≠ n
  granted : ((c.nodes q).node.handleRequestVote req true).2.voteGranted = true
  term : ((c.nodes q).node.handleRequestVote req true).2.term ≤ (c.nodes n).node.currentTerm

/-- A real vote counts only for the candidate of its term. -/
def Counts (r : RaftNode) (req : RequestVoteRequest) : Prop :=
  req.preVote = true ∨ r.role = .candidate ∧ r.currentTerm = req.term

/-- What the peer is left with after it was asked. -/
def Voted (c c' : Cluster) (req : RequestVoteRequest) (q : Bytes) : Prop :=
  c'.nodes q = { c.nodes q with node := ((c.nodes q).node.handleRequestVote req true).1 }

theorem Asked.openRound (c : Cluster) (n : Bytes) (node : RaftNode) (req : RequestVoteRequest) :
    Asked (c.openRound n node req) n ⟨c.nextId, req, node.config.peers, []⟩ := by
  refine ⟨by simp [Cluster.openRound, setProcess], fun p waiting => ?_⟩
  exact List.mem_append_left _ (List.mem_map.mpr ⟨p, waiting, rfl⟩)

theorem countVote_counted {r : RaftNode} {req : RequestVoteRequest} {resp : RequestVoteResponse}
    (counts : Counts r req) (granted : resp.voteGranted = true) (term : resp.term ≤ r.currentTerm) :
    r.countVote req resp = (r, true) := by
  unfold RaftNode.countVote
  rw [if_neg (Nat.not_lt.mpr term), granted]
  rcases counts with trial | ⟨candidate, current⟩
  · simp [trial]
  · simp [candidate, current]

/-- One peer answers the request of the round. -/
theorem Asked.answer {round : VoteRound} (asked : Asked c n round) (hn : n ∈ g.members) (member : n ∈ Q)
    (voter : q ∈ Q) (waits : q ∈ round.waiting) (ne : q ≠ n) {node : RaftNode} {counted : Bool}
    (count : (c.nodes n).node.countVote round.req ((c.nodes q).node.handleRequestVote round.req true).2 =
      (node, counted)) :
    ∃ c', Within g Q c c' ∧ c'.history = c.history ∧ c'.voteCalls = c.voteCalls ∧
      c'.nodes n = ⟨node, .voting { round with
        waiting := round.waiting.erase q
        granted := if counted then q :: round.granted else round.granted }, (c.nodes n).sending⟩ ∧
      Voted c c' round.req q ∧ ∀ p, p ≠ n → p ≠ q → c'.nodes p = c.nodes p := by
  let call : VoteCall := ⟨round.id, n, q, round.req⟩
  let resp := ((c.nodes q).node.handleRequestVote round.req true).2
  let handled := c.deliverVote call true
  have delivered : StepIn g Q c handled := by
    have step : Step g c handled := .deliverVote true (asked.calls q waits)
    exact .update step voter rfl rfl .inl
  have same : handled.nodes n = c.nodes n := by
    simp [handled, deliverVote, setNode, setProcess, call, ne.symm]
  have running : (handled.nodes n).election = .voting round := by rw [same, asked.election]
  have received : StepIn g Q handled (handled.receiveVote n q round resp) := by
    have step : Step g handled (handled.receiveVote n q round resp) :=
      .receiveVote hn running waits List.mem_cons_self
    exact .update step member rfl rfl (by simp [running])
  have after : (handled.receiveVote n q round resp).nodes = Function.update handled.nodes n
      ⟨node, .voting { round with
        waiting := round.waiting.erase q
        granted := if counted then q :: round.granted else round.granted }, (c.nodes n).sending⟩ := by
    simp only [receiveVote, setProcess, same, resp, count]
  refine ⟨_, .head delivered (.single received), rfl, rfl, ?_, ?_, ?_⟩
  · rw [after, Function.update_self]
  · rw [Voted, after, Function.update_of_ne ne]
    simp [handled, deliverVote, setNode, setProcess, call]
  · intro p other other'
    rw [after, Function.update_of_ne other]
    simp [handled, deliverVote, setNode, setProcess, call, other']

/-- An answer that grants the vote is counted. -/
theorem Asked.poll {round : VoteRound} (asked : Asked c n round) (hn : n ∈ g.members) (member : n ∈ Q)
    (voter : q ∈ Q) (waits : q ∈ round.waiting) (counts : Counts (c.nodes n).node round.req)
    (grants : Grants c n round.req q) :
    ∃ c', Within g Q c c' ∧
      Asked c' n { round with waiting := round.waiting.erase q, granted := q :: round.granted } ∧
      (c'.nodes n).node = (c.nodes n).node ∧ Voted c c' round.req q ∧
      ∀ p, p ≠ n → p ≠ q → c'.nodes p = c.nodes p := by
  obtain ⟨c', within, -, calls, after, rest⟩ := asked.answer hn member voter waits grants.other
    (countVote_counted counts grants.granted grants.term)
  refine ⟨c', within, ⟨by rw [after]; rfl, fun p left => ?_⟩, by rw [after], rest⟩
  rw [calls]
  exact asked.calls p (List.mem_of_mem_erase left)

/-- Several peers answer one after another. -/
theorem Asked.pollAll {round : VoteRound} {voters : List Bytes} (asked : Asked c n round) (hn : n ∈ g.members)
    (member : n ∈ Q) (distinct : voters.Nodup) (inside : ∀ q ∈ voters, q ∈ Q) (wait : ∀ q ∈ voters, q ∈ round.waiting)
    (counts : Counts (c.nodes n).node round.req) (grants : ∀ q ∈ voters, Grants c n round.req q) :
    ∃ c' round', Within g Q c c' ∧ (c'.nodes n).election = .voting round' ∧ round'.req = round.req ∧
      round'.votes = round.votes + voters.length ∧ (c'.nodes n).node = (c.nodes n).node ∧
      (∀ q ∈ voters, Voted c c' round.req q) ∧ ∀ p, p ≠ n → p ∉ voters → c'.nodes p = c.nodes p := by
  induction voters generalizing c round with
  | nil => exact ⟨c, round, .refl, asked.election, rfl, rfl, rfl, nofun, fun _ _ _ => rfl⟩
  | cons q voters ih =>
      obtain ⟨fresh, distinct⟩ := List.nodup_cons.mp distinct
      obtain ⟨inQ, inside⟩ := List.forall_mem_cons.mp inside
      obtain ⟨waits, wait⟩ := List.forall_mem_cons.mp wait
      obtain ⟨granted, grants⟩ := List.forall_mem_cons.mp grants
      obtain ⟨first, one, asked', node, voted, others⟩ := asked.poll hn member inQ waits counts granted
      have untouched : ∀ p ∈ voters, first.nodes p = c.nodes p := by
        intro p later
        exact others p (grants p later).other fun same => fresh (same ▸ later)
      obtain ⟨c', round', rest, running, req, votes, node', voted', others'⟩ := ih asked' distinct inside
        (fun p later => (List.mem_erase_of_ne fun same : p = q => fresh (same ▸ later)).mpr (wait p later))
        (by rw [node]; exact counts)
        (fun p later => by
          obtain ⟨other, granted, term⟩ := grants p later
          constructor
          · exact other
          · rw [untouched p later]
            exact granted
          · rw [untouched p later, node]
            exact term)
      refine ⟨c', round', one.trans rest, running, req, ?_, node'.trans node, ?_, ?_⟩
      · rw [votes]
        simp only [VoteRound.votes, List.length_cons]
        omega
      · intro p listed
        rcases List.mem_cons.mp listed with rfl | later
        · rw [Voted, others' p granted.other fresh]
          exact voted
        · have late := voted' p later
          rw [Voted, untouched p later] at late
          exact late
      · intro p other unlisted
        obtain ⟨ne, later⟩ := List.ne_and_not_mem_of_not_mem_cons unlisted
        rw [others' p other later, others p other ne]

/-! ## Majorities -/

/-- Distinct members, more than half of them. -/
structure Quorate (g : Group) (Q : List Bytes) : Prop where
  distinct : Q.Nodup
  members : ∀ q ∈ Q, q ∈ g.members
  majority : g.members.length < 2 * Q.length

theorem peers_length (hn : n ∈ g.members) : (g.peers n).length + 1 = g.members.length := by
  have alone : n ∉ g.peers n := fun self => ((g.mem_peers n hn n).mp self).2 rfl
  have distinct : (n :: g.peers n).Nodup := List.nodup_cons.mpr ⟨alone, g.peers_nodup n hn⟩
  have same : (n :: g.peers n).Perm g.members := by
    rw [List.perm_ext_iff_of_nodup distinct g.nodup]
    intro p
    rw [List.mem_cons, g.mem_peers n hn]
    by_cases own : p = n
    · simp [own, hn]
    · simp [own]
  exact same.length_eq

/-- The others of a majority are peers, and one vote more than they are is enough. -/
theorem Quorate.voters (quorum : Quorate g Q) (member : n ∈ Q) :
    (Q.erase n).Nodup ∧ (∀ q ∈ Q.erase n, q ∈ Q ∧ q ≠ n ∧ q ∈ g.peers n) ∧
      ((g.peers n).length + 1) / 2 + 1 ≤ 1 + (Q.erase n).length := by
  have hn := quorum.members n member
  refine ⟨quorum.distinct.erase n, fun q listed => ?_, ?_⟩
  · obtain ⟨ne, inQ⟩ := quorum.distinct.mem_erase_iff.mp listed
    exact ⟨inQ, ne, (g.mem_peers n hn q).mpr ⟨quorum.members q inQ, ne⟩⟩
  · have size := peers_length hn
    have enough := quorum.majority
    have one := List.length_erase_of_mem member
    have some : 0 < Q.length := List.length_pos_of_mem member
    omega

theorem config_eq (reachable : Reachable g c) (hn : n ∈ g.members) : (c.nodes n).node.config = g.config n := by
  obtain ⟨a, -, related⟩ := reachable_refines reachable
  exact (related.nodes n hn).node.config

/-- A round that the others of the majority grant is won. It starts with the node
as the election thread leaves it when it sends its requests. -/
theorem winRound {node : RaftNode} {req : RequestVoteRequest} (quorum : Quorate g Q) (member : n ∈ Q)
    (config : node.config = g.config n) (opened : StepIn g Q c (c.openRound n node req)) (counts : Counts node req)
    (grants : ∀ q ∈ Q.erase n, ((c.nodes q).node.handleRequestVote req true).2.voteGranted = true ∧
      ((c.nodes q).node.handleRequestVote req true).2.term ≤ node.currentTerm) :
    ∃ c', Within g Q c c' ∧
      (c'.nodes n).election = (if req.preVote then .preVoteWon req.term else .voteWon req.term) ∧
      (c'.nodes n).node = node ∧ ∀ q ∈ Q.erase n, Voted c c' req q := by
  have hn := quorum.members n member
  obtain ⟨distinct, voters, enough⟩ := quorum.voters member
  have asked := Asked.openRound c n node req
  have peers : node.config.peers = g.peers n := by
    rw [config]
    rfl
  have own : ((c.openRound n node req).nodes n).node = node := by simp [openRound, setProcess]
  have other : ∀ q ∈ Q.erase n, (c.openRound n node req).nodes q = c.nodes q := by
    intro q listed
    simp [openRound, setProcess, (voters q listed).2.1]
  obtain ⟨polled, round', within, running, same, votes, kept, voted, -⟩ := asked.pollAll hn member distinct
    (fun q listed => (voters q listed).1) (fun q listed => by rw [peers]; exact (voters q listed).2.2)
    (own.symm ▸ counts)
    (fun q listed => by
      constructor
      · exact (voters q listed).2.1
      · rw [other q listed]
        exact (grants q listed).1
      · rw [other q listed, own]
        exact (grants q listed).2)
  rw [own] at kept
  obtain ⟨c', more, -, nodes⟩ := closeRound hn member running
  have won : (polled.nodes n).node.majorityLocked ≤ round'.votes := by
    rw [kept, RaftNode.majorityLocked, config, votes]
    exact enough
  refine ⟨c', .head opened (within.trans more), ?_, ?_, fun q listed => ?_⟩
  · rw [nodes, Function.update_self, if_pos won, same]
  · rw [nodes, Function.update_self, kept]
  · rw [Voted, nodes, Function.update_of_ne (voters q listed).2.1, voted q listed, other q listed]

end Cluster
end Dos.Consensus
