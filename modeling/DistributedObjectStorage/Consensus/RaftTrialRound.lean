import DistributedObjectStorage.Consensus.RaftHighestTerm

/-!
# Trial rounds

A node stands for election after a won trial round. The peers counted in that
round are traced back through the schedule: each granted after the round was
opened, in a state in which all conditions of a grant held.
-/
namespace Dos.Consensus
open Quorum Transition
namespace Cluster

/-- The candidate as it was when the action after `before` opened its round. -/
def opener (g : Group) (before : List Action) (n : Bytes) : RaftNode := ((run g before).nodes n).node

/-- The request that the trial round sends to one peer. -/
def trialCall (g : Group) (before : List Action) (n v : Bytes) : VoteCall :=
  ⟨(run g before).nextId, n, v,
    (opener g before n).voteRequest ((opener g before n).currentTerm + 1) true⟩

/-- The voter's log is not ahead of the candidate's. -/
def NotAhead (voter candidate : RaftNode) : Prop :=
  voter.lastLogTermLocked < candidate.lastLogTermLocked ∨
    voter.lastLogTermLocked = candidate.lastLogTermLocked ∧
      voter.lastLogIndexLocked ≤ candidate.lastLogIndexLocked

/-- Between the opening of the round and the end of `mid` the peer granted its
trial request, with the lease test passed. -/
def GrantedTrial (g : Group) (before : List Action) (n : Bytes) (mid : List Action) (v : Bytes) :
    Prop :=
  ∃ first k rest, mid = first ++ .deliverVote k true :: rest ∧
    let c := run g (before ++ .election n .start :: first)
    c.voteCalls[k]? = some (trialCall g before n v) ∧
    (c.nodes v).node.currentTerm ≤ (opener g before n).currentTerm + 1 ∧
    (c.nodes v).node.role ≠ .leader ∧
    NotAhead (c.nodes v).node (opener g before n)

/-- The schedule opened a trial round of `n` after `before`. -/
structure Opened (g : Group) (acts before mid : List Action) (n : Bytes) : Prop where
  schedule : acts = before ++ .election n .start :: mid
  idle : ((run g before).nodes n).election = .idle
  role : (opener g before n).role ≠ .leader

/-- A majority of the group, the node included, stands behind its entry into term `t`. -/
def BackedBy (g : Group) (acts : List Action) (n : Bytes) (t : ℕ) : Prop :=
  ∃ (before mid : List Action) (voters : List Bytes), Opened g acts before mid n ∧
    (opener g before n).currentTerm + 1 = t ∧
    (∀ v ∈ voters, v ∈ g.peers n ∧ GrantedTrial g before n mid v) ∧
    Majority g.quorums (insert n voters.toFinset)

/-! ## Replies and call ids -/

section Replies
variable {g : Group} {c c' : Cluster} {n : Bytes}

/-- Ids are handed out in order, and replies answer calls that were made. -/
structure Fresh (c : Cluster) : Prop where
  calls : ∀ call ∈ c.voteCalls, call.id < c.nextId
  replies : ∀ reply ∈ c.voteReplies, reply.1.id < c.nextId

theorem Fresh.same (h : Fresh c) (calls : c'.voteCalls = c.voteCalls)
    (replies : c'.voteReplies = c.voteReplies) (next : c.nextId ≤ c'.nextId) : Fresh c' := by
  refine ⟨fun call hc => ?_, fun reply hr => ?_⟩
  · rw [calls] at hc
    exact Nat.lt_of_lt_of_le (h.calls call hc) next
  · rw [replies] at hr
    exact Nat.lt_of_lt_of_le (h.replies reply hr) next

theorem Fresh.openRound (h : Fresh c) (r : RaftNode) (req : RequestVoteRequest) :
    Fresh (c.openRound n r req) := by
  refine ⟨fun call hc => ?_, fun reply hr => Nat.lt_succ_of_lt (h.replies reply hr)⟩
  rcases List.mem_append.mp hc with new | old
  · obtain ⟨peer, -, rfl⟩ := List.mem_map.mp new
    exact Nat.lt_succ_self _
  · exact Nat.lt_succ_of_lt (h.calls call old)

theorem Fresh.step (h : Fresh c) (step : Step g c c') : Fresh c' := by
  cases step with
  | startElection =>
      simp only [Cluster.startElection]
      split
      · exact h
      · exact h.openRound _ _
  | startVote =>
      simp only [Cluster.startVote]
      split
      · exact h.same rfl rfl (Nat.le_refl _)
      · exact h.openRound _ _
  | finishElection =>
      simp only [Cluster.finishElection]
      split <;> exact h.same rfl rfl (Nat.le_refl _)
  | deliverVote leaderless sent =>
      refine ⟨h.calls, fun reply hr => ?_⟩
      rcases List.mem_cons.mp hr with rfl | old
      · exact h.calls _ sent
      · exact h.replies reply old
  | replicate =>
      simp only [Cluster.replicate]
      split
      · exact h
      · exact h.same rfl rfl (Nat.le_succ _)
  | restart | receiveVote | loseVote | finishRound | deliverAppend | propose | receiveAppend
    | loseAppend => exact h.same rfl rfl (Nat.le_refl _)

theorem run_fresh (g : Group) (acts : List Action) : Fresh (run g acts) := by
  refine System.Reachable.invariant (P := Fresh) ?_ ?_ (run_reachable g acts)
  · rintro _ rfl
    exact ⟨nofun, nofun⟩
  · exact fun _ _ _ h step => h.step step

/-- A reply is made by delivering its call. -/
theorem performs_voteReplies {act : Action} {reply : VoteCall × RequestVoteResponse}
    (performs : Performs g c act c') (here : reply ∈ c'.voteReplies) : reply ∈ c.voteReplies ∨
      ∃ k leaderless, act = .deliverVote k leaderless ∧ c.voteCalls[k]? = some reply.1 ∧
        reply.2 = ((c.nodes reply.1.dst).node.handleRequestVote reply.1.req leaderless).2 := by
  cases performs with
  | @deliverVote k call leaderless found =>
      rcases List.mem_cons.mp here with rfl | old
      · exact .inr ⟨k, leaderless, rfl, found, rfl⟩
      · exact .inl old
  | start =>
      simp only [startElection] at here
      split at here <;> exact .inl here
  | vote =>
      simp only [startVote] at here
      split at here <;> exact .inl here
  | finish =>
      simp only [finishElection] at here
      split at here <;> exact .inl here
  | replicate =>
      simp only [replicate] at here
      split at here <;> exact .inl here
  | skip | restart | receive | lose | finishRound | deliverAppend | propose | receiveAppend
    | loseAppend => exact .inl here

end Replies

/-! ## What a grant means -/

section Grants
variable {g : Group} {acts before mid : List Action} {n v : Bytes}

theorem handleRequestVote_granted {r : RaftNode} {req : RequestVoteRequest} {leaderless : Bool}
    (trial : req.preVote = true)
    (granted : (r.handleRequestVote req leaderless).2.voteGranted = true) :
    r.currentTerm ≤ req.term ∧ r.role ≠ .leader ∧ r.upToDate req = true ∧ leaderless = true := by
  unfold RaftNode.handleRequestVote at granted
  rw [if_pos trial] at granted
  simp only [Bool.and_eq_true, decide_eq_true_eq, bne_iff_ne] at granted
  obtain ⟨⟨⟨term, role⟩, upToDate⟩, lease⟩ := granted
  exact ⟨term, role, upToDate, lease⟩

theorem upToDate_notAhead {voter candidate : RaftNode} {t : ℕ} {preVote : Bool}
    (h : voter.upToDate (candidate.voteRequest t preVote) = true) : NotAhead voter candidate := by
  simp only [RaftNode.upToDate, RaftNode.voteRequest, Bool.or_eq_true, Bool.and_eq_true,
    beq_iff_eq] at h
  rcases h with older | ⟨same, short⟩
  · exact .inl (of_decide_eq_true older)
  · exact .inr ⟨same.symm, of_decide_eq_true short⟩

theorem GrantedTrial.extend (h : GrantedTrial g before n mid v) (act : Action) :
    GrantedTrial g before n (mid ++ [act]) v := by
  obtain ⟨first, k, rest, rfl, facts⟩ := h
  exact ⟨first, k, rest ++ [act], by simp, facts⟩

theorem Opened.extend (h : Opened g acts before mid n) (act : Action) :
    Opened g (acts ++ [act]) before (mid ++ [act]) n := by
  refine { h with schedule := ?_ }
  rw [h.schedule, List.append_assoc, List.cons_append]

theorem BackedBy.extend {t : ℕ} (h : BackedBy g acts n t) (act : Action) :
    BackedBy g (acts ++ [act]) n t := by
  obtain ⟨before, mid, voters, opened, term, granted, majority⟩ := h
  refine ⟨before, mid ++ [act], voters, opened.extend act, term, fun v hv => ?_, majority⟩
  exact ⟨(granted v hv).1, (granted v hv).2.extend act⟩

/-- A running trial round: who is counted in it, and what its replies say. -/
structure Trial (g : Group) (acts before mid : List Action) (n : Bytes) (round : VoteRound) :
    Prop where
  opened : Opened g acts before mid n
  call : ∀ v, (⟨round.id, n, v, round.req⟩ : VoteCall) = trialCall g before n v
  tally : Tally g n (GrantedTrial g before n mid) round
  replies : ∀ v resp, (trialCall g before n v, resp) ∈ (run g acts).voteReplies →
    resp.voteGranted = true → GrantedTrial g before n mid v

theorem Trial.extend {round : VoteRound} (h : Trial g acts before mid n round) (act : Action) :
    Trial g (acts ++ [act]) before (mid ++ [act]) n round := by
  refine ⟨h.opened.extend act, h.call, { h.tally with granted := fun p hp => ?_ },
    fun v resp here granted => ?_⟩
  · exact (h.tally.granted p hp).imp_right (And.imp_right (·.extend act))
  · rw [run_concat] at here
    rcases performs_voteReplies (exec_performs g _ act) here with old | ⟨k, leaderless, rfl, found, made⟩
    · exact (h.replies v resp old granted).extend act
    · -- the reply is made by this very action
      have made : resp = _ := made
      rw [made] at granted
      obtain ⟨term, role, upToDate, rfl⟩ := handleRequestVote_granted rfl granted
      refine ⟨mid, k, [], rfl, ?_⟩
      rw [← h.opened.schedule]
      exact ⟨found, term, role, upToDate_notAhead upToDate⟩

/-- Where the election thread of a node stands, with its trial round traced. -/
def ElectionTraced (g : Group) (acts : List Action) (n : Bytes) : Election → Prop
  | .idle | .voteWon _ => True
  | .voting round => round.req.preVote = true → ∃ before mid, Trial g acts before mid n round
  | .preVoteWon t => BackedBy g acts n t

theorem ElectionTraced.extend {e : Election} (h : ElectionTraced g acts n e) (act : Action) :
    ElectionTraced g (acts ++ [act]) n e := by
  cases e with
  | idle => trivial
  | voteWon => trivial
  | voting round =>
      intro trial
      obtain ⟨before, mid, traced⟩ := h trial
      exact ⟨before, mid ++ [act], traced.extend act⟩
  | preVoteWon t => exact BackedBy.extend h act

end Grants

/-! ## The election thread, step by step -/

section Thread
variable {g : Group} {acts : List Action} {c c' : Cluster} {n m : Bytes} {p : Process}

theorem traced_start {a : Spec} (related : Refines g (run g acts) a) (hn : n ∈ g.members)
    (idle : ((run g acts).nodes n).election = .idle) (role : (opener g acts n).role ≠ .leader) :
    ElectionTraced g (acts ++ [.election n .start]) n
      (.voting ⟨(run g acts).nextId,
        (opener g acts n).voteRequest ((opener g acts n).currentTerm + 1) true,
        (opener g acts n).config.peers, []⟩) := by
  have peers : (opener g acts n).config.peers = g.peers n := by
    rw [opener, (related.nodes n hn).node.config]
    rfl
  rw [peers]
  refine fun _ => ⟨acts, [], ⟨rfl, idle, role⟩, fun v => rfl,
    ⟨g.peers_nodup n hn, fun p hp => hp, List.nodup_nil, nofun⟩, fun v resp here => ?_⟩
  -- nobody has answered a call that is only now being made
  rw [run_concat] at here
  rcases performs_voteReplies (exec_performs g _ _) here with old | ⟨k, leaderless, made, -⟩
  · exact absurd ((run_fresh g acts).replies _ old) (Nat.lt_irrefl _)
  · cases made

/-- One request thread of the round is done; what it counted is a granted reply. -/
theorem traced_thread {round : VoteRound} {peer : Bytes} {act : Action} (counted : Bool)
    (h : ElectionTraced g acts n (.voting round)) (waits : peer ∈ round.waiting)
    (granted : counted = true → ∃ resp,
      (⟨round.id, n, peer, round.req⟩, resp) ∈ (run g acts).voteReplies ∧
        resp.voteGranted = true) :
    ElectionTraced g (acts ++ [act]) n (.voting
      { round with
        waiting := round.waiting.erase peer
        granted := if counted then peer :: round.granted else round.granted }) := by
  intro trial
  obtain ⟨before, mid, traced⟩ := h trial
  have vote : counted = true → GrantedTrial g before n mid peer := by
    intro yes
    obtain ⟨resp, here, vote⟩ := granted yes
    rw [traced.call] at here
    exact traced.replies peer resp here vote
  have done : Trial g acts before mid n
      { round with
        waiting := round.waiting.erase peer
        granted := if counted then peer :: round.granted else round.granted } :=
    ⟨traced.opened, traced.call, traced.tally.finish counted waits vote, traced.replies⟩
  exact ⟨before, mid ++ [act], done.extend act⟩

theorem traced_finishRound {a : Spec} {round : VoteRound} {act : Action}
    (related : Refines g (run g acts) a) (hn : n ∈ g.members)
    (h : ElectionTraced g acts n (.voting round)) :
    ElectionTraced g (acts ++ [act]) n
      (if ((run g acts).nodes n).node.majorityLocked ≤ round.votes then
        if round.req.preVote then .preVoteWon round.req.term else .voteWon round.req.term
      else .idle) := by
  by_cases enough : ((run g acts).nodes n).node.majorityLocked ≤ round.votes
  · rw [if_pos enough]
    cases trial : round.req.preVote with
    | false => trivial
    | true =>
        obtain ⟨before, mid, traced⟩ := h trial
        have term : (opener g before n).currentTerm + 1 = round.req.term :=
          (congrArg (fun call : VoteCall => call.req.term) (traced.call n)).symm
        have count : ((g.peers n).length + 1) / 2 + 1 ≤ 1 + round.granted.length := by
          simpa [RaftNode.majorityLocked, (related.nodes n hn).node.config, Group.config,
            VoteRound.votes] using enough
        have backed : BackedBy g acts n round.req.term := by
          refine ⟨before, mid, round.granted, traced.opened, term, fun v hv => ?_, ?_⟩
          · exact ⟨(traced.tally.granted v hv).1, (traced.tally.granted v hv).2.2⟩
          · exact g.majority hn traced.tally.granted_nodup
              (fun p hp => (traced.tally.granted p hp).1) count
        exact backed.extend act
  · rw [if_neg enough]
    trivial

/-- Only the acting node's election thread has to be traced anew. -/
theorem ElectionTraced.update {act : Action} (nodes : c'.nodes = Function.update c.nodes m p)
    (h : ElectionTraced g acts n (c.nodes n).election)
    (own : n = m → ElectionTraced g (acts ++ [act]) n p.election) :
    ElectionTraced g (acts ++ [act]) n (c'.nodes n).election := by
  rw [nodes]
  by_cases same : n = m
  · subst same
    rw [Function.update_self]
    exact own rfl
  · rw [Function.update_of_ne same]
    exact h.extend act

/-- A section that leaves the election thread alone. -/
theorem ElectionTraced.keep {act : Action} (nodes : c'.nodes = Function.update c.nodes m p)
    (keeps : p.election = (c.nodes m).election)
    (h : ElectionTraced g acts n (c.nodes n).election) :
    ElectionTraced g (acts ++ [act]) n (c'.nodes n).election := by
  refine h.update nodes (fun same => ?_)
  subst same
  rw [keeps]
  exact h.extend act

theorem traced_step {a : Spec} {act : Action} (related : Refines g (run g acts) a)
    (h : ElectionTraced g acts n ((run g acts).nodes n).election)
    (performs : Performs g (run g acts) act c') :
    ElectionTraced g (acts ++ [act]) n (c'.nodes n).election := by
  cases performs with
  | skip => exact h.extend act
  | restart => exact h.update rfl (fun _ => trivial)
  | start hn idle =>
      simp only [startElection]
      split
      · exact h.extend _
      · next role =>
          refine h.update rfl (fun same => ?_)
          subst same
          exact traced_start related hn idle role
  | receive hn running waits sent =>
      refine h.update rfl (fun same => ?_)
      subst same
      rw [running] at h
      exact traced_thread _ h waits (fun counted => ⟨_, sent, countVote_granted counted⟩)
  | lose hn running waits =>
      refine h.update rfl (fun same => ?_)
      subst same
      rw [running] at h
      exact traced_thread false h waits (by rintro ⟨⟩)
  | finishRound hn running =>
      refine h.update rfl (fun same => ?_)
      subst same
      rw [running] at h
      exact traced_finishRound related hn h
  | vote =>
      simp only [startVote]
      split
      · exact h.update rfl (fun _ => trivial)
      · exact h.update rfl (fun _ => by rintro ⟨⟩)
  | finish =>
      simp only [finishElection]
      split <;> exact h.update rfl (fun _ => trivial)
  | replicate =>
      simp only [replicate]
      split
      · exact h.extend _
      · exact h.keep rfl rfl
  | deliverVote | deliverAppend | propose | receiveAppend | loseAppend => exact h.keep rfl rfl

theorem run_traced (g : Group) (acts : List Action) (n : Bytes) :
    ElectionTraced g acts n ((run g acts).nodes n).election := by
  induction acts using List.reverseRecOn with
  | nil => trivial
  | append_singleton acts act ih =>
      obtain ⟨a, -, related⟩ := reachable_refines (run_reachable g acts)
      rw [run_concat]
      exact traced_step related ih (exec_performs g _ act)

end Thread
end Cluster
end Dos.Consensus
