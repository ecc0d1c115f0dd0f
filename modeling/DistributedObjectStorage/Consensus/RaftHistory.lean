import DistributedObjectStorage.Consensus.RaftSafety

/-!
# What the history of a run accounts for

Whoever leads was seen to become leader, and nobody's commit index is past
every commit that a leader was seen to make.
-/
namespace Dos.Consensus
open Transition

/-! ## Sections that lead nothing and commit nothing -/

structure Calm (r r' : RaftNode) : Prop where
  leader : r'.role = .leader → r.role = .leader ∧ r'.currentTerm = r.currentTerm
  commit : r'.commitIndex = r.commitIndex

section Calm
variable {r : RaftNode}

theorem Calm.refl (r : RaftNode) : Calm r r := ⟨fun lead => ⟨lead, rfl⟩, rfl⟩

theorem stepDown_calm (r : RaftNode) (t : ℕ) : Calm r (r.stepDownIfStaleLocked t) := by
  unfold RaftNode.stepDownIfStaleLocked
  split
  · exact ⟨nofun, rfl⟩
  · exact .refl r

theorem handleRequestVote_calm (r : RaftNode) (req : RequestVoteRequest) (leaderless : Bool) :
    Calm r (r.handleRequestVote req leaderless).1 := by
  unfold RaftNode.handleRequestVote
  by_cases pre : req.preVote = true
  · rw [if_pos pre]
    exact .refl r
  rw [if_neg pre]
  have calm := stepDown_calm r req.term
  generalize r.stepDownIfStaleLocked req.term = s at calm ⊢
  dsimp only
  split
  · exact ⟨calm.leader, calm.commit⟩
  · exact calm

theorem countVote_calm (r : RaftNode) (req : RequestVoteRequest) (resp : RequestVoteResponse) :
    Calm r (r.countVote req resp).1 := by
  unfold RaftNode.countVote
  split
  · exact stepDown_calm r resp.term
  · split <;> exact .refl r

theorem becomeCandidate_calm (r : RaftNode) : Calm r r.becomeCandidate := by
  constructor
  · intro lead
    cases lead
  · rfl

end Calm

/-! ## Sections that may commit -/

theorem applyLoop_frame (fuel : ℕ) : ∀ r : RaftNode,
    (RaftNode.applyLoop fuel r).role = r.role ∧
    (RaftNode.applyLoop fuel r).currentTerm = r.currentTerm ∧
    (RaftNode.applyLoop fuel r).commitIndex = r.commitIndex ∧
    (RaftNode.applyLoop fuel r).log = r.log := by
  induction fuel with
  | zero => exact fun r => ⟨rfl, rfl, rfl, rfl⟩
  | succ fuel ih =>
      intro r
      unfold RaftNode.applyLoop
      split
      · exact ih _
      · exact ⟨rfl, rfl, rfl, rfl⟩

theorem advance_frame (r : RaftNode) :
    r.advanceCommitLocked.role = r.role ∧ r.advanceCommitLocked.currentTerm = r.currentTerm ∧
      r.advanceCommitLocked.log = r.log := by
  unfold RaftNode.advanceCommitLocked
  rcases advanceLoop_cases r.lastLogIndexLocked r with stay | ⟨i, -, -, -, -, moved⟩
  · rw [stay]
    exact ⟨rfl, rfl, rfl⟩
  · rw [moved]
    have frame := applyLoop_frame (i - r.lastApplied) { r with commitIndex := i }
    exact ⟨frame.1, frame.2.1, frame.2.2.2⟩

theorem acceptEntries_frame (r : RaftNode) (req : AppendEntriesRequest) :
    (r.acceptEntries req).role = r.role ∧
    ((r.acceptEntries req).commitIndex ≤ r.commitIndex ∨
      (r.acceptEntries req).commitIndex ≤ req.leaderCommit) := by
  obtain ⟨storage, outcome⟩ := acceptEntries_cases r req
  rw [outcome]
  dsimp only
  split
  · rw [RaftNode.applyCommittedLocked]
    refine ⟨(applyLoop_frame _ _).1, .inr ?_⟩
    exact (applyLoop_frame _ _).2.2.1.le.trans (min_le_left _ _)
  · exact ⟨rfl, .inl (Nat.le_refl _)⟩

theorem checkEntries_frame (r : RaftNode) (req : AppendEntriesRequest) :
    (r.checkEntries req).1.role = r.role ∧
    ((r.checkEntries req).1.commitIndex ≤ r.commitIndex ∨
      (r.checkEntries req).1.commitIndex ≤ req.leaderCommit) := by
  unfold RaftNode.checkEntries
  split
  · exact ⟨rfl, .inl (Nat.le_refl _)⟩
  · split
    · exact ⟨rfl, .inl (Nat.le_refl _)⟩
    · exact acceptEntries_frame r req

theorem handleAppendEntries_frame (r : RaftNode) (req : AppendEntriesRequest) :
    ((r.handleAppendEntries req).1.role = .leader → (r.handleAppendEntries req).1 = r) ∧
    ((r.handleAppendEntries req).1.commitIndex ≤ r.commitIndex ∨
      (r.handleAppendEntries req).1.commitIndex ≤ req.leaderCommit) := by
  unfold RaftNode.handleAppendEntries
  by_cases stale : req.term < r.currentTerm
  · rw [if_pos stale]
    exact ⟨fun _ => rfl, .inl (Nat.le_refl _)⟩
  · rw [if_neg stale]
    have calm := stepDown_calm r req.term
    have frame := checkEntries_frame
      { r.stepDownIfStaleLocked req.term with role := .follower, leaderId := req.leaderId } req
    refine ⟨fun lead => ?_, ?_⟩
    · have follower := frame.1
      dsimp only at lead follower
      rw [follower] at lead
      cases lead
    · rw [← calm.commit]
      exact frame.2

theorem propose_frame (r : RaftNode) (command : Bytes) :
    (r.propose command).1.role = r.role ∧ (r.propose command).1.currentTerm = r.currentTerm := by
  unfold RaftNode.propose
  split
  · exact ⟨rfl, rfl⟩
  · have frame := advance_frame
      { r with
        log := r.log ++ [⟨r.currentTerm, r.lastLogIndexLocked + 1, command⟩]
        storage := r.storage.appendEntry ⟨r.currentTerm, r.lastLogIndexLocked + 1, command⟩ }
    exact ⟨frame.1, frame.2.1⟩

theorem replicateReply_leader (r : RaftNode) (peer : Bytes) (req : AppendEntriesRequest)
    (resp : AppendEntriesResponse) (lead : (r.replicateReply peer req resp).role = .leader) :
    r.role = .leader ∧ (r.replicateReply peer req resp).currentTerm = r.currentTerm := by
  unfold RaftNode.replicateReply at lead ⊢
  split
  · rename_i moved
    rw [if_pos moved] at lead
    exact ⟨lead, rfl⟩
  rename_i here
  have leads : r.role = .leader := by
    by_contra other
    exact here (.inr other)
  rw [if_neg here] at lead
  refine ⟨leads, ?_⟩
  split
  · rename_i newer
    rw [if_pos newer] at lead
    exact ((stepDown_calm r resp.term).leader lead).2
  · split
    · exact (advance_frame _).2.1
    · rfl

/-! ## The invariant -/

/-- Some leader was seen to commit at least this far. -/
def Backed (c : Cluster) (k : ℕ) : Prop :=
  k = 0 ∨ ∃ n t i log, Event.advancedCommit n t i log ∈ c.history ∧ k ≤ i

theorem Backed.le {c : Cluster} {k j : ℕ} (h : Backed c k) (low : j ≤ k) : Backed c j := by
  rcases h with rfl | ⟨n, t, i, log, event, bound⟩
  · exact .inl (Nat.le_zero.mp low)
  · exact .inr ⟨n, t, i, log, event, low.trans bound⟩

theorem Backed.grow {c c' : Cluster} {k : ℕ} (h : Backed c k)
    (grows : ∀ e ∈ c.history, e ∈ c'.history) : Backed c' k := by
  rcases h with zero | ⟨n, t, i, log, event, bound⟩
  · exact .inl zero
  · exact .inr ⟨n, t, i, log, grows _ event, bound⟩

structure Accounted (g : Group) (c : Cluster) : Prop where
  leader : ∀ n ∈ g.members, (c.nodes n).node.role = .leader →
    ∃ log, Event.becameLeader n (c.nodes n).node.currentTerm log ∈ c.history
  commit : ∀ n ∈ g.members, Backed c (c.nodes n).node.commitIndex
  sent : ∀ call ∈ c.appendCalls, Backed c call.req.leaderCommit

section Accounted
variable {g : Group} {c c' : Cluster} {n : Bytes} {p : Process}

theorem Accounted.act (h : Accounted g c) (nodes : c'.nodes = Function.update c.nodes n p)
    (grows : ∀ e ∈ c.history, e ∈ c'.history)
    (leader : p.node.role = .leader →
      ∃ log, Event.becameLeader n p.node.currentTerm log ∈ c'.history)
    (commit : Backed c' p.node.commitIndex)
    (sent : ∀ call ∈ c'.appendCalls, call ∈ c.appendCalls ∨ Backed c' call.req.leaderCommit) :
    Accounted g c' := by
  refine ⟨fun m hm => ?_, fun m hm => ?_, fun call hc => ?_⟩
  · rw [nodes]
    by_cases same : m = n
    · subst same
      simpa using leader
    · rw [Function.update_of_ne same]
      intro lead
      obtain ⟨log, event⟩ := h.leader m hm lead
      exact ⟨log, grows _ event⟩
  · rw [nodes]
    by_cases same : m = n
    · subst same
      simpa using commit
    · rw [Function.update_of_ne same]
      exact (h.commit m hm).grow grows
  · exact (sent call hc).elim (fun old => (h.sent call old).grow grows) id

/-- A calm section needs no new account. -/
theorem Accounted.calm (h : Accounted g c) (hn : n ∈ g.members)
    (nodes : c'.nodes = Function.update c.nodes n p) (same : c'.history = c.history)
    (sent : c'.appendCalls = c.appendCalls) (calm : Calm (c.nodes n).node p.node) :
    Accounted g c' := by
  have grows : ∀ e ∈ c.history, e ∈ c'.history := fun e he => same ▸ he
  refine h.act nodes grows (fun lead => ?_) ?_ (fun call hc => .inl (sent ▸ hc))
  · obtain ⟨before, term⟩ := calm.leader lead
    rw [term, same]
    exact h.leader n hn before
  · rw [calm.commit]
    exact (h.commit n hn).grow grows

/-- A section of a leader that reports the commit it made. -/
theorem Accounted.reported (h : Accounted g c) (hn : n ∈ g.members)
    (nodes : c'.nodes = Function.update c.nodes n p)
    (history : c'.history = Cluster.commitEvents n (c.nodes n).node p.node ++ c.history)
    (sent : c'.appendCalls = c.appendCalls)
    (leader : p.node.role = .leader →
      (c.nodes n).node.role = .leader ∧ p.node.currentTerm = (c.nodes n).node.currentTerm) :
    Accounted g c' := by
  have grows : ∀ e ∈ c.history, e ∈ c'.history := by
    intro e he
    rw [history]
    exact List.mem_append_right _ he
  refine h.act nodes grows (fun lead => ?_) ?_ (fun call hc => .inl (sent ▸ hc))
  · obtain ⟨before, term⟩ := leader lead
    obtain ⟨log, event⟩ := h.leader n hn before
    exact ⟨log, term ▸ grows _ event⟩
  · by_cases advanced : (c.nodes n).node.commitIndex < p.node.commitIndex
    · refine .inr ⟨n, p.node.currentTerm, p.node.commitIndex, p.node.log, ?_, Nat.le_refl _⟩
      rw [history, Cluster.commitEvents, if_pos advanced]
      exact List.mem_append_left _ (List.mem_singleton.mpr rfl)
    · exact ((h.commit n hn).grow grows).le (Nat.le_of_not_lt advanced)

theorem Accounted.initial (g : Group) : Accounted g (Cluster.initial g) := by
  refine ⟨fun n _ lead => ?_, fun n _ => .inl rfl, nofun⟩
  cases lead

theorem Accounted.openRound {r : RaftNode} (h : Accounted g c) (hn : n ∈ g.members)
    (calm : Calm (c.nodes n).node r) (req : RequestVoteRequest) :
    Accounted g (c.openRound n r req) := h.calm hn rfl rfl rfl calm

theorem Accounted.setElection (h : Accounted g c) (hn : n ∈ g.members) (e : Election) :
    Accounted g (c.setElection n e) := h.calm hn rfl rfl rfl (.refl _)

theorem Accounted.step (h : Accounted g c) (reachable : Cluster.Reachable g c)
    (step : Cluster.Step g c c') : Accounted g c' := by
  obtain ⟨a, -, related⟩ := reachable_refines reachable
  cases step with
  | @restart n hn =>
      refine h.act rfl (fun e he => List.mem_cons_of_mem _ he) (fun lead => ?_) (.inl rfl)
        (fun call hc => .inl hc)
      cases lead
  | @startElection n hn idle =>
      simp only [Cluster.startElection]
      split
      · exact h
      · exact h.openRound hn (.refl _) _
  | @receiveVote n peer round resp hn =>
      exact h.calm hn rfl rfl rfl (countVote_calm _ round.req resp)
  | @loseVote n peer round hn => exact h.setElection hn _
  | @finishRound n round hn => exact h.setElection hn _
  | @startVote n wouldBeTerm contacted hn =>
      simp only [Cluster.startVote]
      split
      · exact h.setElection hn _
      · exact h.openRound hn (becomeCandidate_calm _) _
  | @finishElection n term hn =>
      simp only [Cluster.finishElection]
      split
      · refine h.act rfl (fun e he => List.mem_cons_of_mem _ he)
          (fun _ => ⟨_, List.mem_cons_self⟩) ?_ (fun call hc => .inl hc)
        exact (h.commit n hn).grow (fun e he => List.mem_cons_of_mem _ he)
      · exact h.setElection hn _
  | @deliverVote call leaderless sent =>
      exact h.calm (related.voteCalls call sent).dst rfl rfl rfl
        (handleRequestVote_calm _ call.req leaderless)
  | @deliverAppend call sent =>
      obtain ⟨log, ok⟩ := related.appendCalls call sent
      have frame := handleAppendEntries_frame (c.nodes call.dst).node call.req
      refine h.act rfl (fun e he => he) (fun lead => ?_) ?_ (fun call hc => .inl hc)
      · have same := frame.1 lead
        change ∃ log, Event.becameLeader call.dst
          ((c.nodes call.dst).node.handleAppendEntries call.req).1.currentTerm log ∈ c.history
        change ((c.nodes call.dst).node.handleAppendEntries call.req).1.role = .leader at lead
        rw [same] at lead ⊢
        exact h.leader call.dst ok.dst lead
      · rcases frame.2 with own | told
        · exact (h.commit call.dst ok.dst).le own
        · exact (h.sent call sent).le told
  | @propose n command hn =>
      refine h.reported hn rfl rfl rfl (fun lead => ?_)
      have frame := propose_frame (c.nodes n).node command
      exact ⟨frame.1 ▸ lead, frame.2⟩
  | @replicate n peer term hn hp free =>
      unfold Cluster.replicate
      cases made : (c.nodes n).node.replicateRequest peer term with
      | none =>
          simp only [made]
          exact h
      | some req =>
          simp only [made]
          refine h.act rfl (fun e he => he) (h.leader n hn) (h.commit n hn) (fun call hc => ?_)
          rcases List.mem_cons.mp hc with rfl | old
          · obtain ⟨_, _, _, _, rfl⟩ := replicateRequest_some made
            exact .inr (h.commit n hn)
          · exact .inl old
  | @receiveAppend call resp hn waits sent =>
      exact h.reported hn rfl rfl rfl
        (replicateReply_leader (c.nodes call.src).node call.dst call.req resp)
  | @loseAppend n peer hn => exact h.calm hn rfl rfl rfl (.refl _)

theorem reachable_accounted (reachable : Cluster.Reachable g c) : Accounted g c := by
  refine System.Reachable.invariant (P := Accounted g) ?_ ?_ reachable
  · rintro _ rfl
    exact .initial g
  · exact fun _ _ reached h step => h.step reached step

/-- The history of a run is only ever added to. -/
theorem history_grows (step : Cluster.Step g c c') : ∀ e ∈ c.history, e ∈ c'.history := by
  intro e he
  cases step with
  | restart => exact List.mem_cons_of_mem _ he
  | startElection =>
      simp only [Cluster.startElection]
      split <;> exact he
  | startVote =>
      simp only [Cluster.startVote]
      split <;> exact he
  | finishElection =>
      simp only [Cluster.finishElection]
      split
      · exact List.mem_cons_of_mem _ he
      · exact he
  | replicate =>
      simp only [Cluster.replicate]
      split <;> exact he
  | propose => exact List.mem_append_right _ he
  | receiveAppend => exact List.mem_append_right _ he
  | receiveVote | loseVote | finishRound | deliverVote | deliverAppend | loseAppend => exact he

/-! ## Applied entries were committed by a leader -/

theorem applied_committed (reachable : Cluster.Reachable g c) (hn : n ∈ g.members) {i : ℕ}
    {e : LogEntry} (first : 1 ≤ i) (held : (c.nodes n).node.applied[i - 1]? = some e) :
    Committed c i e := by
  obtain ⟨a, sound, related⟩ := reachable_refines reachable
  have node := (related.nodes n hn).node
  have inside : i ≤ (c.nodes n).node.commitIndex := by
    have bound := (List.getElem?_eq_some_iff.mp held).1
    rw [node.applied, List.length_take] at bound
    omega
  rcases (reachable_accounted reachable).commit n hn with zero | ⟨m, t, k, log, event, far⟩
  · omega
  obtain ⟨-, length, chosen⟩ := related.history _ event
  -- the leader committed at least as far, and committed lists are comparable
  have leader : SpecCommitted g a t (log.take k) :=
    .inr ⟨t, _, Nat.le_refl t, chosen, List.prefix_refl _⟩
  have whole : (c.nodes n).node.applied <+: log.take k := by
    rw [node.applied]
    rcases node.committed.comparable leader sound.invariant with short | long
    · exact short
    · have bound := node.commit
      rw [long.eq_of_length_le (by rw [List.length_take, List.length_take]; omega)]
  refine ⟨m, t, k, log, event, first, inside.trans far, ?_⟩
  obtain ⟨bound, rfl⟩ := List.getElem?_eq_some_iff.mp held
  rw [← List.getElem?_take_of_lt (j := k) (by omega)]
  exact List.prefix_iff_getElem?.mp whole _ bound

end Accounted
end Dos.Consensus
