import DistributedObjectStorage.Consensus.RaftRefinement

/-!
# Each critical section refines some abstract steps of its node

One theorem for each section. The abstract steps are found here; how the
cluster stores the results is left to the caller.
-/
namespace Dos.Consensus
open Quorum
open ReplicatedLog (Extends Committed Chosen Coherent UpToDate take_le)

variable {g : Group} {a : Spec} {n : Bytes} {r : RaftNode}

/-! ## Counting peers -/

theorem Group.members_eq (g : Group) (hn : n ∈ g.members) :
    g.quorums = insert n (g.peers n).toFinset := by
  ext v
  simp only [Group.quorums, List.mem_toFinset, Finset.mem_insert, g.mem_peers n hn]
  by_cases same : v = n
  · subst same; simp [hn]
  · simp [same]

/-- `MajorityLocked` counts the node itself and distinct peers. -/
theorem Group.majority (g : Group) (hn : n ∈ g.members) {S : List Bytes} (nodup : S.Nodup)
    (peers : ∀ p ∈ S, p ∈ g.peers n)
    (enough : ((g.peers n).length + 1) / 2 + 1 ≤ 1 + S.length) :
    Majority g.quorums (insert n S.toFinset) := by
  have outside : ∀ {T : List Bytes}, (∀ p ∈ T, p ∈ g.peers n) → n ∉ T.toFinset := by
    intro T sub h
    have := (g.mem_peers n hn n).mp (sub n (List.mem_toFinset.mp h))
    exact this.2 rfl
  rw [g.members_eq hn]
  refine ⟨Finset.insert_subset_insert _ ?_, ?_⟩
  · intro p hp
    exact List.mem_toFinset.mpr (peers p (List.mem_toFinset.mp hp))
  · rw [Finset.card_insert_of_notMem (outside (fun _ h => h)),
      Finset.card_insert_of_notMem (outside peers), List.toFinset_card_of_nodup nodup,
      List.toFinset_card_of_nodup (g.peers_nodup n hn)]
    omega

/-! ## Stepping down -/

theorem stepDown_term {t : ℕ} (h : ¬ t < r.currentTerm) :
    (r.stepDownIfStaleLocked t).currentTerm = t := by
  unfold RaftNode.stepDownIfStaleLocked
  split
  · rfl
  · omega

theorem stepDown_reaches (sound : Sound g a) (h : NodeOk g a n r) (t : ℕ) :
    Reaches g n a fun a' => NodeOk g a' n (r.stepDownIfStaleLocked t) := by
  unfold RaftNode.stepDownIfStaleLocked
  split
  · rename_i newer
    have step : SpecStep g a _ := .adoptTerm n t (by rw [h.term]; exact newer)
    have ext := sound.invariant.extends step
    refine Reaches.step sound step ?_ sound.indexed ?_
    · intro v hv
      exact ⟨Function.update_of_ne hv _ _, Function.update_of_ne hv _ _, rfl, fun _ h => h⟩
    · exact
        { h with
          hardState := rfl
          term := Function.update_self ..
          vote := Function.update_self ..
          leader := fun lead => by cases lead
          candidate := fun cand => by cases cand
          next := fun lead => by cases lead
          matched := fun lead => by cases lead
          committed := h.committed.extends ext newer.le }
  · exact .stay sound h

/-! ## Votes -/

theorem upToDate_spec {req : RequestVoteRequest} {L : List LogEntry} (h : NodeOk g a n r)
    (index : req.lastLogIndex = L.length)
    (term : req.lastLogTerm = ReplicatedLog.lastTerm LogEntry.term L)
    (up : r.upToDate req = true) : UpToDate LogEntry.term L r.log := by
  simp only [RaftNode.upToDate, RaftNode.lastLogTermLocked, RaftNode.lastLogIndexLocked,
    lastLogTerm_eq, lastLogIndex_eq h.indexed, index, term, Bool.or_eq_true, decide_eq_true_eq,
    Bool.and_eq_true, beq_iff_eq] at up
  exact up

theorem handleRequestVote_reaches {call : VoteCall} (sound : Sound g a)
    (h : NodeOk g a call.dst r) (ok : VoteCallOk g a call) (leaderless : Bool) :
    Reaches g call.dst a fun a' =>
      NodeOk g a' call.dst (r.handleRequestVote call.req leaderless).1 ∧
      VoteReplyOk a' (call, (r.handleRequestVote call.req leaderless).2) := by
  unfold RaftNode.handleRequestVote
  by_cases pre : call.req.preVote = true
  · rw [if_pos pre]
    refine .stay sound ⟨h, fun real => ?_⟩
    rw [pre] at real
    cases real
  rw [if_neg pre]
  have real : call.req.preVote = false := by simpa using pre
  refine (stepDown_reaches sound h call.req.term).bind (fun a₁ moves sound₁ h₁ => ?_)
  have ok₁ := ok.extends (moves.extends sound)
  generalize r.stepDownIfStaleLocked call.req.term = s at h₁ ⊢
  dsimp only
  split
  · rename_i guard
    obtain ⟨now, free, up⟩ := guard
    obtain ⟨member, L, cand, index, term⟩ := ok₁.candidate real
    -- ids are non-empty, so an empty `votedFor` is the absence of a vote
    have named : call.req.candidateId ≠ [] := by
      intro empty
      exact g.named (empty ▸ member)
    have vote : a₁.vote call.dst = none ∨ a₁.vote call.dst = some call.req.candidateId := by
      rw [h₁.vote]
      rcases free with free | free
      · exact .inl (if_pos free)
      · exact .inr (by rw [free, if_neg named])
    have step : SpecStep g a₁ _ :=
      .grant call.dst call.req.candidateId L (by rw [h₁.term, ← now]; exact cand) vote
        (by rw [h₁.log]; exact upToDate_spec h₁ index term up)
    have ext := sound₁.invariant.extends step
    refine Reaches.step sound₁ step ?_ sound₁.indexed ⟨?_, ?_⟩
    · intro v hv
      exact ⟨rfl, Function.update_of_ne hv _ _, rfl, fun _ h => h⟩
    · exact
        { h₁ with
          hardState := rfl
          vote := by
            change Function.update _ _ _ _ = if call.req.candidateId = [] then _ else _
            rw [Function.update_self, if_neg named]
            rfl
          matched := fun lead peer hp m hm =>
            (h₁.matched lead peer hp m hm).imp_right (ext.acks ·)
          committed := h₁.committed.extends ext (Nat.le_refl _) }
    · intro _ _
      have same : a₁.term call.dst = call.req.term := h₁.term.trans now.symm
      refine ⟨a₁.log call.dst, (a₁.leader (a₁.term call.dst)).isSome = true, .inl ?_⟩
      rw [same]
  · exact .stay sound₁ ⟨h₁, fun _ granted => by cases granted⟩

/-! ## Commit and apply -/

/-- Committing further along a committed prefix of the log applies exactly the
entries in between. -/
theorem NodeOk.advance (h : NodeOk g a n r) {i : ℕ} (low : r.commitIndex ≤ i)
    (high : i ≤ r.log.length) (committed : SpecCommitted g a r.currentTerm (r.log.take i)) :
    NodeOk g a n (RaftNode.applyCommittedLocked { r with commitIndex := i }) := by
  have applied : r.log.take r.commitIndex ++ (r.log.take i).drop r.commitIndex =
      r.log.take i := by
    have start : r.log.take r.commitIndex = (r.log.take i).take r.commitIndex := by
      rw [List.take_take, Nat.min_eq_left low]
    rw [start, List.take_append_drop]
  rw [applyCommittedLocked_eq (by simp only [h.lastApplied]; exact low) high]
  exact
    { h with
      commit := high
      lastApplied := rfl
      applied := by simp only [h.applied, h.lastApplied, applied]
      committed := committed }

theorem leader_holds (sound : Sound g a) (h : NodeOk g a n r) (lead : r.role = .leader) :
    r.log = a.leaderLog r.currentTerm := by
  have current := sound.invariant.leaders.current n (by rw [h.term]; exact h.leader lead)
  rw [h.log, h.term] at current
  exact current

/-- The current-term rule and the match indices make the found prefix chosen. -/
theorem chosen_of_count (sound : Sound g a) (hn : n ∈ g.members) (h : NodeOk g a n r)
    (lead : r.role = .leader) {i : ℕ} (high : i ≤ r.log.length) (positive : 0 < i)
    (term : r.termAtLocked i = r.currentTerm) (enough : r.majorityLocked ≤ r.replicaCount i) :
    Chosen LogEntry.term g.quorums a r.currentTerm (r.log.take i) := by
  have held := leader_holds sound h lead
  obtain ⟨k, rfl⟩ : ∃ k, i = k + 1 := ⟨i - 1, by omega⟩
  have here : r.log[k]? = some r.log[k] := List.getElem?_eq_getElem (by omega)
  have last : r.log[k].term = r.currentTerm := (termAt_succ here).symm.trans term
  have length : (r.log.take (k + 1)).length = k + 1 := by simp; omega
  refine ⟨held ▸ take_le _ _, ⟨r.log.take k, r.log[k], by simp, last⟩, ?_⟩
  -- an entry of the current term was appended after the election, by this node
  have self : (n, r.currentTerm, r.log.length) ∈ a.acks := by
    rcases sound.invariant.leaders.self _ n (h.leader lead) with same | ack
    · have old := sound.invariant.logs.cand_term n _ _
        (sound.invariant.leaders.cand _ n (h.leader lead)) r.log[k]
        (by rw [← same, ← held]; exact List.getElem_mem _)
      omega
    · rwa [← held] at ack
  let S := (g.peers n).filter fun peer => (r.matchIndex peer).any (k + 1 ≤ ·)
  have count : ((g.peers n).length + 1) / 2 + 1 ≤ 1 + S.length := by
    simpa [RaftNode.majorityLocked, RaftNode.replicaCount, h.config, Group.config, S,
      List.countP_eq_length_filter] using enough
  refine ⟨insert n S.toFinset, g.majority hn ((g.peers_nodup n hn).filter _)
    (fun p hp => (List.mem_filter.mp hp).1) count, ?_⟩
  intro v hv
  rcases Finset.mem_insert.mp hv with rfl | hv
  · exact ⟨r.log.length, by omega, self⟩
  · obtain ⟨peer, reached⟩ := List.mem_filter.mp (List.mem_toFinset.mp hv)
    cases hm : r.matchIndex v with
    | none => simp [hm] at reached
    | some m =>
        simp only [hm, Option.any_some, decide_eq_true_eq] at reached
        rcases h.matched lead v peer m hm with zero | ack
        · omega
        · exact ⟨m, by omega, ack⟩

/-- A commit search leaves a related node, and an advance it reports is real. -/
theorem advanceCommit_ok (sound : Sound g a) (hn : n ∈ g.members) (h : NodeOk g a n r)
    (lead : r.role = .leader) {before : RaftNode} (same : before.commitIndex = r.commitIndex) :
    NodeOk g a n r.advanceCommitLocked ∧
      ∀ e ∈ Cluster.commitEvents n before r.advanceCommitLocked, EventOk g a e := by
  unfold RaftNode.advanceCommitLocked
  rcases advanceLoop_cases r.lastLogIndexLocked r with stay | ⟨i, low, high, term, enough, moved⟩
  · rw [stay]
    refine ⟨h, ?_⟩
    simp [Cluster.commitEvents, same]
  · rw [RaftNode.lastLogIndexLocked, lastLogIndex_eq h.indexed] at high
    have chosen := chosen_of_count sound hn h lead high (by omega) term enough
    have committed : SpecCommitted g a r.currentTerm (r.log.take i) :=
      .inr ⟨_, _, Nat.le_refl _, chosen, List.prefix_refl _⟩
    rw [moved]
    refine ⟨h.advance low.le high committed, ?_⟩
    rw [applyCommittedLocked_eq (by simp only [h.lastApplied]; exact low.le) high]
    intro e he
    simp only [Cluster.commitEvents, same, if_pos low, List.mem_singleton] at he
    subst he
    exact ⟨leader_holds sound h lead ▸ List.prefix_refl _, high, chosen⟩

/-! ## Appending entries -/

theorem coherent_matching {L M : List LogEntry} (hL : Coherent LogEntry.term a L)
    (hM : Coherent LogEntry.term a M) : Matching L M := by
  intro j e f he hf same
  obtain ⟨hj, rfl⟩ := List.getElem?_eq_some_iff.mp he
  obtain ⟨hj', rfl⟩ := List.getElem?_eq_some_iff.mp hf
  have endL : L.take (j + 1) = L.take j ++ [L[j]] := by simp
  have endM : M.take (j + 1) = M.take j ++ [M[j]] := by simp
  have headL : L.take j ++ [L[j]] <+: L := endL ▸ take_le _ _
  have headM : M.take j ++ [M[j]] <+: M := endM ▸ take_le _ _
  have equal := hL.matching hM headL headM (by simp; omega) same
  rw [endL, endM, equal]

/-- Replacing the log of a follower by one that keeps what it has committed. -/
theorem NodeOk.rewrite {a' : Spec} {log' : List LogEntry} (h : NodeOk g a n r)
    (follower : r.role = .follower) (ext : Extends a a') (term : a'.term n = a.term n)
    (vote : a'.vote n = a.vote n) (log : a'.log n = log') (indexed : Indexed log')
    (kept : r.log.take r.commitIndex <+: log') :
    NodeOk g a' n { r with log := log', storage := r.storage.rewriteLog log' } := by
  have length : (r.log.take r.commitIndex).length = r.commitIndex := by
    rw [List.length_take]
    exact Nat.min_eq_left h.commit
  have retake : log'.take r.commitIndex = r.log.take r.commitIndex := by
    have := List.prefix_iff_eq_take.mp kept
    rw [length] at this
    exact this.symm
  exact
    { h with
      stored := rfl
      term := term.trans h.term
      vote := vote.trans h.vote
      log := log
      indexed := indexed
      leader := fun lead => by cases follower.symm.trans lead
      candidate := fun cand => by cases follower.symm.trans cand
      next := fun lead => by cases follower.symm.trans lead
      matched := fun lead => by cases follower.symm.trans lead
      commit := length.symm.trans_le kept.length_le
      applied := h.applied.trans retake.symm
      committed := by
        change SpecCommitted g a' _ (log'.take r.commitIndex)
        rw [retake]
        exact h.committed.extends ext (Nat.le_refl _) }

/-- Taking over a commit index that lies inside a piece of the log received
from the leader: the minimum with the last index is then the index itself. -/
theorem NodeOk.learn (h : NodeOk g a n r) {sent : List LogEntry} {i : ℕ} (cover : sent <+: r.log)
    (inside : i ≤ sent.length) (committed : SpecCommitted g a r.currentTerm (sent.take i)) :
    NodeOk g a n (if r.commitIndex < i then
      RaftNode.applyCommittedLocked { r with commitIndex := min i r.lastLogIndexLocked }
      else r) := by
  split
  · rename_i further
    have high := inside.trans cover.length_le
    have piece : r.log.take i = sent.take i := by
      rw [List.prefix_iff_eq_take.mp cover, List.take_take, Nat.min_eq_left inside]
    rw [RaftNode.lastLogIndexLocked, lastLogIndex_eq h.indexed, Nat.min_eq_left high]
    exact h.advance further.le high (piece ▸ committed)
  · exact h

/-- A payload as a segment of its leader's log, at a node that passed the
consistency check. What this node has committed lies in that log too. -/
structure Segment (a : Spec) (r : RaftNode) (req : AppendEntriesRequest) (sent : List LogEntry) :
    Prop where
  upto : req.prevLogIndex + req.entries.length = sent.length
  entries : req.entries = ((a.leaderLog req.term).drop req.prevLogIndex).take req.entries.length
  start : (a.leaderLog req.term).take req.prevLogIndex <+: r.log
  matching : Matching r.log (a.leaderLog req.term)
  own : r.log.take r.commitIndex <+: a.leaderLog req.term

theorem segment_ok {call : AppendCall} {sent : List LogEntry} (sound : Sound g a)
    (h : NodeOk g a n r) (ok : AppendCallOk g a call sent) (now : r.currentTerm = call.req.term)
    (reached : call.req.prevLogIndex ≤ r.log.length)
    (check : ¬ (0 < call.req.prevLogIndex ∧
      termAt r.log call.req.prevLogIndex ≠ call.req.prevLogTerm)) :
    Segment a r call.req sent := by
  have inv := sound.invariant
  have cut : sent = (a.leaderLog call.req.term).take sent.length :=
    List.prefix_iff_eq_take.mp ok.held
  have upto : call.req.prevLogIndex + call.req.entries.length = sent.length := by
    have := ok.start
    rw [ok.entries, List.length_drop]
    omega
  have coherent := inv.logs.log n
  rw [h.log] at coherent
  have matching := coherent_matching coherent (inv.logs.leaderLog call.req.term)
  refine ⟨upto, ?_, check_start matching ok.held ok.start reached (ok.prevTerm ▸ check), matching, ?_⟩
  · have length : call.req.entries.length = sent.length - call.req.prevLogIndex := by omega
    rw [length, ← List.drop_take, ← cut]
    exact ok.entries
  · have led : (a.leader r.currentTerm).isSome := by rw [now, ok.leader]; rfl
    have own := h.committed.leaderLog inv (Nat.le_refl _) led
    rwa [now] at own

theorem Segment.splice {req : AppendEntriesRequest} {sent : List LogEntry}
    (segment : Segment a r req sent) (indexed : Indexed r.log)
    (indexedF : Indexed (a.leaderLog req.term)) (held : sent <+: a.leaderLog req.term) :
    Splice r.log (a.leaderLog req.term) sent.length (RaftNode.appendLoop r.log req.entries) := by
  have splice := appendLoop_splice (k := req.entries.length) indexed indexedF segment.matching
    segment.start (by rw [segment.upto]; exact held.length_le)
  rwa [← segment.entries, segment.upto] at splice

theorem acceptEntries_reaches {call : AppendCall} {sent : List LogEntry} (sound : Sound g a)
    (h : NodeOk g a n r) (ok : AppendCallOk g a call sent) (follower : r.role = .follower)
    (now : r.currentTerm = call.req.term) (reached : call.req.prevLogIndex ≤ r.log.length)
    (check : ¬ (0 < call.req.prevLogIndex ∧
      termAt r.log call.req.prevLogIndex ≠ call.req.prevLogTerm)) :
    Reaches g n a fun a' => NodeOk g a' n (r.acceptEntries call.req) ∧
      (n, call.req.term, call.req.prevLogIndex + call.req.entries.length) ∈ a'.acks := by
  have inv := sound.invariant
  have bound := ok.held.length_le
  have cut : sent = (a.leaderLog call.req.term).take sent.length :=
    List.prefix_iff_eq_take.mp ok.held
  have segment := segment_ok sound h ok now reached check
  have upto := segment.upto
  have splice := segment.splice h.indexed (sound.indexed call.req.term) ok.held
  have led : (a.leader r.currentTerm).isSome := by rw [now, ok.leader]; rfl
  have kept := splice.shared _ (take_le _ _) segment.own
  unfold RaftNode.acceptEntries
  generalize RaftNode.appendLoop r.log call.req.entries = acc at splice kept ⊢
  obtain ⟨log', changed⟩ := acc
  dsimp only at splice kept ⊢
  have indexed : Indexed log' := by
    rcases splice.origin with rfl | rfl
    · exact h.indexed
    · exact (sound.indexed _).shorten (take_le _ _)
  have step : SpecStep g a _ := .accept n sent.length log' (by rw [h.term]; exact led)
    (by rw [h.term, now]; exact bound) (by rw [h.term, now]; exact splice.holds)
    (by rw [h.term, now, h.log]; exact splice.origin)
    (by rw [h.term, now, h.log]; exact splice.shared)
  have ext := inv.extends step
  have cover : sent <+: log' := cut ▸ splice.holds
  have rewritten := h.rewrite follower ext rfl rfl (Function.update_self ..) indexed kept
  have committed := ok.committed.extends ext (Nat.le_refl _)
  rw [← now] at committed
  refine Reaches.step sound step (n := n) ?_ sound.indexed ⟨?_, ?_⟩
  · intro v hv
    exact ⟨rfl, rfl, Function.update_of_ne hv _ _, fun _ h => h⟩
  · cases changed with
    | true => exact rewritten.learn cover ok.commit committed
    | false =>
        -- nothing was written to storage, and nothing had to be
        have same : log' = r.log := splice.unchanged rfl
        have stored : NodeOk g _ n { r with log := log' } :=
          { rewritten with stored := h.stored.trans same.symm }
        exact stored.learn cover ok.commit committed
  · rw [upto, ← now, ← h.term]
    exact Set.mem_insert _ _

theorem checkEntries_reaches {call : AppendCall} {sent : List LogEntry} (sound : Sound g a)
    (h : NodeOk g a call.dst r) (ok : AppendCallOk g a call sent) (follower : r.role = .follower)
    (now : r.currentTerm = call.req.term) :
    Reaches g call.dst a fun a' => NodeOk g a' call.dst (r.checkEntries call.req).1 ∧
      AppendReplyOk a' (call, (r.checkEntries call.req).2) := by
  have last : r.lastLogIndexLocked = r.log.length := lastLogIndex_eq h.indexed
  unfold RaftNode.checkEntries
  by_cases short : r.lastLogIndexLocked < call.req.prevLogIndex
  · rw [if_pos short]
    exact .stay sound ⟨h, nofun, fun _ => short⟩
  rw [if_neg short]
  by_cases check : 0 < call.req.prevLogIndex ∧
      r.termAtLocked call.req.prevLogIndex ≠ call.req.prevLogTerm
  · rw [if_pos check]
    exact .stay sound ⟨h, nofun, fun _ => Nat.le_refl _⟩
  rw [if_neg check]
  exact (acceptEntries_reaches sound h ok follower now (by omega) check).bind
    (fun a' _ sound' accepted => .stay sound' ⟨accepted.1, fun _ => accepted.2, nofun⟩)

theorem handleAppendEntries_reaches {call : AppendCall} {sent : List LogEntry}
    (sound : Sound g a) (h : NodeOk g a call.dst r) (ok : AppendCallOk g a call sent) :
    Reaches g call.dst a fun a' => NodeOk g a' call.dst (r.handleAppendEntries call.req).1 ∧
      AppendReplyOk a' (call, (r.handleAppendEntries call.req).2) := by
  unfold RaftNode.handleAppendEntries
  by_cases stale : call.req.term < r.currentTerm
  · rw [if_pos stale]
    exact .stay sound ⟨h, nofun, fun _ => Nat.zero_le _⟩
  rw [if_neg stale]
  refine (stepDown_reaches sound h call.req.term).bind (fun a₁ moves sound₁ h₁ => ?_)
  have follower : NodeOk g a₁ call.dst
      { r.stepDownIfStaleLocked call.req.term with
        role := .follower, leaderId := call.req.leaderId } :=
    { h₁ with leader := nofun, candidate := nofun, next := nofun, matched := nofun }
  exact checkEntries_reaches sound₁ follower (ok.extends (moves.extends sound)) rfl
    (stepDown_term stale)

/-! ## Leading -/

theorem propose_reaches (sound : Sound g a) (hn : n ∈ g.members) (h : NodeOk g a n r)
    (command : Bytes) :
    Reaches g n a fun a' => NodeOk g a' n (r.propose command).1 ∧
      ∀ e ∈ Cluster.commitEvents n r (r.propose command).1, EventOk g a' e := by
  unfold RaftNode.propose
  by_cases other : r.role ≠ .leader
  · rw [if_pos other]
    exact .stay sound ⟨h, by simp [Cluster.commitEvents]⟩
  rw [if_neg other]
  have lead : r.role = .leader := not_not.mp other
  have elected := h.leader lead
  have held := leader_holds sound h lead
  have last : r.lastLogIndexLocked = r.log.length := lastLogIndex_eq h.indexed
  let entry : LogEntry := ⟨r.currentTerm, r.lastLogIndexLocked + 1, command⟩
  have step : SpecStep g a _ := .append n entry (by rw [h.term]; exact elected) h.term.symm
  have ext := sound.invariant.extends step
  have indexed : Indexed (r.log ++ [entry]) :=
    h.indexed.grow (by simp only [entry, last])
  have early : (r.log ++ [entry]).take r.commitIndex = r.log.take r.commitIndex :=
    List.take_append_of_le_length h.commit
  have reached : Reaches g n a fun a' => NodeOk g a' n
      { r with log := r.log ++ [entry], storage := r.storage.appendEntry entry } := by
    refine Reaches.step sound step ?_ ?_ ?_
    · intro v hv
      exact ⟨rfl, rfl, Function.update_of_ne hv _ _, fun _ h => h⟩
    · intro t
      by_cases same : t = a.term n
      · subst same
        simpa [h.log] using indexed
      · simpa only [Function.update_of_ne same] using sound.indexed t
    · exact
        { h with
          stored := congrArg (· ++ [entry]) h.stored
          log := by simp [h.log]
          indexed := indexed
          leader := fun _ => elected
          candidate := fun cand => by cases lead.symm.trans cand
          next := fun _ peer hp k hk => by
            have := h.next lead peer hp k hk
            simp only [List.length_append, List.length_singleton]
            omega
          matched := fun _ peer hp m hm => (h.matched lead peer hp m hm).imp_right (ext.acks ·)
          commit := h.commit.trans (by simp)
          applied := h.applied.trans early.symm
          committed := by
            change SpecCommitted g _ _ ((r.log ++ [entry]).take r.commitIndex)
            rw [early]
            exact h.committed.extends ext (Nat.le_refl _) }
  refine reached.bind (fun a₁ _ sound₁ h₁ => .stay sound₁ ?_)
  exact advanceCommit_ok sound₁ hn h₁ lead rfl

theorem NodeOk.setNext (h : NodeOk g a n r) (peer : Bytes) {k : ℕ}
    (range : 1 ≤ k ∧ k ≤ r.log.length + 1) :
    NodeOk g a n { r with nextIndex := Function.update r.nextIndex peer (some k) } := by
  refine { h with next := ?_ }
  intro lead p hp j hj
  by_cases same : p = peer
  · subst same
    simp only [Function.update_self, Option.some.injEq] at hj
    exact hj ▸ range
  · simp only [Function.update_of_ne same] at hj
    exact h.next lead p hp j hj

theorem NodeOk.setMatch (h : NodeOk g a n r) (peer : Bytes) {m : ℕ}
    (acked : m = 0 ∨ (peer, r.currentTerm, m) ∈ a.acks) :
    NodeOk g a n { r with matchIndex := Function.update r.matchIndex peer (some m) } := by
  refine { h with matched := ?_ }
  intro lead p hp j hj
  by_cases same : p = peer
  · subst same
    simp only [Function.update_self, Option.some.injEq] at hj
    exact hj ▸ acked
  · simp only [Function.update_of_ne same] at hj
    exact h.matched lead p hp j hj

theorem replicateReply_reaches {call : AppendCall} {sent : List LogEntry}
    {resp : AppendEntriesResponse} (sound : Sound g a) (hn : n ∈ g.members) (h : NodeOk g a n r)
    (peer : call.dst ∈ g.peers n) (ok : AppendCallOk g a call sent)
    (reply : AppendReplyOk a (call, resp)) :
    Reaches g n a fun a' => NodeOk g a' n (r.replicateReply call.dst call.req resp) ∧
      ∀ e ∈ Cluster.commitEvents n r (r.replicateReply call.dst call.req resp),
        EventOk g a' e := by
  unfold RaftNode.replicateReply
  by_cases moved : r.currentTerm ≠ call.req.term ∨ r.role ≠ .leader
  · rw [if_pos moved]
    exact .stay sound ⟨h, by simp [Cluster.commitEvents]⟩
  rw [if_neg moved]
  push Not at moved
  obtain ⟨now, lead⟩ := moved
  have held := leader_holds sound h lead
  by_cases newer : r.currentTerm < resp.term
  · rw [if_pos newer]
    refine (stepDown_reaches sound h resp.term).bind (fun a₁ _ sound₁ h₁ => .stay sound₁ ⟨h₁, ?_⟩)
    unfold RaftNode.stepDownIfStaleLocked
    rw [if_pos newer]
    simp [Cluster.commitEvents, RaftNode.persistHardStateLocked]
  rw [if_neg newer]
  by_cases success : resp.success = true
  · rw [if_pos success]
    have ack := reply.success success
    simp only at ack
    rw [← now] at ack
    -- the new match index is the old one or the acknowledged end of the payload
    have matched : max ((r.matchIndex call.dst).getD 0)
          (call.req.prevLogIndex + call.req.entries.length) = 0 ∨
        (call.dst, r.currentTerm, max ((r.matchIndex call.dst).getD 0)
          (call.req.prevLogIndex + call.req.entries.length)) ∈ a.acks := by
      rcases max_choice ((r.matchIndex call.dst).getD 0)
        (call.req.prevLogIndex + call.req.entries.length) with old | new
      · rw [old]
        cases hk : r.matchIndex call.dst with
        | none => exact .inl rfl
        | some k => exact h.matched lead _ peer k hk
      · rw [new]
        exact .inr ack
    have inside : max ((r.matchIndex call.dst).getD 0)
        (call.req.prevLogIndex + call.req.entries.length) ≤ r.log.length := by
      rcases matched with zero | acked
      · rw [zero]
        exact Nat.zero_le _
      · rw [held]
        exact (sound.invariant.acks.leader _ _ _ acked).2
    have node := (h.setMatch call.dst matched).setNext call.dst
      ⟨Nat.le_add_left 1 _, Nat.add_le_add_right inside 1⟩
    exact .stay sound (advanceCommit_ok sound hn node lead rfl)
  · rw [if_neg success]
    have refused := reply.refused (by simpa using success)
    simp only at refused
    have start := ok.start
    have short := ok.held.length_le
    rw [← now, ← held] at short
    refine .stay sound ⟨h.setNext call.dst ?_, by simp [Cluster.commitEvents]⟩
    split <;> omega

/-- A leader's request is cut from the log it has now. -/
theorem replicateRequest_ok {peer : Bytes} {term : ℕ} {req : AppendEntriesRequest} (id : ℕ)
    (sound : Sound g a) (hn : n ∈ g.members) (h : NodeOk g a n r) (hp : peer ∈ g.peers n)
    (sent : r.replicateRequest peer term = some req) :
    AppendCallOk g a ⟨id, n, peer, req⟩ r.log := by
  obtain ⟨lead, rfl, prev, rfl, rfl⟩ := replicateRequest_some sent
  have held := leader_holds sound h lead
  have last : r.lastLogIndexLocked = r.log.length := lastLogIndex_eq h.indexed
  have bounds : (r.nextIndex peer).getD (r.lastLogIndexLocked + 1) - 1 ≤ r.log.length := by
    cases hk : r.nextIndex peer with
    | none => simp [last]
    | some k =>
        have := h.next lead peer hp k hk
        simp only [Option.getD_some]
        omega
  refine ⟨((g.mem_peers n hn peer).mp hp).1, h.leader lead, held ▸ List.prefix_refl _, bounds, ?_,
    rfl, h.commit, h.committed⟩
  simp only [last, List.take_length]

/-! ## Elections -/

theorem becomeCandidate_reaches (sound : Sound g a) (hn : n ∈ g.members) (h : NodeOk g a n r) :
    Reaches g n a fun a' => NodeOk g a' n r.becomeCandidate ∧
      Granted a' n n r.becomeCandidate.currentTerm ∧
      (n, r.becomeCandidate.currentTerm, r.becomeCandidate.log) ∈ a'.candidacies := by
  have named : n ≠ [] := by
    rintro rfl
    exact g.named hn
  have step : SpecStep g a _ := .stand n
  have ext := sound.invariant.extends step
  -- nobody stood in the next term under this id, so it cannot have been elected
  have open_ : a.leader (r.currentTerm + 1) ≠ some n := by
    intro elected
    have := sound.invariant.ballots.cand_term n _ _ (sound.invariant.leaders.cand _ n elected)
    rw [h.term] at this
    omega
  refine Reaches.step sound step ?_ sound.indexed ⟨?_, ?_, ?_⟩
  · intro v hv
    exact ⟨Function.update_of_ne hv _ _, Function.update_of_ne hv _ _, rfl, fun _ h => h⟩
  · exact
      { h with
        hardState := rfl
        term := (Function.update_self ..).trans (congrArg (· + 1) h.term)
        vote := by
          change Function.update _ _ _ _ = if r.config.id = [] then _ else _
          rw [Function.update_self, h.config, Group.config, if_neg named]
          exact congrArg some (by rw [RaftNode.becomeCandidate, RaftNode.persistHardStateLocked,
            h.config, Group.config])
        leader := nofun
        candidate := fun _ => ⟨.inl (by rw [h.term, h.log]; rfl), open_⟩
        next := nofun
        matched := nofun
        committed := h.committed.extends ext (Nat.le_succ _) }
  · refine ⟨a.log n, (a.leader (a.term n + 1)).isSome = true, .inl ?_⟩
    rw [h.term]
    rfl
  · exact .inl (by rw [h.term, h.log]; rfl)

theorem becomeLeader_reaches (sound : Sound g a) (h : NodeOk g a n r)
    (cand : r.role = .candidate)
    (won : ∃ Q, Majority g.quorums Q ∧ ∀ v ∈ Q, Granted a v n r.currentTerm) :
    Reaches g n a fun a' => NodeOk g a' n r.becomeLeaderLocked ∧
      EventOk g a' (.becameLeader n r.currentTerm r.log) := by
  obtain ⟨Q, majority, votes⟩ := won
  obtain ⟨stood, other⟩ := h.candidate cand
  have step : SpecStep g a _ := .elect n Q majority (by rw [h.term, h.log]; exact stood)
    (by rw [h.term]; exact other) (by rw [h.term]; exact votes)
  have ext := sound.invariant.extends step
  have last : r.lastLogIndexLocked = r.log.length := lastLogIndex_eq h.indexed
  refine Reaches.step sound step ?_ ?_ ⟨?_, ?_⟩
  · intro v hv
    refine ⟨rfl, rfl, rfl, fun t elected => ?_⟩
    by_cases same : t = a.term n
    · subst same
      simp only [Function.update_self, Option.some.injEq] at elected
      exact absurd elected.symm hv
    · simpa only [Function.update_of_ne same] using elected
  · intro t
    by_cases same : t = a.term n
    · subst same
      simpa [h.log] using h.indexed
    · simpa only [Function.update_of_ne same] using sound.indexed t
  · exact
      { h with
        leader := fun _ => by
          change Function.update _ _ _ r.currentTerm = _
          rw [← h.term, Function.update_self]
        candidate := nofun
        next := fun _ peer hp k hk => by
          have known : peer ∈ r.config.peers := by rw [h.config]; exact hp
          simp only [RaftNode.becomeLeaderLocked, if_pos known, Option.some.injEq, last] at hk
          subst hk
          exact ⟨by omega, Nat.le_refl _⟩
        matched := fun _ peer hp m hm => by
          have known : peer ∈ r.config.peers := by rw [h.config]; exact hp
          simp only [RaftNode.becomeLeaderLocked, if_pos known, Option.some.injEq] at hm
          exact .inl hm.symm
        committed := h.committed.extends ext (Nat.le_refl _) }
  · constructor <;> rw [← h.term]
    · exact Function.update_self ..
    · exact (Function.update_self ..).trans h.log

theorem countVote_reaches (sound : Sound g a) (h : NodeOk g a n r) (req : RequestVoteRequest)
    (resp : RequestVoteResponse) :
    Reaches g n a fun a' => NodeOk g a' n (r.countVote req resp).1 := by
  unfold RaftNode.countVote
  split
  · exact stepDown_reaches sound h resp.term
  · split <;> exact .stay sound h

theorem countVote_granted {req : RequestVoteRequest} {resp : RequestVoteResponse}
    (counted : (r.countVote req resp).2 = true) : resp.voteGranted = true := by
  unfold RaftNode.countVote at counted
  split at counted
  · cases counted
  · split at counted
    · cases counted
    · exact counted

end Dos.Consensus
