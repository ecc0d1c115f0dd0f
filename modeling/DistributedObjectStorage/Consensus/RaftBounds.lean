import DistributedObjectStorage.Consensus.RaftSafety

/-!
# Log accesses stay in range and behind the commit index

The source reads `log_[i]` without a test and cuts the log without looking at
the commit index. Here the sections run again with these tests made: `none` is
an access out of range, a cut at index zero or a cut into the committed prefix.
In every reachable state the tested sections answer what the sections do.
-/
namespace Dos.Consensus
open Transition
open ReplicatedLog (take_le)

namespace RaftNode

def applyLoopChecked : ℕ → RaftNode → Option RaftNode
  | 0, n => some n
  | fuel + 1, n =>
      if n.lastApplied < n.commitIndex then
        n.log[n.lastApplied]?.bind fun entry =>
          applyLoopChecked fuel
            { n with lastApplied := n.lastApplied + 1, applied := n.applied ++ [entry] }
      else some n

def applyCommittedChecked (n : RaftNode) : Option RaftNode :=
  applyLoopChecked (n.commitIndex - n.lastApplied) n

def advanceLoopChecked : ℕ → RaftNode → Option RaftNode
  | 0, n => some n
  | index + 1, n =>
      if n.commitIndex < index + 1 then
        if n.termAtLocked (index + 1) ≠ n.currentTerm then advanceLoopChecked index n
        else if n.majorityLocked ≤ n.replicaCount (index + 1) then
          applyCommittedChecked { n with commitIndex := index + 1 }
        else advanceLoopChecked index n
      else some n

def advanceCommitChecked (n : RaftNode) : Option RaftNode := advanceLoopChecked n.lastLogIndexLocked n

/-- `log_.resize(idx - 1)`, which must leave the committed entries. -/
def resizeChecked (commitIndex : ℕ) (log : List LogEntry) (idx : ℕ) : Option (List LogEntry) :=
  if idx = 0 ∨ idx ≤ commitIndex then none else some (log.take (idx - 1))

def appendOneChecked (commitIndex : ℕ) (acc : List LogEntry × Bool) (e : LogEntry) :
    Option (List LogEntry × Bool) :=
  if e.index ≤ lastLogIndex acc.1 then
    if termAt acc.1 e.index = e.term then some acc
    else (resizeChecked commitIndex acc.1 e.index).map fun log => (log ++ [e], true)
  else some (acc.1 ++ [e], true)

def appendLoopChecked (commitIndex : ℕ) (log entries : List LogEntry) :
    Option (List LogEntry × Bool) :=
  entries.foldlM (appendOneChecked commitIndex) (log, false)

def acceptEntriesChecked (n : RaftNode) (req : AppendEntriesRequest) : Option RaftNode :=
  (appendLoopChecked n.commitIndex n.log req.entries).bind fun (log, changed) =>
    let n := { n with log := log }
    let n := if changed then { n with storage := n.storage.rewriteLog log } else n
    if n.commitIndex < req.leaderCommit then
      applyCommittedChecked { n with commitIndex := min req.leaderCommit n.lastLogIndexLocked }
    else some n

def checkEntriesChecked (n : RaftNode) (req : AppendEntriesRequest) :
    Option (RaftNode × AppendEntriesResponse) :=
  if n.lastLogIndexLocked < req.prevLogIndex then
    some (n, { term := n.currentTerm, success := false, conflictIndex := n.lastLogIndexLocked + 1 })
  else if 0 < req.prevLogIndex ∧ n.termAtLocked req.prevLogIndex ≠ req.prevLogTerm then
    some (n, { term := n.currentTerm, success := false, conflictIndex := req.prevLogIndex })
  else
    (n.acceptEntriesChecked req).map fun after =>
      (after, { term := n.currentTerm, success := true, conflictIndex := 0 })

def handleAppendEntriesChecked (n : RaftNode) (req : AppendEntriesRequest) :
    Option (RaftNode × AppendEntriesResponse) :=
  if req.term < n.currentTerm then
    some (n, { term := n.currentTerm, success := false, conflictIndex := 0 })
  else
    let n := n.stepDownIfStaleLocked req.term
    checkEntriesChecked { n with role := .follower, leaderId := req.leaderId } req

def proposeChecked (n : RaftNode) (command : Bytes) : Option (RaftNode × StatusOr ℕ) :=
  if n.role ≠ .leader then
    some (n, .error (.unavailable (text "not leader (leader=" ++ n.leaderId ++ text ")")))
  else
    let entry : LogEntry := ⟨n.currentTerm, n.lastLogIndexLocked + 1, command⟩
    let n := { n with log := n.log ++ [entry], storage := n.storage.appendEntry entry }
    n.advanceCommitChecked.map fun after => (after, .ok entry.index)

/-- The send half of `ReplicateTo` with its loop from `next` to the last index;
`prev` is `next - 1`, so `next` must not be zero. -/
def replicateRequestChecked (n : RaftNode) (peer : Bytes) (term : ℕ) :
    Option (Option AppendEntriesRequest) :=
  if n.role ≠ .leader ∨ n.currentTerm ≠ term then some none
  else
    let next := (n.nextIndex peer).getD (n.lastLogIndexLocked + 1)
    let prev := next - 1
    if next = 0 then none
    else
      ((List.range' next (n.lastLogIndexLocked + 1 - next)).mapM fun i => n.log[i - 1]?).map
        fun entries =>
          some
            { term := term
              leaderId := n.config.id
              prevLogIndex := prev
              prevLogTerm := n.termAtLocked prev
              entries := entries
              leaderCommit := n.commitIndex }

def replicateReplyChecked (n : RaftNode) (peer : Bytes) (req : AppendEntriesRequest)
    (resp : AppendEntriesResponse) : Option RaftNode :=
  if n.currentTerm ≠ req.term ∨ n.role ≠ .leader then some n
  else if n.currentTerm < resp.term then some (n.stepDownIfStaleLocked resp.term)
  else if resp.success then
    let matched := max ((n.matchIndex peer).getD 0) (req.prevLogIndex + req.entries.length)
    advanceCommitChecked
      { n with
        matchIndex := Function.update n.matchIndex peer (some matched)
        nextIndex := Function.update n.nextIndex peer (some (matched + 1)) }
  else
    let next := if resp.conflictIndex = 0 then 1 else resp.conflictIndex
    some { n with nextIndex := Function.update n.nextIndex peer (some next) }

/-! ## The tested loops -/

theorem applyLoopChecked_eq (fuel : ℕ) {n : RaftNode} (inside : n.commitIndex ≤ n.log.length) :
    applyLoopChecked fuel n = some (applyLoop fuel n) := by
  induction fuel generalizing n with
  | zero => rfl
  | succ fuel ih =>
      unfold applyLoopChecked applyLoop
      split
      · next more =>
          have bound : n.lastApplied < n.log.length := by omega
          rw [List.getElem?_eq_getElem bound, List.getD_eq_getElem _ _ bound]
          exact ih inside
      · rfl

theorem advanceLoopChecked_eq {last : ℕ} {n : RaftNode} (inside : last ≤ n.log.length) :
    advanceLoopChecked last n = some (advanceLoop last n) := by
  induction last with
  | zero => rfl
  | succ index ih =>
      unfold advanceLoopChecked advanceLoop
      split
      · split
        · exact ih (by omega)
        · split
          · exact applyLoopChecked_eq _ inside
          · exact ih (by omega)
      · rfl

theorem advanceCommitChecked_eq {n : RaftNode} (indexed : Indexed n.log) :
    n.advanceCommitChecked = some n.advanceCommitLocked :=
  advanceLoopChecked_eq (Nat.le_of_eq (lastLogIndex_eq indexed))

/-- The loop meets a differing term only above what the two logs share. -/
theorem appendOneChecked_eq {log F : List LogEntry} {acc : List LogEntry × Bool} {j commitIndex : ℕ}
    {f : LogEntry} (indexed : Indexed log) (indexedF : Indexed F)
    (own : log.take commitIndex <+: F) (h : Spliced log F j acc) (hf : F[j]? = some f) :
    appendOneChecked commitIndex acc f = some (appendOne acc f) := by
  obtain ⟨hj, rfl⟩ := List.getElem?_eq_some_iff.mp hf
  have atIndex : F[j].index = j + 1 := indexedF j _ hf
  unfold appendOneChecked appendOne
  cases h with
  | kept kept =>
      split
      · next inside =>
          rw [lastLogIndex_eq indexed, atIndex] at inside
          have here : log[j]? = some log[j] := List.getElem?_eq_getElem inside
          split
          · rfl
          · next differ =>
              rw [atIndex, termAt_succ here] at differ
              have above : commitIndex < F[j].index := by
                rw [atIndex]
                by_contra below
                have shared : j < (log.take commitIndex).length := by
                  rw [List.length_take]
                  omega
                have same := own.getElem shared
                rw [List.getElem_take] at same
                exact differ (congrArg LogEntry.term same)
              rw [resizeChecked, if_neg (by omega)]
              rfl
      · rfl
  | cut short =>
      -- behind the cut the log ends where the payload has come to
      have beyond : ¬ F[j].index ≤ lastLogIndex (F.take j) := by
        have front : Indexed (F.take j) := indexedF.shorten (take_le _ _)
        rw [lastLogIndex_eq front, atIndex, List.length_take]
        omega
      rw [if_neg beyond, if_neg beyond]

theorem appendLoopChecked_eq {log F : List LogEntry} {commitIndex : ℕ} (indexed : Indexed log)
    (indexedF : Indexed F) (matching : Matching log F) (own : log.take commitIndex <+: F) (k : ℕ) :
    ∀ j acc, Spliced log F j acc → j + k ≤ F.length →
      ((F.drop j).take k).foldlM (appendOneChecked commitIndex) acc =
        some (((F.drop j).take k).foldl appendOne acc) := by
  induction k with
  | zero =>
      intro j acc _ _
      rfl
  | succ k ih =>
      intro j acc h bound
      have hj : j < F.length := by omega
      have hf : F[j]? = some F[j] := List.getElem?_eq_getElem hj
      have next := appendOne_spliced indexed indexedF matching h hf
      rw [List.drop_eq_getElem_cons hj, List.take_succ_cons, List.foldlM_cons, List.foldl_cons,
        appendOneChecked_eq indexed indexedF own h hf]
      exact ih (j + 1) _ next (by omega)

/-- The send loop collects the entries from `next` on. -/
theorem mapM_range' (log : List LogEntry) (k m : ℕ) (inside : k + m ≤ log.length) :
    ((List.range' (k + 1) m).mapM fun i => log[i - 1]?) = some ((log.drop k).take m) := by
  induction m generalizing k with
  | zero => rfl
  | succ m ih =>
      have here : k < log.length := by omega
      rw [List.range'_succ, List.mapM_cons, ih (k + 1) (by omega), Nat.add_sub_cancel,
        List.getElem?_eq_getElem here, List.drop_eq_getElem_cons here, List.take_succ_cons]
      rfl

/-! ## Commit indices -/

section CommitIndex
variable {n : RaftNode}

@[simp] theorem applyLoop_commitIndex (fuel : ℕ) (n : RaftNode) :
    (applyLoop fuel n).commitIndex = n.commitIndex := by
  induction fuel generalizing n with
  | zero => rfl
  | succ fuel ih =>
      unfold applyLoop
      split
      · exact ih _
      · rfl

@[simp] theorem stepDownIfStaleLocked_commitIndex (n : RaftNode) (term : ℕ) :
    (n.stepDownIfStaleLocked term).commitIndex = n.commitIndex := by
  unfold stepDownIfStaleLocked
  split <;> rfl

theorem advanceCommitLocked_commitIndex {i : ℕ} (low : i ≤ n.commitIndex) :
    i ≤ n.advanceCommitLocked.commitIndex := by
  rcases advanceLoop_cases n.lastLogIndexLocked n with same | ⟨index, more, -, -, -, moved⟩
  · rw [advanceCommitLocked, same]
    exact low
  · rw [advanceCommitLocked, moved, applyCommittedLocked, applyLoop_commitIndex]
    exact low.trans (Nat.le_of_lt more)

theorem handleRequestVote_commitIndex (req : RequestVoteRequest) (leaderless : Bool) :
    (n.handleRequestVote req leaderless).1.commitIndex = n.commitIndex := by
  unfold handleRequestVote
  split
  · rfl
  · dsimp only
    split
    · exact stepDownIfStaleLocked_commitIndex n req.term
    · exact stepDownIfStaleLocked_commitIndex n req.term

theorem countVote_commitIndex (req : RequestVoteRequest) (resp : RequestVoteResponse) :
    (n.countVote req resp).1.commitIndex = n.commitIndex := by
  unfold countVote
  split
  · exact stepDownIfStaleLocked_commitIndex n resp.term
  · split <;> rfl

theorem propose_commitIndex (command : Bytes) : n.commitIndex ≤ (n.propose command).1.commitIndex := by
  unfold propose
  split
  · exact Nat.le_refl _
  · exact advanceCommitLocked_commitIndex (Nat.le_refl _)

theorem replicateReply_commitIndex (peer : Bytes) (req : AppendEntriesRequest)
    (resp : AppendEntriesResponse) :
    n.commitIndex ≤ (n.replicateReply peer req resp).commitIndex := by
  unfold replicateReply
  split
  · exact Nat.le_refl _
  · split
    · exact Nat.le_of_eq (stepDownIfStaleLocked_commitIndex n resp.term).symm
    · split
      · exact advanceCommitLocked_commitIndex (Nat.le_refl _)
      · exact Nat.le_refl _

/-- Taking over a commit index that the log reaches. -/
theorem learn_checked {i : ℕ} (indexed : Indexed n.log) (covered : i ≤ n.lastLogIndexLocked) :
    (if n.commitIndex < i then
        applyCommittedChecked { n with commitIndex := min i n.lastLogIndexLocked }
      else some n) =
      some (if n.commitIndex < i then
        applyCommittedLocked { n with commitIndex := min i n.lastLogIndexLocked }
      else n) ∧
    n.commitIndex ≤ (if n.commitIndex < i then
        applyCommittedLocked { n with commitIndex := min i n.lastLogIndexLocked }
      else n).commitIndex := by
  split
  · next further =>
      constructor
      · refine applyLoopChecked_eq _ ?_
        exact (Nat.min_le_right _ _).trans_eq (lastLogIndex_eq indexed)
      · rw [applyCommittedLocked, applyLoop_commitIndex]
        exact Nat.le_min.mpr ⟨Nat.le_of_lt further, Nat.le_of_lt (further.trans_le covered)⟩
  · exact ⟨rfl, Nat.le_refl _⟩

end CommitIndex
end RaftNode

/-! ## The tested sections -/

section Sections
variable {g : Group} {a : Spec} {n : Bytes} {r : RaftNode}

theorem acceptEntries_checked {call : AppendCall} {sent : List LogEntry} (sound : Sound g a)
    (h : NodeOk g a n r) (ok : AppendCallOk g a call sent) (now : r.currentTerm = call.req.term)
    (reached : call.req.prevLogIndex ≤ r.log.length)
    (check : ¬ (0 < call.req.prevLogIndex ∧
      termAt r.log call.req.prevLogIndex ≠ call.req.prevLogTerm)) :
    r.acceptEntriesChecked call.req = some (r.acceptEntries call.req) ∧
      r.commitIndex ≤ (r.acceptEntries call.req).commitIndex := by
  have segment := segment_ok sound h ok now reached check
  have indexedF := sound.indexed call.req.term
  have splice := segment.splice h.indexed indexedF ok.held
  have loop : RaftNode.appendLoopChecked r.commitIndex r.log call.req.entries =
      some (RaftNode.appendLoop r.log call.req.entries) := by
    have bound : call.req.prevLogIndex + call.req.entries.length ≤
        (a.leaderLog call.req.term).length := segment.upto.trans_le ok.held.length_le
    have checked := RaftNode.appendLoopChecked_eq h.indexed indexedF segment.matching segment.own
      call.req.entries.length call.req.prevLogIndex (r.log, false) (.kept segment.start) bound
    rwa [← segment.entries] at checked
  unfold RaftNode.acceptEntriesChecked RaftNode.acceptEntries
  rw [loop, Option.bind_some]
  generalize RaftNode.appendLoop r.log call.req.entries = acc at splice
  obtain ⟨log', changed⟩ := acc
  have origin : log' = r.log ∨ log' = (a.leaderLog call.req.term).take sent.length := splice.origin
  have indexed : Indexed log' := by
    rcases origin with same | front
    · exact same ▸ h.indexed
    · exact front ▸ indexedF.shorten (take_le _ _)
  -- the commit index of the request lies inside what it carries
  have covered : call.req.leaderCommit ≤ lastLogIndex log' := by
    have length := splice.holds.length_le
    rw [List.length_take, Nat.min_eq_left ok.held.length_le] at length
    rw [lastLogIndex_eq indexed]
    exact ok.commit.trans length
  cases changed with
  | true =>
      exact @RaftNode.learn_checked { r with log := log', storage := r.storage.rewriteLog log' }
        call.req.leaderCommit indexed covered
  | false => exact @RaftNode.learn_checked { r with log := log' } call.req.leaderCommit indexed covered

theorem checkEntries_checked {call : AppendCall} {sent : List LogEntry} (sound : Sound g a)
    (h : NodeOk g a n r) (ok : AppendCallOk g a call sent) (now : r.currentTerm = call.req.term) :
    r.checkEntriesChecked call.req = some (r.checkEntries call.req) ∧
      r.commitIndex ≤ (r.checkEntries call.req).1.commitIndex := by
  have last : r.lastLogIndexLocked = r.log.length := lastLogIndex_eq h.indexed
  unfold RaftNode.checkEntriesChecked RaftNode.checkEntries
  split
  · exact ⟨rfl, Nat.le_refl _⟩
  · next reached =>
      split
      · exact ⟨rfl, Nat.le_refl _⟩
      · next check =>
          have inside : call.req.prevLogIndex ≤ r.log.length := by
            rw [← last]
            exact Nat.le_of_not_lt reached
          obtain ⟨checked, more⟩ := acceptEntries_checked sound h ok now inside check
          rw [checked]
          exact ⟨rfl, more⟩

theorem handleAppendEntries_checked {call : AppendCall} {sent : List LogEntry} (sound : Sound g a)
    (h : NodeOk g a call.dst r) (ok : AppendCallOk g a call sent) :
    r.handleAppendEntriesChecked call.req = some (r.handleAppendEntries call.req) ∧
      r.commitIndex ≤ (r.handleAppendEntries call.req).1.commitIndex := by
  unfold RaftNode.handleAppendEntriesChecked RaftNode.handleAppendEntries
  by_cases stale : call.req.term < r.currentTerm
  · rw [if_pos stale, if_pos stale]
    exact ⟨rfl, Nat.le_refl _⟩
  rw [if_neg stale, if_neg stale, ← r.stepDownIfStaleLocked_commitIndex call.req.term]
  obtain ⟨a₁, moves, sound₁, h₁⟩ := stepDown_reaches sound h call.req.term
  have follower : NodeOk g a₁ call.dst
      { r.stepDownIfStaleLocked call.req.term with
        role := .follower, leaderId := call.req.leaderId } :=
    { h₁ with
      leader := by rintro ⟨⟩
      candidate := by rintro ⟨⟩
      next := by rintro ⟨⟩
      matched := by rintro ⟨⟩ }
  exact checkEntries_checked sound₁ follower (ok.extends (moves.extends sound)) (stepDown_term stale)

theorem propose_checked (h : NodeOk g a n r) (command : Bytes) :
    r.proposeChecked command = some (r.propose command) := by
  unfold RaftNode.proposeChecked RaftNode.propose
  split
  · rfl
  · have last : r.lastLogIndexLocked = r.log.length := lastLogIndex_eq h.indexed
    have grown : Indexed (r.log ++ [⟨r.currentTerm, r.lastLogIndexLocked + 1, command⟩]) :=
      h.indexed.grow (congrArg (· + 1) last)
    dsimp only
    rw [@RaftNode.advanceCommitChecked_eq { r with log := _, storage := _ } grown]
    rfl

theorem replicateReply_checked (h : NodeOk g a n r) (peer : Bytes) (req : AppendEntriesRequest)
    (resp : AppendEntriesResponse) :
    r.replicateReplyChecked peer req resp = some (r.replicateReply peer req resp) := by
  unfold RaftNode.replicateReplyChecked RaftNode.replicateReply
  split
  · rfl
  · split
    · rfl
    · split
      · exact @RaftNode.advanceCommitChecked_eq { r with matchIndex := _, nextIndex := _ } h.indexed
      · rfl

theorem replicateRequest_checked (h : NodeOk g a n r) {peer : Bytes} (hp : peer ∈ g.peers n) (term : ℕ) :
    r.replicateRequestChecked peer term = some (r.replicateRequest peer term) := by
  unfold RaftNode.replicateRequestChecked RaftNode.replicateRequest
  split
  · rfl
  · next leading =>
      push Not at leading
      have last : r.lastLogIndexLocked = r.log.length := lastLogIndex_eq h.indexed
      have range : ∃ prev, (r.nextIndex peer).getD (r.log.length + 1) = prev + 1 ∧
          prev ≤ r.log.length := by
        cases known : r.nextIndex peer with
        | none => exact ⟨r.log.length, rfl, Nat.le_refl _⟩
        | some next =>
            obtain ⟨low, high⟩ := h.next leading.1 peer hp next known
            exact ⟨next - 1, (Nat.sub_add_cancel low).symm, by omega⟩
      obtain ⟨prev, next, inside⟩ := range
      have count : r.log.length + 1 - (prev + 1) = r.log.length - prev := by omega
      have entries := RaftNode.mapM_range' r.log prev (r.log.length - prev) (by omega)
      rw [List.take_of_length_le (by rw [List.length_drop])] at entries
      simp only [last, next, count, entries, Nat.add_sub_cancel, Nat.add_one_ne_zero, if_false,
        List.take_length]
      rfl

end Sections

/-! ## Runs -/

/-- The event of a restart of the node. -/
def Event.restarts (n : Bytes) : Event → Bool
  | .crashed m _ => m = n
  | .becameLeader _ _ _ | .advancedCommit _ _ _ _ => false

namespace Cluster
variable {g : Group} {a : Spec} {c c' : Cluster} {n m : Bytes}

/-- How often the node was restarted so far. -/
def incarnation (c : Cluster) (n : Bytes) : ℕ := c.history.countP (Event.restarts n)

/-- The node went on, or it was restarted. -/
def Onward (n : Bytes) (c c' : Cluster) : Prop :=
  c'.incarnation n = c.incarnation n ∧ (c.nodes n).node.commitIndex ≤ (c'.nodes n).node.commitIndex ∨
    c'.incarnation n = c.incarnation n + 1

theorem Onward.update {p : Process} (nodes : c'.nodes = Function.update c.nodes m p)
    (history : c'.incarnation n = c.incarnation n)
    (grown : (c.nodes m).node.commitIndex ≤ p.node.commitIndex) : Onward n c c' := by
  refine .inl ⟨history, ?_⟩
  rw [nodes]
  by_cases same : n = m
  · rw [same, Function.update_self]
    exact grown
  · rw [Function.update_of_ne same]

theorem incarnation_commitEvents (before after : RaftNode) :
    ((commitEvents m before after) ++ c.history).countP (Event.restarts n) = c.incarnation n := by
  rw [List.countP_append, commitEvents]
  split
  · exact Nat.zero_add _
  · exact Nat.zero_add _

theorem Onward.restart (c : Cluster) (n m : Bytes) : Onward n c (c.restart m) := by
  by_cases same : m = n
  · refine .inr ?_
    simp [incarnation, Cluster.restart, Event.restarts, same]
  · refine .inl ⟨?_, ?_⟩
    · simp [incarnation, Cluster.restart, Event.restarts, same]
    · simp [Cluster.restart, setProcess, Function.update_of_ne (Ne.symm same)]

theorem Onward.step (sound : Sound g a) (related : Refines g c a) (step : Step g c c') (n : Bytes) :
    Onward n c c' := by
  have stays : Onward n c c := .inl ⟨rfl, Nat.le_refl _⟩
  cases step with
  | @restart m hm => exact .restart c n m
  | @startElection m hm idle =>
      unfold startElection
      dsimp only
      split
      · exact stays
      · exact .update rfl rfl (Nat.le_refl _)
  | receiveVote hm running waits sent =>
      exact .update rfl rfl (Nat.le_of_eq (RaftNode.countVote_commitIndex _ _).symm)
  | loseVote hm running waits => exact .update rfl rfl (Nat.le_refl _)
  | finishRound hm running done => exact .update rfl rfl (Nat.le_refl _)
  | @startVote m wouldBeTerm contacted hm won =>
      unfold startVote
      dsimp only
      split
      · exact .update rfl rfl (Nat.le_refl _)
      · exact .update rfl rfl (Nat.le_refl _)
  | @finishElection m term hm won =>
      unfold finishElection
      dsimp only
      split
      · exact .update rfl rfl (Nat.le_refl _)
      · exact .update rfl rfl (Nat.le_refl _)
  | deliverVote leaderless sent =>
      exact .update rfl rfl (Nat.le_of_eq (RaftNode.handleRequestVote_commitIndex _ _).symm)
  | @deliverAppend call sent =>
      obtain ⟨log, ok⟩ := related.appendCalls call sent
      have node := (related.nodes call.dst ok.dst).node
      exact .update rfl rfl (handleAppendEntries_checked sound node ok).2
  | propose command hm =>
      exact .update rfl (incarnation_commitEvents _ _) (RaftNode.propose_commitIndex command)
  | @replicate m peer term hm hp free =>
      unfold replicate
      dsimp only
      split
      · exact stays
      · exact .update rfl rfl (Nat.le_refl _)
  | receiveAppend hm waits sent =>
      exact .update rfl (incarnation_commitEvents _ _) (RaftNode.replicateReply_commitIndex _ _ _)
  | loseAppend hm => exact .update rfl rfl (Nat.le_refl _)

/-- Restarts only add up, and between them the commit index only grows. -/
theorem onward_many (reachable : Reachable g c) (steps : Relation.ReflTransGen (Step g) c c') (n : Bytes) :
    c.incarnation n ≤ c'.incarnation n ∧ (c'.incarnation n = c.incarnation n →
      (c.nodes n).node.commitIndex ≤ (c'.nodes n).node.commitIndex) := by
  induction steps with
  | refl => exact ⟨Nat.le_refl _, fun _ => Nat.le_refl _⟩
  | @tail mid last first next ih =>
      obtain ⟨a, sound, related⟩ := reachable_refines (reachable.many first)
      obtain ⟨more, grown⟩ := ih
      rcases Onward.step sound related next n with ⟨same, low⟩ | restarted
      · rw [same]
        exact ⟨more, fun still => (grown still).trans low⟩
      · exact ⟨by omega, fun still => by omega⟩

/-- No reachable section reads outside the log or cuts what is committed, and a
commit index moves back only by a restart. -/
theorem log_accesses_in_range (reachable : Reachable g c) (hn : n ∈ g.members) :
    (c.nodes n).node.lastApplied ≤ (c.nodes n).node.commitIndex ∧
    (c.nodes n).node.commitIndex ≤ (c.nodes n).node.log.length ∧
    (∀ c', Relation.ReflTransGen (Step g) c c' → c'.incarnation n = c.incarnation n →
      (c.nodes n).node.commitIndex ≤ (c'.nodes n).node.commitIndex) ∧
    (∀ call ∈ c.appendCalls, call.dst = n → (c.nodes n).node.handleAppendEntriesChecked call.req =
      some ((c.nodes n).node.handleAppendEntries call.req)) ∧
    (∀ command, (c.nodes n).node.proposeChecked command = some ((c.nodes n).node.propose command)) ∧
    (∀ peer ∈ g.peers n, ∀ term, (c.nodes n).node.replicateRequestChecked peer term =
      some ((c.nodes n).node.replicateRequest peer term)) ∧
    ∀ peer req resp, (c.nodes n).node.replicateReplyChecked peer req resp =
      some ((c.nodes n).node.replicateReply peer req resp) := by
  obtain ⟨a, sound, related⟩ := reachable_refines reachable
  have node := (related.nodes n hn).node
  refine ⟨Nat.le_of_eq node.lastApplied, node.commit, ?_, ?_, propose_checked node,
    fun peer hp term => replicateRequest_checked node hp term, replicateReply_checked node⟩
  · intro c' steps same
    exact (onward_many reachable steps n).2 same
  · intro call sent here
    obtain ⟨log, ok⟩ := related.appendCalls call sent
    rw [← here] at node ⊢
    exact (handleAppendEntries_checked sound node ok).1

theorem log_accesses_in_range_failover :
    0 < ((run trio failover).nodes alpha).node.commitIndex ∧
      ((run trio failover).nodes alpha).node.commitIndex ≤
        ((run trio failover).nodes alpha).node.log.length ∧
      ∀ peer ∈ trio.peers alpha, ((run trio failover).nodes alpha).node.replicateRequestChecked peer 1 =
        some (((run trio failover).nodes alpha).node.replicateRequest peer 1) := by
  obtain ⟨-, inside, -, -, -, request, -⟩ :=
    log_accesses_in_range (run_reachable trio failover) (by decide : alpha ∈ trio.members)
  exact ⟨by decide +kernel, inside, fun peer hp => request peer hp 1⟩

end Cluster
end Dos.Consensus
