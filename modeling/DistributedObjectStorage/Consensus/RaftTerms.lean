import DistributedObjectStorage.Consensus.RaftHistory

/-!
# Terms, votes and leader hints through the critical sections

One lemma for each section on the term it leaves and the term it answers with.
A section adopts the larger of its own term and the one it was sent; only a
candidacy makes a new one.
-/
namespace Dos.Consensus
namespace RaftNode

variable {r r' r'' : RaftNode}

/-- The two nodes agree on term, vote and leader hint. -/
structure SameTerm (r r' : RaftNode) : Prop where
  term : r'.currentTerm = r.currentTerm
  vote : r'.votedFor = r.votedFor
  hint : r'.leaderId = r.leaderId

theorem SameTerm.refl (r : RaftNode) : SameTerm r r := ⟨rfl, rfl, rfl⟩

theorem SameTerm.trans (h : SameTerm r r') (h' : SameTerm r' r'') : SameTerm r r'' :=
  ⟨h'.term.trans h.term, h'.vote.trans h.vote, h'.hint.trans h.hint⟩

/-! ## Logs and commits -/

theorem applyLoop_sameTerm (fuel : ℕ) (r : RaftNode) : SameTerm r (applyLoop fuel r) := by
  induction fuel generalizing r with
  | zero => exact .refl r
  | succ fuel ih =>
      unfold applyLoop
      split
      · have rest := ih
          { r with
            lastApplied := r.lastApplied + 1
            applied := r.applied ++ [r.log.getD r.lastApplied default] }
        exact ⟨rest.term, rest.vote, rest.hint⟩
      · exact .refl r

theorem advanceCommitLocked_sameTerm (r : RaftNode) : SameTerm r r.advanceCommitLocked := by
  unfold advanceCommitLocked
  rcases advanceLoop_cases r.lastLogIndexLocked r with same | ⟨index, -, -, -, -, moved⟩
  · rw [same]
    exact .refl r
  · rw [moved]
    have applied := applyLoop_sameTerm (index - r.lastApplied) { r with commitIndex := index }
    exact ⟨applied.term, applied.vote, applied.hint⟩

theorem acceptEntries_sameTerm (r : RaftNode) (req : AppendEntriesRequest) :
    SameTerm r (r.acceptEntries req) := by
  obtain ⟨storage, outcome⟩ := acceptEntries_cases r req
  rw [outcome]
  dsimp only
  split
  · refine SameTerm.trans ?_ (applyLoop_sameTerm _ _)
    exact ⟨rfl, rfl, rfl⟩
  · exact ⟨rfl, rfl, rfl⟩

theorem checkEntries_sameTerm (r : RaftNode) (req : AppendEntriesRequest) :
    SameTerm r (r.checkEntries req).1 ∧ (r.checkEntries req).2.term = r.currentTerm := by
  unfold checkEntries
  split
  · exact ⟨.refl r, rfl⟩
  · split
    · exact ⟨.refl r, rfl⟩
    · exact ⟨acceptEntries_sameTerm r req, rfl⟩

theorem propose_sameTerm (r : RaftNode) (command : Bytes) : SameTerm r (r.propose command).1 := by
  unfold propose
  split
  · exact .refl r
  · have advanced := advanceCommitLocked_sameTerm
      { r with
        log := r.log ++ [⟨r.currentTerm, r.lastLogIndexLocked + 1, command⟩]
        storage := r.storage.appendEntry ⟨r.currentTerm, r.lastLogIndexLocked + 1, command⟩ }
    exact ⟨advanced.term, advanced.vote, advanced.hint⟩

/-! ## Messages -/

theorem stepDown_max (r : RaftNode) (t : ℕ) :
    (r.stepDownIfStaleLocked t).currentTerm = max r.currentTerm t ∧
      (r.stepDownIfStaleLocked t).leaderId = r.leaderId := by
  unfold stepDownIfStaleLocked
  split
  · next newer => exact ⟨(max_eq_right newer.le).symm, rfl⟩
  · next older => exact ⟨(max_eq_left (Nat.le_of_not_lt older)).symm, rfl⟩

/-- A pre-vote changes nothing and is answered with the voter's own term. -/
theorem handleRequestVote_preVote {req : RequestVoteRequest} (trial : req.preVote = true)
    (leaderless : Bool) :
    (r.handleRequestVote req leaderless).1 = r ∧
      (r.handleRequestVote req leaderless).2.term = r.currentTerm := by
  unfold handleRequestVote
  rw [if_pos trial]
  exact ⟨rfl, rfl⟩

theorem handleRequestVote_max {req : RequestVoteRequest} (real : req.preVote = false)
    (leaderless : Bool) :
    (r.handleRequestVote req leaderless).1.currentTerm = max r.currentTerm req.term ∧
      (r.handleRequestVote req leaderless).2.term = max r.currentTerm req.term ∧
      (r.handleRequestVote req leaderless).1.leaderId = r.leaderId := by
  have down := stepDown_max r req.term
  unfold handleRequestVote
  rw [real, if_neg Bool.false_ne_true]
  dsimp only
  split
  · exact ⟨down.1, down.1, down.2⟩
  · exact ⟨down.1, down.1, down.2⟩

theorem handleAppendEntries_max (r : RaftNode) (req : AppendEntriesRequest) :
    (r.handleAppendEntries req).1.currentTerm = max r.currentTerm req.term ∧
      (r.handleAppendEntries req).2.term = max r.currentTerm req.term := by
  unfold handleAppendEntries
  split
  · next stale =>
      rw [max_eq_left stale.le]
      exact ⟨rfl, rfl⟩
  · have checked := checkEntries_sameTerm
      { r.stepDownIfStaleLocked req.term with role := .follower, leaderId := req.leaderId } req
    rw [← (stepDown_max r req.term).1]
    exact ⟨checked.1.term, checked.2⟩

theorem handleAppendEntries_stale {req : AppendEntriesRequest} (stale : req.term < r.currentTerm) :
    (r.handleAppendEntries req).1 = r := by
  unfold handleAppendEntries
  rw [if_pos stale]

/-- Contact with a leader of the current term or a newer one is where the hint is set. -/
theorem handleAppendEntries_hint {req : AppendEntriesRequest}
    (current : ¬ req.term < r.currentTerm) :
    (r.handleAppendEntries req).1.leaderId = req.leaderId := by
  unfold handleAppendEntries
  rw [if_neg current]
  exact (checkEntries_sameTerm
    { r.stepDownIfStaleLocked req.term with role := .follower, leaderId := req.leaderId } req).1.hint

theorem countVote_max (r : RaftNode) (req : RequestVoteRequest) (resp : RequestVoteResponse) :
    (r.countVote req resp).1.currentTerm = max r.currentTerm resp.term ∧
      (r.countVote req resp).1.leaderId = r.leaderId := by
  unfold countVote
  split
  · exact stepDown_max r resp.term
  · next older =>
      rw [max_eq_left (Nat.le_of_not_lt older)]
      split <;> exact ⟨rfl, rfl⟩

theorem replicateReply_max (r : RaftNode) (peer : Bytes) (req : AppendEntriesRequest)
    (resp : AppendEntriesResponse) :
    r.currentTerm ≤ (r.replicateReply peer req resp).currentTerm ∧
      (r.replicateReply peer req resp).currentTerm ≤ max r.currentTerm resp.term ∧
      (r.replicateReply peer req resp).leaderId = r.leaderId := by
  have own : r.currentTerm ≤ max r.currentTerm resp.term := le_max_left _ _
  unfold replicateReply
  split
  · exact ⟨Nat.le_refl _, own, rfl⟩
  split
  · rw [(stepDown_max r resp.term).1]
    exact ⟨own, Nat.le_refl _, (stepDown_max r resp.term).2⟩
  split
  · generalize max ((r.matchIndex peer).getD 0) (req.prevLogIndex + req.entries.length) = matched
    have advanced := advanceCommitLocked_sameTerm
      { r with
        matchIndex := Function.update r.matchIndex peer (some matched)
        nextIndex := Function.update r.nextIndex peer (some (matched + 1)) }
    rw [advanced.term]
    exact ⟨Nat.le_refl _, own, advanced.hint⟩
  · exact ⟨Nat.le_refl _, own, rfl⟩

end RaftNode
end Dos.Consensus
