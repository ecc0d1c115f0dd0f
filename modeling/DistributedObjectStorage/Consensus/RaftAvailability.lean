import DistributedObjectStorage.Consensus.LateAppend
import DistributedObjectStorage.Consensus.RaftElectable
import DistributedObjectStorage.Consensus.RaftSafety

/-!
# A majority can commit

The leader that a ready majority has or elects takes a command, brings every other node of
the majority up to date, and tells them that the command is committed.
-/
namespace Dos.Consensus

/-! ## The search of the leader -/

namespace RaftNode

/-- The last entry is of the node's term and known to be on a majority. -/
structure Replicated (r : RaftNode) : Prop where
  some : r.log ≠ []
  term : r.termAtLocked r.log.length = r.currentTerm
  majority : r.majorityLocked ≤ r.replicaCount r.log.length

/-- What a majority is known to hold has been committed. -/
def UpToSearch (r : RaftNode) : Prop := r.Replicated → r.log.length ≤ r.commitIndex

theorem advanceCommitLocked_config (r : RaftNode) : r.advanceCommitLocked.config = r.config := by
  have loop (fuel : ℕ) (r : RaftNode) : (applyLoop fuel r).config = r.config := by
    induction fuel generalizing r with
    | zero => rfl
    | succ fuel ih =>
        unfold applyLoop
        split
        · exact ih _
        · rfl
  unfold advanceCommitLocked
  rcases advanceLoop_cases r.lastLogIndexLocked r with stay | ⟨i, -, -, -, -, moved⟩
  · rw [stay]
  · rw [moved]
    exact loop _ _

/-- The search starts at the last index. -/
theorem advanceCommitLocked_last {r : RaftNode} (indexed : Indexed r.log) : r.advanceCommitLocked.UpToSearch := by
  obtain ⟨-, term, log⟩ := advance_frame r
  intro done
  have replicated : r.Replicated := by
    obtain ⟨some, last, majority⟩ := done
    simp only [majorityLocked, replicaCount, termAtLocked, log, term, advanceCommitLocked_config,
      (advanceCommitLocked_indices r).2] at some last majority
    exact ⟨some, last, majority⟩
  obtain ⟨k, length⟩ := Nat.exists_eq_succ_of_ne_zero (List.length_eq_zero_iff.not.mpr replicated.some)
  have last := replicated.term
  have majority := replicated.majority
  rw [length] at last majority
  rw [log, length, advanceCommitLocked, lastLogIndexLocked, lastLogIndex_eq indexed, length]
  by_cases below : r.commitIndex < k + 1
  · rw [advanceLoop, if_pos below, if_neg (not_not.mpr last), if_pos majority,
      applyCommittedLocked, applyLoop_commitIndex]
  · rw [advanceLoop, if_neg below]
    exact Nat.le_of_not_lt below

end RaftNode

namespace Cluster
variable {g : Group} {Q : List Bytes} {c c' c'' : Cluster} {n m : Bytes} {t : ℕ} {L : List LogEntry}

/-- In every reachable state a leader can go through rounds of replication with
a peer of no newer term. -/
theorem behind_of_reachable (reachable : Reachable g c) (hn : n ∈ g.members) (isPeer : m ∈ g.peers n)
    (leads : (c.nodes n).node.role = .leader)
    (term : (c.nodes m).node.currentTerm ≤ (c.nodes n).node.currentTerm) :
    Replication.Behind m (c.nodes n).node.log ⟨(c.nodes n).node, (c.nodes m).node⟩ := by
  obtain ⟨a, sound, related⟩ := reachable_refines reachable
  have own := (related.nodes n hn).node
  have peer := (related.nodes m ((g.mem_peers n hn m).mp isPeer).1).node
  have coherent := sound.invariant.logs.log n
  have coherent' := sound.invariant.logs.log m
  rw [own.log] at coherent
  rw [peer.log] at coherent'
  have length : (c.nodes n).node.lastLogIndexLocked = (c.nodes n).node.log.length := lastLogIndex_eq own.indexed
  have next : 1 ≤ Replication.next m ⟨(c.nodes n).node, (c.nodes m).node⟩ ∧
      Replication.next m ⟨(c.nodes n).node, (c.nodes m).node⟩ ≤ (c.nodes n).node.log.length + 1 := by
    unfold Replication.next
    cases known : (c.nodes n).node.nextIndex m with
    | none => simp [length]
    | some k => exact own.next leads m isPeer k known
  have matched : ((c.nodes n).node.matchIndex m).getD 0 ≤ (c.nodes n).node.log.length := by
    cases known : (c.nodes n).node.matchIndex m with
    | none => exact Nat.zero_le _
    | some k =>
        rcases own.matched leads m isPeer k known with rfl | ack
        · exact Nat.zero_le _
        · rw [leader_holds sound own leads]
          exact (sound.invariant.acks.leader m _ k ack).2
  exact ⟨leads, rfl, own.indexed, peer.indexed, coherent_matching coherent' coherent, term, next.1, next.2, matched⟩

/-- The node leads the others of the set in its term, with this log. -/
structure Leading (Q : List Bytes) (n : Bytes) (t : ℕ) (L : List LogEntry) (c : Cluster) : Prop where
  role : (c.nodes n).node.role = .leader
  term : (c.nodes n).node.currentTerm = t
  log : (c.nodes n).node.log = L
  terms : ∀ q ∈ Q, (c.nodes q).node.currentTerm ≤ t
  searched : (c.nodes n).node.UpToSearch

/-- The peer holds the log of the leader and has heard of its commits. -/
structure Informed (n : Bytes) (L : List LogEntry) (committed : ℕ) (c : Cluster) (m : Bytes) : Prop where
  known : (c.nodes n).node.matchIndex m = some L.length
  holds : L <+: (c.nodes m).node.log
  commit : min committed L.length ≤ (c.nodes m).node.commitIndex

/-- What the leader's rounds with some of its peers do. -/
structure Rounds (g : Group) (Q : List Bytes) (n : Bytes) (t : ℕ) (L : List LogEntry) (peer : Bytes → Prop)
    (c c' : Cluster) : Prop where
  within : Within g Q c c'
  leading : Leading Q n t L c'
  grows : (c.nodes n).node.commitIndex ≤ (c'.nodes n).node.commitIndex
  indices : ∀ p, ¬ peer p → (c'.nodes n).node.matchIndex p = (c.nodes n).node.matchIndex p
  others : ∀ p, p ≠ n → ¬ peer p → c'.nodes p = c.nodes p

/-- Rounds with one peer and then with others. -/
theorem Rounds.trans {one more all : Bytes → Prop} (first : Rounds g Q n t L one c c')
    (rest : Rounds g Q n t L more c' c'') (left : ∀ p, one p → all p) (right : ∀ p, more p → all p) :
    Rounds g Q n t L all c c'' := by
  refine ⟨first.within.trans rest.within, rest.leading, first.grows.trans rest.grows, fun p other => ?_,
    fun p self other => ?_⟩
  · rw [rest.indices p (mt (right p) other), first.indices p (mt (left p) other)]
  · rw [rest.others p self (mt (right p) other), first.others p self (mt (left p) other)]

theorem Informed.earlier {k k' : ℕ} (informed : Informed n L k' c m) (le : k ≤ k') : Informed n L k c m :=
  ⟨informed.known, informed.holds, (min_le_min_right _ le).trans informed.commit⟩

/-- Rounds with others leave the peer informed. -/
theorem Informed.later {k : ℕ} {peer : Bytes → Prop} (informed : Informed n L k c m)
    (rest : Rounds g Q n t L peer c c') (ne : m ≠ n) (other : ¬ peer m) : Informed n L k c' m := by
  have same := rest.others m ne other
  exact ⟨(rest.indices m other).trans informed.known, same ▸ informed.holds, same ▸ informed.commit⟩

theorem Leading.later (leading : Leading Q n t L c) (others : ∀ p, p ≠ n → p ≠ m → c'.nodes p = c.nodes p)
    (role : (c'.nodes n).node.role = (c.nodes n).node.role)
    (term : (c'.nodes n).node.currentTerm = (c.nodes n).node.currentTerm)
    (log : (c'.nodes n).node.log = (c.nodes n).node.log)
    (peer : (c'.nodes m).node.currentTerm = (c.nodes n).node.currentTerm)
    (searched : (c'.nodes n).node.UpToSearch) : Leading Q n t L c' := by
  refine ⟨role.trans leading.role, term.trans leading.term, log.trans leading.log, fun p here => ?_, searched⟩
  by_cases self : p = n
  · rw [self]
    exact (term.trans leading.term).le
  · by_cases same : p = m
    · rw [same]
      exact (peer.trans leading.term).le
    · rw [others p self same]
      exact leading.terms p here

section Replication
variable (reachable : Reachable g c) (quorum : Quorate g Q) (member : n ∈ Q) (leading : Leading Q n t L c)
include reachable quorum member leading

/-- One round with a peer: it accepts, or the leader tries a lower index next. -/
theorem round_cases (inQ : m ∈ Q) (ne : m ≠ n) :
    ∃ c', Rounds g Q n t L (· = m) c c' ∧
      (Informed n L (c.nodes n).node.commitIndex c' m ∨
        Replication.next m ⟨(c'.nodes n).node, (c'.nodes m).node⟩ <
          Replication.next m ⟨(c.nodes n).node, (c.nodes m).node⟩) := by
  have hn := quorum.members n member
  have isPeer : m ∈ g.peers n := (g.mem_peers n hn m).mpr ⟨quorum.members m inQ, ne⟩
  have behind := behind_of_reachable reachable hn isPeer leading.role (leading.term ▸ leading.terms m inQ)
  rw [leading.log] at behind
  obtain ⟨c', within, node, -, peer, others⟩ := exchange (c := c) hn isPeer member inQ leading.role
  refine ⟨c', ?_⟩
  rcases behind.round_cases with ⟨next, f, -, lower, -, term, refused⟩ | ⟨f, term, holds, accepted⟩
  · rw [refused] at node peer
    have searched : (c'.nodes n).node.UpToSearch := by
      rw [node]
      exact fun done => leading.searched ⟨done.some, done.term, done.majority⟩
    have again := leading.later others (by rw [node]) (by rw [node]) (by rw [node]) (by rw [peer]; exact term) searched
    refine ⟨⟨within, again, by rw [node], fun p _ => by rw [node], others⟩, .inr ?_⟩
    rw [node]
    simpa [Replication.next] using lower
  · rw [accepted] at node peer
    let counted : RaftNode :=
      { (c.nodes n).node with
        matchIndex := Function.update (c.nodes n).node.matchIndex m (some L.length)
        nextIndex := Function.update (c.nodes n).node.nextIndex m (some (L.length + 1)) }
    have node : (c'.nodes n).node = counted.advanceCommitLocked := node
    have indexed : Indexed counted.log := leading.log ▸ behind.indexed
    obtain ⟨role, current, log⟩ := advance_frame counted
    have searched := RaftNode.advanceCommitLocked_last indexed
    have grows := RaftNode.advanceCommitLocked_commitIndex (n := counted) (Nat.le_refl counted.commitIndex)
    have indices := (RaftNode.advanceCommitLocked_indices counted).2
    rw [← node] at role current log searched grows indices
    let req := Replication.request m ⟨(c.nodes n).node, (c.nodes m).node⟩
    have follower : (c'.nodes m).node = f.acceptEntries req := by rw [peer]
    have heard := (RaftNode.acceptEntries_commit f req).1
    have current' := (RaftNode.acceptEntries_sameTerm f req).term.trans term
    rw [← follower] at holds heard current'
    have again := leading.later others role current log current' searched
    refine ⟨⟨within, again, grows, fun p other => ?_, others⟩, .inl ⟨?_, holds, ?_⟩⟩
    · exact (congrFun indices p).trans (Function.update_of_ne other ..)
    · exact (congrFun indices m).trans (Function.update_self ..)
    · -- the peer's log is at least as long as the leader's
      obtain ⟨a, -, related⟩ := reachable_refines (within.reachable reachable)
      have indexed := (related.nodes m (quorum.members m inQ)).node.indexed
      rw [lastLogIndex_eq indexed] at heard
      rw [heard]
      split
      · exact min_le_min_left _ holds.length_le
      · next known => exact (min_le_left _ _).trans (Nat.le_of_not_lt known)

end Replication

/-- A proposal extends the log of the leader. -/
theorem proposed (reachable : Reachable g c) (hn : n ∈ g.members) (member : n ∈ Q)
    (leads : (c.nodes n).node.role = .leader)
    (terms : ∀ q ∈ Q, (c.nodes q).node.currentTerm ≤ (c.nodes n).node.currentTerm) (command : Bytes) :
    StepIn g Q c (c.propose n command) ∧
      Leading Q n (c.nodes n).node.currentTerm ((c.nodes n).node.log ++
        [⟨(c.nodes n).node.currentTerm, (c.nodes n).node.log.length + 1, command⟩]) (c.propose n command) := by
  obtain ⟨a, -, related⟩ := reachable_refines reachable
  have indexed := (related.nodes n hn).node.indexed
  have length : (c.nodes n).node.lastLogIndexLocked = (c.nodes n).node.log.length := lastLogIndex_eq indexed
  let entry : LogEntry := ⟨(c.nodes n).node.currentTerm, (c.nodes n).node.log.length + 1, command⟩
  let grown : RaftNode :=
    { (c.nodes n).node with
      log := (c.nodes n).node.log ++ [entry], storage := (c.nodes n).node.storage.appendEntry entry }
  have after : ((c.propose n command).nodes n).node = grown.advanceCommitLocked := by
    have ran : ((c.nodes n).node.propose command).1 = grown.advanceCommitLocked := by
      rw [RaftNode.propose, if_neg (not_not.mpr leads), length]
    simp [propose, setNode, setProcess, ran]
  obtain ⟨role, term, log⟩ := advance_frame grown
  have searched := RaftNode.advanceCommitLocked_last (r := grown) (indexed.grow rfl)
  refine ⟨.update (.propose command hn) member rfl (crashes_commitEvents _ _ _ _) .inl, ?_⟩
  rw [← after] at role term log searched
  refine ⟨role.trans leads, term, log, fun q here => ?_, searched⟩
  by_cases self : q = n
  · rw [self]
    exact term.le
  · simpa [propose, setNode, setProcess, self] using terms q here

/-- All others of a majority hold the log. -/
theorem Quorate.replicated (quorum : Quorate g Q) (member : n ∈ Q) (reachable : Reachable g c)
    (leading : Leading Q n t L c) (ends : L.getLast?.map LogEntry.term = some t)
    (known : ∀ q ∈ Q.erase n, (c.nodes n).node.matchIndex q = some L.length) : (c.nodes n).node.Replicated := by
  have hn := quorum.members n member
  have config : (c.nodes n).node.config.peers = g.peers n := by
    rw [config_eq reachable hn]
    rfl
  obtain ⟨distinct, voters, enough⟩ := quorum.voters member
  obtain ⟨last, found, same⟩ := Option.map_eq_some_iff.mp ends
  have some : L ≠ [] := by
    rintro rfl
    cases found
  refine ⟨leading.log ▸ some, ?_, ?_⟩
  · rw [RaftNode.termAtLocked, leading.log, leading.term, ← same]
    obtain ⟨k, length⟩ := Nat.exists_eq_succ_of_ne_zero (List.length_eq_zero_iff.not.mpr some)
    rw [length]
    apply termAt_succ
    rw [List.getLast?_eq_getElem?, length] at found
    exact found
  · have counted : (Q.erase n).length ≤
        (g.peers n).countP fun peer => ((c.nodes n).node.matchIndex peer).any (L.length ≤ ·) := by
      rw [List.countP_eq_length_filter]
      apply List.Subperm.length_le
      apply List.subperm_of_subset distinct
      intro q listed
      rw [List.mem_filter, known q listed]
      exact ⟨(voters q listed).2.2, by simp⟩
    rw [RaftNode.majorityLocked, RaftNode.replicaCount, config, leading.log]
    omega

end Cluster
end Dos.Consensus
