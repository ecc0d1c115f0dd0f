import DistributedObjectStorage.Consensus.RaftTrialRound

/-!
# Pre-vote backs every new term

The highest term moves only by a candidacy, every candidacy follows a trial
round that a majority granted, and a node that hears from nobody stays where it
is.
-/
namespace Dos.Consensus
open Transition
namespace Cluster

/-! ## A node that hears from nobody -/

/-- The action hands the node a request or a reply. -/
def Receives (c : Cluster) (n : Bytes) : Action → Bool
  | .election m (.receive _) => m = n
  | .deliverVote k _ => (c.voteCalls[k]?).any (·.dst = n)
  | .deliverAppend k => (c.appendCalls[k]?).any (·.dst = n)
  | .receiveAppend k => (c.appendReplies[k]?).any (·.1.src = n)
  | _ => false

/-- No grant of a trial round is counted yet. -/
def Uncounted : Election → Prop
  | .idle | .voteWon _ => True
  | .voting round => round.req.preVote = true → round.granted = []
  | .preVoteWon _ => False

/-- Term and vote are as they were, and no trial round can be won. -/
structure Alone (r : RaftNode) (p : Process) : Prop where
  term : p.node.currentTerm = r.currentTerm
  vote : p.node.votedFor = r.votedFor
  election : Uncounted p.election

section Alone
variable {g : Group} {c c' : Cluster} {n m : Bytes} {r : RaftNode} {p : Process}

theorem Alone.update (h : Alone r (c.nodes n)) (nodes : c'.nodes = Function.update c.nodes m p)
    (acts : n = m → Alone r p) : Alone r (c'.nodes n) := by
  rw [nodes]
  by_cases same : n = m
  · subst same
    rw [Function.update_self]
    exact acts rfl
  · rw [Function.update_of_ne same]
    exact h

theorem Alone.restart {a : Spec} (ok : NodeOk g a n (c.nodes n).node) (h : Alone r (c.nodes n)) :
    Alone r (.boot (c.nodes n).node.config (c.nodes n).node.storage) := by
  refine ⟨?_, ?_, trivial⟩
  · exact (congrArg HardState.currentTerm ok.hardState).trans h.term
  · exact (congrArg HardState.votedFor ok.hardState).trans h.vote

/-- The node's own vote is no majority when it has a peer. -/
theorem Alone.finishRound {a : Spec} {round : VoteRound} (ok : NodeOk g a n (c.nodes n).node)
    (peers : g.peers n ≠ []) (running : (c.nodes n).election = .voting round)
    (h : Alone r (c.nodes n)) :
    Alone r
      { c.nodes n with
        election := if (c.nodes n).node.majorityLocked ≤ round.votes then
            if round.req.preVote then .preVoteWon round.req.term else .voteWon round.req.term
          else .idle } := by
  refine ⟨h.term, h.vote, ?_⟩
  dsimp only
  by_cases enough : (c.nodes n).node.majorityLocked ≤ round.votes
  · rw [if_pos enough]
    cases trial : round.req.preVote with
    | false => trivial
    | true =>
        have election := h.election
        rw [running] at election
        have none : round.granted = [] := election trial
        have some : 0 < (g.peers n).length := List.length_pos_of_ne_nil peers
        simp only [RaftNode.majorityLocked, ok.config, Group.config, VoteRound.votes, none,
          List.length_nil] at enough
        omega
  · rw [if_neg enough]
    trivial

theorem Alone.step {a : Spec} {act : Action} (related : Refines g c a) (hn : n ∈ g.members)
    (peers : g.peers n ≠ []) (h : Alone r (c.nodes n)) (silent : Receives c n act = false)
    (performs : Performs g c act c') : Alone r (c'.nodes n) := by
  have ok := (related.nodes n hn).node
  have election := h.election
  cases performs with
  | skip => exact h
  | restart => exact h.update rfl (fun same => same ▸ h.restart ok)
  | start =>
      simp only [startElection]
      split
      · exact h
      · exact h.update rfl (fun same => same ▸ ⟨h.term, h.vote, fun _ => rfl⟩)
  | receive =>
      refine h.update rfl (fun same => ?_)
      simp [Receives, same] at silent
  | lose _ running =>
      refine h.update rfl (fun same => ?_)
      subst same
      rw [running] at election
      exact ⟨h.term, h.vote, election⟩
  | finishRound _ running =>
      refine h.update rfl (fun same => ?_)
      subst same
      exact h.finishRound ok peers running
  | vote _ _ won =>
      simp only [startVote]
      split
      · exact h.update rfl (fun same => same ▸ ⟨h.term, h.vote, trivial⟩)
      · refine h.update rfl (fun same => ?_)
        subst same
        rw [won] at election
        exact election.elim
  | finish =>
      simp only [finishElection]
      split <;> exact h.update rfl (fun same => same ▸ ⟨h.term, h.vote, trivial⟩)
  | deliverVote _ found =>
      refine h.update rfl (fun same => ?_)
      simp [Receives, found, same] at silent
  | deliverAppend found =>
      refine h.update rfl (fun same => ?_)
      simp [Receives, found, same] at silent
  | @propose m command =>
      have kept := RaftNode.propose_sameTerm (c.nodes m).node command
      refine h.update rfl (fun same => ?_)
      subst same
      exact ⟨kept.term.trans h.term, kept.vote.trans h.vote, election⟩
  | replicate =>
      simp only [replicate]
      split
      · exact h
      · exact h.update rfl (fun same => same ▸ ⟨h.term, h.vote, election⟩)
  | receiveAppend _ _ found =>
      refine h.update rfl (fun same => ?_)
      simp [Receives, found, same] at silent
  | loseAppend => exact h.update rfl (fun same => same ▸ ⟨h.term, h.vote, election⟩)

/-- All along a run that hands the node nothing. -/
theorem Alone.run (reachable : Reachable g c) (hn : n ∈ g.members) (peers : g.peers n ≠ [])
    {acts : List Action}
    (silent : Along (Cluster.exec g) (fun c act => Receives c n act = false) c acts)
    (h : Alone r (c.nodes n)) : Alone r ((acts.foldl (Cluster.exec g) c).nodes n) := by
  induction acts generalizing c with
  | nil => exact h
  | cons act acts ih =>
      obtain ⟨a, -, related⟩ := reachable_refines reachable
      exact ih (reachable.exec act) silent.2 (h.step related hn peers silent.1 (exec_performs g c act))

end Alone

theorem preVote_backs_new_terms (g : Group) (acts : List Action) :
    (∀ act, (run g acts).highestTerm g < (run g (acts ++ [act])).highestTerm g →
      ∃ n t, EntersTerm g (run g acts) act n t ∧ (run g (acts ++ [act])).highestTerm g = t) ∧
    (∀ act n t, EntersTerm g (run g acts) act n t →
      ((run g (acts ++ [act])).nodes n).node.currentTerm = t ∧ BackedBy g acts n t) ∧
    ∀ n ∈ g.members, g.peers n ≠ [] → Uncounted ((run g acts).nodes n).election →
      ∀ rest, Along (exec g) (fun c act => Receives c n act = false) (run g acts) rest →
        ((run g (acts ++ rest)).nodes n).node.currentTerm =
          ((run g acts).nodes n).node.currentTerm ∧
        ((run g (acts ++ rest)).nodes n).node.votedFor = ((run g acts).nodes n).node.votedFor := by
  obtain ⟨a, -, related⟩ := reachable_refines (run_reachable g acts)
  refine ⟨fun act higher => ?_, fun act n t enters => ?_, fun n hn peers uncounted rest silent => ?_⟩
  · rw [run_concat] at higher ⊢
    rcases performs_terms related (run_known g acts) (exec_performs g _ act) with none | ⟨-, n, t, enters⟩
    · exact absurd none.low (Nat.not_le_of_lt higher)
    · exact ⟨n, t, enters, enters.highest higher⟩
  · rw [run_concat]
    have traced := run_traced g acts n
    rw [enters.won] at traced
    exact ⟨enters.entered, traced⟩
  · have alone := Alone.run (run_reachable g acts) hn peers silent
      (r := ((run g acts).nodes n).node) ⟨rfl, rfl, uncounted⟩
    rw [run, List.foldl_append]
    exact ⟨alone.term, alone.vote⟩

/-- The first round of `campaign`: `beta` grants, the request to `gamma` is lost. -/
def firstTrial : List Action := (campaign alpha 0 gamma).take 5

/-- `gamma` stands alone: both its requests are lost. -/
def lonelyTrial : List Action :=
  [.election gamma .start, .election gamma (.lose alpha), .election gamma (.lose beta),
    .election gamma .finishRound, .election gamma (.vote false)]

theorem preVote_backs_new_terms_firstTrial :
    EntersTerm trio (run trio firstTrial) (.election alpha (.vote false)) alpha 1 ∧
    BackedBy trio firstTrial alpha 1 ∧
    ((run trio firstTrial).highestTerm trio <
        (run trio (firstTrial ++ [.election alpha (.vote false)])).highestTerm trio ∧
      (run trio (firstTrial ++ [.election alpha (.vote false)])).highestTerm trio = 1) ∧
    ((run trio (firstTrial ++ lonelyTrial)).nodes gamma).node.currentTerm =
      ((run trio firstTrial).nodes gamma).node.currentTerm := by
  obtain ⟨highest, backed, alone⟩ := preVote_backs_new_terms trio firstTrial
  have enters : EntersTerm trio (run trio firstTrial) (.election alpha (.vote false)) alpha 1 :=
    ⟨rfl, by decide, by decide +kernel, by decide +kernel, by decide +kernel⟩
  have higher : (run trio firstTrial).highestTerm trio <
      (run trio (firstTrial ++ [.election alpha (.vote false)])).highestTerm trio := by
    decide +kernel
  have silent : Along (exec trio) (fun c act => Receives c gamma act = false)
      (run trio firstTrial) lonelyTrial := by
    decide +kernel
  have idle : ((run trio firstTrial).nodes gamma).election = .idle := by
    decide +kernel
  refine ⟨enters, (backed _ _ _ enters).2, ⟨higher, ?_⟩, ?_⟩
  · obtain ⟨n, t, ⟨named, _, won, _, _⟩, top⟩ := highest _ higher
    cases named
    rw [enters.won] at won
    cases won
    exact top
  · have uncounted : Uncounted ((run trio firstTrial).nodes gamma).election := by
      rw [idle]
      trivial
    exact (alone gamma (by decide) (by decide) uncounted lonelyTrial silent).1

end Cluster
end Dos.Consensus
