import DistributedObjectStorage.Consensus.RaftTerms

/-!
# The highest term of a group

Apart from trial requests no message carries a term that no member has reached,
so the highest term grows only where a node stands for election.
-/
namespace Dos.Consensus

namespace Cluster

def highestTerm (g : Group) (c : Cluster) : ℕ :=
  g.members.foldr (fun n top => max (c.nodes n).node.currentTerm top) 0

/-- Phase two of `StartElection` goes through: the node enters term `t`. -/
structure EntersTerm (g : Group) (c : Cluster) (act : Action) (n : Bytes) (t : ℕ) : Prop where
  act : act = .election n (.vote false)
  member : n ∈ g.members
  won : (c.nodes n).election = .preVoteWon t
  role : (c.nodes n).node.role ≠ .leader
  term : (c.nodes n).node.currentTerm + 1 = t

/-! ## The highest term -/

section Highest
variable {g : Group} {c c' : Cluster} {n : Bytes} {p : Process}

theorem foldr_max_le {ns : List Bytes} {f : Bytes → ℕ} {t : ℕ} :
    ns.foldr (fun n top => max (f n) top) 0 ≤ t ↔ ∀ n ∈ ns, f n ≤ t := by
  induction ns with
  | nil => simp
  | cons n ns ih => simp [ih]

theorem highestTerm_le {t : ℕ} :
    c.highestTerm g ≤ t ↔ ∀ n ∈ g.members, (c.nodes n).node.currentTerm ≤ t := foldr_max_le

theorem le_highestTerm (hn : n ∈ g.members) : (c.nodes n).node.currentTerm ≤ c.highestTerm g :=
  highestTerm_le.mp (Nat.le_refl _) n hn

/-- No message in the network is ahead of every member. A trial request is: it
names the term its sender would enter. -/
structure Known (g : Group) (c : Cluster) : Prop where
  vote : ∀ call ∈ c.voteCalls, call.req.preVote = false → call.req.term ≤ c.highestTerm g
  voted : ∀ reply ∈ c.voteReplies, reply.2.term ≤ c.highestTerm g
  append : ∀ call ∈ c.appendCalls, call.req.term ≤ c.highestTerm g
  appended : ∀ reply ∈ c.appendReplies, reply.2.term ≤ c.highestTerm g

/-- The acting node's term does not shrink, and what it sends carries at most its term. -/
theorem Known.act (h : Known g c) (hn : n ∈ g.members)
    (nodes : c'.nodes = Function.update c.nodes n p)
    (grows : (c.nodes n).node.currentTerm ≤ p.node.currentTerm)
    (vote : ∀ call ∈ c'.voteCalls, call ∈ c.voteCalls ∨
      (call.req.preVote = false → call.req.term ≤ p.node.currentTerm))
    (voted : ∀ reply ∈ c'.voteReplies, reply ∈ c.voteReplies ∨ reply.2.term ≤ p.node.currentTerm)
    (append : ∀ call ∈ c'.appendCalls, call ∈ c.appendCalls ∨ call.req.term ≤ p.node.currentTerm)
    (appended : ∀ reply ∈ c'.appendReplies,
      reply ∈ c.appendReplies ∨ reply.2.term ≤ p.node.currentTerm) : Known g c' := by
  have own : p.node.currentTerm ≤ c'.highestTerm g := by
    have here := le_highestTerm (g := g) (c := c') hn
    rwa [nodes, Function.update_self] at here
  have top : c.highestTerm g ≤ c'.highestTerm g := by
    refine highestTerm_le.mpr (fun m hm => ?_)
    by_cases same : m = n
    · subst same
      exact grows.trans own
    · have here := le_highestTerm (g := g) (c := c') hm
      rwa [nodes, Function.update_of_ne same] at here
  refine ⟨fun call hc real => ?_, fun reply hr => ?_, fun call hc => ?_, fun reply hr => ?_⟩
  · rcases vote call hc with old | new
    · exact (h.vote call old real).trans top
    · exact (new real).trans own
  · rcases voted reply hr with old | new
    · exact (h.voted reply old).trans top
    · exact new.trans own
  · rcases append call hc with old | new
    · exact (h.append call old).trans top
    · exact new.trans own
  · rcases appended reply hr with old | new
    · exact (h.appended reply old).trans top
    · exact new.trans own

/-- An action that makes no new term. -/
structure NoNewTerm (g : Group) (c c' : Cluster) : Prop where
  known : Known g c'
  low : c'.highestTerm g ≤ c.highestTerm g

theorem NoNewTerm.refl (h : Known g c) : NoNewTerm g c c := ⟨h, Nat.le_refl _⟩

theorem NoNewTerm.act (known : Known g c') (nodes : c'.nodes = Function.update c.nodes n p)
    (low : p.node.currentTerm ≤ c.highestTerm g) : NoNewTerm g c c' := by
  refine ⟨known, highestTerm_le.mpr (fun m hm => ?_)⟩
  rw [nodes]
  by_cases same : m = n
  · subst same
    simpa using low
  · rw [Function.update_of_ne same]
    exact le_highestTerm hm

/-- A section that sends nothing and leaves the term alone. -/
theorem NoNewTerm.silent (h : Known g c) (hn : n ∈ g.members)
    (nodes : c'.nodes = Function.update c.nodes n p)
    (voteCalls : c'.voteCalls = c.voteCalls) (voteReplies : c'.voteReplies = c.voteReplies)
    (appendCalls : c'.appendCalls = c.appendCalls)
    (appendReplies : c'.appendReplies = c.appendReplies)
    (grows : (c.nodes n).node.currentTerm ≤ p.node.currentTerm)
    (low : p.node.currentTerm ≤ c.highestTerm g) : NoNewTerm g c c' := by
  refine .act (h.act hn nodes grows ?_ ?_ ?_ ?_) nodes low
  · rw [voteCalls]
    exact fun _ hc => .inl hc
  · rw [voteReplies]
    exact fun _ hr => .inl hr
  · rw [appendCalls]
    exact fun _ hc => .inl hc
  · rw [appendReplies]
    exact fun _ hr => .inl hr

theorem Known.initial (g : Group) : Known g (initial g) := ⟨nofun, nofun, nofun, nofun⟩

/-- Opening a round: trial requests may be ahead, real ones carry the node's term. -/
theorem Known.openRound {r : RaftNode} {req : RequestVoteRequest} (h : Known g c)
    (hn : n ∈ g.members) (grows : (c.nodes n).node.currentTerm ≤ r.currentTerm)
    (own : req.preVote = false → req.term ≤ r.currentTerm) : Known g (c.openRound n r req) := by
  refine h.act hn rfl grows (fun call hc => ?_) (fun _ hr => .inl hr) (fun _ hc => .inl hc)
    (fun _ hr => .inl hr)
  rcases List.mem_append.mp hc with new | old
  · obtain ⟨peer, -, rfl⟩ := List.mem_map.mp new
    exact .inr own
  · exact .inl old

end Highest

/-! ## Which actions make a term -/

section Sections
variable {g : Group} {c : Cluster} {n : Bytes} (h : Known g c) (hn : n ∈ g.members)
include h hn

theorem NoNewTerm.restart {a : Spec} (ok : NodeOk g a n (c.nodes n).node) : NoNewTerm g c (c.restart n) := by
  have same : (c.nodes n).node.storage.hardState.currentTerm = (c.nodes n).node.currentTerm :=
    congrArg HardState.currentTerm ok.hardState
  exact .silent h hn rfl rfl rfl rfl rfl same.ge (same.le.trans (le_highestTerm hn))

theorem NoNewTerm.setElection (e : Election) :
    NoNewTerm g c (c.setElection n e) :=
  .silent h hn rfl rfl rfl rfl rfl (Nat.le_refl _) (le_highestTerm hn)

theorem NoNewTerm.startElection :
    NoNewTerm g c (c.startElection n) := by
  simp only [Cluster.startElection]
  split
  · exact .refl h
  · exact .act (h.openRound hn (Nat.le_refl _) (by rintro ⟨⟩)) rfl (le_highestTerm hn)

theorem NoNewTerm.receiveVote {peer : Bytes} {round : VoteRound} {resp : RequestVoteResponse}
    (known : resp.term ≤ c.highestTerm g) :
    NoNewTerm g c (c.receiveVote n peer round resp) := by
  have counted := (RaftNode.countVote_max (c.nodes n).node round.req resp).1
  refine .silent h hn rfl rfl rfl rfl rfl ((le_max_left _ _).trans counted.ge) ?_
  exact counted.le.trans (max_le (le_highestTerm hn) known)

theorem NoNewTerm.finishElection (term : ℕ) :
    NoNewTerm g c (c.finishElection n term) := by
  simp only [Cluster.finishElection]
  split
  · exact .silent h hn rfl rfl rfl rfl rfl (Nat.le_refl _) (le_highestTerm hn)
  · exact .setElection h hn _

omit hn in
theorem NoNewTerm.deliverVote {call : VoteCall} (sent : call ∈ c.voteCalls)
    (hn : call.dst ∈ g.members) (leaderless : Bool) :
    NoNewTerm g c (c.deliverVote call leaderless) := by
  have replied : ∀ {p : Process} {resp : RequestVoteResponse}, resp.term ≤ p.node.currentTerm →
      ∀ reply ∈ (call, resp) :: c.voteReplies,
        reply ∈ c.voteReplies ∨ reply.2.term ≤ p.node.currentTerm := by
    intro p resp own reply hr
    rcases List.mem_cons.mp hr with rfl | old
    · exact .inr own
    · exact .inl old
  cases trial : call.req.preVote with
  | true =>
      have same := RaftNode.handleRequestVote_preVote (r := (c.nodes call.dst).node) trial leaderless
      have term := congrArg RaftNode.currentTerm same.1
      refine .act (h.act hn rfl term.ge (fun _ hc => .inl hc) (replied ?_) (fun _ hc => .inl hc)
        (fun _ hr => .inl hr)) rfl ?_
      · exact same.2.le.trans term.ge
      · exact term.le.trans (le_highestTerm hn)
  | false =>
      have voted := RaftNode.handleRequestVote_max (r := (c.nodes call.dst).node) trial leaderless
      refine .act (h.act hn rfl ?_ (fun _ hc => .inl hc) (replied ?_) (fun _ hc => .inl hc)
        (fun _ hr => .inl hr)) rfl ?_
      · exact (le_max_left _ _).trans voted.1.ge
      · exact voted.2.1.le.trans voted.1.ge
      · exact voted.1.le.trans (max_le (le_highestTerm hn) (h.vote call sent trial))

omit hn in
theorem NoNewTerm.deliverAppend {call : AppendCall} (sent : call ∈ c.appendCalls)
    (hn : call.dst ∈ g.members) : NoNewTerm g c (c.deliverAppend call) := by
  have adopted := RaftNode.handleAppendEntries_max (c.nodes call.dst).node call.req
  refine .act (h.act hn rfl ?_ (fun _ hc => .inl hc) (fun _ hr => .inl hr) (fun _ hc => .inl hc)
    (fun reply hr => ?_)) rfl ?_
  · exact (le_max_left _ _).trans adopted.1.ge
  · rcases List.mem_cons.mp hr with rfl | old
    · exact .inr (adopted.2.le.trans adopted.1.ge)
    · exact .inl old
  · exact adopted.1.le.trans (max_le (le_highestTerm hn) (h.append call sent))

theorem NoNewTerm.propose (command : Bytes) :
    NoNewTerm g c (c.propose n command) := by
  have same := (RaftNode.propose_sameTerm (c.nodes n).node command).term
  exact .silent h hn rfl rfl rfl rfl rfl same.ge (same.le.trans (le_highestTerm hn))

theorem NoNewTerm.replicate (peer : Bytes) (term : ℕ) :
    NoNewTerm g c (c.replicate n peer term) := by
  unfold Cluster.replicate
  cases made : (c.nodes n).node.replicateRequest peer term with
  | none =>
      simp only [made]
      exact .refl h
  | some req =>
      obtain ⟨_, current, _, _, rfl⟩ := replicateRequest_some made
      simp only [made]
      refine .act (h.act hn rfl (Nat.le_refl _) (fun _ hc => .inl hc) (fun _ hr => .inl hr)
        (fun call hc => ?_) (fun _ hr => .inl hr)) rfl (le_highestTerm hn)
      rcases List.mem_cons.mp hc with rfl | old
      · exact .inr current.ge
      · exact .inl old

omit hn in
theorem NoNewTerm.receiveAppend {call : AppendCall} {resp : AppendEntriesResponse}
    (hn : call.src ∈ g.members) (known : resp.term ≤ c.highestTerm g) :
    NoNewTerm g c (c.receiveAppend call resp) := by
  have replied := RaftNode.replicateReply_max (c.nodes call.src).node call.dst call.req resp
  refine .silent h hn rfl rfl rfl rfl rfl replied.1 ?_
  exact replied.2.1.trans (max_le (le_highestTerm hn) known)

theorem NoNewTerm.loseAppend (peer : Bytes) :
    NoNewTerm g c (c.loseAppend n peer) :=
  .silent h hn rfl rfl rfl rfl rfl (Nat.le_refl _) (le_highestTerm hn)

/-- Phase two gives up, or the node enters the next term. -/
theorem startVote_terms {wouldBeTerm : ℕ}
    (won : (c.nodes n).election = .preVoteWon wouldBeTerm) (contacted : Bool) :
    NoNewTerm g c (c.startVote n wouldBeTerm contacted) ∨
      Known g (c.startVote n wouldBeTerm contacted) ∧
        EntersTerm g c (.election n (.vote contacted)) n wouldBeTerm := by
  simp only [Cluster.startVote]
  split
  · exact .inl (.setElection h hn _)
  · next goes =>
      obtain ⟨role, goes⟩ := not_or.mp goes
      obtain ⟨term, alone⟩ := not_or.mp goes
      have free : contacted = false := Bool.eq_false_of_not_eq_true alone
      subst free
      refine .inr ⟨h.openRound hn (Nat.le_succ _) (fun _ => Nat.le_refl _), ?_⟩
      exact ⟨rfl, hn, won, role, not_not.mp term⟩

omit h hn in
theorem performs_terms {a : Spec} {c' : Cluster} {act : Action} (related : Refines g c a)
    (h : Known g c) (performs : Performs g c act c') :
    NoNewTerm g c c' ∨ Known g c' ∧ ∃ n t, EntersTerm g c act n t := by
  cases performs with
  | skip => exact .inl (.refl h)
  | restart hn => exact .inl (.restart h hn (related.nodes _ hn).node)
  | start hn => exact .inl (.startElection h hn)
  | receive hn _ _ sent => exact .inl (.receiveVote h hn (h.voted _ sent))
  | lose hn => exact .inl (.setElection h hn _)
  | finishRound hn => exact .inl (.setElection h hn _)
  | vote contacted hn won =>
      exact (startVote_terms h hn won contacted).imp_right (.imp_right fun e => ⟨_, _, e⟩)
  | finish hn => exact .inl (.finishElection h hn _)
  | @deliverVote k call leaderless found =>
      have sent := List.mem_of_getElem? found
      exact .inl (.deliverVote h sent (related.voteCalls call sent).dst leaderless)
  | @deliverAppend k call found =>
      have sent := List.mem_of_getElem? found
      obtain ⟨log, ok⟩ := related.appendCalls call sent
      exact .inl (.deliverAppend h sent ok.dst)
  | propose command hn => exact .inl (.propose h hn command)
  | replicate term hn => exact .inl (.replicate h hn _ term)
  | receiveAppend hn _ found =>
      exact .inl (.receiveAppend h hn (h.appended _ (List.mem_of_getElem? found)))
  | loseAppend peer hn => exact .inl (.loseAppend h hn peer)

end Sections

/-! ## Entering a term -/

section Enters
variable {g : Group} {c : Cluster} {act : Action} {n : Bytes} {t : ℕ}

theorem EntersTerm.exec (h : EntersTerm g c act n t) :
    (c.exec g act).nodes = Function.update c.nodes n
      { c.nodes n with
        node := (c.nodes n).node.becomeCandidate
        election := .voting ⟨c.nextId,
          (c.nodes n).node.becomeCandidate.voteRequest t false,
          (c.nodes n).node.becomeCandidate.config.peers, []⟩ } := by
  obtain ⟨rfl, hn, won, role, rfl⟩ := h
  have goes : ¬ ((c.nodes n).node.role = .leader ∨
      (c.nodes n).node.currentTerm + 1 ≠ (c.nodes n).node.currentTerm + 1 ∨ false = true) := by
    simp [role]
  simp only [Cluster.exec, if_pos hn, won, Cluster.electionStep, startVote, if_neg goes]
  rfl

theorem EntersTerm.entered (h : EntersTerm g c act n t) :
    ((c.exec g act).nodes n).node.currentTerm = t := by
  rw [h.exec, Function.update_self]
  exact h.term

/-- The node that enters a term beyond the highest one is now the highest. -/
theorem EntersTerm.highest (h : EntersTerm g c act n t)
    (higher : c.highestTerm g < (c.exec g act).highestTerm g) :
    (c.exec g act).highestTerm g = t := by
  have reached : t ≤ (c.exec g act).highestTerm g := h.entered ▸ le_highestTerm h.member
  have bound : (c.exec g act).highestTerm g ≤ max (c.highestTerm g) t := by
    refine highestTerm_le.mpr (fun m hm => ?_)
    by_cases same : m = n
    · subst same
      rw [h.entered]
      exact le_max_right _ _
    · rw [h.exec, Function.update_of_ne same]
      exact (le_highestTerm hm).trans (le_max_left _ _)
  omega

end Enters

/-! ## Whole runs -/

theorem run_concat (g : Group) (acts : List Action) (act : Action) :
    run g (acts ++ [act]) = exec g (run g acts) act := by
  simp only [run, List.foldl_append, List.foldl_cons, List.foldl_nil]

theorem run_known (g : Group) (acts : List Action) : Known g (run g acts) := by
  induction acts using List.reverseRecOn with
  | nil => exact .initial g
  | append_singleton acts act ih =>
      obtain ⟨a, -, related⟩ := reachable_refines (run_reachable g acts)
      rw [run_concat]
      rcases performs_terms related ih (exec_performs g _ act) with none | ⟨known, -⟩
      · exact none.known
      · exact known

end Cluster
end Dos.Consensus
