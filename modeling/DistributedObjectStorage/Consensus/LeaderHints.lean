import Mathlib.Algebra.Group.Fin.Basic
import Mathlib.Data.Fintype.EquivFin
import Mathlib.Data.Fintype.Lattice
import Mathlib.Data.List.Chain
import DistributedObjectStorage.Consensus.RaftTerms

/-!
# Leader hints

`leader_id_` outlives the term it was set in: stepping down keeps it, a
candidacy clears it and a crash loses it. A run is given here with the term in
which each hint was set, and following hints is shown to climb through terms.
-/
namespace Dos.Consensus
open Transition

/-- The node whose `leader_id_` the action assigns. Clearing it for a candidacy
assigns no leader. -/
def Cluster.hintSetBy (g : Group) (c : Cluster) : Action → Option Bytes
  | .deliverAppend k =>
      (c.appendCalls[k]?).elim none fun call =>
        if call.req.term < (c.nodes call.dst).node.currentTerm then none else some call.dst
  | .election n .finish =>
      if n ∈ g.members ∧ (c.nodes n).node.role = .candidate ∧
          (c.nodes n).election = .voteWon (c.nodes n).node.currentTerm then some n
      else none
  | _ => none

/-- A group together with the term each node had when its hint was last set.
The code does not keep that term. -/
structure HintedCluster where
  cluster : Cluster
  hintTerm : Bytes → ℕ

namespace HintedCluster

def initial (g : Group) : HintedCluster := ⟨.initial g, fun _ => 0⟩

def exec (g : Group) (s : HintedCluster) (act : Action) : HintedCluster :=
  let c := s.cluster.exec g act
  ⟨c, (s.cluster.hintSetBy g act).elim s.hintTerm fun n =>
    Function.update s.hintTerm n (c.nodes n).node.currentTerm⟩

def run (g : Group) (acts : List Action) : HintedCluster := acts.foldl (exec g) (initial g)

def system (g : Group) : System HintedCluster where
  init := fun s => s = initial g
  step := fun s s' => ∃ act, s' = exec g s act

abbrev Reachable (g : Group) (s : HintedCluster) : Prop := (system g).Reachable s

end HintedCluster

section Quiet
variable {g : Group} {c c' : Cluster} {n : Bytes} {p : Process}

/-- The request names its sender as leader, and the sender was elected in its term. -/
def Announced (c : Cluster) (call : AppendCall) : Prop :=
  call.req.leaderId = call.src ∧ ∃ log, Event.becameLeader call.src call.req.term log ∈ c.history

/-- What every action does that sets no hint: terms grow, hints stay or are
cleared, nobody is elected and requests are announced. -/
structure Quiet (c c' : Cluster) : Prop where
  term : ∀ n, (c.nodes n).node.currentTerm ≤ (c'.nodes n).node.currentTerm
  hint : ∀ n, (c'.nodes n).node.leaderId = (c.nodes n).node.leaderId ∨
    (c'.nodes n).node.leaderId = []
  elected : ∀ n t log, Event.becameLeader n t log ∈ c'.history ↔
    Event.becameLeader n t log ∈ c.history
  sent : ∀ call ∈ c'.appendCalls, call ∈ c.appendCalls ∨ Announced c call

theorem Quiet.refl (c : Cluster) : Quiet c c :=
  ⟨fun _ => Nat.le_refl _, fun _ => .inl rfl, fun _ _ _ => Iff.rfl, fun _ hc => .inl hc⟩

theorem Quiet.act (nodes : c'.nodes = Function.update c.nodes n p)
    (term : (c.nodes n).node.currentTerm ≤ p.node.currentTerm)
    (hint : p.node.leaderId = (c.nodes n).node.leaderId ∨ p.node.leaderId = [])
    (elected : ∀ n t log, Event.becameLeader n t log ∈ c'.history ↔
      Event.becameLeader n t log ∈ c.history)
    (sent : ∀ call ∈ c'.appendCalls, call ∈ c.appendCalls ∨ Announced c call) : Quiet c c' := by
  refine ⟨fun m => ?_, fun m => ?_, elected, sent⟩
  · rw [nodes]
    by_cases same : m = n
    · subst same
      simpa using term
    · rw [Function.update_of_ne same]
  · rw [nodes]
    by_cases same : m = n
    · subst same
      simpa using hint
    · rw [Function.update_of_ne same]
      exact .inl rfl

/-- A section that keeps the history and sends no append request. -/
theorem Quiet.section (nodes : c'.nodes = Function.update c.nodes n p)
    (history : c'.history = c.history) (sent : c'.appendCalls = c.appendCalls)
    (term : (c.nodes n).node.currentTerm ≤ p.node.currentTerm)
    (hint : p.node.leaderId = (c.nodes n).node.leaderId ∨ p.node.leaderId = []) : Quiet c c' := by
  refine .act nodes term hint (fun n t log => ?_) (fun call hc => .inl ?_)
  · rw [history]
  · rwa [sent] at hc

theorem elected_commitEvents (before after : RaftNode) (n m : Bytes) (t : ℕ) (log : List LogEntry) :
    Event.becameLeader m t log ∈ Cluster.commitEvents n before after ++ c.history ↔
      Event.becameLeader m t log ∈ c.history := by
  unfold Cluster.commitEvents
  split <;> simp

/-! ## The sections that set no hint -/

theorem Quiet.restart {a : Spec} (ok : NodeOk g a n (c.nodes n).node) : Quiet c (c.restart n) := by
  refine .act rfl ?_ (.inr rfl) (fun m t log => ?_) (fun call hc => .inl hc)
  · exact Nat.le_of_eq (congrArg HardState.currentTerm ok.hardState).symm
  · simp [Cluster.restart, Cluster.setProcess]

theorem Quiet.setElection (c : Cluster) (n : Bytes) (e : Election) : Quiet c (c.setElection n e) :=
  .section rfl rfl rfl (Nat.le_refl _) (.inl rfl)

theorem Quiet.startElection (c : Cluster) (n : Bytes) : Quiet c (c.startElection n) := by
  simp only [Cluster.startElection]
  split
  · exact .refl c
  · exact .section rfl rfl rfl (Nat.le_refl _) (.inl rfl)

theorem Quiet.receiveVote (c : Cluster) (n peer : Bytes) (round : VoteRound)
    (resp : RequestVoteResponse) : Quiet c (c.receiveVote n peer round resp) := by
  have counted := RaftNode.countVote_max (c.nodes n).node round.req resp
  refine .section rfl rfl rfl ?_ (.inl counted.2)
  exact (le_max_left _ _).trans counted.1.ge

theorem Quiet.startVote (c : Cluster) (n : Bytes) (wouldBeTerm : ℕ) (contacted : Bool) :
    Quiet c (c.startVote n wouldBeTerm contacted) := by
  simp only [Cluster.startVote]
  split
  · exact .setElection c n _
  · exact .section rfl rfl rfl (Nat.le_succ _) (.inr rfl)

theorem Quiet.deliverVote (c : Cluster) (call : VoteCall) (leaderless : Bool) :
    Quiet c (c.deliverVote call leaderless) := by
  cases trial : call.req.preVote with
  | true =>
      have same := (RaftNode.handleRequestVote_preVote (r := (c.nodes call.dst).node) trial leaderless).1
      refine .section rfl rfl rfl ?_ (.inl ?_)
      · exact Nat.le_of_eq (congrArg RaftNode.currentTerm same).symm
      · exact congrArg RaftNode.leaderId same
  | false =>
      have voted := RaftNode.handleRequestVote_max (r := (c.nodes call.dst).node) trial leaderless
      refine .section rfl rfl rfl ?_ (.inl voted.2.2)
      exact (le_max_left _ _).trans voted.1.ge

theorem Quiet.propose (c : Cluster) (n command : Bytes) : Quiet c (c.propose n command) := by
  have same := RaftNode.propose_sameTerm (c.nodes n).node command
  refine .act rfl same.term.ge (.inl same.hint) (fun m t log => ?_) (fun call hc => .inl hc)
  exact elected_commitEvents _ _ n m t log

theorem Quiet.replicate {a : Spec} (accounted : Accounted g c) (hn : n ∈ g.members)
    (ok : NodeOk g a n (c.nodes n).node) (peer : Bytes) (term : ℕ) :
    Quiet c (c.replicate n peer term) := by
  unfold Cluster.replicate
  cases made : (c.nodes n).node.replicateRequest peer term with
  | none =>
      simp only [made]
      exact .refl c
  | some req =>
      simp only [made]
      refine .act rfl (Nat.le_refl _) (.inl rfl) (fun _ _ _ => Iff.rfl) (fun call hc => ?_)
      rcases List.mem_cons.mp hc with rfl | old
      · obtain ⟨leader, rfl, _, _, rfl⟩ := replicateRequest_some made
        exact .inr ⟨congrArg RaftConfig.id ok.config, accounted.leader n hn leader⟩
      · exact .inl old

theorem Quiet.receiveAppend (c : Cluster) (call : AppendCall) (resp : AppendEntriesResponse) :
    Quiet c (c.receiveAppend call resp) := by
  have replied := RaftNode.replicateReply_max (c.nodes call.src).node call.dst call.req resp
  refine .act rfl replied.1 (.inl replied.2.2) (fun m t log => ?_) (fun call hc => .inl hc)
  exact elected_commitEvents _ _ call.src m t log

theorem Quiet.loseAppend (c : Cluster) (n peer : Bytes) : Quiet c (c.loseAppend n peer) :=
  .section rfl rfl rfl (Nat.le_refl _) (.inl rfl)

/-- A stale leader is refused without any change to the node. -/
theorem Quiet.deliverAppend {call : AppendCall}
    (stale : call.req.term < (c.nodes call.dst).node.currentTerm) :
    Quiet c (c.deliverAppend call) := by
  have same := RaftNode.handleAppendEntries_stale stale
  refine .section rfl rfl rfl ?_ (.inl ?_)
  · exact Nat.le_of_eq (congrArg RaftNode.currentTerm same).symm
  · exact congrArg RaftNode.leaderId same

end Quiet

/-! ## The three kinds of actions -/

section Actions
variable {g : Group} {c : Cluster}

theorem performs_quiet {a : Spec} {c' : Cluster} {act : Action} (related : Refines g c a)
    (accounted : Accounted g c) (h : Cluster.Performs g c act c')
    (append : ∀ k, act ≠ .deliverAppend k) (finish : ∀ n, act ≠ .election n .finish) :
    Quiet c c' := by
  cases h with
  | skip => exact .refl c
  | restart hn => exact .restart (related.nodes _ hn).node
  | start => exact .startElection c _
  | receive => exact .receiveVote c _ _ _ _
  | lose => exact .setElection c _ _
  | finishRound => exact .setElection c _ _
  | vote contacted => exact .startVote c _ _ contacted
  | finish => exact absurd rfl (finish _)
  | deliverVote leaderless => exact .deliverVote c _ leaderless
  | deliverAppend => exact absurd rfl (append _)
  | propose command => exact .propose c _ command
  | replicate term hn => exact .replicate accounted hn (related.nodes _ hn).node _ term
  | receiveAppend => exact .receiveAppend c _ _
  | loseAppend peer => exact .loseAppend c _ peer

/-- Contact with a current leader. -/
def Heard (g : Group) (c : Cluster) (act : Action) : Prop :=
  ∃ call ∈ c.appendCalls, ¬ call.req.term < (c.nodes call.dst).node.currentTerm ∧
    c.hintSetBy g act = some call.dst ∧ c.exec g act = c.deliverAppend call

/-- A won election. -/
def Elected (g : Group) (c : Cluster) (act : Action) : Prop :=
  ∃ n ∈ g.members, (c.nodes n).node.role = .candidate ∧ c.hintSetBy g act = some n ∧
    c.exec g act = c.finishElection n (c.nodes n).node.currentTerm

theorem deliverAppend_cases (k : ℕ) :
    (c.hintSetBy g (.deliverAppend k) = none ∧ Quiet c (c.exec g (.deliverAppend k))) ∨
      Heard g c (.deliverAppend k) := by
  simp only [Heard, Cluster.hintSetBy, Cluster.exec]
  cases found : c.appendCalls[k]? with
  | none => exact .inl ⟨rfl, .refl c⟩
  | some call =>
      simp only [Option.elim_some]
      by_cases stale : call.req.term < (c.nodes call.dst).node.currentTerm
      · rw [if_pos stale]
        exact .inl ⟨rfl, .deliverAppend stale⟩
      · refine .inr ⟨call, List.mem_of_getElem? found, stale, ?_, rfl⟩
        rw [if_neg stale]

theorem finish_cases (n : Bytes) :
    (c.hintSetBy g (.election n .finish) = none ∧ Quiet c (c.exec g (.election n .finish))) ∨
      Elected g c (.election n .finish) := by
  simp only [Elected, Cluster.hintSetBy]
  by_cases won : n ∈ g.members ∧ (c.nodes n).node.role = .candidate ∧
      (c.nodes n).election = .voteWon (c.nodes n).node.currentTerm
  · refine .inr ⟨n, won.1, won.2.1, if_pos won, ?_⟩
    simp only [Cluster.exec, if_pos won.1, won.2.2, Cluster.electionStep]
  · rw [if_neg won]
    refine .inl ⟨rfl, ?_⟩
    generalize result : c.exec g (.election n .finish) = c'
    have performs := Cluster.exec_performs g c (.election n .finish)
    rw [result] at performs
    cases performs with
    | skip => exact .refl c
    | @finish _ term hn phase =>
        simp only [Cluster.finishElection]
        split
        · next elected =>
            rw [phase, ← elected.2] at won
            exact absurd ⟨hn, elected.1, rfl⟩ won
        · exact .setElection c n _

theorem exec_cases {a : Spec} (related : Refines g c a) (accounted : Accounted g c) (act : Action) :
    (c.hintSetBy g act = none ∧ Quiet c (c.exec g act)) ∨ Heard g c act ∨ Elected g c act := by
  by_cases append : ∃ k, act = .deliverAppend k
  · obtain ⟨k, rfl⟩ := append
    exact (deliverAppend_cases k).imp_right .inl
  by_cases finish : ∃ n, act = .election n .finish
  · obtain ⟨n, rfl⟩ := finish
    exact (finish_cases n).imp_right .inr
  have noAppend : ∀ k, act ≠ .deliverAppend k := fun k same => append ⟨k, same⟩
  have noFinish : ∀ n, act ≠ .election n .finish := fun n same => finish ⟨n, same⟩
  refine .inl ⟨?_, performs_quiet related accounted (Cluster.exec_performs g c act) noAppend noFinish⟩
  unfold Cluster.hintSetBy
  split
  · exact absurd rfl (noAppend _)
  · exact absurd rfl (noFinish _)
  · rfl

end Actions

/-! ## What hints say -/

/-- A hint names the leader of the term it was set in, and whoever led a term
has no hint from an earlier one. -/
structure Hints (s : HintedCluster) : Prop where
  sent : ∀ call ∈ s.cluster.appendCalls, Announced s.cluster call
  named : ∀ n, (s.cluster.nodes n).node.leaderId ≠ [] → ∃ log,
    Event.becameLeader (s.cluster.nodes n).node.leaderId (s.hintTerm n) log ∈ s.cluster.history
  led : ∀ n t log, Event.becameLeader n t log ∈ s.cluster.history →
    t ≤ (s.cluster.nodes n).node.currentTerm ∧
      ((s.cluster.nodes n).node.leaderId ≠ [] → t ≤ s.hintTerm n)

section Hints
variable {g : Group} {s s' : HintedCluster} {n m : Bytes}

theorem Hints.initial (g : Group) : Hints (.initial g) :=
  ⟨nofun, fun _ hinted => absurd rfl hinted, nofun⟩

theorem Hints.quiet {c' : Cluster} (h : Hints s) (quiet : Quiet s.cluster c') :
    Hints ⟨c', s.hintTerm⟩ := by
  have kept : ∀ n, (c'.nodes n).node.leaderId ≠ [] →
      (c'.nodes n).node.leaderId = (s.cluster.nodes n).node.leaderId := by
    intro n hinted
    exact (quiet.hint n).resolve_right hinted
  refine ⟨fun call hc => ?_, fun n hinted => ?_, fun n t log won => ?_⟩
  · have announced : Announced s.cluster call := (quiet.sent call hc).elim (h.sent call) id
    obtain ⟨own, log, event⟩ := announced
    exact ⟨own, log, (quiet.elected _ _ _).mpr event⟩
  · have same := kept n hinted
    dsimp only at hinted ⊢
    rw [same] at hinted ⊢
    obtain ⟨log, event⟩ := h.named n hinted
    exact ⟨log, (quiet.elected _ _ _).mpr event⟩
  · have before := h.led n t log ((quiet.elected _ _ _).mp won)
    refine ⟨before.1.trans (quiet.term n), fun hinted => before.2 ?_⟩
    rw [← kept n hinted]
    exact hinted

/-- Setting one hint: the other nodes keep theirs. -/
theorem Hints.set {c : Cluster} {p : Process} (h : Hints s)
    (nodes : c.nodes = Function.update s.cluster.nodes n p)
    (grows : ∀ e ∈ s.cluster.history, e ∈ c.history)
    (sent : c.appendCalls = s.cluster.appendCalls)
    (named : ∃ log, Event.becameLeader p.node.leaderId p.node.currentTerm log ∈ c.history)
    (led : ∀ m t log, Event.becameLeader m t log ∈ c.history →
      Event.becameLeader m t log ∈ s.cluster.history ∨ m = n ∧ t = p.node.currentTerm)
    (term : (s.cluster.nodes n).node.currentTerm ≤ p.node.currentTerm) :
    Hints ⟨c, Function.update s.hintTerm n p.node.currentTerm⟩ := by
  refine ⟨fun call hc => ?_, fun m hinted => ?_, fun m t log won => ?_⟩
  · obtain ⟨own, log, event⟩ := h.sent call (sent ▸ hc)
    exact ⟨own, log, grows _ event⟩
  · dsimp only at hinted ⊢
    rw [nodes] at hinted ⊢
    by_cases same : m = n
    · subst same
      simpa using named
    · rw [Function.update_of_ne same] at hinted ⊢
      rw [Function.update_of_ne same]
      obtain ⟨log, event⟩ := h.named m hinted
      exact ⟨log, grows _ event⟩
  · dsimp only
    rw [nodes]
    by_cases same : m = n
    · subst same
      simp only [Function.update_self]
      have low : t ≤ p.node.currentTerm := by
        rcases led m t log won with old | ⟨-, rfl⟩
        · exact (h.led m t log old).1.trans term
        · exact Nat.le_refl _
      exact ⟨low, fun _ => low⟩
    · rw [Function.update_of_ne same, Function.update_of_ne same]
      have old := (led m t log won).resolve_right (fun new => same new.1)
      exact h.led m t log old

theorem Hints.exec {a : Spec} (h : Hints s) (related : Refines g s.cluster a)
    (accounted : Accounted g s.cluster) (act : Action) : Hints (s.exec g act) := by
  unfold HintedCluster.exec
  rcases exec_cases related accounted act with
    ⟨none, quiet⟩ | ⟨call, sent, current, set, result⟩ | ⟨n, hn, candidate, set, result⟩
  · rw [none]
    exact h.quiet quiet
  · -- the request was announced, so its term and its sender go together
    rw [set, result]
    have adopted := (RaftNode.handleAppendEntries_max (s.cluster.nodes call.dst).node call.req).1
    have hint := RaftNode.handleAppendEntries_hint current
    obtain ⟨own, log, event⟩ := h.sent call sent
    have here := h.set (c := s.cluster.deliverAppend call) (n := call.dst) rfl (fun e he => he) rfl
      (p := { s.cluster.nodes call.dst with
        node := ((s.cluster.nodes call.dst).node.handleAppendEntries call.req).1 })
      ⟨log, ?_⟩ (fun _ _ _ won => .inl won) ((le_max_left _ _).trans adopted.ge)
    · simpa [Cluster.deliverAppend, Cluster.setNode, Cluster.setProcess] using here
    · dsimp only
      rw [hint, own, adopted, max_eq_right (Nat.le_of_not_lt current)]
      exact event
  · -- a new leader names itself and is recorded
    rw [set, result]
    have config := (related.nodes n hn).node.config
    have finished : s.cluster.finishElection n (s.cluster.nodes n).node.currentTerm =
        { s.cluster.setProcess n
            { s.cluster.nodes n with
              node := (s.cluster.nodes n).node.becomeLeaderLocked, election := .idle } with
          history := .becameLeader n (s.cluster.nodes n).node.currentTerm
            (s.cluster.nodes n).node.log :: s.cluster.history } := by
      simp only [Cluster.finishElection]
      rw [if_pos ⟨candidate, trivial⟩]
    rw [finished]
    have here := h.set (n := n) rfl (fun e he => List.mem_cons_of_mem _ he) rfl
      (p := { s.cluster.nodes n with
        node := (s.cluster.nodes n).node.becomeLeaderLocked, election := .idle })
      ⟨(s.cluster.nodes n).node.log, ?_⟩ (fun m t log won => ?_) (Nat.le_refl _)
      (c := { s.cluster.setProcess n
          { s.cluster.nodes n with
            node := (s.cluster.nodes n).node.becomeLeaderLocked, election := .idle } with
        history := .becameLeader n (s.cluster.nodes n).node.currentTerm
          (s.cluster.nodes n).node.log :: s.cluster.history })
    · simpa [Cluster.setProcess] using here
    · have self : (s.cluster.nodes n).node.becomeLeaderLocked.leaderId = n :=
        congrArg RaftConfig.id config
      dsimp only
      rw [self]
      exact List.mem_cons_self
    · rcases List.mem_cons.mp won with new | old
      · cases new
        exact .inr ⟨rfl, rfl⟩
      · exact .inl old

theorem HintedCluster.Reachable.cluster (reachable : HintedCluster.Reachable g s) :
    Cluster.Reachable g s.cluster := by
  induction reachable with
  | start init =>
      subst init
      exact .start rfl
  | next _ step ih =>
      obtain ⟨act, rfl⟩ := step
      exact ih.exec act

theorem HintedCluster.run_reachable (g : Group) (acts : List Action) : Reachable g (run g acts) := by
  suffices h : ∀ s, Reachable g s → Reachable g (acts.foldl (exec g) s) from h _ (.start rfl)
  induction acts with
  | nil => exact fun s h => h
  | cons act rest ih => exact fun s h => ih _ (h.next ⟨act, rfl⟩)

theorem HintedCluster.Reachable.hints (reachable : HintedCluster.Reachable g s) : Hints s := by
  refine System.Reachable.invariant (P := Hints) ?_ ?_ reachable
  · rintro _ rfl
    exact .initial g
  · rintro s _ reached h ⟨act, rfl⟩
    have cluster := HintedCluster.Reachable.cluster reached
    obtain ⟨a, -, related⟩ := reachable_refines cluster
    exact h.exec related (reachable_accounted cluster) act

theorem HintedCluster.history_many (steps : Relation.ReflTransGen (system g).step s s') :
    ∀ e ∈ s.cluster.history, e ∈ s'.cluster.history := by
  induction steps with
  | refl => exact fun e he => he
  | tail _ step ih =>
      obtain ⟨act, rfl⟩ := step
      intro e he
      rcases Cluster.exec_allowed g _ act with same | moved
      · unfold HintedCluster.exec
        dsimp only
        rw [same]
        exact ih e he
      · exact history_grows moved e (ih e he)

end Hints

/-! ## Following hints -/

/-- A node that is asked in some state and passes the request on to its hint. -/
structure Hop where
  state : HintedCluster
  node : Bytes

namespace Hop

def target (h : Hop) : Bytes := (h.state.cluster.nodes h.node).node.leaderId

/-- The term in which the followed hint was set. -/
def hintTerm (h : Hop) : ℕ := h.state.hintTerm h.node

/-- There is a hint, and it is not the node itself. -/
structure Away (h : Hop) : Prop where
  hinted : h.target ≠ []
  other : h.target ≠ h.node

/-- The next hop is taken at the target, in the same state or a later one. -/
structure Then (g : Group) (h h' : Hop) : Prop where
  later : Relation.ReflTransGen (HintedCluster.system g).step h.state h'.state
  node : h'.node = h.target

variable {g : Group} {h h' : Hop}

/-- The target led the term of the hint, so its own hint is from a later one. -/
theorem Then.climbs (next : Then g h h') (reachable : HintedCluster.Reachable g h.state)
    (away : Away h) (away' : Away h') : h.hintTerm < h'.hintTerm := by
  have reachable' : HintedCluster.Reachable g h'.state := reachable.many next.later
  obtain ⟨log, led⟩ := reachable.hints.named h.node away.hinted
  have event := HintedCluster.history_many next.later _ led
  obtain ⟨log', led'⟩ := reachable'.hints.named h'.node away'.hinted
  have target : (h.state.cluster.nodes h.node).node.leaderId = h'.node := next.node.symm
  rw [target] at event
  have low : h.hintTerm ≤ h'.hintTerm := (reachable'.hints.led _ _ _ event).2 away'.hinted
  refine Nat.lt_of_le_of_ne low (fun same => away'.other ?_)
  -- in one term the hint of a leader is the leader itself
  have term : h'.state.hintTerm h'.node = h.state.hintTerm h.node := same.symm
  rw [term] at led'
  exact election_safety reachable'.cluster led' event

theorem climb {hops : List Hop} (fine : ∀ h ∈ hops, HintedCluster.Reachable g h.state ∧ Away h)
    (chain : hops.IsChain (Then g)) : hops.Pairwise (fun h h' => h.hintTerm < h'.hintTerm) := by
  have steps : (hops.map hintTerm).IsChain (· < ·) := by
    rw [List.isChain_map]
    refine chain.imp_of_mem_imp (fun h h' here here' next => ?_)
    exact next.climbs (fine h here).1 (fine h here).2 (fine h' here').2
  exact List.pairwise_map.mp (List.isChain_iff_pairwise.mp steps)

end Hop

/-- Around a ring of hints the terms would have to climb for ever. -/
theorem HintedCluster.Reachable.no_ring {g : Group} {s : HintedCluster} (reachable : Reachable g s)
    {k : ℕ} {ring : Fin (k + 2) → Bytes} (members : ∀ i, ring i ∈ g.members)
    (distinct : Function.Injective ring) :
    ¬ ∀ i, (s.cluster.nodes (ring i)).node.leaderId = ring (i + 1) := by
  intro hints
  have away : ∀ i, Hop.Away ⟨s, ring i⟩ := by
    intro i
    have target : Hop.target ⟨s, ring i⟩ = ring (i + 1) := hints i
    refine ⟨?_, ?_⟩
    · rw [target]
      exact fun empty => g.named (empty ▸ members (i + 1))
    · rw [target]
      exact fun same => one_ne_zero (add_eq_left.mp (distinct same))
  obtain ⟨top, highest⟩ := Finite.exists_max (fun i => s.hintTerm (ring i))
  have next : Hop.Then g ⟨s, ring top⟩ ⟨s, ring (top + 1)⟩ := ⟨.refl, (hints top).symm⟩
  have higher := next.climbs reachable (away top) (away (top + 1))
  exact absurd (highest (top + 1)) (Nat.not_le_of_lt higher)

end Dos.Consensus
