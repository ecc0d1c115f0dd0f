import DistributedObjectStorage.Consensus.RaftSafety
import DistributedObjectStorage.Consensus.RaftStorageCalls

/-!
# The Raft group over its files

Every node writes to its own files, and a process may die at any point of a
critical section: between two of its storage calls, or within the bytes of an
append. A hard state or a whole log replaces its file by a rename, so it is
there or it is not. The next process knows only what it reads back. The group
keeps its safety as long as every record fits its header and nothing is
appended behind a torn tail.
-/
namespace Dos.Consensus
open Transition Wire

/-! ## Calls on the files -/

def StorageCall.Fits : StorageCall → Prop
  | .saveHardState hs => hs.Fits
  | .appendEntry e => e.Fits
  | .rewriteLog entries => ∀ e ∈ entries, e.Fits

/-- An append finds the log without a torn tail. -/
def StorageCall.OnWholeLog (dir : RaftDir) : StorageCall → Prop
  | .appendEntry _ => tornTail dir.raftLog = []
  | .saveHardState _ | .rewriteLog _ => True

instance StorageCall.Fits.decidable : ∀ call : StorageCall, Decidable call.Fits
  | .saveHardState hs => inferInstanceAs (Decidable hs.Fits)
  | .appendEntry e => inferInstanceAs (Decidable e.Fits)
  | .rewriteLog entries => inferInstanceAs (Decidable (∀ e ∈ entries, e.Fits))

instance StorageCall.OnWholeLog.decidable (dir : RaftDir) :
    ∀ call : StorageCall, Decidable (call.OnWholeLog dir)
  | .appendEntry _ => inferInstanceAs (Decidable (tornTail dir.raftLog = []))
  | .saveHardState _ | .rewriteLog _ => isTrue trivial

/-- Each call meets the files as the calls before it left them. -/
def Writable (dir : RaftDir) (calls : List StorageCall) : Prop :=
  Along RaftDir.perform (fun dir call => call.Fits ∧ call.OnWholeLog dir) dir calls

instance Writable.decidable (dir : RaftDir) (calls : List StorageCall) :
    Decidable (Writable dir calls) :=
  inferInstanceAs (Decidable (Along RaftDir.perform (fun dir call => call.Fits ∧ call.OnWholeLog dir) dir calls))

/-- The process died after `k` of the calls. If the next one is an append, some
of its bytes are in the file. -/
def RaftDir.performCut (dir : RaftDir) (calls : List StorageCall) (k written : ℕ) : RaftDir :=
  let dir := (calls.take k).foldl .perform dir
  match calls[k]? with
  | some (.appendEntry e) => dir.cutAppend e written
  | _ => dir

section Files
variable {dir : RaftDir} {d : DurableState}

theorem Represents.perform (rep : Represents dir d) {call : StorageCall} (fits : call.Fits)
    (whole : call.OnWholeLog dir) : Represents (dir.perform call) (d.perform call) := by
  cases call with
  | saveHardState hs => exact rep.saveHardState fits
  | appendEntry e => exact rep.appendEntry whole fits
  | rewriteLog entries => exact rep.rewriteLog fits

theorem Represents.performAll {calls : List StorageCall} (rep : Represents dir d)
    (writable : Writable dir calls) : Represents (calls.foldl .perform dir) (calls.foldl .perform d) := by
  induction calls generalizing dir d with
  | nil => exact rep
  | cons call rest ih => exact ih (rep.perform writable.1.1 writable.1.2) writable.2

/-- A torn append reads as none, so the files stand for some first part of the calls. -/
theorem Represents.performCut {calls : List StorageCall} (rep : Represents dir d)
    (writable : Writable dir calls) (k written : ℕ) :
    ∃ j, Represents (dir.performCut calls k written) ((calls.take j).foldl .perform d) := by
  induction calls generalizing dir d k with
  | nil => exact ⟨0, by simpa [RaftDir.performCut] using rep⟩
  | cons call rest ih =>
      cases k with
      | zero =>
          cases call with
          | appendEntry e =>
              rcases rep.cutAppend writable.1.2 writable.1.1 written with none | all
              · exact ⟨0, none⟩
              · exact ⟨1, all⟩
          | saveHardState hs => exact ⟨0, rep⟩
          | rewriteLog entries => exact ⟨0, rep⟩
      | succ k =>
          obtain ⟨j, later⟩ := ih (rep.perform writable.1.1 writable.1.2) writable.2 k
          exact ⟨j + 1, later⟩

end Files

/-! ## Which section an action runs -/

namespace Cluster

def electionWrites (c : Cluster) (n : Bytes) : ElectionAction → Election → Option Section
  | .receive k, .voting round =>
      (c.voteReplies[k]?).bind fun reply =>
        if reply.1 = ⟨round.id, n, reply.1.dst, round.req⟩ ∧ reply.1.dst ∈ round.waiting then
          some (.countVote round.req reply.2)
        else none
  | .vote contacted, .preVoteWon wouldBeTerm =>
      let node := (c.nodes n).node
      if node.role = .leader ∨ node.currentTerm + 1 ≠ wouldBeTerm ∨ contacted then none
      else some .becomeCandidate
  | _, _ => none

/-- The node whose storage an action writes to, and the section that writes. -/
def writes (g : Group) (c : Cluster) : Action → Option (Bytes × Section)
  | .election n act =>
      if n ∈ g.members then (c.electionWrites n act (c.nodes n).election).map (n, ·) else none
  | .deliverVote k leaderless =>
      (c.voteCalls[k]?).map fun call => (call.dst, .handleRequestVote call.req leaderless)
  | .deliverAppend k => (c.appendCalls[k]?).map fun call => (call.dst, .handleAppendEntries call.req)
  | .propose n command => if n ∈ g.members then some (n, .propose command) else none
  | .receiveAppend k =>
      (c.appendReplies[k]?).bind fun reply =>
        if reply.1.src ∈ g.members ∧ (c.nodes reply.1.src).sending reply.1.dst = some reply.1 then
          some (reply.1.src, .replicateReply reply.1.dst reply.1.req reply.2)
        else none
  | .restart _ | .replicate .. | .loseAppend .. => none

/-- What every node has stored. -/
def stored (c : Cluster) : Bytes → DurableState := fun n => (c.nodes n).node.storage

def storedAfter (c : Cluster) : Option (Bytes × Section) → Bytes → DurableState
  | none => c.stored
  | some (n, sec) => Function.update c.stored n (sec.run (c.nodes n).node).storage

variable {g : Group} {c c' : Cluster}

theorem stored_update {n : Bytes} {p : Process} (nodes : c'.nodes = Function.update c.nodes n p) :
    c'.stored = Function.update c.stored n p.node.storage := by
  funext m
  unfold stored
  rw [nodes]
  by_cases same : m = n
  · subst same
    rw [Function.update_self, Function.update_self]
  · rw [Function.update_of_ne same, Function.update_of_ne same]

theorem stored_same {n : Bytes} {p : Process} (nodes : c'.nodes = Function.update c.nodes n p)
    (kept : p.node.storage = (c.nodes n).node.storage) : c'.stored = c.stored := by
  rw [stored_update nodes, kept]
  exact Function.update_eq_self n c.stored

theorem stored_written {n : Bytes} {sec : Section} {p : Process}
    (nodes : c'.nodes = Function.update c.nodes n p) (ran : p.node = sec.run (c.nodes n).node) :
    c'.stored = c.storedAfter (some (n, sec)) := by
  rw [stored_update nodes, ran]
  rfl

theorem electionStep_stored (c : Cluster) (n : Bytes) (act : ElectionAction) (phase : Election) :
    (c.electionStep n act phase).stored =
      c.storedAfter ((c.electionWrites n act phase).map (n, ·)) := by
  -- the phases that an action does not belong to leave the group alone
  cases phase with
  | idle =>
      cases act with
      | start =>
          simp only [electionStep, startElection]
          split
          · rfl
          · exact stored_same rfl rfl
      | _ => rfl
  | voting round =>
      cases act with
      | receive k =>
          simp only [electionStep, electionWrites]
          cases c.voteReplies[k]? with
          | none => rfl
          | some reply =>
              simp only [Option.elim_some, Option.bind_some, acceptVote]
              split
              · exact stored_written rfl rfl
              · rfl
      | lose peer =>
          simp only [electionStep]
          split
          · exact stored_same rfl rfl
          · rfl
      | finishRound =>
          simp only [electionStep]
          split
          · exact stored_same rfl rfl
          · rfl
      | _ => rfl
  | preVoteWon wouldBeTerm =>
      cases act with
      | vote contacted =>
          simp only [electionStep, startVote, electionWrites]
          split
          · exact stored_same rfl rfl
          · exact stored_written rfl rfl
      | _ => rfl
  | voteWon term =>
      cases act with
      | finish =>
          simp only [electionStep, finishElection]
          split <;> exact stored_same rfl rfl
      | _ => rfl

/-- An action changes the storage of one node at most, by the section it runs there. -/
theorem exec_stored (g : Group) (c : Cluster) (act : Action) :
    (c.exec g act).stored = c.storedAfter (c.writes g act) := by
  cases act with
  | restart n =>
      simp only [exec]
      split
      · exact stored_same rfl rfl
      · rfl
  | election n act =>
      simp only [exec, writes]
      split
      · exact electionStep_stored c n act _
      · rfl
  | deliverVote k leaderless =>
      simp only [exec, writes]
      cases c.voteCalls[k]? with
      | none => rfl
      | some call => exact stored_written rfl rfl
  | deliverAppend k =>
      simp only [exec, writes]
      cases c.appendCalls[k]? with
      | none => rfl
      | some call => exact stored_written rfl rfl
  | propose n command =>
      simp only [exec, writes]
      split
      · exact stored_written rfl rfl
      · rfl
  | replicate n peer term =>
      simp only [exec]
      split
      · unfold replicate
        dsimp only
        split
        · rfl
        · exact stored_same rfl rfl
      · rfl
  | receiveAppend k =>
      simp only [exec, writes]
      cases c.appendReplies[k]? with
      | none => rfl
      | some reply =>
          simp only [Option.elim_some, Option.bind_some, acceptAppend]
          split
          · exact stored_written rfl rfl
          · rfl
  | loseAppend n peer =>
      simp only [exec]
      split
      · exact stored_same rfl rfl
      · rfl

end Cluster

/-! ## A section that is cut off -/

section Cut
variable {g : Group} {a : Spec} {c : Cluster} {n : Bytes} {sec : Section}

/-- The section that an action runs is one that the abstract group can follow. -/
theorem Refines.writes {act : Action} (h : Refines g c a) (sound : Sound g a)
    (writes : c.writes g act = some (n, sec)) :
    n ∈ g.members ∧ Reaches g n a fun a' => NodeOk g a' n (sec.run (c.nodes n).node) := by
  cases act with
  | restart | replicate | loseAppend => cases writes
  | election m act =>
      simp only [Cluster.writes] at writes
      split at writes
      · next hn =>
          obtain ⟨found, running, same⟩ := Option.map_eq_some_iff.mp writes
          cases same
          refine ⟨hn, ?_⟩
          unfold Cluster.electionWrites at running
          split at running
          · obtain ⟨reply, -, counted⟩ := Option.bind_eq_some_iff.mp running
            split at counted
            · cases counted
              exact countVote_reaches sound (h.nodes n hn).node _ _
            · cases counted
          · dsimp only at running
            split at running
            · cases running
            · cases running
              exact (becomeCandidate_reaches sound hn (h.nodes n hn).node).bind
                (fun a' _ sound' post => .stay sound' post.1)
          · cases running
      · cases writes
  | deliverVote k leaderless =>
      obtain ⟨call, found, same⟩ := Option.map_eq_some_iff.mp writes
      cases same
      have ok := h.voteCalls call (List.mem_of_getElem? found)
      exact ⟨ok.dst, (handleRequestVote_reaches sound (h.nodes call.dst ok.dst).node ok leaderless).bind
        (fun a' _ sound' post => .stay sound' post.1)⟩
  | deliverAppend k =>
      obtain ⟨call, found, same⟩ := Option.map_eq_some_iff.mp writes
      cases same
      obtain ⟨sent, ok⟩ := h.appendCalls call (List.mem_of_getElem? found)
      exact ⟨ok.dst, (handleAppendEntries_reaches sound (h.nodes call.dst ok.dst).node ok).bind
        (fun a' _ sound' post => .stay sound' post.1)⟩
  | propose m command =>
      simp only [Cluster.writes] at writes
      split at writes
      · next hn =>
          cases writes
          exact ⟨hn, (propose_reaches sound hn (h.nodes n hn).node command).bind
            (fun a' _ sound' post => .stay sound' post.1)⟩
      · cases writes
  | receiveAppend k =>
      obtain ⟨⟨call, resp⟩, found, accepted⟩ := Option.bind_eq_some_iff.mp writes
      split at accepted
      · next ok =>
          cases accepted
          obtain ⟨-, -, peer, sent, made⟩ := (h.nodes call.src ok.1).sending _ _ ok.2
          have reply := h.appendReplies _ (List.mem_of_getElem? found)
          exact ⟨ok.1, (replicateReply_reaches sound ok.1 (h.nodes call.src ok.1).node peer made reply).bind
            (fun a' _ sound' post => .stay sound' post.1)⟩
      · cases accepted

/-- The process that starts on a first part of a section's calls is one that the
abstract group can follow as well. -/
theorem cut_reaches {r : RaftNode} (sound : Sound g a) (h : NodeOk g a n r)
    (whole : Reaches g n a fun a' => NodeOk g a' n (sec.run r)) (j : ℕ) :
    Reaches g n a fun a' =>
      NodeOk g a' n (RaftNode.create r.config (((sec.calls r).take j).foldl .perform r.storage)) := by
  have reborn {r' : RaftNode} (reaches : Reaches g n a fun a' => NodeOk g a' n r') :
      Reaches g n a fun a' => NodeOk g a' n (RaftNode.create r.config r'.storage) := by
    refine reaches.bind (fun a' _ sound' ok => .stay sound' ?_)
    rw [h.config, ← ok.config]
    exact restart_ok ok
  rcases sec.storage_cut r j with nothing | ⟨term, only⟩ | all
  · rw [nothing]
    exact reborn (.stay sound h)
  · rw [only]
    exact reborn (stepDown_reaches sound h term)
  · rw [all]
    exact reborn whole

end Cut

/-! ## The group and its files -/

structure DiskCluster where
  cluster : Cluster
  dirs : Bytes → RaftDir

/-- A section runs to its end, or its process dies inside it and is started again. -/
inductive DiskAction where
  | perform (act : Action)
  | crashIn (act : Action) (calls written : ℕ)
  deriving DecidableEq, Repr

def DiskAction.action : DiskAction → Action
  | .perform act | .crashIn act _ _ => act

namespace DiskCluster

def initial (g : Group) : DiskCluster := ⟨.initial g, fun _ => .empty⟩

/-- A new process reads the files of the old one. -/
def reboot (s : DiskCluster) (n : Bytes) : DiskCluster :=
  let p := s.cluster.nodes n
  { s with
    cluster := { s.cluster.setProcess n (Process.boot p.node.config (s.dirs n).load) with
      history := .crashed n p.node.applied :: s.cluster.history } }

def setDir (s : DiskCluster) (n : Bytes) (dir : RaftDir) : DiskCluster :=
  { s with dirs := Function.update s.dirs n dir }

def exec (g : Group) (s : DiskCluster) : DiskAction → DiskCluster
  | .perform (.restart n) => if n ∈ g.members then s.reboot n else s
  | .perform act =>
      let after := match s.cluster.writes g act with
        | none => s
        | some (n, sec) => s.setDir n ((sec.calls (s.cluster.nodes n).node).foldl .perform (s.dirs n))
      { after with cluster := s.cluster.exec g act }
  | .crashIn act calls written =>
      -- a section that was cut off has sent nothing
      match s.cluster.writes g act with
      | none => s
      | some (n, sec) =>
          (s.setDir n ((s.dirs n).performCut (sec.calls (s.cluster.nodes n).node) calls written)).reboot n

/-- Every call that the section makes or would have made can be written. -/
def Allowed (g : Group) (s : DiskCluster) (act : DiskAction) : Prop :=
  ∀ target ∈ s.cluster.writes g act.action,
    Writable (s.dirs target.1) (target.2.calls (s.cluster.nodes target.1).node)

instance Allowed.decidable (g : Group) (s : DiskCluster) (act : DiskAction) : Decidable (Allowed g s act) :=
  inferInstanceAs (Decidable (∀ target ∈ s.cluster.writes g act.action,
    Writable (s.dirs target.1) (target.2.calls (s.cluster.nodes target.1).node)))

def run (g : Group) (acts : List DiskAction) : DiskCluster := acts.foldl (exec g) (initial g)

def system (g : Group) : System DiskCluster := .guarded (exec g) (Allowed g) (initial g)

/-- The group refines abstract log replication, and every node's files stand for
what the node has stored. -/
structure Backed (g : Group) (s : DiskCluster) (a : Spec) : Prop where
  refines : Refines g s.cluster a
  files : ∀ n ∈ g.members, Represents (s.dirs n) (s.cluster.stored n)

variable {g : Group} {s : DiskCluster} {a : Spec}

/-- A process may start on any files whose contents the abstract group can follow. -/
theorem Backed.reboot {n : Bytes} {dir : RaftDir} {d : DurableState} (h : Backed g s a)
    (sound : Sound g a) (hn : n ∈ g.members) (rep : Represents dir d)
    (reaches : Reaches g n a fun a' =>
      NodeOk g a' n (RaftNode.create (s.cluster.nodes n).node.config d)) :
    ∃ a', Relation.ReflTransGen g.spec.step a a' ∧ Backed g ((s.setDir n dir).reboot n) a' := by
  have loaded : ((s.setDir n dir).dirs n).load = d := by
    simp only [setDir, Function.update_self]
    exact rep.load
  have process := h.refines.nodes n hn
  have follows : ∃ a', Relation.ReflTransGen g.spec.step a a' ∧
      Refines g ((s.setDir n dir).reboot n).cluster a' := by
    refine h.refines.act sound rfl (reaches.bind (fun a' moves sound' node => .stay sound'
      ⟨⟨?_, trivial, nofun⟩, ?_, ?_, ?_, ?_, ?_⟩))
    case refine_1 =>
      rw [loaded]
      exact node
    case refine_6 => exact recorded_cons ((crashed_ok process.node).extends (moves.extends sound))
    all_goals exact fun _ hx => .inl hx
  obtain ⟨a', steps, refines⟩ := follows
  refine ⟨a', steps, refines, fun m hm => ?_⟩
  have nodes : ((s.setDir n dir).reboot n).cluster.nodes =
      Function.update s.cluster.nodes n (Process.boot (s.cluster.nodes n).node.config d) := by
    rw [← loaded]
    rfl
  have dirs : ((s.setDir n dir).reboot n).dirs = Function.update s.dirs n dir := rfl
  rw [Cluster.stored_update nodes, dirs]
  by_cases same : m = n
  · subst same
    rw [Function.update_self, Function.update_self]
    exact rep
  · rw [Function.update_of_ne same, Function.update_of_ne same]
    exact h.files m hm

theorem Backed.perform {act : Action} (h : Backed g s a) (reachable : g.spec.Reachable a)
    (allowed : Allowed g s (.perform act)) :
    ∃ a', Relation.ReflTransGen g.spec.step a a' ∧ Backed g (s.exec g (.perform act)) a' := by
  have sound : Sound g a := ⟨reachable, h.refines.indexed⟩
  have follows : ∃ a', Relation.ReflTransGen g.spec.step a a' ∧ Refines g (s.cluster.exec g act) a' := by
    rcases Cluster.exec_allowed g s.cluster act with same | step
    · rw [same]
      exact ⟨a, .refl, h.refines⟩
    · exact h.refines.next reachable step
  obtain ⟨a', steps, refines⟩ := follows
  by_cases restarted : ∃ n, act = .restart n
  · obtain ⟨n, rfl⟩ := restarted
    simp only [exec]
    split
    · next hn =>
        have node := (h.refines.nodes n hn).node
        have same : s.setDir n (s.dirs n) = s := by
          rw [setDir, Function.update_eq_self]
        have again := h.reboot sound hn (h.files n hn) (.stay sound (restart_ok node))
        rw [same] at again
        exact again
    · exact ⟨a, .refl, h⟩
  · have stored := Cluster.exec_stored g s.cluster act
    have unfolded : s.exec g (.perform act) =
        { (match s.cluster.writes g act with
            | none => s
            | some (n, sec) =>
                s.setDir n ((sec.calls (s.cluster.nodes n).node).foldl .perform (s.dirs n))) with
          cluster := s.cluster.exec g act } := by
      cases act with
      | restart n => exact absurd ⟨n, rfl⟩ restarted
      | _ => rfl
    rw [unfolded]
    refine ⟨a', steps, refines, fun m hm => ?_⟩
    dsimp only
    rw [stored]
    cases found : s.cluster.writes g act with
    | none => exact h.files m hm
    | some target =>
        obtain ⟨n, sec⟩ := target
        have written := (h.files n (h.refines.writes sound found).1).performAll (allowed _ found)
        simp only [Cluster.storedAfter, setDir]
        by_cases same : m = n
        · subst same
          rw [Function.update_self, Function.update_self, sec.storage]
          exact written
        · rw [Function.update_of_ne same, Function.update_of_ne same]
          exact h.files m hm

theorem Backed.crashIn {act : Action} {calls written : ℕ} (h : Backed g s a)
    (reachable : g.spec.Reachable a) (allowed : Allowed g s (.crashIn act calls written)) :
    ∃ a', Relation.ReflTransGen g.spec.step a a' ∧ Backed g (s.exec g (.crashIn act calls written)) a' := by
  have sound : Sound g a := ⟨reachable, h.refines.indexed⟩
  cases found : s.cluster.writes g act with
  | none =>
      simp only [exec, found]
      exact ⟨a, .refl, h⟩
  | some target =>
      obtain ⟨n, sec⟩ := target
      obtain ⟨hn, whole⟩ := h.refines.writes sound found
      obtain ⟨j, rep⟩ := (h.files n hn).performCut (allowed _ found) calls written
      simp only [exec, found]
      exact h.reboot sound hn rep (cut_reaches sound (h.refines.nodes n hn).node whole j)

theorem simulates (g : Group) : (system g).Simulates g.spec (Backed g) where
  start := by
    rintro _ rfl
    exact ⟨_, rfl, Refines.initial g, fun _ _ => Represents.empty⟩
  next := by
    rintro s _ a reachable h ⟨act, allowed, rfl⟩
    cases act with
    | perform act => exact h.perform reachable allowed
    | crashIn act calls written => exact h.crashIn reachable allowed

/-- Wherever the processes die, each term has one leader, a later leader holds
what an earlier one committed, the nodes apply one sequence of entries, and
every node would read back what it believes it has stored. -/
theorem crash_safety (reachable : (system g).Reachable s) :
    (∀ n n' t log log', Event.becameLeader n t log ∈ s.cluster.history →
      Event.becameLeader n' t log' ∈ s.cluster.history → n = n') ∧
    (∀ n t commitIndex log m u log', Event.advancedCommit n t commitIndex log ∈ s.cluster.history →
      Event.becameLeader m u log' ∈ s.cluster.history → t < u → log.take commitIndex <+: log') ∧
    (∀ applied applied', Incarnation g s.cluster applied → Incarnation g s.cluster applied' →
      applied <+: applied' ∨ applied' <+: applied) ∧
    ∀ n ∈ g.members, (s.dirs n).load = (s.cluster.nodes n).node.storage := by
  obtain ⟨a, reached, backed⟩ := (simulates g).reachable reachable
  have sound : Sound g a := ⟨reached, backed.refines.indexed⟩
  refine ⟨?_, ?_, ?_, ?_⟩
  · intro n n' t log log' won won'
    have first : a.leader t = some n := (backed.refines.history _ won).1
    have second : a.leader t = some n' := (backed.refines.history _ won').1
    exact Option.some.inj (first.symm.trans second)
  · intro n t commitIndex log m u log' advanced won later
    obtain ⟨-, -, chosen⟩ := backed.refines.history _ advanced
    obtain ⟨led, rfl⟩ := backed.refines.history _ won
    exact sound.invariant.leader_complete chosen u m later led
  · intro applied applied' h h'
    obtain ⟨-, t, committed⟩ := h.committed backed.refines
    obtain ⟨-, t', committed'⟩ := h'.committed backed.refines
    exact committed.comparable committed' sound.invariant
  · intro n hn
    exact (backed.files n hn).load

/-- The voter dies after it saved the term and before it saved its vote, the
leader dies within the bytes of its second entry, and the voter succeeds it. -/
def dying : List DiskAction :=
  ((campaign alpha 0 gamma).take 6).map .perform ++ .crashIn (.deliverVote 0 true) 1 0 ::
    ((campaign alpha 0 gamma).drop 6 ++ .propose alpha [120] :: ship alpha beta 1 ++ ship alpha beta 1).map
      .perform ++
    .crashIn (.propose alpha [121]) 0 5 :: (campaign beta 1 alpha).map .perform

theorem crash_safety_dying :
    (system trio).Reachable (run trio dying) ∧
    tornTail ((run trio dying).dirs alpha).raftLog ≠ [] ∧
    ((run trio dying).dirs alpha).load = ((run trio dying).cluster.nodes alpha).node.storage ∧
    Event.becameLeader beta 2 [⟨1, 1, [120]⟩] ∈ (run trio dying).cluster.history ∧
    ∀ n log, Event.becameLeader n 2 log ∈ (run trio dying).cluster.history → n = beta := by
  have reachable : (system trio).Reachable (run trio dying) :=
    (System.Reachable.start rfl).along (by decide +kernel)
  have won : Event.becameLeader beta 2 [⟨1, 1, [120]⟩] ∈ (run trio dying).cluster.history := by
    decide +kernel
  obtain ⟨single, -, -, loaded⟩ := crash_safety reachable
  exact ⟨reachable, by decide +kernel, loaded alpha (by decide), won,
    fun n log other => single n beta 2 log _ other won⟩

end DiskCluster
end Dos.Consensus
