import Mathlib.Data.List.GetD
import Mathlib.Data.List.TakeDrop
import DistributedObjectStorage.Consensus.RaftNode
import DistributedObjectStorage.Library.ReplicatedLogSafety

/-!
# What the critical sections do to the log and the indices

Specifications of the append loop, the apply loop and the commit search, stated
so that no later proof unfolds a loop.
-/
namespace Dos.Consensus
open ReplicatedLog (take_le)

/-- Position `k` of the log holds index `k + 1`. -/
def Indexed (log : List LogEntry) : Prop := ∀ k e, log[k]? = some e → e.index = k + 1

theorem Indexed.nil : Indexed [] := by
  intro k e h
  simp at h

theorem Indexed.shorten {L M : List LogEntry} (h : Indexed M) (hL : L <+: M) : Indexed L := by
  intro k e hk
  obtain ⟨inside, rfl⟩ := List.getElem?_eq_some_iff.mp hk
  exact h k _ (List.prefix_iff_getElem?.mp hL k inside)

theorem Indexed.grow {L : List LogEntry} (h : Indexed L) {e : LogEntry}
    (he : e.index = L.length + 1) : Indexed (L ++ [e]) := by
  intro k x hk
  rcases Nat.lt_trichotomy k L.length with below | rfl | above
  · rw [List.getElem?_append_left below] at hk
    exact h k x hk
  · simp only [List.getElem?_concat_length, Option.some.injEq] at hk
    exact hk ▸ he
  · rw [List.getElem?_eq_none (by simp; omega)] at hk
    cases hk

/-- An entry of the log sits at the position of its index. -/
theorem Indexed.position {L : List LogEntry} (h : Indexed L) {e : LogEntry} (he : e ∈ L) :
    1 ≤ e.index ∧ L[e.index - 1]? = some e := by
  obtain ⟨k, found⟩ := List.mem_iff_getElem?.mp he
  rw [h k e found]
  exact ⟨by omega, found⟩

theorem lastLogIndex_eq {L : List LogEntry} (h : Indexed L) : lastLogIndex L = L.length := by
  unfold lastLogIndex
  rcases List.eq_nil_or_concat' L with rfl | ⟨P, e, rfl⟩
  · rfl
  · rw [List.getLast?_append_of_ne_nil _ (by simp)]
    simpa using h P.length e (by simp)

theorem lastLogTerm_eq (L : List LogEntry) :
    lastLogTerm L = ReplicatedLog.lastTerm LogEntry.term L := by
  unfold lastLogTerm ReplicatedLog.lastTerm
  cases L.getLast? <;> rfl

theorem termAt_succ {L : List LogEntry} {k : ℕ} {e : LogEntry} (h : L[k]? = some e) :
    termAt L (k + 1) = e.term := by
  obtain ⟨hk, rfl⟩ := List.getElem?_eq_some_iff.mp h
  rw [termAt, if_neg (by omega), Nat.add_sub_cancel, List.getD_eq_getElem _ _ hk]

/-! ## The append loop -/

/-- The log agrees with the leader's at every position where the terms do. -/
def Matching (log F : List LogEntry) : Prop :=
  ∀ (j : ℕ) (e f : LogEntry), log[j]? = some e → F[j]? = some f → e.term = f.term →
    log.take (j + 1) = F.take (j + 1)

/-- The accumulator after the entries below position `j`: still the old log, or
cut to the leader's, in which case the two logs shared nothing from `j` on. -/
inductive Spliced (log F : List LogEntry) (j : ℕ) : List LogEntry × Bool → Prop
  | kept : F.take j <+: log → Spliced log F j (log, false)
  | cut : (∀ P, P <+: log → P <+: F → P.length ≤ j) → Spliced log F j (F.take j, true)

theorem appendOne_spliced {log F : List LogEntry} {acc : List LogEntry × Bool} {j : ℕ}
    {f : LogEntry} (indexed : Indexed log) (indexedF : Indexed F) (matching : Matching log F)
    (h : Spliced log F j acc) (hf : F[j]? = some f) :
    Spliced log F (j + 1) (RaftNode.appendOne acc f) := by
  obtain ⟨hj, rfl⟩ := List.getElem?_eq_some_iff.mp hf
  have grown : F.take (j + 1) = F.take j ++ [F[j]] := by simp
  have at_index : F[j].index = j + 1 := indexedF j _ hf
  cases h with
  | kept kept =>
      have start : log.take j = F.take j := by
        have := List.prefix_iff_eq_take.mp kept
        simpa [List.length_take, Nat.min_eq_left hj.le] using this.symm
      have length : j ≤ log.length := by
        have := kept.length_le
        simpa [List.length_take, Nat.min_eq_left hj.le] using this
      unfold RaftNode.appendOne
      simp only [lastLogIndex_eq indexed, at_index]
      rcases Nat.lt_or_ge j log.length with inside | beyond
      · have here : log[j]? = some log[j] := List.getElem?_eq_getElem inside
        rw [if_pos (by omega), termAt_succ here]
        by_cases same : log[j].term = F[j].term
        · rw [if_pos same]
          refine .kept ?_
          rw [← matching j _ _ here hf same]
          exact take_le _ _
        · -- a shared prefix cannot reach past the first differing term
          rw [if_neg same, Nat.add_sub_cancel, start, ← grown]
          refine .cut (fun P hP hP' => ?_)
          by_contra far
          have inP : j < P.length := by omega
          have left := hP.getElem inP
          have right := hP'.getElem inP
          exact same (by rw [← left, ← right])
      · have exact_ : log.length = j := by omega
        have whole : log = F.take j := by rw [← start, ← exact_, List.take_length]
        rw [if_neg (by omega)]
        have rewritten : log ++ [F[j]] = F.take (j + 1) := by rw [grown, ← whole]
        rw [rewritten]
        exact .cut (fun P hP _ => hP.length_le.trans (by omega))
  | cut short =>
      have indexed' : Indexed (F.take j) := indexedF.shorten (take_le _ _)
      unfold RaftNode.appendOne
      simp only [lastLogIndex_eq indexed', at_index, List.length_take, Nat.min_eq_left hj.le]
      rw [if_neg (by omega), ← grown]
      exact .cut (fun P hP hP' => (short P hP hP').trans (Nat.le_succ j))

theorem appendLoop_spliced {log F : List LogEntry} (indexed : Indexed log)
    (indexedF : Indexed F) (matching : Matching log F) (k : ℕ) :
    ∀ j acc, Spliced log F j acc → j + k ≤ F.length →
      Spliced log F (j + k) (((F.drop j).take k).foldl RaftNode.appendOne acc) := by
  induction k with
  | zero =>
      intro j acc h _
      simpa using h
  | succ k ih =>
      intro j acc h bound
      have hj : j < F.length := by omega
      have hf : F[j]? = some F[j] := List.getElem?_eq_getElem hj
      have next := appendOne_spliced indexed indexedF matching h hf
      have rest := ih (j + 1) _ next (by omega)
      rw [List.drop_eq_getElem_cons hj, List.take_succ_cons, List.foldl_cons,
        show j + (k + 1) = j + 1 + k by omega]
      exact rest

/-- Everything later proofs need from the append loop: the payload is now in
the log, the log is old or a piece of the leader's, shared prefixes stay. -/
structure Splice (log F : List LogEntry) (m : ℕ) (acc : List LogEntry × Bool) : Prop where
  holds : F.take m <+: acc.1
  origin : acc.1 = log ∨ acc.1 = F.take m
  shared : ∀ P, P <+: log → P <+: F → P <+: acc.1
  unchanged : acc.2 = false → acc.1 = log

theorem appendLoop_splice {log F : List LogEntry} {prev k : ℕ} (indexed : Indexed log)
    (indexedF : Indexed F) (matching : Matching log F) (start : F.take prev <+: log)
    (bound : prev + k ≤ F.length) :
    Splice log F (prev + k) (RaftNode.appendLoop log ((F.drop prev).take k)) := by
  have spliced := appendLoop_spliced indexed indexedF matching k prev _ (.kept start) bound
  unfold RaftNode.appendLoop
  generalize ((F.drop prev).take k).foldl RaftNode.appendOne (log, false) = acc at spliced
  cases spliced with
  | kept kept => exact ⟨kept, .inl rfl, fun _ hP _ => hP, fun _ => rfl⟩
  | cut short =>
      refine ⟨List.prefix_refl _, .inr rfl, fun P hP hP' => ?_, fun h => by cases h⟩
      exact List.prefix_take_iff.mpr ⟨hP', short P hP hP'⟩

/-- The consistency check at `prev` extends to the whole prefix below it. -/
theorem check_start {L sent F : List LogEntry} {prev : ℕ} (matching : Matching L F)
    (held : sent <+: F) (inside : prev ≤ sent.length) (reached : prev ≤ L.length)
    (check : ¬ (0 < prev ∧ termAt L prev ≠ termAt sent prev)) : F.take prev <+: L := by
  rcases Nat.eq_zero_or_pos prev with rfl | positive
  · simp
  obtain ⟨k, rfl⟩ : ∃ k, prev = k + 1 := ⟨prev - 1, by omega⟩
  have here : L[k]? = some L[k] := List.getElem?_eq_getElem (by omega)
  have there : sent[k]? = some sent[k] := List.getElem?_eq_getElem (by omega)
  have bound := held.length_le
  have far : F[k]? = some F[k] := List.getElem?_eq_getElem (by omega)
  have copied : sent[k] = F[k] := held.getElem (by omega)
  have terms : L[k].term = F[k].term := by
    by_contra differ
    refine check ⟨positive, ?_⟩
    rwa [termAt_succ here, termAt_succ there, copied]
  rw [← matching k _ _ here far terms]
  exact take_le _ _

/-! ## The apply loop and the commit search -/

theorem applyLoop_eq (fuel : ℕ) : ∀ n : RaftNode, n.lastApplied + fuel = n.commitIndex →
    n.commitIndex ≤ n.log.length →
    RaftNode.applyLoop fuel n =
      { n with
        lastApplied := n.commitIndex
        applied := n.applied ++ (n.log.take n.commitIndex).drop n.lastApplied } := by
  induction fuel with
  | zero =>
      intro n h _
      have done : (n.log.take n.commitIndex).drop n.lastApplied = [] := by
        rw [List.drop_eq_nil_iff, List.length_take]
        omega
      rw [RaftNode.applyLoop, done, List.append_nil]
      cases n
      simp only [Nat.add_zero] at h
      rw [h]
  | succ fuel ih =>
      intro n h bound
      have inside : n.lastApplied < (n.log.take n.commitIndex).length := by
        rw [List.length_take]
        omega
      have here : n.log.getD n.lastApplied default =
          (n.log.take n.commitIndex)[n.lastApplied] := by
        rw [List.getElem_take, List.getD_eq_getElem _ _ (by omega)]
      rw [RaftNode.applyLoop, if_pos (by omega)]
      have next := ih
        { n with
          lastApplied := n.lastApplied + 1
          applied := n.applied ++ [n.log.getD n.lastApplied default] }
        (by simp only; omega) bound
      rw [next]
      simp only [List.append_assoc]
      rw [List.drop_eq_getElem_cons inside, here, List.singleton_append]

theorem applyCommittedLocked_eq {n : RaftNode} (h : n.lastApplied ≤ n.commitIndex)
    (bound : n.commitIndex ≤ n.log.length) :
    n.applyCommittedLocked =
      { n with
        lastApplied := n.commitIndex
        applied := n.applied ++ (n.log.take n.commitIndex).drop n.lastApplied } :=
  applyLoop_eq _ n (by omega) bound

/-- The search either finds nothing or commits an index of the current term
that a majority is known to hold. -/
theorem advanceLoop_cases (last : ℕ) (n : RaftNode) :
    RaftNode.advanceLoop last n = n ∨
    ∃ index, n.commitIndex < index ∧ index ≤ last ∧ n.termAtLocked index = n.currentTerm ∧
      n.majorityLocked ≤ n.replicaCount index ∧
      RaftNode.advanceLoop last n =
        RaftNode.applyCommittedLocked { n with commitIndex := index } := by
  induction last with
  | zero => exact .inl rfl
  | succ last ih =>
      have lift : RaftNode.advanceLoop (last + 1) n = RaftNode.advanceLoop last n →
          RaftNode.advanceLoop (last + 1) n = n ∨
          ∃ index, n.commitIndex < index ∧ index ≤ last + 1 ∧
            n.termAtLocked index = n.currentTerm ∧ n.majorityLocked ≤ n.replicaCount index ∧
            RaftNode.advanceLoop (last + 1) n =
              RaftNode.applyCommittedLocked { n with commitIndex := index } := by
        intro same
        rw [same]
        rcases ih with h | ⟨index, low, high, rest⟩
        · exact .inl h
        · exact .inr ⟨index, low, by omega, rest⟩
      by_cases below : n.commitIndex < last + 1
      · by_cases other : n.termAtLocked (last + 1) = n.currentTerm
        · by_cases enough : n.majorityLocked ≤ n.replicaCount (last + 1)
          · refine .inr ⟨last + 1, below, Nat.le_refl _, other, enough, ?_⟩
            simp [RaftNode.advanceLoop, below, other, enough]
          · exact lift (by simp [RaftNode.advanceLoop, below, other, enough])
        · exact lift (by simp [RaftNode.advanceLoop, below, other])
      · exact .inl (by simp [RaftNode.advanceLoop, below])

/-- Past the append loop only the log, the storage and what is committed are new. -/
theorem acceptEntries_cases (r : RaftNode) (req : AppendEntriesRequest) :
    ∃ storage, r.acceptEntries req =
      let stored := { r with log := (RaftNode.appendLoop r.log req.entries).1, storage := storage }
      if r.commitIndex < req.leaderCommit then
        { stored with commitIndex := min req.leaderCommit (lastLogIndex stored.log) }.applyCommittedLocked
      else stored := by
  unfold RaftNode.acceptEntries
  generalize RaftNode.appendLoop r.log req.entries = outcome
  obtain ⟨log, changed⟩ := outcome
  refine ⟨if changed then r.storage.rewriteLog log else r.storage, ?_⟩
  cases changed with
  | false => rfl
  | true => rfl

/-- Only the leader of the term makes a request, from what it has now. -/
theorem replicateRequest_some {r : RaftNode} {peer : Bytes} {term : ℕ} {req : AppendEntriesRequest}
    (sent : r.replicateRequest peer term = some req) :
    r.role = .leader ∧ r.currentTerm = term ∧
      ∃ prev, prev = (r.nextIndex peer).getD (r.lastLogIndexLocked + 1) - 1 ∧
        req = ⟨term, r.config.id, prev, r.termAtLocked prev, (r.log.take r.lastLogIndexLocked).drop prev,
          r.commitIndex⟩ := by
  unfold RaftNode.replicateRequest at sent
  split at sent
  · cases sent
  · next leads =>
      obtain ⟨leader, current⟩ := not_or.mp leads
      cases sent
      exact ⟨not_not.mp leader, not_not.mp current, _, rfl, rfl⟩

end Dos.Consensus
