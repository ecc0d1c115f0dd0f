import DistributedObjectStorage.Storage.StoreReachable

/-!
# Acknowledged mutations survive a crash

They do unless a delete of the key found nothing before: its BEGIN record stays
open, and recovery acts on it once there is an object to delete.
-/
namespace Dos.Storage
open Transition

/-- An acknowledged outcome is in place as long as the store is open. -/
theorem Machine.Ok.shows {K D : Set Bytes} {s : Machine} (ok : s.Ok K D) {nextSeq : ℕ}
    {jobs : List Job} (mode : s.mode = .running nextSeq jobs) {key : Bytes} {outcome : Outcome}
    (acked : s.seen.acked key = some outcome) : Shows (s.disk.slot key) outcome := by
  have run := ok.mode
  rw [mode] at run
  have inside : key ∈ K := by
    by_contra out
    rw [(ok.contained.outside key out).2.2] at acked
    cases acked
  have free : key ∉ jobs.map Job.key := by
    intro owned
    obtain ⟨job, member, rfl⟩ := List.mem_map.mp owned
    rw [(run.busy job member).unacked] at acked
    cases acked
  exact (run.calm key inside free).acked outcome acked

/-- In a run that writes no key with an open delete record or at the largest
version, and whose keys have different digests, an acknowledged mutation is
visible until the next one. -/
theorem acknowledged_durable (shard : Bytes → ℕ) {K : Set Bytes} (digests : Set.InjOn keyDigest K)
    {s : Machine} (reachable : (Machine.system shard (Admissible K Set.univ)).Reachable s)
    {nextSeq : ℕ} {jobs : List Job} (mode : s.mode = .running nextSeq jobs) (key : Bytes) :
    (∀ row data, s.seen.acked key = some (.stored row data) → s.disk.get key = .ok data) ∧
      (s.seen.acked key = some .removed →
        ∃ message, s.disk.get key = .error (.notFound message)) := by
  have ok := reachable_ok digests reachable
  constructor
  · intro row data acked
    obtain ⟨file, sum, found, live⟩ := ok.shows mode acked
    exact Disk.get_of_view (Disk.view_live found live file sum)
  · intro acked
    obtain ⟨row, found, gone⟩ := ok.shows mode acked
    exact ⟨_, Disk.get_of_view (Disk.view_dead found gone)⟩

/-! Key `k` and payload `1`, stored by the first write. -/
section Sample

def sampleKey : Bytes := text "k"

def sampleRow : ObjectMetadata := ⟨sampleKey, 1, sha256Hex [1], 1, 0, false, []⟩

def freshStore : Machine := (Machine.opening .empty 0).foldl (Machine.exec fun _ => 0) .initial

/-- The first write, a crash after it returned, and a restart. -/
def writeAndRestart : List StoreAction :=
  [.start (.put sampleKey [1]) 0, .step 0, .step 0, .step 0, .step 0, .step 0,
    .crash false, .reopen, .recover 0, .recover 0, .clean, .truncate]

def restarted : Machine := writeAndRestart.foldl (Machine.exec fun _ => 0) freshStore

theorem freshStore_reachable {K D : Set Bytes} :
    (Machine.system (fun _ => 0) (Admissible K D)).Reachable freshStore := by
  refine (System.Reachable.start rfl).along (.of_forall ?_ _)
  simp [Machine.opening, Disk.empty, Wal.replay, Wal.empty, Admissible]

theorem restarted_reachable :
    (Machine.system (fun _ => 0) (Admissible {sampleKey} Set.univ)).Reachable restarted := by
  have launch : Admissible {sampleKey} Set.univ freshStore (.start (.put sampleKey [1]) 0) := by
    refine ⟨⟨rfl, trivial⟩, ?_⟩
    rintro req row ⟨⟩ _
    refine ⟨List.forall_mem_nil _, ?_⟩
    change (freshStore.disk.slot sampleKey).version + 1 < 2 ^ 64
    decide +kernel
  refine (System.Reachable.next freshStore_reachable ⟨_, launch, rfl⟩).along (.of_forall ?_ _)
  simp [Admissible]

end Sample

theorem acknowledged_durable_restarted : restarted.disk.get sampleKey = .ok [1] :=
  have mode : restarted.mode = .running 1 [] := by decide +kernel
  have acked : restarted.seen.acked sampleKey = some (.stored sampleRow [1]) := by decide +kernel
  (acknowledged_durable (fun _ => 0) (Set.injOn_singleton _ _) restarted_reachable mode sampleKey).1
    sampleRow [1] acked

/-- Deleting an absent key, storing it and restarting loses the stored object. -/
def failedDelete : List StoreAction :=
  Machine.opening .empty 0 ++ Machine.deleting sampleKey 0 ++
    Machine.writing (.put sampleKey [1]) 0 ++
    [.crash false, .reopen, .recover 0, .recover 0, .recover 0, .clean, .truncate]

theorem failedDelete_loses_put :
    ∃ s, (Machine.system (fun _ => 0) fun _ act => act.Fits Set.univ Set.univ).Reachable s ∧
      s.mode = .running 1 [] ∧ s.seen.acked sampleKey = some (.stored sampleRow [1]) ∧
      s.disk.get sampleKey = .error (.notFound (text "tombstoned: k")) := by
  refine ⟨Machine.run (fun _ => 0) failedDelete, (System.Reachable.start rfl).along (.of_forall ?_ _),
    by decide +kernel, by decide +kernel, by decide +kernel⟩
  simp [failedDelete, Machine.opening, Machine.deleting, Machine.writing, Disk.empty, Wal.replay,
    Wal.empty, StoreAction.Fits, Mutation.Fits]

end Dos.Storage
