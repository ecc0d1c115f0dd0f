import Mathlib.Data.List.Nodup
import DistributedObjectStorage.Network.Interleaving

/-!
# Repair beside client operations

A repair writes back locations that it listed at the start. It undoes nothing
while clients leave the keys alone that it may still write back.
-/
namespace Dos.Network
open ControlPlane Storage Transition

/-- The locations that a repair has listed and not dealt with. -/
def RepairStage.pending : RepairStage → List ObjectLocation
  | .list => []
  | .place todo => todo
  | .fetch loc _ todo | .copy loc _ todo | .publish loc todo => loc :: todo

/-- The locations that a repair may still register: the one it works on, and of the
others those that it wants for the target. -/
def RepairStage.owed (wanted : ObjectLocation → Bool) : RepairStage → List ObjectLocation
  | .list => []
  | .place todo => todo.filter wanted
  | .fetch loc _ todo | .copy loc _ todo | .publish loc todo => loc :: todo.filter wanted

/-- The target belongs to the placement and is not listed. -/
def Repair.wants (r : Repair) (cluster : ClusterMap) (loc : ObjectLocation) : Bool :=
  r.target ∈ cluster.placementFor loc.key r.repairer.replicationFactor ∧ r.target ∉ loc.replicas

/-- The key that the next step of the call registers or removes. -/
def Call.changes : Call → Option Bytes
  | .publish key _ _ _ | .unpublish key => some key
  | _ => none

namespace Traffic

def snapshot (s : Traffic) : List ObjectLocation :=
  s.repair.elim [] fun r => r.stage.owed (r.wants s.metadata.cluster)

/-- Clients register and remove no key that a repair may still register. -/
def Undisturbed (s : Traffic) : TrafficAction → Prop
  | .step t _ _ _ => ∀ key ∈ s.calls[t]?.bind Call.changes, key ∉ s.snapshot.map (·.key)
  | _ => True

/-- The version that the control plane has for a key, tombstones included. -/
def registeredVersion (s : Traffic) (key : Bytes) : ℕ := s.metadata.objects[key]?.elim 0 (·.version)

def Visible (s : Traffic) (key : Bytes) : Prop := ∃ loc, s.metadata.lookupObject key = .ok loc

theorem visible_iff {s : Traffic} {key : Bytes} :
    s.Visible key ↔ (s.metadata.lookupObject key).isOk = true := by
  unfold Visible
  cases s.metadata.lookupObject key <;> simp [Except.isOk, Except.toBool]

instance (s : Traffic) (key : Bytes) : Decidable (s.Visible key) := decidable_of_iff _ visible_iff.symm

/-! ## The invariant -/

/-- Every location is registered under its key. -/
def Keyed (m : MetadataRepository) : Prop := ∀ key : Bytes, ∀ loc ∈ m.objects[key]?, loc.key = key

/-- What a repair may register is still registered as it was listed. -/
structure Current (s : Traffic) : Prop where
  keyed : Keyed s.metadata
  listed : ∀ loc ∈ s.snapshot, s.metadata.objects[loc.key]? = some loc ∧ loc.deleted = false
  distinct : (s.snapshot.map (·.key)).Nodup

section Steps
variable {m : MetadataRepository} {s s' : Traffic}

theorem Keyed.register (keyed : Keyed m) (loc : ObjectLocation) : Keyed (m.registerObject loc).1 := by
  intro key found member
  rw [MetadataRepository.registerObject_objects] at member
  split at member
  · next same =>
      cases member
      exact same
  · exact keyed key found member

theorem Keyed.remove (keyed : Keyed m) (gone : Bytes) : Keyed (m.removeObject gone).1 := by
  intro key found member
  rw [MetadataRepository.removeObject_objects] at member
  split at member
  · next same =>
      subst same
      obtain ⟨old, here, rfl⟩ := Option.map_eq_some_iff.mp member
      split <;> exact keyed gone old here
  · exact keyed key found member

/-- A step that leaves the listed keys alone. -/
theorem Current.frame (current : s.Current) (keyed : Keyed s'.metadata) (same : s'.snapshot = s.snapshot)
    (objects : ∀ loc ∈ s.snapshot, s'.metadata.objects[loc.key]? = s.metadata.objects[loc.key]?) :
    s'.Current where
  keyed := keyed
  listed := by
    intro loc member
    rw [same] at member
    rw [objects loc member]
    exact current.listed loc member
  distinct := by
    rw [same]
    exact current.distinct

/-- A step that leaves the control plane alone and the repair with a part of a list of
registered locations. -/
theorem Current.narrow {locs : List ObjectLocation} (metadata : s'.metadata = s.metadata) (keyed : Keyed s.metadata)
    (listed : ∀ loc ∈ locs, s.metadata.objects[loc.key]? = some loc ∧ loc.deleted = false)
    (distinct : (locs.map (·.key)).Nodup) (part : s'.snapshot.Sublist locs) : s'.Current := by
  refine ⟨by rw [metadata]; exact keyed, fun loc member => ?_, distinct.sublist (part.map _)⟩
  rw [metadata]
  exact listed loc (part.subset member)

theorem callNode_frame {α : Type} (s : Traffic) (clients : List Bytes) (id : Bytes)
    (rpc : StorageNode → StorageNode × StatusOr α) :
    (s.callNode clients id rpc).1.metadata = s.metadata ∧ (s.callNode clients id rpc).1.repair = s.repair := by
  unfold callNode
  split
  · split <;> exact ⟨rfl, rfl⟩
  · exact ⟨rfl, rfl⟩

theorem callNode_calls {α : Type} (s : Traffic) (clients : List Bytes) (id : Bytes)
    (rpc : StorageNode → StorageNode × StatusOr α) :
    (s.callNode clients id rpc).1.calls = s.calls ∧ (s.callNode clients id rpc).1.replies = s.replies := by
  unfold callNode
  split
  · split <;> exact ⟨rfl, rfl⟩
  · exact ⟨rfl, rfl⟩

/-- A call changes the control plane at the key it registers or removes. -/
theorem stepCall_frame (s : Traffic) (i : ℕ) (delivery : Delivery) (now : Int) (call : Call) :
    (s.stepCall i delivery now call).1.repair = s.repair ∧
      (s.stepCall i delivery now call).1.metadata.cluster = s.metadata.cluster ∧
      (Keyed s.metadata → Keyed (s.stepCall i delivery now call).1.metadata) ∧
      ∀ key ∉ call.changes,
        (s.stepCall i delivery now call).1.metadata.objects[key]? = s.metadata.objects[key]? := by
  cases call with
  | lookup caller key data replicas => exact ⟨rfl, rfl, id, fun _ _ => rfl⟩
  | write caller key data version futures =>
      simp only [stepCall]
      split
      · split <;> exact ⟨rfl, rfl, id, fun _ _ => rfl⟩
      · split
        · next target _ =>
            obtain ⟨metadata, repair⟩ := s.callNode_frame caller.clients target
              fun n => n.put delivery key data version now
            simp only [metadata, repair]
            exact ⟨trivial, trivial, id, fun _ _ => trivial⟩
        · exact ⟨rfl, rfl, id, fun _ _ => rfl⟩
  | publish key data version acked =>
      refine ⟨rfl, rfl, fun keyed => keyed.register _, fun other ne => ?_⟩
      refine (MetadataRepository.registerObject_objects _ other).trans (if_neg ?_)
      rintro rfl
      exact ne rfl
  | remove caller key todo acks =>
      cases todo with
      | nil =>
          simp only [stepCall]
          split <;> exact ⟨rfl, rfl, id, fun _ _ => rfl⟩
      | cons target rest =>
          obtain ⟨metadata, repair⟩ := s.callNode_frame caller.clients target fun n => n.delete delivery key
          simp only [stepCall, metadata, repair]
          exact ⟨trivial, trivial, id, fun _ _ => trivial⟩
  | unpublish key =>
      refine ⟨rfl, s.metadata.removeObject_cluster key, fun keyed => keyed.remove _, fun other ne => ?_⟩
      refine (MetadataRepository.removeObject_objects key other).trans (if_neg ?_)
      rintro rfl
      exact ne rfl

/-- What a repair lists is registered, each key once. -/
theorem Keyed.listObjects (keyed : Keyed m) {objects : List ObjectLocation}
    (listed : m.listObjects [] = .ok objects) :
    (∀ loc ∈ objects, m.objects[loc.key]? = some loc ∧ loc.deleted = false) ∧
      (objects.map (·.key)).Nodup := by
  cases listed
  have entry (e : Bytes × ObjectLocation) (member : e ∈ m.objects.toList) :
      m.objects[e.1]? = some e.2 ∧ e.2.key = e.1 := by
    have found := Std.ExtTreeMap.mem_toList_iff_getElem?_eq_some.mp member
    exact ⟨found, keyed e.1 e.2 found⟩
  constructor
  · intro loc member
    obtain ⟨e, inside, rfl⟩ := List.mem_map.mp member
    obtain ⟨inside, live⟩ := List.mem_filter.mp inside
    obtain ⟨found, same⟩ := entry e inside
    refine ⟨by rw [same, found], ?_⟩
    simp only [Bool.and_eq_true, Bool.not_eq_true'] at live
    exact live.1
  · rw [List.map_map]
    have keys : ((m.objects.toList.filter fun e => !e.2.deleted && ([] : Bytes).isPrefixOf e.1).map
        ((·.key) ∘ (·.2))) =
        (m.objects.toList.filter fun e => !e.2.deleted && ([] : Bytes).isPrefixOf e.1).map Prod.fst :=
      List.map_congr_left fun e member => (entry e (List.mem_filter.mp member).1).2
    rw [keys]
    have all : (m.objects.toList.map Prod.fst).Nodup := List.pairwise_map.mpr m.objects.distinct_toList
    exact all.sublist (List.filter_sublist.map Prod.fst)

theorem fetchFrom_checksum {repairer : Repairer} {loc : ObjectLocation} {source data : Bytes}
    (fetched : s.fetchFrom repairer loc source = some data) : sha256Hex data = loc.checksum := by
  unfold fetchFrom at fetched
  split at fetched
  · split at fetched
    · cases fetched
    · split at fetched
      · cases fetched
      · split at fetched
        · next sum =>
            cases fetched
            exact sum
        · cases fetched
  · cases fetched

/-- A step of `RepairNode`, by its outcome: the state and the repair after it. -/
inductive Move (s : Traffic) (delivery : Delivery) (now : Int) (r : Repair) : Traffic → Option Repair → Prop
  | listed {objects} : r.stage = .list → s.metadata.listObjects [] = .ok objects →
      Move s delivery now r s (some { r with stage := .place objects })
  | finished : r.stage = .place [] →
      Move s delivery now r (s.reply (.repair r.target (.ok r.report))) none
  | elsewhere {loc todo} : r.stage = .place (loc :: todo) →
      r.target ∉ s.metadata.placementFor loc.key r.repairer.replicationFactor →
      Move s delivery now r s (some { r with stage := .place todo })
  | current {loc todo} : r.stage = .place (loc :: todo) →
      r.target ∈ s.metadata.placementFor loc.key r.repairer.replicationFactor → r.target ∈ loc.replicas →
      Move s delivery now r s (some { r with
        stage := .place todo
        report := { r.report with alreadyCurrent := r.report.alreadyCurrent + 1 } })
  | wanted {loc todo} : r.stage = .place (loc :: todo) →
      r.target ∈ s.metadata.placementFor loc.key r.repairer.replicationFactor → r.target ∉ loc.replicas →
      Move s delivery now r s (some { r with stage := .fetch loc loc.replicas todo })
  | exhausted {loc todo} : r.stage = .fetch loc [] todo →
      Move s delivery now r s (some { r with
        stage := .place todo
        report := { r.report with failed := r.report.failed + 1 } })
  | nextSource {loc source rest todo} : r.stage = .fetch loc (source :: rest) todo →
      Move s delivery now r s (some { r with stage := .fetch loc rest todo })
  | fetched {loc source rest todo data} : r.stage = .fetch loc (source :: rest) todo →
      sha256Hex data = loc.checksum →
      Move s delivery now r s (some { r with stage := .copy loc data todo })
  | refused {loc data todo} : r.stage = .copy loc data todo →
      (s.callNode r.repairer.clients r.target fun n => n.put delivery loc.key data loc.version now).2 ≠ .ok →
      Move s delivery now r
        (s.callNode r.repairer.clients r.target fun n => n.put delivery loc.key data loc.version now).1
        (some { r with
          stage := .place todo
          report := { r.report with failed := r.report.failed + 1 } })
  | stored {loc data todo} : r.stage = .copy loc data todo →
      (s.callNode r.repairer.clients r.target fun n => n.put delivery loc.key data loc.version now).2 = .ok →
      Move s delivery now r
        (s.callNode r.repairer.clients r.target fun n => n.put delivery loc.key data loc.version now).1
        (some { r with stage := .publish loc todo })
  | published {loc todo} : r.stage = .publish loc todo →
      Move s delivery now r
        { s with
          metadata := (s.metadata.registerObject { loc with replicas := loc.replicas ++ [r.target] }).1 }
        (some { r with
          stage := .place todo
          report := { r.report with copied := r.report.copied + 1 } })

theorem stepRepair_move (s : Traffic) (delivery : Delivery) (now : Int) (r : Repair) :
    Move s delivery now r (s.stepRepair delivery now r).1 (s.stepRepair delivery now r).2 := by
  obtain ⟨repairer, target, stage, report⟩ := r
  cases stage with
  | list => exact .listed rfl rfl
  | place todo =>
      cases todo with
      | nil => exact .finished rfl
      | cons loc todo =>
          simp only [stepRepair]
          split
          · next elsewhere => exact .elsewhere rfl elsewhere
          · next placed =>
              split
              · next listed => exact .current rfl (not_not.mp placed) listed
              · next missing => exact .wanted rfl (not_not.mp placed) missing
  | fetch loc sources todo =>
      cases sources with
      | nil => exact .exhausted rfl
      | cons source rest =>
          simp only [stepRepair]
          split
          · exact .nextSource rfl
          · next data fetched => exact .fetched rfl (fetchFrom_checksum fetched)
  | copy loc data todo =>
      simp only [stepRepair]
      split
      · next ok => exact .stored rfl ok
      · next refused => exact .refused rfl refused
  | publish loc todo => exact .published rfl

/-- What a step of a repair does to the control plane and to its list. -/
theorem stepRepair_cases (s : Traffic) (delivery : Delivery) (now : Int) (r : Repair) :
    let out := s.stepRepair delivery now r
    let left := out.2.elim [] fun r' => r'.stage.owed (r'.wants s.metadata.cluster)
    (out.1.metadata = s.metadata ∧ (left.Sublist (r.stage.owed (r.wants s.metadata.cluster)) ∨
        ∃ objects, s.metadata.listObjects [] = .ok objects ∧ left.Sublist objects)) ∨
      ∃ loc todo, r.stage = .publish loc todo ∧ r.stage.owed (r.wants s.metadata.cluster) = loc :: left ∧
        out.1.metadata = (s.metadata.registerObject { loc with replicas := loc.replicas ++ [r.target] }).1 := by
  have move := s.stepRepair_move delivery now r
  generalize s.stepRepair delivery now r = out at move ⊢
  obtain ⟨after, next⟩ := out
  cases move with
  | listed _ objects => exact .inl ⟨rfl, .inr ⟨_, objects, List.filter_sublist⟩⟩
  | finished => exact .inl ⟨rfl, .inl (List.nil_sublist _)⟩
  | elsewhere stage | current stage =>
      rw [stage]
      exact .inl ⟨rfl, .inl ((List.sublist_cons_self _ _).filter _)⟩
  | wanted stage placed missing =>
      have wants : r.wants after.metadata.cluster _ = true := decide_eq_true ⟨placed, missing⟩
      rw [stage, RepairStage.owed, List.filter_cons_of_pos wants]
      exact .inl ⟨rfl, .inl (List.Sublist.refl _)⟩
  | exhausted stage =>
      rw [stage]
      exact .inl ⟨rfl, .inl (List.sublist_cons_self _ _)⟩
  | nextSource stage | fetched stage =>
      rw [stage]
      exact .inl ⟨rfl, .inl (List.Sublist.refl _)⟩
  | refused stage =>
      rw [stage]
      exact .inl ⟨(s.callNode_frame _ _ _).1, .inl (List.sublist_cons_self _ _)⟩
  | stored stage =>
      rw [stage]
      exact .inl ⟨(s.callNode_frame _ _ _).1, .inl (List.Sublist.refl _)⟩
  | published stage => exact .inr ⟨_, _, stage, by rw [stage]; rfl, rfl⟩

theorem Current.repairStep (current : s.Current) (delivery : Delivery) (now : Int) :
    (s.exec (.repairStep delivery now)).Current := by
  cases running : s.repair with
  | none => simpa only [exec, running] using current
  | some r =>
      have owed : s.snapshot = r.stage.owed (r.wants s.metadata.cluster) := by
        simp only [snapshot, running, Option.elim]
      have listed := current.listed
      have distinct := current.distinct
      rw [owed] at listed distinct
      have moved : s.exec (.repairStep delivery now) =
          { (s.stepRepair delivery now r).1 with repair := (s.stepRepair delivery now r).2 } := by
        simp only [exec, running]
      have left (cluster : (s.stepRepair delivery now r).1.metadata.cluster = s.metadata.cluster) :
          (s.exec (.repairStep delivery now)).snapshot =
            (s.stepRepair delivery now r).2.elim [] fun r' => r'.stage.owed (r'.wants s.metadata.cluster) := by
        simp only [moved, snapshot, cluster]
      have metadata : (s.exec (.repairStep delivery now)).metadata = (s.stepRepair delivery now r).1.metadata := by
        rw [moved]
      rcases s.stepRepair_cases delivery now r with ⟨same, part | ⟨objects, fresh, part⟩⟩ |
        ⟨loc, todo, stage, split, registered⟩
      · rw [← left (by rw [same])] at part
        exact .narrow (metadata.trans same) current.keyed listed distinct part
      · rw [← left (by rw [same])] at part
        obtain ⟨entries, keys⟩ := current.keyed.listObjects fresh
        exact .narrow (metadata.trans same) current.keyed entries keys part
      · rw [← left (by rw [registered]; rfl)] at split
        rw [split] at listed distinct
        obtain ⟨other, keys⟩ := List.nodup_cons.mp distinct
        rw [registered] at metadata
        refine ⟨by rw [metadata]; exact current.keyed.register _, fun later member => ?_, keys⟩
        have ne : loc.key ≠ later.key := fun same => other (List.mem_map.mpr ⟨later, member, same.symm⟩)
        rw [metadata, MetadataRepository.registerObject_objects, if_neg ne]
        exact listed later (List.mem_cons_of_mem _ member)

theorem Current.exec (current : s.Current) {act : TrafficAction} (undisturbed : s.Undisturbed act) :
    (s.exec act).Current := by
  cases act with
  | put caller key data =>
      simp only [Traffic.exec, startPut]
      split <;> exact current.frame current.keyed rfl fun _ _ => rfl
  | delete caller key => exact current.frame current.keyed rfl fun _ _ => rfl
  | step t i delivery now =>
      cases found : s.calls[t]? with
      | none => simpa only [Traffic.exec, found, Option.elim] using current
      | some call =>
          obtain ⟨repair, cluster, keyed, objects⟩ := s.stepCall_frame i delivery now call
          simp only [Traffic.exec, found, Option.elim, advance]
          refine current.frame (keyed current.keyed) (by simp only [snapshot, repair, cluster]) fun loc member => ?_
          refine objects loc.key fun changed => ?_
          refine undisturbed loc.key ?_ (List.mem_map.mpr ⟨loc, member, rfl⟩)
          rw [found]
          exact changed
  | repair repairer target =>
      simp only [Traffic.exec]
      split
      · exact current.frame current.keyed rfl fun _ _ => rfl
      · split
        · exact current
        · exact ⟨current.keyed, List.forall_mem_nil _, List.nodup_nil⟩
  | repairStep delivery now => exact current.repairStep delivery now
  | setFault id fault =>
      simp only [Traffic.exec]
      split
      · exact current
      · exact current.frame current.keyed rfl fun _ _ => rfl

/-- A step of a repair keeps every registered version and shows nothing that was
not visible. -/
theorem Current.repairStep_keeps (current : s.Current) (delivery : Delivery) (now : Int) (key : Bytes) :
    (s.exec (.repairStep delivery now)).registeredVersion key = s.registeredVersion key ∧
      ((s.exec (.repairStep delivery now)).Visible key → s.Visible key) := by
  cases running : s.repair with
  | none => simp [Traffic.exec, running]
  | some r =>
      have metadata : (s.exec (.repairStep delivery now)).metadata =
          (s.stepRepair delivery now r).1.metadata := by
        simp only [Traffic.exec, running]
      rcases s.stepRepair_cases delivery now r with ⟨same, _⟩ | ⟨loc, todo, stage, _, registered⟩
      · rw [same] at metadata
        simp only [registeredVersion, Visible, metadata]
        exact ⟨trivial, id⟩
      · rw [registered] at metadata
        have inside : loc ∈ s.snapshot := by
          simp [snapshot, running, stage, RepairStage.owed]
        obtain ⟨found, live⟩ := current.listed loc inside
        by_cases same : loc.key = key
        · subst same
          refine ⟨?_, fun _ => ⟨loc, MetadataRepository.lookupObject_ok.mpr ⟨found, live⟩⟩⟩
          simp [registeredVersion, metadata, MetadataRepository.registerObject_objects, found]
        · have unchanged : (s.exec (.repairStep delivery now)).metadata.objects[key]? =
              s.metadata.objects[key]? := by
            rw [metadata, MetadataRepository.registerObject_objects, if_neg same]
          refine ⟨by simp only [registeredVersion, unchanged], ?_⟩
          rintro ⟨shown, lookup⟩
          exact ⟨shown, (MetadataRepository.lookupObject_congr unchanged).symm.trans lookup⟩

end Steps

/-- In a run whose clients leave the keys alone that a repair may still register, a
step of the repair lowers no registered version and makes no key visible. -/
theorem repair_undoes_nothing (cluster : ClusterMap) (nodes : OrderedMap Bytes StorageNode) {s : Traffic}
    (reachable : (system ⟨cluster, ∅⟩ nodes Undisturbed).Reachable s) (delivery : Delivery) (now : Int)
    (key : Bytes) :
    s.registeredVersion key ≤ (s.exec (.repairStep delivery now)).registeredVersion key ∧
      (¬s.Visible key → ¬(s.exec (.repairStep delivery now)).Visible key) := by
  have current : s.Current := by
    apply reachable.invariant
    · rintro _ rfl
      refine ⟨?_, List.forall_mem_nil _, List.nodup_nil⟩
      intro key loc found
      simp [start] at found
    · rintro before _ _ current ⟨act, undisturbed, rfl⟩
      exact current.exec undisturbed
  obtain ⟨version, visible⟩ := current.repairStep_keeps delivery now key
  exact ⟨version.ge, fun hidden shown => hidden (visible shown)⟩

instance (s : Traffic) : (act : TrafficAction) → Decidable (s.Undisturbed act)
  | .step _ _ _ _ => inferInstanceAs (Decidable (∀ key ∈ _, key ∉ _))
  | .put _ _ _ | .delete _ _ | .repair _ _ | .repairStep _ _ | .setFault _ _ =>
      inferInstanceAs (Decidable True)

/-! Key `k` was stored while `b` was down, and `b` is repaired. -/
section Sample
def toEither : Caller := ⟨[text "a", text "b"], ⟨2, 1⟩⟩

def repairNext : TrafficAction := .repairStep .acknowledged 0

/-- The repair has read the bytes of version 1 and goes on to write them to `b`. -/
def fetched : List TrafficAction :=
  [.setFault (text "b") (some []), .put toEither objectKey [1], next 0 0, next 0 0, next 0 1, next 0 0,
    next 0 0, .setFault (text "b") none, .repair ⟨[text "a", text "b"], 2⟩ (text "b"), repairNext,
    repairNext, repairNext]

/-- It has written them. -/
def copied : List TrafficAction := fetched ++ [repairNext]

/-- Meanwhile a client has stored version 2. -/
def rewritten : List TrafficAction :=
  fetched ++ [.put toEither objectKey [2], next 0 0, next 0 0, next 0 1, next 0 0, next 0 0, repairNext]

/-- Meanwhile a client has deleted the key. -/
def deletedMeanwhile : List TrafficAction :=
  fetched ++ [.delete toEither objectKey, next 0 0, next 0 0, next 0 0, next 0 0, repairNext]

theorem after_reachable (acts : List TrafficAction) :
    (system ⟨pair.1.cluster, ∅⟩ pair.2 fun _ _ => True).Reachable (after acts) :=
  (System.Reachable.start rfl).along (.of_forall (fun _ _ _ => trivial) _)

end Sample

theorem repair_undoes_nothing_copied :
    (after copied).registeredVersion objectKey = 1 ∧
      1 ≤ ((after copied).exec repairNext).registeredVersion objectKey := by
  obtain ⟨along, version⟩ : Along exec Undisturbed (start pair.1 pair.2) copied ∧
      (after copied).registeredVersion objectKey = 1 := by decide +kernel
  have begun : (system ⟨pair.1.cluster, ∅⟩ pair.2 Undisturbed).Reachable (start pair.1 pair.2) := .start rfl
  have kept := repair_undoes_nothing pair.1.cluster pair.2 (begun.along along) .acknowledged 0 objectKey
  exact ⟨version, version ▸ kept.1⟩

/-- The repair puts version 1 back over version 2, and over a removal. -/
theorem repair_undoes_clients :
    ((system ⟨pair.1.cluster, ∅⟩ pair.2 fun _ _ => True).Reachable (after rewritten) ∧
      (after rewritten).registeredVersion objectKey = 2 ∧
      ((after rewritten).exec repairNext).registeredVersion objectKey = 1) ∧
    (system ⟨pair.1.cluster, ∅⟩ pair.2 fun _ _ => True).Reachable (after deletedMeanwhile) ∧
      Reply.delete objectKey .success ∈ (after deletedMeanwhile).replies ∧
      ¬(after deletedMeanwhile).Visible objectKey ∧
      ((after deletedMeanwhile).exec repairNext).Visible objectKey := by
  obtain ⟨two, one, reply, hidden, shown⟩ : (after rewritten).registeredVersion objectKey = 2 ∧
      ((after rewritten).exec repairNext).registeredVersion objectKey = 1 ∧
      Reply.delete objectKey .success ∈ (after deletedMeanwhile).replies ∧
      ¬(after deletedMeanwhile).Visible objectKey ∧
      ((after deletedMeanwhile).exec repairNext).Visible objectKey := by decide +kernel
  exact ⟨⟨after_reachable _, two, one⟩, after_reachable _, reply, hidden, shown⟩

end Traffic
end Dos.Network
