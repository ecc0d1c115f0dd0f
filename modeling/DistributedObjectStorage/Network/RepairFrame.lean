import DistributedObjectStorage.Network.RepairRedundancy

/-!
# What a repair changes

`RepairNode` walks over one listing and writes in two places: to the target
node, and to the replica list of an object that it has copied there. Whatever
the nodes hold and whenever they fail, nothing else changes, and the report
accounts for every live object that is placed on the target.
-/
namespace Dos.Network
open ControlPlane Storage

/-- The objects that a report accounts for. -/
def Report.objects (report : Report) : ℕ := report.copied + report.alreadyCurrent + report.failed

namespace Traffic

/-! ## What is kept -/

/-- No other live object has the payload file of the key. -/
def Lone (m : MetadataRepository) (key : Bytes) : Prop :=
  ∀ other loc, m.lookupObject other = .ok loc → keyDigest other = keyDigest key → other = key

/-- The steps that the objects still to be placed can take, and the last one.
An object takes one to be placed, at most one for each source, and two to be
copied and published. -/
def stepsFor : List ObjectLocation → ℕ
  | [] => 1
  | loc :: todo => stepsFor todo + loc.replicas.length + 3

/-- The live objects, as `ListObjects` gives them. -/
def live (m : MetadataRepository) : List ObjectLocation :=
  (m.objects.toList.filter fun entry => !entry.2.deleted).map (·.2)

/-- The steps that a repair can still take. -/
def stepsLeft (m : MetadataRepository) : RepairStage → ℕ
  | .list => stepsFor (live m) + 1
  | .place todo => stepsFor todo
  | .fetch _ sources todo => stepsFor todo + sources.length + 2
  | .copy _ _ todo => stepsFor todo + 2
  | .publish _ todo => stepsFor todo + 1

def isRepairStep : TrafficAction → Bool
  | .repairStep _ _ => true
  | _ => false

section Kept
variable (m : MetadataRepository) (nodes : OrderedMap Bytes StorageNode) (repairer : Repairer) (target : Bytes)

/-- The live objects that are placed on the target. -/
def liveOn : ℕ :=
  m.objects.toList.countP fun entry =>
    !entry.2.deleted && decide (target ∈ m.placementFor entry.1 repairer.replicationFactor)

def placedOn (loc : ObjectLocation) : Bool :=
  decide (target ∈ m.placementFor loc.key repairer.replicationFactor)

/-- The objects placed on the target that the report has still to account for. -/
def unreported : RepairStage → ℕ
  | .list => liveOn m repairer target
  | .place todo => todo.countP (placedOn m repairer target)
  | .fetch _ _ todo | .copy _ _ todo | .publish _ todo => todo.countP (placedOn m repairer target) + 1

/-- The target is new among the replicas of the key. It is one of the nodes the
object is placed on, it was not listed, and it has stored the object. -/
structure Extended (acts : List TrafficAction) (s : Traffic) (key : Bytes) (loc : ObjectLocation) : Prop where
  before : m.objects[key]? = some loc
  live : loc.deleted = false
  placed : target ∈ m.placementFor key repairer.replicationFactor
  missing : target ∉ loc.replicas
  after : s.metadata.objects[key]? = some { loc with replicas := loc.replicas ++ [target] }
  -- when the replica list grows, the copy is there
  published : ∃ pre, pre <+: acts ∧
    (repairRun m nodes repairer target pre).metadata.objects[key]? =
      some { loc with replicas := loc.replicas ++ [target] } ∧
    (repairRun m nodes repairer target pre).Carries target loc
  -- it stays, unless another object is written to the same file
  stored : Lone m key → s.Carries target loc

/-- What holds at any time. -/
structure Kept (acts : List TrafficAction) (s : Traffic) : Prop where
  cluster : s.metadata.cluster = m.cluster
  objects : ∀ key : Bytes, s.metadata.objects[key]? = m.objects[key]? ∨
    ∃ loc, Extended m nodes repairer target acts s key loc
  others : ∀ id : Bytes, id ≠ target → (s.nodes[id]?).map (·.store) = (nodes[id]?).map (·.store)

/-- What holds while the repair runs. -/
structure Ongoing (acts : List TrafficAction) (s : Traffic) (r : Repair) : Prop where
  same : r.repairer = repairer ∧ r.target = target
  replies : s.replies = []
  fresh : r.stage = .list → s.metadata = m
  listed : ∀ loc ∈ r.stage.pending, m.lookupObject loc.key = .ok loc
  untouched : ∀ loc ∈ r.stage.pending, s.metadata.objects[loc.key]? = m.objects[loc.key]?
  distinct : (r.stage.pending.map (·.key)).Nodup
  justified : Justified m repairer target r.stage
  arrived : ∀ loc todo, r.stage = .publish loc todo → s.Carries target loc
  counted : r.report.objects + unreported m repairer target r.stage = liveOn m repairer target
  steps : acts.countP isRepairStep + stepsLeft m r.stage ≤ stepsLeft m .list

/-- How the call stands. -/
inductive Standing (acts : List TrafficAction) (s : Traffic) : Prop
  | running {r} : s.repair = some r → Ongoing m repairer target acts s r → Standing acts s
  | returned {report} : s.repair = none → s.replies = [.repair target (.ok report)] →
      report.objects = liveOn m repairer target → Standing acts s
  | rejected {status} : s.repair = none → s.replies = [.repair target (.error status)] →
      target ∉ repairer.clients → Standing acts s

structure Followed (acts : List TrafficAction) (s : Traffic) : Prop where
  kept : Kept m nodes repairer target acts s
  standing : Standing m repairer target acts s

end Kept

section Lemmas
variable {m : MetadataRepository} {nodes : OrderedMap Bytes StorageNode} {repairer : Repairer} {target : Bytes}
  {acts : List TrafficAction} {act : TrafficAction} {s s' : Traffic} {r : Repair}

theorem repairRun_snoc (acts : List TrafficAction) (act : TrafficAction) :
    repairRun m nodes repairer target (acts ++ [act]) = (repairRun m nodes repairer target acts).exec act := by
  simp only [repairRun, List.foldl_append, List.foldl_cons, List.foldl_nil]

/-- The list holds the objects that are counted. -/
theorem countP_live (keyed : Keyed m) :
    (live m).countP (placedOn m repairer target) = liveOn m repairer target := by
  unfold live liveOn
  rw [List.countP_map, List.countP_filter]
  refine List.countP_congr fun entry member => ?_
  have found := Std.ExtTreeMap.mem_toList_iff_getElem?_eq_some.mp member
  have named : entry.2.key = entry.1 := keyed entry.1 entry.2 found
  simp only [Function.comp_apply, placedOn, named, Bool.and_comm]

theorem listObjects_live {objects : List ObjectLocation} (listed : m.listObjects [] = .ok objects) :
    objects = live m := by
  cases listed
  simp [live]

theorem stepsFor_pos (todo : List ObjectLocation) : 0 < stepsFor todo := by
  cases todo <;> simp [stepsFor]

theorem stepsLeft_pos (stage : RepairStage) : 0 < stepsLeft m stage := by
  cases stage with
  | place todo => exact stepsFor_pos todo
  | _ => simp [stepsLeft]

theorem callNode_others {α : Type} (s : Traffic) (clients : List Bytes) {id other : Bytes}
    (rpc : StorageNode → StorageNode × StatusOr α) (ne : other ≠ id) :
    (s.callNode clients id rpc).1.nodes[other]? = s.nodes[other]? := by
  unfold callNode
  split
  · split
    · rfl
    · exact OrderedMap.lookup_insert_ne _ _ ne.symm
  · rfl

theorem setFault_stores (s : Traffic) (id : Bytes) (fault : Option Bytes) (other : Bytes) :
    ((s.exec (.setFault id fault)).nodes[other]?).map (·.store) = (s.nodes[other]?).map (·.store) := by
  simp only [Traffic.exec]
  split
  · rfl
  · next n found =>
      simp only [OrderedMap.lookup_insert]
      split
      · next same =>
          subst same
          rw [found]
          rfl
      · rfl

theorem Carries.of_nodes {id : Bytes} {loc : ObjectLocation} (same : s'.nodes = s.nodes) :
    s.Carries id loc → s'.Carries id loc :=
  Carries.of_holds fun _ _ => (Holds.congr same).mpr

theorem Carries.setFault {id : Bytes} {loc : ObjectLocation} (carries : s.Carries id loc) (other : Bytes)
    (fault : Option Bytes) : (s.exec (.setFault other fault)).Carries id loc :=
  carries.of_holds fun _ _ => (s.holds_setFault other fault).mpr

/-- A replica list that has grown is not the one there was. -/
theorem Extended.touched {key : Bytes} {loc : ObjectLocation}
    (extended : Extended m nodes repairer target acts s key loc) :
    s.metadata.objects[key]? ≠ m.objects[key]? := by
  rw [extended.after, extended.before]
  intro same
  have replicas : loc.replicas ++ [target] = loc.replicas :=
    congrArg ObjectLocation.replicas (Option.some.inj same)
  have length := congrArg List.length replicas
  simp at length

theorem Extended.step {key : Bytes} {loc : ObjectLocation}
    (extended : Extended m nodes repairer target acts s key loc)
    (same : s'.metadata.objects[key]? = s.metadata.objects[key]?)
    (carries : Lone m key → s.Carries target loc → s'.Carries target loc) :
    Extended m nodes repairer target (acts ++ [act]) s' key loc := by
  obtain ⟨pre, part, published⟩ := extended.published
  exact { extended with
    after := same.trans extended.after
    published := ⟨pre, part.trans (List.prefix_append _ _), published⟩
    stored := fun lone => carries lone (extended.stored lone) }

/-- The control plane is left alone, and so are the copies that were published. -/
theorem Kept.step (kept : Kept m nodes repairer target acts s) (metadata : s'.metadata = s.metadata)
    (others : ∀ id : Bytes, id ≠ target → (s'.nodes[id]?).map (·.store) = (s.nodes[id]?).map (·.store))
    (carries : ∀ key loc, Extended m nodes repairer target acts s key loc → Lone m key →
      s.Carries target loc → s'.Carries target loc) :
    Kept m nodes repairer target (acts ++ [act]) s' where
  cluster := metadata ▸ kept.cluster
  objects := by
    intro key
    rcases kept.objects key with same | ⟨loc, extended⟩
    · exact .inl (metadata ▸ same)
    · exact .inr ⟨loc, extended.step (by rw [metadata]) (carries key loc extended)⟩
  others := fun id ne => (others id ne).trans (kept.others id ne)

theorem Kept.of_nodes (kept : Kept m nodes repairer target acts s) (metadata : s'.metadata = s.metadata)
    (same : s'.nodes = s.nodes) : Kept m nodes repairer target (acts ++ [act]) s' :=
  kept.step metadata (fun id _ => by rw [same]) fun _ _ _ _ => Carries.of_nodes same

variable (keyed : Keyed m) (kept : Kept m nodes repairer target acts s) (ongoing : Ongoing m repairer target acts s r)
  (taken : isRepairStep act = true)
include kept ongoing

include keyed in
/-- A write of a listed object, which is none of those that were published. -/
theorem Kept.copy {loc : ObjectLocation} {data : Bytes} {todo : List ObjectLocation}
    (stage : r.stage = .copy loc data todo) (clients : List Bytes) (delivery : Delivery) (now : Int)
    {repair : Option Repair} :
    Kept m nodes repairer target (acts ++ [act])
      { (s.callNode clients target fun n => n.put delivery loc.key data loc.version now).1 with
        repair := repair } := by
  have inside : loc ∈ r.stage.pending := by
    rw [stage]
    exact List.mem_cons_self
  have found := ongoing.listed loc inside
  refine kept.step (s.callNode_frame _ _ _).1 (fun id ne => ?_) fun key other extended lone => ?_
  · exact congrArg (Option.map (·.store)) (s.callNode_others clients _ ne)
  · have named : other.key = key := keyed key other extended.before
    have apart : keyDigest loc.key ≠ keyDigest other.key := by
      intro digest
      have same : loc.key = key := lone loc.key loc found (named ▸ digest)
      exact extended.touched (same ▸ ongoing.untouched loc inside)
    refine Carries.of_holds fun copy same held => (Holds.congr rfl).mpr ((holds_put_ne ?_).mpr held)
    rw [same]
    exact apart

/-- The replica list of one object grows, after the object has arrived. -/
theorem Kept.publish {loc : ObjectLocation} {todo : List ObjectLocation} (stage : r.stage = .publish loc todo)
    (run : repairRun m nodes repairer target (acts ++ [act]) = s')
    (metadata : s'.metadata =
      (s.metadata.registerObject { loc with replicas := loc.replicas ++ [target] }).1)
    (same : s'.nodes = s.nodes) : Kept m nodes repairer target (acts ++ [act]) s' := by
  have arrived : s'.Carries target loc := (ongoing.arrived loc todo stage).of_nodes same
  have objects (key : Bytes) : s'.metadata.objects[key]? =
      if loc.key = key then some { loc with replicas := loc.replicas ++ [target] }
      else s.metadata.objects[key]? := by
    rw [metadata, MetadataRepository.registerObject_objects]
  obtain ⟨⟨found, placed⟩, missing⟩ : Due m repairer target loc ∧ target ∉ loc.replicas := by
    have justified := ongoing.justified
    rw [stage] at justified
    exact justified
  obtain ⟨before, live⟩ := MetadataRepository.lookupObject_ok.mp found
  refine ⟨by rw [metadata]; exact kept.cluster, fun key => ?_, fun id ne => ?_⟩
  · by_cases here : loc.key = key
    · subst here
      have after := (objects loc.key).trans (if_pos rfl)
      exact .inr ⟨loc, before, live, placed, missing, after,
        ⟨acts ++ [act], List.prefix_refl _, run ▸ after, run ▸ arrived⟩, fun _ => arrived⟩
    · have elsewhere := (objects key).trans (if_neg here)
      rcases kept.objects key with unchanged | ⟨other, extended⟩
      · exact .inl (elsewhere.trans unchanged)
      · exact .inr ⟨other, extended.step elsewhere fun _ => Carries.of_nodes same⟩
  · rw [same]
    exact kept.others id ne

/-! ## Steps and runs -/

include taken

omit kept in
/-- One step on: the list gets no longer, and what the step reports or leaves
to be reported is what was to be reported before it. -/
theorem Ongoing.next {stage : RepairStage} {report : Report} (pending : stage.pending <:+ r.stage.pending)
    (begun : stage ≠ .list) (replies : s'.replies = s.replies)
    (untouched : ∀ loc ∈ stage.pending, s'.metadata.objects[loc.key]? = s.metadata.objects[loc.key]?)
    (justified : Justified m repairer target stage)
    (arrived : ∀ loc todo, stage = .publish loc todo → s'.Carries target loc)
    (counted : report.objects + unreported m repairer target stage =
      r.report.objects + unreported m repairer target r.stage)
    (steps : stepsLeft m stage < stepsLeft m r.stage) :
    Ongoing m repairer target (acts ++ [act]) s' { r with stage := stage, report := report } where
  same := ongoing.same
  replies := replies.trans ongoing.replies
  fresh := fun list => absurd list begun
  listed := fun loc member => ongoing.listed loc (pending.subset member)
  untouched := fun loc member =>
    (untouched loc member).trans (ongoing.untouched loc (pending.subset member))
  distinct := ongoing.distinct.sublist (pending.sublist.map _)
  justified := justified
  arrived := arrived
  counted := counted.trans ongoing.counted
  steps := by
    have before := ongoing.steps
    simp only [List.countP_append, List.countP_singleton, if_pos taken]
    omega

/-- A step that writes nothing. -/
theorem Ongoing.inPlace {stage : RepairStage} {report : Report} (pending : stage.pending <:+ r.stage.pending)
    (begun : stage ≠ .list) (justified : Justified m repairer target stage)
    (early : ∀ loc todo, stage ≠ .publish loc todo)
    (counted : report.objects + unreported m repairer target stage =
      r.report.objects + unreported m repairer target r.stage)
    (steps : stepsLeft m stage < stepsLeft m r.stage) :
    Followed m nodes repairer target (acts ++ [act])
      { s with repair := some { r with stage := stage, report := report } } :=
  ⟨kept.of_nodes rfl rfl, .running rfl (ongoing.next taken pending begun rfl (fun _ _ => rfl) justified
    (fun loc todo publish => absurd publish (early loc todo)) counted steps)⟩

include keyed in
/-- The list is taken before anything has changed. -/
theorem Ongoing.list (start : r.stage = .list) {objects : List ObjectLocation}
    (listed : s.metadata.listObjects [] = .ok objects) :
    Followed m nodes repairer target (acts ++ [act]) { s with repair := some { r with stage := .place objects } } := by
  rw [ongoing.fresh start] at listed
  obtain ⟨entries, distinct⟩ := keyed.listObjects listed
  cases listObjects_live listed
  refine ⟨kept.of_nodes rfl rfl, .running rfl { ongoing with
    fresh := by rintro ⟨⟩
    listed := fun loc member => MetadataRepository.lookupObject_ok.mpr (entries loc member)
    untouched := fun loc _ => by rw [ongoing.fresh start]
    distinct := distinct
    justified := trivial
    arrived := by rintro loc todo ⟨⟩
    counted := ?_
    steps := ?_ }⟩
  · have before := ongoing.counted
    rw [start] at before
    exact (congrArg (r.report.objects + ·) (countP_live keyed)).trans before
  · have before := ongoing.steps
    simp only [start, List.countP_append, List.countP_singleton, if_pos taken, stepsLeft] at before ⊢
    omega

include keyed in
/-- The target is asked to store the object. -/
theorem Ongoing.copy {loc : ObjectLocation} {data : Bytes} {todo : List ObjectLocation}
    (copying : r.stage = .copy loc data todo) {clients : List Bytes} {delivery : Delivery} {now : Int}
    {stage : RepairStage} {report : Report}
    (after : stage = .place todo ∧ report = { r.report with failed := r.report.failed + 1 } ∨
      stage = .publish loc todo ∧ report = r.report ∧
        (s.callNode clients target fun n => n.put delivery loc.key data loc.version now).2 = .ok) :
    Followed m nodes repairer target (acts ++ [act])
      { (s.callNode clients target fun n => n.put delivery loc.key data loc.version now).1 with
        repair := some { r with stage := stage, report := report } } := by
  obtain ⟨justified, sum⟩ : (Due m repairer target loc ∧ target ∉ loc.replicas) ∧
      sha256Hex data = loc.checksum := by
    have justified := ongoing.justified
    rw [copying] at justified
    exact justified
  have metadata := (s.callNode_frame clients target fun n => n.put delivery loc.key data loc.version now).1
  have quiet := (s.callNode_calls clients target fun n => n.put delivery loc.key data loc.version now).2
  refine ⟨kept.copy keyed ongoing copying clients delivery now, .running rfl ?_⟩
  rcases after with ⟨rfl, rfl⟩ | ⟨rfl, rfl, ok⟩
  · refine ongoing.next taken ?_ (by rintro ⟨⟩) quiet (fun _ _ => by rw [metadata]) trivial
      (by rintro _ _ ⟨⟩) ?_ ?_
    · rw [copying]
      exact List.suffix_cons _ _
    · simp only [copying, unreported, Report.objects]
      omega
    · simp only [copying, stepsLeft]
      omega
  · refine ongoing.next taken ?_ (by rintro ⟨⟩) quiet (fun _ _ => by rw [metadata]) justified ?_ ?_ ?_
    · rw [copying]
      exact List.suffix_refl _
    · rintro _ _ ⟨⟩
      exact (carries_put sum ok).of_nodes rfl
    · simp only [copying, unreported]
    · simp only [copying, stepsLeft]
      omega

theorem Ongoing.publish {loc : ObjectLocation} {todo : List ObjectLocation} (publishing : r.stage = .publish loc todo)
    (run : repairRun m nodes repairer target (acts ++ [act]) = s')
    (metadata : s'.metadata =
      (s.metadata.registerObject { loc with replicas := loc.replicas ++ [target] }).1)
    (same : s'.nodes = s.nodes) (quiet : s'.replies = s.replies)
    (onward : s'.repair = some { r with
      stage := .place todo
      report := { r.report with copied := r.report.copied + 1 } }) :
    Followed m nodes repairer target (acts ++ [act]) s' := by
  have pending : r.stage.pending = loc :: todo := by
    rw [publishing]
    rfl
  refine ⟨kept.publish ongoing publishing run metadata same, .running onward (ongoing.next taken ?_
    (by rintro ⟨⟩) quiet (fun later member => ?_) trivial (by rintro _ _ ⟨⟩) ?_ ?_)⟩
  · rw [pending]
    exact List.suffix_cons _ _
  · have distinct := ongoing.distinct
    rw [pending] at distinct
    have ne : loc.key ≠ later.key := fun equal =>
      (List.nodup_cons.mp distinct).1 (List.mem_map.mpr ⟨later, member, equal.symm⟩)
    rw [metadata, MetadataRepository.registerObject_objects, if_neg ne]
  · simp only [publishing, unreported, Report.objects]
    omega
  · simp only [publishing, stepsLeft]
    omega

omit taken

include keyed in
/-- The step lemma of a repair. -/
theorem Ongoing.step (running : s.repair = some r)
    (run : repairRun m nodes repairer target acts = s) (delivery : Delivery) (now : Int) :
    Followed m nodes repairer target (acts ++ [.repairStep delivery now]) (s.exec (.repairStep delivery now)) := by
  have ran : repairRun m nodes repairer target (acts ++ [.repairStep delivery now]) =
      s.exec (.repairStep delivery now) := by rw [repairRun_snoc, run]
  have moved : s.exec (.repairStep delivery now) =
      { (s.stepRepair delivery now r).1 with repair := (s.stepRepair delivery now r).2 } := by
    simp only [Traffic.exec, running]
  rw [moved] at ran ⊢
  obtain ⟨who, goal, stage, report⟩ := r
  obtain ⟨rfl, rfl⟩ : who = repairer ∧ goal = target := ongoing.same
  have move := s.stepRepair_move delivery now ⟨who, goal, stage, report⟩
  generalize s.stepRepair delivery now ⟨who, goal, stage, report⟩ = out at ran move ⊢
  obtain ⟨s', next⟩ := out
  have placement (key : Bytes) : s.metadata.placementFor key who.replicationFactor =
      m.placementFor key who.replicationFactor :=
    congrArg (fun cluster : ClusterMap => cluster.placementFor key who.replicationFactor) kept.cluster
  cases move with
  | listed start objects => exact ongoing.list keyed kept rfl start objects
  | finished done =>
      cases done
      refine ⟨kept.of_nodes rfl rfl, .returned rfl ?_ ongoing.counted⟩
      simp [ongoing.replies]
  | elsewhere stage absent =>
      cases stage
      rw [placement] at absent
      refine ongoing.inPlace kept rfl (List.suffix_cons _ _) (by rintro ⟨⟩) trivial (by rintro _ _ ⟨⟩) ?_ ?_
      · simp [unreported, placedOn, absent]
      · simp only [stepsLeft, stepsFor]
        omega
  | current stage placed _ =>
      cases stage
      rw [placement] at placed
      refine ongoing.inPlace kept rfl (List.suffix_cons _ _) (by rintro ⟨⟩) trivial (by rintro _ _ ⟨⟩) ?_ ?_
      · simp only [unreported, placedOn, placed, Report.objects, decide_true, List.countP_cons_of_pos]
        omega
      · simp only [stepsLeft, stepsFor]
        omega
  | wanted stage placed missing =>
      cases stage
      rw [placement] at placed
      have found := ongoing.listed _ List.mem_cons_self
      refine ongoing.inPlace kept rfl (List.suffix_refl _) (by rintro ⟨⟩) ⟨⟨found, placed⟩, missing⟩
        (by rintro _ _ ⟨⟩) ?_ ?_
      · simp [unreported, placedOn, placed]
      · simp only [stepsLeft, stepsFor]
        omega
  | exhausted stage =>
      cases stage
      refine ongoing.inPlace kept rfl (List.suffix_cons _ _) (by rintro ⟨⟩) trivial (by rintro _ _ ⟨⟩) ?_ ?_
      · simp only [unreported, Report.objects]
        omega
      · simp [stepsLeft]
  | nextSource stage =>
      cases stage
      refine ongoing.inPlace kept rfl (List.suffix_refl _) (by rintro ⟨⟩) ongoing.justified
        (by rintro _ _ ⟨⟩) rfl ?_
      simp [stepsLeft]
  | fetched stage sum =>
      cases stage
      refine ongoing.inPlace kept rfl (List.suffix_refl _) (by rintro ⟨⟩) ⟨ongoing.justified, sum⟩
        (by rintro _ _ ⟨⟩) rfl ?_
      simp [stepsLeft]
  | refused copying _ => exact ongoing.copy keyed kept rfl copying (.inl ⟨rfl, rfl⟩)
  | stored copying ok => exact ongoing.copy keyed kept rfl copying (.inr ⟨rfl, rfl, ok⟩)
  | published publishing => exact ongoing.publish kept rfl publishing ran rfl rfl rfl rfl

omit kept ongoing

theorem Standing.setFault (standing : Standing m repairer target acts s) (id : Bytes) (fault : Option Bytes) :
    Standing m repairer target (acts ++ [.setFault id fault]) (s.exec (.setFault id fault)) := by
  obtain ⟨metadata, repair, replies⟩ := s.setFault_frame id fault
  cases standing with
  | running running ongoing =>
      refine .running (repair.trans running) { ongoing with
        replies := replies.trans ongoing.replies
        fresh := fun list => metadata.trans (ongoing.fresh list)
        untouched := fun loc member => by rw [metadata]; exact ongoing.untouched loc member
        arrived := fun loc todo stage => (ongoing.arrived loc todo stage).setFault id fault
        steps := ?_ }
      rw [List.countP_append]
      exact ongoing.steps
  | returned ended report objects => exact .returned (repair.trans ended) (replies.trans report) objects
  | rejected ended report unknown => exact .rejected (repair.trans ended) (replies.trans report) unknown

theorem standing_started (m : MetadataRepository) (nodes : OrderedMap Bytes StorageNode) (repairer : Repairer)
    (target : Bytes) :
    Followed m nodes repairer target [] (repairRun m nodes repairer target []) := by
  simp only [repairRun, List.foldl_nil, Traffic.exec]
  split
  · next unknown => exact ⟨⟨rfl, fun _ => .inl rfl, fun _ _ => rfl⟩, .rejected rfl rfl unknown⟩
  · refine ⟨⟨rfl, fun _ => .inl rfl, fun _ _ => rfl⟩, .running rfl ?_⟩
    exact {
      same := ⟨rfl, rfl⟩
      replies := rfl
      fresh := fun _ => rfl
      listed := List.forall_mem_nil _
      untouched := List.forall_mem_nil _
      distinct := List.nodup_nil
      justified := trivial
      arrived := by rintro loc todo ⟨⟩
      counted := by simp [Report.objects, unreported]
      steps := by simp }

/-- The run lemma. The induction is on the last step: what was published is
dated by the steps up to then. -/
theorem standing_run (keyed : Keyed m) (upkeep : ∀ act ∈ acts, upkeepOnly act = true) :
    Followed m nodes repairer target acts (repairRun m nodes repairer target acts) := by
  induction acts using List.reverseRecOn with
  | nil => exact standing_started m nodes repairer target
  | append_singleton acts act ih =>
      obtain ⟨kept, standing⟩ := ih fun act member => upkeep act (List.mem_append_left _ member)
      have allowed := upkeep act (List.mem_append_right _ (List.mem_singleton_self _))
      rw [repairRun_snoc]
      generalize run : repairRun m nodes repairer target acts = s at kept standing ⊢
      cases act with
      | repairStep delivery now =>
          cases standing with
          | running running ongoing => exact ongoing.step keyed kept running run delivery now
          | returned ended report objects =>
              have idle : s.exec (.repairStep delivery now) = s := by simp only [Traffic.exec, ended]
              rw [idle]
              exact ⟨kept.of_nodes rfl rfl, .returned ended report objects⟩
          | rejected ended report unknown =>
              have idle : s.exec (.repairStep delivery now) = s := by simp only [Traffic.exec, ended]
              rw [idle]
              exact ⟨kept.of_nodes rfl rfl, .rejected ended report unknown⟩
      | setFault id fault =>
          refine ⟨kept.step (s.setFault_frame id fault).1 ?_ ?_, standing.setFault id fault⟩
          · exact fun other _ => s.setFault_stores id fault other
          · exact fun _ _ _ _ carries => carries.setFault id fault
      | _ => cases allowed

end Lemmas

/-- A repair with nothing else going on, over any locations, nodes and outages:
each location is as it was but for the target, which is added to its replicas
only where it belongs there and has stored the object; other nodes keep their
stores; the report accounts for each live object placed on the target, and
there is one after finitely many steps. -/
theorem repair_changes_only {m : MetadataRepository} (keyed : Keyed m)
    (nodes : OrderedMap Bytes StorageNode) (repairer : Repairer) (target : Bytes) {acts : List TrafficAction}
    (alone : ∀ act ∈ acts, upkeepOnly act = true) :
    (∀ key : Bytes,
      (repairRun m nodes repairer target acts).metadata.objects[key]? = m.objects[key]? ∨
        ∃ loc, Extended m nodes repairer target acts (repairRun m nodes repairer target acts) key loc) ∧
      (∀ id : Bytes, id ≠ target →
        ((repairRun m nodes repairer target acts).nodes[id]?).map (·.store) = (nodes[id]?).map (·.store)) ∧
      (∀ report, Reply.repair target (.ok report) ∈ (repairRun m nodes repairer target acts).replies →
        report.copied + report.alreadyCurrent + report.failed = liveOn m repairer target) ∧
      (target ∈ repairer.clients → stepsLeft m .list ≤ acts.countP isRepairStep →
        ∃ report, (repairRun m nodes repairer target acts).replies = [.repair target (.ok report)]) := by
  obtain ⟨kept, standing⟩ : Followed m nodes repairer target acts (repairRun m nodes repairer target acts) :=
    standing_run keyed alone
  refine ⟨kept.objects, kept.others, fun report reported => ?_, fun known enough => ?_⟩
  · cases standing with
    | running _ ongoing =>
        rw [ongoing.replies] at reported
        exact absurd reported List.not_mem_nil
    | returned _ replies objects =>
        rw [replies] at reported
        cases List.mem_singleton.mp reported
        exact objects
    | rejected _ replies _ =>
        rw [replies] at reported
        cases List.mem_singleton.mp reported
  · cases standing with
    | @running r _ ongoing =>
        have steps := ongoing.steps
        have left := stepsLeft_pos (m := m) r.stage
        omega
    | returned _ replies _ => exact ⟨_, replies⟩
    | rejected _ _ unknown => exact absurd known unknown

/-- The target missed the write of the one object there is. -/
theorem repair_changes_only_missed :
    (repairOfB withoutB onlyA).replies = [.repair (text "b") (.ok ⟨1, 0, 0⟩)] ∧
      liveOn withoutB ⟨[text "a", text "b"], 2⟩ (text "b") = 1 ∧
      Extended withoutB onlyA ⟨[text "a", text "b"], 2⟩ (text "b") (List.replicate 6 repairNext)
        (repairOfB withoutB onlyA) objectKey (storedOn [text "a"]) := by
  obtain ⟨replies, lookup, _⟩ := repairOfB_missed
  have after := (MetadataRepository.lookupObject_ok.mp lookup).1
  have before : withoutB.objects[objectKey]? = some (storedOn [text "a"]) := by
    rw [withoutB, MetadataRepository.registerObject_objects]
    exact if_pos rfl
  have finished : Reply.repair (text "b") (.ok ⟨1, 0, 0⟩) ∈ (repairOfB withoutB onlyA).replies := by
    rw [replies]
    exact List.mem_singleton_self _
  have keyed : Keyed withoutB := registry_keyed withoutB_registered
  obtain ⟨objects, _, counted, _⟩ := repair_changes_only keyed onlyA ⟨[text "a", text "b"], 2⟩
    (text "b") (show ∀ act ∈ List.replicate 6 repairNext, upkeepOnly act = true by decide)
  refine ⟨replies, (counted ⟨1, 0, 0⟩ finished).symm, ?_⟩
  rcases objects objectKey with same | ⟨loc, extended⟩
  · rw [repairOfB] at after
    rw [after, before] at same
    have replicas : [text "a", text "b"] = [text "a"] :=
      congrArg ObjectLocation.replicas (Option.some.inj same)
    exact absurd (congrArg List.length replicas) (by decide)
  · cases before.symm.trans extended.before
    exact extended

/-! A location without a version. -/
section Sample

def unnumbered : ObjectLocation := { storedOn [text "a"] with version := 0 }

def withoutVersion : MetadataRepository :=
  (MetadataRepository.registerObject ⟨pair.1.cluster, ∅⟩ unnumbered).1

theorem withoutVersion_keyed : Keyed withoutVersion :=
  Keyed.register (fun _ _ found => by simp at found) unnumbered

end Sample

/-- A location is registered at version 0. The repair adds the target to its
replicas, and the target has the object at a version of its own. -/
theorem repair_unnumbered :
    Keyed withoutVersion ∧
      (repairOfB withoutVersion onlyA).replies = [.repair (text "b") (.ok ⟨1, 0, 0⟩)] ∧
      (repairOfB withoutVersion onlyA).metadata.lookupObject objectKey =
        .ok { unnumbered with replicas := [text "a", text "b"] } ∧
      ((repairOfB withoutVersion onlyA).nodes[text "b"]?).map
        (fun n => (n.store.head objectKey).toOption.map (·.version)) = some (some 1) ∧
      ¬(repairOfB withoutVersion onlyA).Holds (text "b") unnumbered := by
  have version : ((repairOfB withoutVersion onlyA).nodes[text "b"]?).map
      (fun n => (n.store.head objectKey).toOption.map (·.version)) = some (some 1) := by decide +kernel
  refine ⟨withoutVersion_keyed, by decide +kernel, by decide +kernel, version, ?_⟩
  rintro ⟨data, _, n, found, _, row, head, zero⟩
  have other : (n.store.head objectKey).toOption.map (·.version) = some 0 := by
    rw [show n.store.head objectKey = .ok row from head]
    exact congrArg some zero
  rw [found, Option.map_some, other] at version
  cases version

end Traffic

end Dos.Network
