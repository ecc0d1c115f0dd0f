import DistributedObjectStorage.Network.RepairRace
import DistributedObjectStorage.Network.ReplicaAgreement
import DistributedObjectStorage.Network.VersionOrder

/-!
# What a repair restores

`RepairNode` copies an object to its target when the target is not among the
registered replicas. It never looks at what the target holds: a registered
replica counts as current, whatever became of its copy.
-/
namespace Dos.Network
open ControlPlane Storage Transition

/-! ## The registered locations -/

/-- What coordinators and repairs do to the control plane. -/
inductive Upkeep : MetadataRepository → MetadataRepository → Prop
  | register {m} (loc) : Upkeep m (m.registerObject loc).1
  | remove {m} (key) : Upkeep m (m.removeObject key).1
  | members {m} (cluster) : Upkeep m { m with cluster := cluster }

def registry : System MetadataRepository where
  init := fun m => m.objects = ∅
  step := Upkeep

theorem registry_keyed {m : MetadataRepository} (reachable : registry.Reachable m) : Traffic.Keyed m := by
  apply reachable.invariant
  · intro m empty key loc found
    have none : m.objects = ∅ := empty
    simp [none] at found
  · intro m _ _ before step key loc found
    cases step with
    | register new =>
        rw [MetadataRepository.registerObject_objects] at found
        split at found
        · next same =>
            cases found
            exact same
        · exact before key loc found
    | remove gone =>
        rw [MetadataRepository.removeObject_objects] at found
        split at found
        · next same =>
            obtain ⟨old, here, rfl⟩ := Option.map_eq_some_iff.mp found
            have named := before gone old here
            subst same
            split <;> exact named
        · exact before key loc found
    | members cluster => exact before key loc found

section Coordinators
variable {c : Coordinator}

theorem Coordinator.Registered.upkeep {c' : Coordinator} {key : Bytes} {version : ℕ}
    {result : StatusOr ObjectMetadata} (registered : Coordinator.Registered c c' key version result) :
    c'.metadata = c.metadata ∨ Upkeep c.metadata c'.metadata := by
  cases registered with
  | failed same => exact .inl same
  | stored _ _ stored =>
      rw [stored]
      exact .inr (.register _)

theorem Coordinator.exec_upkeep (c : Coordinator) (act : ClusterAction) :
    (c.exec act).metadata = c.metadata ∨ Upkeep c.metadata (c.exec act).metadata := by
  cases act with
  | put key data net now =>
      have registered := c.putAfter_registered key data net now (c.metadata.lookupObject key)
      rw [← put_eq_putAfter] at registered
      exact registered.upkeep
  | putConditional key data expectedVersion requestId net now =>
      exact (c.putConditional_registered key data net now expectedVersion requestId).upkeep
  | get key net => exact .inl (c.get_frame key net).1
  | delete key net =>
      rcases c.delete_metadata key net with same | removed
      · exact .inl same
      · right
        simp only [exec, removed]
        exact .remove key
  | setFault id fault => exact .inl (c.updateNode_metadata id _)
  | restart id now => exact .inl (c.updateNode_metadata id _)

theorem fresh_objects (vnodes : ℕ) (members : List Bytes) (opts : Options) :
    (Coordinator.fresh vnodes members opts).metadata.objects = ∅ := by
  have each (cluster : MetadataRepository × OrderedMap Bytes StorageNode) :
      (members.foldl Coordinator.addMember cluster).1.objects = cluster.1.objects := by
    induction members generalizing cluster with
    | nil => rfl
    | cons member rest ih => exact ih (Coordinator.addMember cluster member)
  exact each (.create vnodes, ∅)

/-- The control plane of a cluster after any operations, one after another. -/
theorem coordinator_registry {vnodes : ℕ} {members : List Bytes} {opts : Options}
    (reachable : (Coordinator.system vnodes members opts).Reachable c) : registry.Reachable c.metadata := by
  apply reachable.invariant
  · rintro _ rfl
    exact .start (fresh_objects vnodes members opts)
  · rintro before _ _ registered ⟨act, _, rfl⟩
    rcases before.exec_upkeep act with same | step
    · rw [same]
      exact registered
    · exact .next registered step

end Coordinators

namespace Traffic

/-! ## A repair with nothing else going on -/

/-- The node stores the object as it is registered. -/
def Holds (s : Traffic) (id : Bytes) (loc : ObjectLocation) : Prop :=
  ∃ data, sha256Hex data = loc.checksum ∧ s.Stores loc.key id loc.version data

/-- The same, where a node numbers an object itself that comes with the version 0. -/
def Carries (s : Traffic) (id : Bytes) (loc : ObjectLocation) : Prop :=
  ∃ version, (loc.version ≠ 0 → version = loc.version) ∧ s.Holds id { loc with version := version }

/-- Steps of the repair, and outages of nodes between them. -/
def upkeepOnly : TrafficAction → Bool
  | .repairStep _ _ | .setFault _ _ => true
  | _ => false

def repairRun (m : MetadataRepository) (nodes : OrderedMap Bytes StorageNode) (repairer : Repairer)
    (target : Bytes) (acts : List TrafficAction) : Traffic :=
  acts.foldl exec ((start m nodes).exec (.repair repairer target))

/-- The live objects that the target is responsible for. -/
def Due (m : MetadataRepository) (repairer : Repairer) (target : Bytes) (loc : ObjectLocation) : Prop :=
  m.lookupObject loc.key = .ok loc ∧ target ∈ m.placementFor loc.key repairer.replicationFactor

/-- What the stage has still to bring to the target. -/
def Awaits : RepairStage → Bytes → Prop
  | .list, _ => True
  | .place todo, key | .publish _ todo, key => key ∈ todo.map (·.key)
  | .fetch loc _ todo, key | .copy loc _ todo, key => key ∈ (loc :: todo).map (·.key)

/-- Why the stage works on its object. -/
def Justified (m : MetadataRepository) (repairer : Repairer) (target : Bytes) : RepairStage → Prop
  | .fetch loc _ _ | .publish loc _ => Due m repairer target loc ∧ target ∉ loc.replicas
  | .copy loc data _ => (Due m repairer target loc ∧ target ∉ loc.replicas) ∧ sha256Hex data = loc.checksum
  | _ => True

/-- What the target has to be sent is registered at a version that a node takes. -/
def Numbered (m : MetadataRepository) (repairer : Repairer) (target : Bytes) : Prop :=
  ∀ loc, Due m repairer target loc → target ∉ loc.replicas → loc.version ≠ 0

/-- Different live keys have different payload files. -/
def Separate (m : MetadataRepository) : Prop :=
  ∀ key key' loc loc', m.lookupObject key = .ok loc → m.lookupObject key' = .ok loc' →
    keyDigest key = keyDigest key' → key = key'

/-- A location without its replicas. -/
def bare (loc : ObjectLocation) : ObjectLocation := { loc with replicas := [] }

section Alone
variable (m : MetadataRepository) (nodes : OrderedMap Bytes StorageNode) (repairer : Repairer) (target : Bytes)

/-- What does not depend on how far the repair is: locations change in their
replicas only, and registered replicas keep what they have. -/
structure Undertaken (s : Traffic) : Prop where
  cluster : s.metadata.cluster = m.cluster
  objects : ∀ key : Bytes, (s.metadata.objects[key]?).map bare = (m.objects[key]?).map bare
  kept : ∀ loc, Due m repairer target loc → target ∈ loc.replicas →
    (s.Holds target loc ↔ (start m nodes).Holds target loc)

/-- The objects that the repair is through with are at the target, unless it has
counted a failure. -/
def Brought (s : Traffic) (failed : ℕ) (awaited : Bytes → Prop) : Prop :=
  failed = 0 → ∀ loc, Due m repairer target loc → target ∉ loc.replicas → ¬awaited loc.key →
    s.Holds target loc

structure Underway (s : Traffic) (r : Repair) : Prop where
  same : r.repairer = repairer ∧ r.target = target
  fresh : r.stage = .list → s.metadata = m
  listed : ∀ loc ∈ r.stage.pending, m.lookupObject loc.key = .ok loc
  distinct : (r.stage.pending.map (·.key)).Nodup
  justified : Justified m repairer target r.stage
  brought : Brought m repairer target s r.report.failed (Awaits r.stage)

/-- How the repair stands. -/
inductive Progress (s : Traffic) : Prop
  | running {r} : s.repair = some r → s.replies = [] → Underway m repairer target s r → Progress s
  | returned {report} : s.repair = none → s.replies = [.repair target (.ok report)] →
      Brought m repairer target s report.failed (fun _ => False) → Progress s
  | rejected {status} : s.repair = none → s.replies = [.repair target (.error status)] → Progress s

end Alone

/-! ### What the target holds -/

section Node
variable {s s' : Traffic} {id : Bytes} {loc : ObjectLocation}

/-- A copy is a matter of the slot of its key. -/
theorem Holds.insert {n n' : StorageNode} (found : s.nodes[id]? = some n) (nodes : s'.nodes = s.nodes.insert id n')
    (row : (n'.store.disk.slot loc.key).row = (n.store.disk.slot loc.key).row)
    (file : (n'.store.disk.slot loc.key).file = (n.store.disk.slot loc.key).file) :
    s'.Holds id loc ↔ s.Holds id loc := by
  obtain ⟨get, head⟩ := Disk.get_head_congr row file
  have after : s'.nodes[id]? = some n' := by rw [nodes, OrderedMap.lookup_insert_self]
  unfold Holds Stores
  simp only [found, after, Option.some.injEq, exists_eq_left', LocalObjectStore.get, LocalObjectStore.head,
    get, head]

theorem Holds.congr (nodes : s'.nodes = s.nodes) : s'.Holds id loc ↔ s.Holds id loc := by
  unfold Holds Stores
  rw [nodes]

theorem holds_setFault (s : Traffic) (other : Bytes) (fault : Option Bytes) :
    (s.exec (.setFault other fault)).Holds id loc ↔ s.Holds id loc := by
  simp only [Traffic.exec]
  split
  · exact Iff.rfl
  · next n found =>
      by_cases same : other = id
      · subst same
        exact Holds.insert found rfl rfl rfl
      · have kept : (s.nodes.insert other { n with fault := fault })[id]? = s.nodes[id]? :=
          OrderedMap.lookup_insert_ne _ _ same
        unfold Holds Stores
        rw [kept]

theorem Carries.of_holds (holds : ∀ other : ObjectLocation, other.key = loc.key → s.Holds id other → s'.Holds id other)
    (carries : s.Carries id loc) : s'.Carries id loc := by
  obtain ⟨version, numbered, held⟩ := carries
  exact ⟨version, numbered, holds _ rfl held⟩

theorem Carries.holds (carries : s.Carries id loc) (numbered : loc.version ≠ 0) : s.Holds id loc := by
  obtain ⟨version, same, held⟩ := carries
  rwa [same numbered] at held

variable {clients : List Bytes} {delivery : Delivery} {data : Bytes} {now : Int}

theorem put_store (n : StorageNode) (delivery : Delivery) (key data : Bytes) (version : ℕ) (now : Int) :
    (n.put delivery key data version now).1.store = n.store ∨
      (n.put delivery key data version now).1.store =
        (n.store.doPut (.putWithVersion key data version) now).1 := by
  rw [StorageNode.put_eq]
  rcases n.call_store delivery (text "Put") _ with kept | served
  · exact .inl kept
  · rw [served]
    split
    · exact .inl rfl
    · exact .inr rfl

/-- Writing one object to a node leaves its copies of others alone. -/
theorem holds_put_ne {version : ℕ} {other : ObjectLocation} (ne : keyDigest loc.key ≠ keyDigest other.key) :
    (s.callNode clients id fun n => n.put delivery loc.key data version now).1.Holds id other ↔
      s.Holds id other := by
  unfold callNode
  split
  · split
    · exact Iff.rfl
    · next n found =>
        rcases put_store n delivery loc.key data version now with kept | served
        · exact Holds.insert found rfl (by rw [kept]) (by rw [kept])
        · obtain ⟨_, _, _, _, others⟩ :=
            doPut_plain n.store (.putWithVersion loc.key data version) rfl rfl now
          obtain ⟨row, file⟩ := others other.key ne
          exact Holds.insert found rfl (by rw [served, row]) (by rw [served, file])
  · exact Iff.rfl

/-- A write that a node acknowledges is there. -/
theorem carries_put (sum : sha256Hex data = loc.checksum)
    (ok : (s.callNode clients id fun n => n.put delivery loc.key data loc.version now).2 = .ok) :
    (s.callNode clients id fun n => n.put delivery loc.key data loc.version now).1.Carries id loc := by
  unfold callNode at ok ⊢
  split at ok
  · next known =>
      simp only [if_pos known]
      cases found : s.nodes[id]? with
      | none => simp [found] at ok
      | some n =>
          have acknowledged : codeOf (n.put delivery loc.key data loc.version now).2 = .ok := by
            simpa only [found] using ok
          obtain ⟨get, row, head, numbered⟩ := StorageNode.put_acknowledged acknowledged
          exact ⟨row.version, numbered, data, sum, _, OrderedMap.lookup_insert_self _ _ _, get, row, head, rfl⟩
  · cases ok

end Node

/-! ### Steps and runs -/

section Steps
variable {m : MetadataRepository} {nodes : OrderedMap Bytes StorageNode} {repairer : Repairer}
  {target : Bytes} {s s' : Traffic} {r : Repair}

/-- Nothing changes but what the target holds for other objects. -/
theorem Undertaken.of_nodes (undertaken : Undertaken m nodes repairer target s)
    (metadata : s'.metadata = s.metadata)
    (holds : ∀ loc, Due m repairer target loc → target ∈ loc.replicas →
      (s'.Holds target loc ↔ s.Holds target loc)) : Undertaken m nodes repairer target s' where
  cluster := metadata ▸ undertaken.cluster
  objects := metadata ▸ undertaken.objects
  kept := fun loc due listed => (holds loc due listed).trans (undertaken.kept loc due listed)

theorem Brought.mono {failed failed' : ℕ} {awaited awaited' : Bytes → Prop}
    (brought : Brought m repairer target s failed awaited) (counted : failed' = 0 → failed = 0)
    (holds : ∀ loc, Due m repairer target loc → target ∉ loc.replicas → ¬awaited' loc.key →
      (¬awaited loc.key → s.Holds target loc) → s'.Holds target loc) :
    Brought m repairer target s' failed' awaited' := by
  intro clean loc due missing settled
  exact holds loc due missing settled (brought (counted clean) loc due missing)

/-- A failure ends all promises. -/
theorem Brought.failed (failed : ℕ) (awaited : Bytes → Prop) :
    Brought m repairer target s (failed + 1) awaited := by
  rintro ⟨⟩

theorem Due.unique {loc loc' : ObjectLocation} (due : Due m repairer target loc)
    (found : m.lookupObject loc'.key = .ok loc') (same : loc.key = loc'.key) : loc = loc' := by
  have here := due.1
  rw [same, found] at here
  exact (Except.ok.inj here).symm

theorem mem_listObjects {key : Bytes} {loc : ObjectLocation} {objects : List ObjectLocation}
    (listed : m.listObjects [] = .ok objects) (found : m.lookupObject key = .ok loc) : loc ∈ objects := by
  cases listed
  obtain ⟨lookup, live⟩ := MetadataRepository.lookupObject_ok.mp found
  refine List.mem_map.mpr ⟨(key, loc), List.mem_filter.mpr ⟨?_, ?_⟩, rfl⟩
  · exact Std.ExtTreeMap.mem_toList_iff_getElem?_eq_some.mpr lookup
  · simp [live]

section Stages
variable {loc : ObjectLocation} {todo : List ObjectLocation} {data : Bytes} {report : Report}

/-- The list holds every live object. -/
theorem Underway.list (underway : Underway m repairer target s ⟨repairer, target, .list, report⟩)
    (keyed : Keyed m) {objects : List ObjectLocation} (listed : s.metadata.listObjects [] = .ok objects) :
    Underway m repairer target s ⟨repairer, target, .place objects, report⟩ := by
  rw [underway.fresh rfl] at listed
  obtain ⟨entries, distinct⟩ := keyed.listObjects listed
  refine ⟨⟨rfl, rfl⟩, by rintro ⟨⟩, ?_, distinct, trivial, ?_⟩
  · exact fun loc member => MetadataRepository.lookupObject_ok.mpr (entries loc member)
  · refine underway.brought.mono id fun loc due _ settled _ => absurd ?_ settled
    exact List.mem_map.mpr ⟨loc, mem_listObjects listed due.1, rfl⟩

/-- On to the next object. -/
theorem Underway.place {stage : RepairStage} {report' : Report}
    (underway : Underway m repairer target s ⟨repairer, target, stage, report⟩)
    (pending : stage.pending = loc :: todo)
    (brought : Brought m repairer target s' report'.failed (Awaits (.place todo))) :
    Underway m repairer target s' ⟨repairer, target, .place todo, report'⟩ := by
  have listed := underway.listed
  have distinct := underway.distinct
  simp only [pending] at listed distinct
  exact ⟨⟨rfl, rfl⟩, by rintro ⟨⟩, fun other member => listed other (List.mem_cons_of_mem _ member),
    (List.nodup_cons.mp distinct).2, trivial, brought⟩

/-- Nothing is to be done for the first object. -/
theorem Underway.skip {report' : Report}
    (underway : Underway m repairer target s ⟨repairer, target, .place (loc :: todo), report⟩)
    (counted : report'.failed = report.failed)
    (needless : Due m repairer target loc → target ∈ loc.replicas) :
    Underway m repairer target s ⟨repairer, target, .place todo, report'⟩ := by
  refine underway.place rfl
    (underway.brought.mono (fun clean => counted ▸ clean) fun other due missing settled held => ?_)
  apply held
  intro awaited
  rcases List.mem_cons.mp awaited with same | later
  · have equal := due.unique (underway.listed loc List.mem_cons_self) same
    exact missing (equal ▸ needless (equal ▸ due))
  · exact settled later

theorem Underway.fetch (underway : Underway m repairer target s ⟨repairer, target, .place (loc :: todo), report⟩)
    (placed : target ∈ m.placementFor loc.key repairer.replicationFactor) (missing : target ∉ loc.replicas) :
    Underway m repairer target s ⟨repairer, target, .fetch loc loc.replicas todo, report⟩ :=
  ⟨⟨rfl, rfl⟩, by rintro ⟨⟩, underway.listed, underway.distinct,
    ⟨⟨underway.listed loc List.mem_cons_self, placed⟩, missing⟩, underway.brought⟩

theorem Underway.nextSource {source : Bytes} {rest : List Bytes}
    (underway : Underway m repairer target s ⟨repairer, target, .fetch loc (source :: rest) todo, report⟩) :
    Underway m repairer target s ⟨repairer, target, .fetch loc rest todo, report⟩ :=
  ⟨⟨rfl, rfl⟩, by rintro ⟨⟩, underway.listed, underway.distinct, underway.justified, underway.brought⟩

theorem Underway.copy {sources : List Bytes}
    (underway : Underway m repairer target s ⟨repairer, target, .fetch loc sources todo, report⟩)
    (sum : sha256Hex data = loc.checksum) :
    Underway m repairer target s ⟨repairer, target, .copy loc data todo, report⟩ :=
  ⟨⟨rfl, rfl⟩, by rintro ⟨⟩, underway.listed, underway.distinct, ⟨underway.justified, sum⟩,
    underway.brought⟩

/-- The object was not copied. -/
theorem Underway.giveUp {stage : RepairStage}
    (underway : Underway m repairer target s ⟨repairer, target, stage, report⟩)
    (pending : stage.pending = loc :: todo) :
    Underway m repairer target s'
      ⟨repairer, target, .place todo, { report with failed := report.failed + 1 }⟩ :=
  underway.place pending (Brought.failed _ _)

/-- The object has arrived. -/
theorem Underway.arrive (underway : Underway m repairer target s ⟨repairer, target, .copy loc data todo, report⟩)
    (arrived : s'.Holds target loc)
    (holds : ∀ other, Due m repairer target other → other.key ≠ loc.key →
      (s'.Holds target other ↔ s.Holds target other)) :
    Underway m repairer target s' ⟨repairer, target, .publish loc todo, report⟩ := by
  refine ⟨⟨rfl, rfl⟩, by rintro ⟨⟩, underway.listed, underway.distinct, underway.justified.1, ?_⟩
  refine underway.brought.mono id fun other due missing settled held => ?_
  by_cases same : other.key = loc.key
  · rw [due.unique (underway.listed loc List.mem_cons_self) same]
    exact arrived
  · refine (holds other due same).mpr (held fun awaited => ?_)
    rcases List.mem_cons.mp awaited with here | later
    · exact same here
    · exact settled later

theorem Underway.published
    (underway : Underway m repairer target s ⟨repairer, target, .publish loc todo, report⟩)
    (nodes : s'.nodes = s.nodes) :
    Underway m repairer target s'
      ⟨repairer, target, .place todo, { report with copied := report.copied + 1 }⟩ :=
  underway.place rfl
    (underway.brought.mono id fun _ _ _ settled held => (Holds.congr nodes).mpr (held settled))

/-- Publishing changes the replicas of one location. -/
theorem Undertaken.publish (undertaken : Undertaken m nodes repairer target s)
    (found : m.lookupObject loc.key = .ok loc) (same : s'.nodes = s.nodes)
    (metadata : s'.metadata =
      (s.metadata.registerObject { loc with replicas := loc.replicas ++ [target] }).1) :
    Undertaken m nodes repairer target s' where
  cluster := by
    rw [metadata]
    exact undertaken.cluster
  objects := by
    intro key
    rw [metadata, MetadataRepository.registerObject_objects]
    split
    · next here =>
        cases here
        rw [(MetadataRepository.lookupObject_ok.mp found).1]
        rfl
    · exact undertaken.objects key
  kept := fun other due listed => (Holds.congr same).trans (undertaken.kept other due listed)

/-- Writing a listed object to the target leaves the other objects there alone. -/
theorem Underway.written (separate : Separate m)
    (underway : Underway m repairer target s ⟨repairer, target, .copy loc data todo, report⟩)
    (clients : List Bytes) (delivery : Delivery) (now : Int) :
    let s' := (s.callNode clients target fun n => n.put delivery loc.key data loc.version now).1
    s'.metadata = s.metadata ∧ s'.replies = s.replies ∧
      (∀ other, Due m repairer target other → other.key ≠ loc.key →
        (s'.Holds target other ↔ s.Holds target other)) ∧
      ∀ other, Due m repairer target other → target ∈ other.replicas →
        (s'.Holds target other ↔ s.Holds target other) := by
  intro s'
  obtain ⟨⟨due, missing⟩, _⟩ := underway.justified
  have others (other : ObjectLocation) (due' : Due m repairer target other) (ne : other.key ≠ loc.key) :
      s'.Holds target other ↔ s.Holds target other :=
    holds_put_ne fun digest => ne (separate _ _ _ _ due.1 due'.1 digest).symm
  refine ⟨(s.callNode_frame _ _ _).1, (s.callNode_calls _ _ _).2, others, fun other due' listed => ?_⟩
  exact others other due' fun same => missing (due'.unique due.1 same ▸ listed)

end Stages

/-- The step lemma of a repair. -/
theorem Underway.step (keyed : Keyed m) (numbered : Numbered m repairer target) (separate : Separate m)
    (undertaken : Undertaken m nodes repairer target s) (replies : s.replies = [])
    (underway : Underway m repairer target s r) (delivery : Delivery) (now : Int) :
    Undertaken m nodes repairer target
        { (s.stepRepair delivery now r).1 with repair := (s.stepRepair delivery now r).2 } ∧
      Progress m repairer target
        { (s.stepRepair delivery now r).1 with repair := (s.stepRepair delivery now r).2 } := by
  obtain ⟨who, goal, stage, report⟩ := r
  obtain ⟨rfl, rfl⟩ : who = repairer ∧ goal = target := underway.same
  have idle (repair : Option Repair) : Undertaken m nodes who goal { s with repair := repair } :=
    undertaken.of_nodes rfl fun _ _ _ => Holds.congr rfl
  have goesOn {r' : Repair} (next : Underway m who goal s r') :
      Undertaken m nodes who goal { s with repair := some r' } ∧
        Progress m who goal { s with repair := some r' } := by
    refine ⟨idle _, .running rfl replies
      ⟨next.same, next.fresh, next.listed, next.distinct, next.justified, ?_⟩⟩
    exact next.brought.mono id fun _ _ _ settled held => (Holds.congr rfl).mpr (held settled)
  have placement (key : Bytes) : s.metadata.placementFor key who.replicationFactor =
      m.placementFor key who.replicationFactor :=
    congrArg (fun cluster : ClusterMap => cluster.placementFor key who.replicationFactor) undertaken.cluster
  have move := s.stepRepair_move delivery now ⟨who, goal, stage, report⟩
  generalize s.stepRepair delivery now ⟨who, goal, stage, report⟩ = out at move ⊢
  obtain ⟨after, next⟩ := out
  cases move with
  | listed start objects =>
      cases start
      exact goesOn (underway.list keyed objects)
  | finished done =>
      cases done
      have answered : s.replies ++ [.repair goal (.ok report)] = [.repair goal (.ok report)] := by
        rw [replies, List.nil_append]
      refine ⟨undertaken.of_nodes rfl fun _ _ _ => Holds.congr rfl, .returned rfl answered ?_⟩
      refine underway.brought.mono id fun loc _ _ _ held => (Holds.congr rfl).mpr (held ?_)
      exact List.not_mem_nil
  | elsewhere stage absent =>
      cases stage
      rw [placement] at absent
      exact goesOn (underway.skip rfl fun due => absurd due.2 absent)
  | current stage _ listed =>
      cases stage
      exact goesOn (underway.skip rfl fun _ => listed)
  | wanted stage placed missing =>
      cases stage
      rw [placement] at placed
      exact goesOn (underway.fetch placed missing)
  | exhausted stage =>
      cases stage
      exact goesOn (underway.giveUp rfl)
  | nextSource stage =>
      cases stage
      exact goesOn underway.nextSource
  | fetched stage sum =>
      cases stage
      exact goesOn (underway.copy sum)
  | refused stage _ =>
      cases stage
      obtain ⟨metadata, quiet, _, listed⟩ := underway.written separate who.clients delivery now
      exact ⟨undertaken.of_nodes metadata listed, .running rfl (quiet.trans replies) (underway.giveUp rfl)⟩
  | stored stage ok =>
      cases stage
      obtain ⟨metadata, quiet, others, listed⟩ := underway.written separate who.clients delivery now
      obtain ⟨⟨due, missing⟩, sum⟩ := underway.justified
      exact ⟨undertaken.of_nodes metadata listed,
        .running rfl (quiet.trans replies)
          (underway.arrive ((carries_put sum ok).holds (numbered _ due missing)) others)⟩
  | @published loc todo stage =>
      cases stage
      exact ⟨undertaken.publish (underway.listed loc List.mem_cons_self) rfl rfl,
        .running rfl replies (underway.published rfl)⟩

theorem setFault_frame (s : Traffic) (id : Bytes) (fault : Option Bytes) :
    (s.exec (.setFault id fault)).metadata = s.metadata ∧
      (s.exec (.setFault id fault)).repair = s.repair ∧ (s.exec (.setFault id fault)).replies = s.replies := by
  simp only [Traffic.exec]
  split <;> exact ⟨rfl, rfl, rfl⟩

theorem Progress.setFault (progress : Progress m repairer target s) (id : Bytes) (fault : Option Bytes) :
    Progress m repairer target (s.exec (.setFault id fault)) := by
  obtain ⟨metadata, repair, replies⟩ := s.setFault_frame id fault
  have kept {failed : ℕ} {awaited : Bytes → Prop} (brought : Brought m repairer target s failed awaited) :
      Brought m repairer target (s.exec (.setFault id fault)) failed awaited :=
    brought.mono (fun clean => clean) fun _ _ _ settled held => (s.holds_setFault id fault).mpr (held settled)
  cases progress with
  | running running none underway =>
      exact .running (repair.trans running) (replies.trans none)
        ⟨underway.same, fun start => metadata.trans (underway.fresh start), underway.listed, underway.distinct,
          underway.justified, kept underway.brought⟩
  | returned ended report brought => exact .returned (repair.trans ended) (replies.trans report) (kept brought)
  | rejected ended report => exact .rejected (repair.trans ended) (replies.trans report)

/-- The step lemma. -/
theorem Progress.exec (keyed : Keyed m) (numbered : Numbered m repairer target) (separate : Separate m)
    (undertaken : Undertaken m nodes repairer target s) (progress : Progress m repairer target s)
    {act : TrafficAction} (upkeep : upkeepOnly act = true) :
    Undertaken m nodes repairer target (s.exec act) ∧ Progress m repairer target (s.exec act) := by
  cases act with
  | repairStep delivery now =>
      cases repair : s.repair with
      | none =>
          simp only [Traffic.exec, repair]
          exact ⟨undertaken, progress⟩
      | some r =>
          simp only [Traffic.exec, repair]
          cases progress with
          | running running replies underway =>
              cases repair.symm.trans running
              exact underway.step keyed numbered separate undertaken replies delivery now
          | returned ended _ _ => cases repair.symm.trans ended
          | rejected ended _ => cases repair.symm.trans ended
  | setFault id fault =>
      have metadata := (s.setFault_frame id fault).1
      exact ⟨undertaken.of_nodes metadata fun _ _ _ => s.holds_setFault id fault, progress.setFault id fault⟩
  | _ => cases upkeep

theorem progress_started (m : MetadataRepository) (nodes : OrderedMap Bytes StorageNode) (repairer : Repairer)
    (target : Bytes) :
    Undertaken m nodes repairer target ((start m nodes).exec (.repair repairer target)) ∧
      Progress m repairer target ((start m nodes).exec (.repair repairer target)) := by
  simp only [Traffic.exec]
  split
  · exact ⟨⟨rfl, fun _ => rfl, fun _ _ _ => Iff.rfl⟩, .rejected rfl rfl⟩
  · refine ⟨⟨rfl, fun _ => rfl, fun _ _ _ => Iff.rfl⟩,
      .running rfl rfl ⟨⟨rfl, rfl⟩, fun _ => rfl, ?_, ?_, trivial, ?_⟩⟩
    · exact List.forall_mem_nil _
    · exact List.nodup_nil
    · exact fun _ _ _ _ settled => absurd trivial settled

/-- The run lemma. -/
theorem progress_run (keyed : Keyed m) (numbered : Numbered m repairer target) (separate : Separate m)
    {acts : List TrafficAction} (upkeep : ∀ act ∈ acts, upkeepOnly act = true) :
    Undertaken m nodes repairer target (repairRun m nodes repairer target acts) ∧
      Progress m repairer target (repairRun m nodes repairer target acts) := by
  obtain ⟨undertaken, progress⟩ := progress_started m nodes repairer target
  unfold repairRun
  generalize (start m nodes).exec (.repair repairer target) = s at undertaken progress
  induction acts generalizing s with
  | nil => exact ⟨undertaken, progress⟩
  | cons act acts ih =>
      obtain ⟨first, rest⟩ := List.forall_mem_cons.mp upkeep
      obtain ⟨next, onward⟩ := progress.exec keyed numbered separate undertaken first
      exact ih rest _ next onward

theorem lookupObject_bare {m m' : MetadataRepository}
    (objects : ∀ key : Bytes, (m.objects[key]?).map bare = (m'.objects[key]?).map bare) {key : Bytes}
    {loc : ObjectLocation} (found : m.lookupObject key = .ok loc) :
    ∃ loc', m'.lookupObject key = .ok loc' ∧ bare loc' = bare loc := by
  obtain ⟨lookup, live⟩ := MetadataRepository.lookupObject_ok.mp found
  have same := objects key
  rw [lookup, Option.map_some] at same
  obtain ⟨loc', there, equal⟩ := Option.map_eq_some_iff.mp same.symm
  have alive : (bare loc').deleted = (bare loc).deleted := congrArg ObjectLocation.deleted equal
  exact ⟨loc', MetadataRepository.lookupObject_ok.mpr ⟨there, alive.trans live⟩, equal⟩

/-- The replicas of a location do not matter to a copy. -/
theorem Holds.of_bare {id : Bytes} {loc loc' : ObjectLocation} (same : bare loc' = bare loc) :
    s.Holds id loc' ↔ s.Holds id loc := by
  obtain ⟨key, version, checksum, size, deleted, replicas⟩ := loc
  obtain ⟨_, _, _, _, _, replicas'⟩ := loc'
  cases same
  exact Iff.rfl

end Steps

/-- Whatever the nodes hold: after a repair that ran alone and reports no
failure, the target has every live object it is responsible for, exactly if it
had those before that it was registered for. -/
theorem repair_restores_iff {m : MetadataRepository} (registered : registry.Reachable m)
    (nodes : OrderedMap Bytes StorageNode) (repairer : Repairer) (target : Bytes)
    (numbered : Numbered m repairer target) (separate : Separate m) {acts : List TrafficAction}
    (alone : ∀ act ∈ acts, upkeepOnly act = true) {report : Report}
    (finished : Reply.repair target (.ok report) ∈ (repairRun m nodes repairer target acts).replies)
    (clean : report.failed = 0) :
    (∀ key loc, (repairRun m nodes repairer target acts).metadata.lookupObject key = .ok loc →
      target ∈ (repairRun m nodes repairer target acts).metadata.placementFor key repairer.replicationFactor →
      (repairRun m nodes repairer target acts).Holds target loc) ↔
    ∀ key loc, m.lookupObject key = .ok loc → target ∈ m.placementFor key repairer.replicationFactor →
      target ∈ loc.replicas → (start m nodes).Holds target loc := by
  have keyed := registry_keyed registered
  obtain ⟨undertaken, progress⟩ : Undertaken m nodes repairer target (repairRun m nodes repairer target acts) ∧
      Progress m repairer target (repairRun m nodes repairer target acts) := progress_run keyed numbered separate alone
  generalize repairRun m nodes repairer target acts = s at finished undertaken progress ⊢
  have brought : Brought m repairer target s 0 fun _ => False := by
    cases progress with
    | running _ none _ =>
        rw [none] at finished
        exact absurd finished List.not_mem_nil
    | returned _ replies brought =>
        rw [replies] at finished
        cases List.mem_singleton.mp finished
        exact clean ▸ brought
    | rejected _ replies =>
        rw [replies] at finished
        cases List.mem_singleton.mp finished
  have placement (key : Bytes) : s.metadata.placementFor key repairer.replicationFactor =
      m.placementFor key repairer.replicationFactor :=
    congrArg (fun cluster : ClusterMap => cluster.placementFor key repairer.replicationFactor) undertaken.cluster
  have due {key : Bytes} {loc : ObjectLocation} (found : m.lookupObject key = .ok loc)
      (placed : target ∈ m.placementFor key repairer.replicationFactor) : Due m repairer target loc := by
    have named := keyed key loc (MetadataRepository.lookupObject_ok.mp found).1
    subst named
    exact ⟨found, placed⟩
  constructor
  · intro restored key loc found placed listed
    obtain ⟨after, shown, same⟩ := lookupObject_bare (fun key => (undertaken.objects key).symm) found
    have held := restored key after shown (placement key ▸ placed)
    exact (undertaken.kept loc (due found placed) listed).mp ((Holds.of_bare same).mp held)
  · intro sound key loc found placed
    rw [placement] at placed
    obtain ⟨old, before, same⟩ := lookupObject_bare undertaken.objects found
    refine (Holds.of_bare same).mp ?_
    by_cases listed : target ∈ old.replicas
    · exact (undertaken.kept old (due before placed) listed).mpr (sound key old before placed listed)
    · exact brought rfl old (due before placed) listed id

/-! Two nodes that both keep `k`. -/
section Sample

def storedOn (replicas : List Bytes) : ObjectLocation := ⟨objectKey, 1, sha256Hex [1], 1, false, replicas⟩

/-- The object was stored while `b` was down. -/
def withoutB : MetadataRepository :=
  (MetadataRepository.registerObject ⟨pair.1.cluster, ∅⟩ (storedOn [text "a"])).1

def onlyA : OrderedMap Bytes StorageNode :=
  pair.2.insert (text "a")
    ⟨text "a", ((LocalObjectStore.openStore .empty 0).putWithVersion objectKey [1] 1 0).1, none⟩

theorem withoutB_lookup {key : Bytes} {loc : ObjectLocation} (found : withoutB.lookupObject key = .ok loc) :
    key = objectKey ∧ loc = storedOn [text "a"] := by
  obtain ⟨lookup, _⟩ := MetadataRepository.lookupObject_ok.mp found
  rw [withoutB, MetadataRepository.registerObject_objects] at lookup
  split at lookup
  · next same =>
      cases lookup
      exact ⟨same.symm, rfl⟩
  · simp at lookup

def repairOfB (m : MetadataRepository) (nodes : OrderedMap Bytes StorageNode) : Traffic :=
  repairRun m nodes ⟨[text "a", text "b"], 2⟩ (text "b") (List.replicate 6 repairNext)

theorem withoutB_registered : registry.Reachable withoutB :=
  .next (.start (show (⟨pair.1.cluster, ∅⟩ : MetadataRepository).objects = ∅ from rfl))
    (.register (storedOn [text "a"]))

theorem repairOfB_missed :
    (repairOfB withoutB onlyA).replies = [.repair (text "b") (.ok ⟨1, 0, 0⟩)] ∧
      (repairOfB withoutB onlyA).metadata.lookupObject objectKey = .ok (storedOn [text "a", text "b"]) ∧
      text "b" ∈ (repairOfB withoutB onlyA).metadata.placementFor objectKey 2 := by decide +kernel

/-- The object is stored on both nodes. -/
def onBoth : Coordinator :=
  (Coordinator.fresh 1 [text "a", text "b"] ⟨2, 2⟩).exec (.put objectKey [1] (fun _ => .acknowledged) 0)

/-- The payload file of the object is overwritten on the disk. -/
def corrupted (n : StorageNode) : StorageNode :=
  { n with store.disk.files := n.store.disk.files.insert (keyDigest objectKey) [9] }

end Sample

/-- The target missed the write and gets its copy. -/
theorem repair_restores_iff_missed :
    (repairOfB withoutB onlyA).replies = [.repair (text "b") (.ok ⟨1, 0, 0⟩)] ∧
      (repairOfB withoutB onlyA).Holds (text "b") (storedOn [text "a", text "b"]) := by
  obtain ⟨replies, lookup, placed⟩ := repairOfB_missed
  have numbered : Numbered withoutB ⟨[text "a", text "b"], 2⟩ (text "b") := by
    intro loc due _
    rw [(withoutB_lookup due.1).2]
    exact Nat.one_ne_zero
  have separate : Separate withoutB := by
    intro key key' loc loc' found found' _
    rw [(withoutB_lookup found).1, (withoutB_lookup found').1]
  have finished : Reply.repair (text "b") (.ok ⟨1, 0, 0⟩) ∈ (repairOfB withoutB onlyA).replies := by
    rw [replies]
    exact List.mem_singleton_self _
  have restored := (repair_restores_iff withoutB_registered onlyA ⟨[text "a", text "b"], 2⟩ (text "b") numbered
    separate (by decide) finished rfl).mpr ?_
  · exact ⟨replies, restored objectKey _ lookup placed⟩
  · intro key loc found _ listed
    rw [(withoutB_lookup found).2] at listed
    exact absurd listed (by decide)

/-- The copy of the target is damaged and it is still a registered replica: the
repair counts it as current, and the object cannot be read there. -/
theorem repair_trusts_registration :
    (Coordinator.system 1 [text "a", text "b"] ⟨2, 2⟩).Reachable onBoth ∧
      onBoth.metadata.lookupObject objectKey = .ok (storedOn [text "a", text "b"]) ∧
      text "b" ∈ onBoth.metadata.placementFor objectKey 2 ∧
      (repairOfB onBoth.metadata (onBoth.updateNode (text "b") corrupted).clients).replies =
        [.repair (text "b") (.ok ⟨0, 1, 0⟩)] ∧
      ((repairOfB onBoth.metadata (onBoth.updateNode (text "b") corrupted).clients).nodes[text "b"]?).map
        (·.get objectKey) = some (.error (.checksumMismatch (text "checksum mismatch for key: k"))) :=
  ⟨.next (.start rfl) ⟨_, trivial, rfl⟩, by decide +kernel⟩

end Traffic
end Dos.Network
