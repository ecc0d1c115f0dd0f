import Mathlib.Data.List.Perm.Basic
import DistributedObjectStorage.Cluster.MetadataRepository
import DistributedObjectStorage.Common.LruCache
import DistributedObjectStorage.Library.Transition

/-!
# The caching view of the control plane

A call goes to the repository and to the cache in separate steps. Between the
two another call may change the repository, and then the cache receives what
was true before.
-/
namespace Dos.ControlPlane
open Transition

structure CachingMetadataView where
  inner : MetadataRepository
  cache : LruCache Bytes ObjectLocation

namespace CachingMetadataView

def create (inner : MetadataRepository) (capacity : ℕ) : CachingMetadataView :=
  ⟨inner, .create capacity⟩

/-! ## Calls without interruption -/

def lookupObject (v : CachingMetadataView) (key : Bytes) :
    CachingMetadataView × StatusOr ObjectLocation :=
  let (cache, hit) := v.cache.get key
  let v := { v with cache := cache }
  match hit with
  | some loc => (v, .ok loc)
  | none =>
      match v.inner.lookupObject key with
      | .ok loc => ({ v with cache := v.cache.put key loc }, .ok loc)
      | .error status => (v, .error status)

def registerObject (v : CachingMetadataView) (loc : ObjectLocation) : CachingMetadataView × Status :=
  let (inner, status) := v.inner.registerObject loc
  let v := { v with inner := inner }
  if status.isOk then ({ v with cache := v.cache.put loc.key loc }, status) else (v, status)

/-- The entry goes whatever the repository answered. -/
def removeObject (v : CachingMetadataView) (key : Bytes) : CachingMetadataView × Status :=
  let (inner, status) := v.inner.removeObject key
  (⟨inner, v.cache.erase key⟩, status)

end CachingMetadataView

/-! ## Calls in steps -/

inductive ViewRequest where
  | lookup (key : Bytes)
  | register (loc : ObjectLocation)
  | remove (key : Bytes)
  deriving DecidableEq, Repr

/-- A call in progress, named by the step it does next. -/
inductive ViewCall where
  | waiting (req : ViewRequest)
  | fetch (key : Bytes)
  | fill (key : Bytes) (loc : ObjectLocation)
  | publish (loc : ObjectLocation)
  | invalidate (key : Bytes)
  deriving DecidableEq, Repr

/-- One call of `inner_` or one section under `mu_`, and what is left to do. -/
def ViewCall.step (v : CachingMetadataView) : ViewCall → CachingMetadataView × Option ViewCall
  | .waiting (.lookup key) =>
      let (cache, hit) := v.cache.get key
      ({ v with cache := cache }, if hit.isSome then none else some (.fetch key))
  | .fetch key =>
      match v.inner.lookupObject key with
      | .ok loc => (v, some (.fill key loc))
      | .error _ => (v, none)
  | .fill key loc => ({ v with cache := v.cache.put key loc }, none)
  | .waiting (.register loc) =>
      let (inner, status) := v.inner.registerObject loc
      ({ v with inner := inner }, if status.isOk then some (.publish loc) else none)
  | .publish loc => ({ v with cache := v.cache.put loc.key loc }, none)
  | .waiting (.remove key) => ({ v with inner := (v.inner.removeObject key).1 }, some (.invalidate key))
  | .invalidate key => ({ v with cache := v.cache.erase key }, none)

structure ViewRun where
  view : CachingMetadataView
  calls : List ViewCall

inductive ViewAction where
  | call (req : ViewRequest)
  | step (k : ℕ)
  deriving DecidableEq, Repr

namespace ViewRun

def advance (s : ViewRun) (k : ℕ) (call : ViewCall) : ViewRun :=
  ⟨(call.step s.view).1, (call.step s.view).2.toList ++ s.calls.eraseIdx k⟩

def exec (s : ViewRun) : ViewAction → ViewRun
  | .call req => { s with calls := s.calls ++ [.waiting req] }
  | .step k => (s.calls[k]?).elim s (s.advance k)

/-- The view over any repository, with an empty cache. -/
def system (inner : MetadataRepository) (capacity : ℕ) (allowed : ViewRun → ViewAction → Prop) :
    System ViewRun := .guarded exec allowed ⟨.create inner capacity, []⟩

end ViewRun

/-- The key whose cache entry the call is about to write. -/
def ViewCall.unsettled : ViewCall → Option Bytes
  | .fill key _ => some key
  | .publish loc => some loc.key
  | _ => none

/-- The key that the next step of the call changes in the repository. -/
def ViewCall.mutates : ViewCall → Option Bytes
  | .waiting (.register loc) => some loc.key
  | .waiting (.remove key) => some key
  | _ => none

/-- No caller registers a tombstone. -/
def ViewAction.Live : ViewAction → Prop
  | .call (.register loc) => loc.deleted = false
  | _ => True

instance (act : ViewAction) : Decidable act.Live :=
  match act with
  | .call (.register loc) => inferInstanceAs (Decidable (loc.deleted = false))
  | .call (.lookup _) | .call (.remove _) | .step _ => isTrue trivial

/-- The repository changes a key only while no call still has to write the key's
cache entry. -/
def ViewRun.Settled (s : ViewRun) : ViewAction → Prop
  | .call _ => True
  | .step k => ∀ call ∈ s.calls[k]?, ∀ key ∈ call.mutates, ∀ other ∈ s.calls,
      other.unsettled ≠ some key

instance (s : ViewRun) (act : ViewAction) : Decidable (s.Settled act) :=
  match act with
  | .call _ => isTrue trivial
  | .step k => inferInstanceAs (Decidable (∀ call ∈ s.calls[k]?, ∀ key ∈ call.mutates,
      ∀ other ∈ s.calls, other.unsettled ≠ some key))

/-- Steps without interruption are the whole calls. -/
theorem ViewRun.run_uninterrupted (v : CachingMetadataView) :
    (∀ key, [.call (.lookup key), .step 0, .step 0, .step 0].foldl exec ⟨v, []⟩ =
      ⟨(v.lookupObject key).1, []⟩) ∧
    (∀ loc, [.call (.register loc), .step 0, .step 0].foldl exec ⟨v, []⟩ =
      ⟨(v.registerObject loc).1, []⟩) ∧
    ∀ key, [.call (.remove key), .step 0, .step 0].foldl exec ⟨v, []⟩ =
      ⟨(v.removeObject key).1, []⟩ := by
  refine ⟨fun key => ?_, fun loc => rfl, fun key => rfl⟩
  cases hit : (v.cache.get key).2 with
  | some loc => simp [exec, advance, ViewCall.step, CachingMetadataView.lookupObject, hit]
  | none =>
      cases found : v.inner.lookupObject key <;>
        simp [exec, advance, ViewCall.step, CachingMetadataView.lookupObject, hit, found]

/-! ## Coherence -/

/-- What a call carries to the cache is what the repository holds. -/
def ViewCall.Agrees (r : MetadataRepository) : ViewCall → Prop
  | .waiting (.register loc) => loc.deleted = false
  | .fill key loc => r.lookupObject key = .ok loc
  | .publish loc => r.lookupObject loc.key = .ok loc
  | _ => True

/-- The call will overwrite or erase whatever the cache has for the key. -/
def ViewCall.Replaces (key : Bytes) : ViewCall → Prop
  | .publish loc => loc.key = key
  | .invalidate k => k = key
  | _ => False

theorem ViewCall.Agrees.frame {r r' : MetadataRepository} {call : ViewCall} (agrees : call.Agrees r)
    (same : ∀ key, call.unsettled = some key → r'.lookupObject key = r.lookupObject key) :
    call.Agrees r' := by
  cases call with
  | waiting req => cases req <;> exact agrees
  | fetch key => trivial
  | fill key loc => exact (same key rfl).trans agrees
  | publish loc => exact (same loc.key rfl).trans agrees
  | invalidate key => trivial

namespace ViewRun

/-- A cache entry is current, or a call that replaces it is on its way. -/
structure Coherent (s : ViewRun) : Prop where
  wf : s.view.cache.Wf
  agrees : ∀ call ∈ s.calls, call.Agrees s.view.inner
  cached : ∀ key loc, (key, loc) ∈ s.view.cache.entries →
    s.view.inner.lookupObject key = .ok loc ∨ ∃ call ∈ s.calls, call.Replaces key

section Steps
variable {v : CachingMetadataView} {call : ViewCall} {rest : List ViewCall}

theorem Coherent.perm {calls : List ViewCall} (h : Coherent ⟨v, rest⟩) (perm : rest.Perm calls) :
    Coherent ⟨v, calls⟩ where
  wf := h.wf
  agrees := fun call member => h.agrees call (perm.mem_iff.mpr member)
  cached := by
    intro key loc member
    refine (h.cached key loc member).imp_right ?_
    rintro ⟨call, inside, replaces⟩
    exact ⟨call, perm.mem_iff.mp inside, replaces⟩

/-- A step that only touches the cache: every entry it leaves is current, or it
was there and is not the one that the call was to replace. -/
theorem Coherent.cacheStep (h : Coherent ⟨v, call :: rest⟩) {cache : LruCache Bytes ObjectLocation}
    (wf : cache.Wf) {next : List ViewCall} (fine : ∀ c ∈ next, c.Agrees v.inner)
    (entries : ∀ key loc, (key, loc) ∈ cache.entries → v.inner.lookupObject key = .ok loc ∨
      ((key, loc) ∈ v.cache.entries ∧ ¬call.Replaces key)) :
    Coherent ⟨{ v with cache := cache }, next ++ rest⟩ where
  wf := wf
  agrees := by
    intro c member
    rcases List.mem_append.mp member with new | old
    · exact fine c new
    · exact h.agrees c (List.mem_cons_of_mem _ old)
  cached := by
    intro key loc member
    rcases entries key loc member with current | ⟨old, other⟩
    · exact .inl current
    · refine (h.cached key loc old).imp_right ?_
      rintro ⟨c, inside, replaces⟩
      rcases List.mem_cons.mp inside with rfl | later
      · exact absurd replaces other
      · exact ⟨c, List.mem_append_right _ later, replaces⟩

/-- A step that changes one key of the repository while no other call has the
key's entry to settle. -/
theorem Coherent.innerStep (h : Coherent ⟨v, call :: rest⟩) {inner : MetadataRepository} {key : Bytes}
    (plain : ∀ k, ¬call.Replaces k) (settled : ∀ other ∈ rest, other.unsettled ≠ some key)
    (frame : ∀ k, key ≠ k → inner.lookupObject k = v.inner.lookupObject k) {next : ViewCall}
    (fine : next.Agrees inner) (replaces : next.Replaces key) :
    Coherent ⟨{ v with inner := inner }, next :: rest⟩ where
  wf := h.wf
  agrees := by
    intro c member
    rcases List.mem_cons.mp member with rfl | old
    · exact fine
    · refine (h.agrees c (List.mem_cons_of_mem _ old)).frame (fun k pending => frame k ?_)
      rintro rfl
      exact settled c old pending
  cached := by
    intro k loc member
    by_cases same : key = k
    · subst same
      exact .inr ⟨next, List.mem_cons_self, replaces⟩
    · have current : inner.lookupObject k = v.inner.lookupObject k := frame k same
      rw [current]
      refine (h.cached k loc member).imp_right ?_
      rintro ⟨c, inside, later⟩
      rcases List.mem_cons.mp inside with rfl | old
      · exact absurd later (plain k)
      · exact ⟨c, List.mem_cons_of_mem _ old, later⟩

theorem Coherent.step (h : Coherent ⟨v, call :: rest⟩)
    (settled : ∀ key ∈ call.mutates, ∀ other ∈ rest, other.unsettled ≠ some key) :
    Coherent ⟨(call.step v).1, (call.step v).2.toList ++ rest⟩ := by
  have own : call.Agrees v.inner := h.agrees call List.mem_cons_self
  -- what `put` leaves in the cache, once the location it puts is current
  have filled (key : Bytes) (loc : ObjectLocation) (current : v.inner.lookupObject key = .ok loc)
      (only : ∀ k, call.Replaces k → k = key) :
      Coherent ⟨{ v with cache := v.cache.put key loc }, [] ++ rest⟩ := by
    obtain ⟨wf, entries⟩ := LruCache.put_refines h.wf key loc
    refine h.cacheStep wf (List.forall_mem_nil _) (fun k l member => ?_)
    rw [entries] at member
    rcases AssocList.mem_insert member with ⟨rfl, rfl⟩ | ⟨ne, old⟩
    · exact .inl current
    · exact .inr ⟨old, fun replaces => ne (only k replaces)⟩
  cases call with
  | waiting req =>
      cases req with
      | lookup key =>
          obtain ⟨wf, entries, _⟩ := LruCache.get_refines h.wf key
          refine h.cacheStep wf (fun c member => ?_) (fun k loc member => ?_)
          · simp only [ViewCall.step] at member
            split at member
            · cases member
            · cases List.mem_singleton.mp member
              trivial
          · rw [entries] at member
            exact .inr ⟨AssocList.mem_touch member, id⟩
      | register loc =>
          exact h.innerStep (fun _ => id) (settled loc.key rfl)
            (fun k => MetadataRepository.lookupObject_registerObject_ne)
            (MetadataRepository.lookupObject_registerObject own) rfl
      | remove key =>
          exact h.innerStep (fun _ => id) (settled key rfl)
            (fun k => MetadataRepository.lookupObject_removeObject_ne) trivial rfl
  | fetch key =>
      have kept (next : List ViewCall) (fine : ∀ c ∈ next, c.Agrees v.inner) :
          Coherent ⟨v, next ++ rest⟩ :=
        h.cacheStep h.wf fine fun k loc member => .inr ⟨member, id⟩
      simp only [ViewCall.step]
      split
      · next loc found =>
          refine kept [.fill key loc] (fun c member => ?_)
          cases List.mem_singleton.mp member
          exact found
      · exact kept [] (List.forall_mem_nil _)
  | fill key loc => exact filled key loc own fun _ none => none.elim
  | publish loc => exact filled loc.key loc own fun _ same => same.symm
  | invalidate key =>
      obtain ⟨wf, entries⟩ := LruCache.erase_refines h.wf key
      refine h.cacheStep wf (List.forall_mem_nil _) (fun k loc member => ?_)
      rw [entries] at member
      obtain ⟨old, ne⟩ := AssocList.mem_remove.mp member
      exact .inr ⟨old, fun same => ne same.symm⟩

end Steps

theorem Coherent.exec {s : ViewRun} (h : s.Coherent) {act : ViewAction} (live : act.Live)
    (settled : s.Settled act) : (s.exec act).Coherent := by
  cases act with
  | call req =>
      refine ⟨h.wf, fun call member => ?_, fun key loc member => ?_⟩
      · rcases List.mem_append.mp member with old | new
        · exact h.agrees call old
        · cases List.mem_singleton.mp new
          cases req with
          | register loc => exact live
          | lookup key => trivial
          | remove key => trivial
      · refine (h.cached key loc member).imp_right ?_
        rintro ⟨call, inside, replaces⟩
        exact ⟨call, List.mem_append_left _ inside, replaces⟩
  | step k =>
      cases found : s.calls[k]? with
      | none => simpa only [ViewRun.exec, found, Option.elim] using h
      | some call =>
          obtain ⟨inside, rfl⟩ := List.getElem?_eq_some_iff.mp found
          have order := (List.getElem_cons_eraseIdx_perm inside).symm
          have stepped := (h.perm order).step (fun key mutates other later =>
            settled _ found key mutates other (List.mem_of_mem_eraseIdx later))
          simpa only [ViewRun.exec, found, Option.elim, advance] using stepped

theorem Coherent.create (inner : MetadataRepository) (capacity : ℕ) :
    Coherent ⟨.create inner capacity, []⟩ where
  wf := LruCache.create_wf capacity
  agrees := by
    intro call none
    cases none
  cached := by
    intro key loc none
    cases none

theorem reachable_coherent {inner : MetadataRepository} {capacity : ℕ} {s : ViewRun}
    (reachable : (system inner capacity fun s act => act.Live ∧ s.Settled act).Reachable s) :
    s.Coherent := by
  refine reachable.invariant ?_ ?_
  · rintro _ rfl
    exact Coherent.create inner capacity
  · rintro s _ _ coherent ⟨act, ⟨live, settled⟩, rfl⟩
    exact coherent.exec live settled

/-- With no call in progress a lookup answers what the repository would. -/
theorem Coherent.lookupObject_eq {v : CachingMetadataView} (h : Coherent ⟨v, []⟩) (key : Bytes) :
    (v.lookupObject key).2 = v.inner.lookupObject key := by
  obtain ⟨_, _, hit⟩ := LruCache.get_refines h.wf key
  simp only [CachingMetadataView.lookupObject, hit]
  cases found : AssocList.find v.cache.entries key with
  | some loc =>
      rcases h.cached key loc (AssocList.mem_of_find found) with current | ⟨call, inside, _⟩
      · exact current.symm
      · cases inside
  | none =>
      simp only
      split
      · next found => rw [found]
      · next failed => rw [failed]

/-- With no call in progress every cache entry is what the repository answers,
and so is every later lookup. -/
theorem quiet_coherent {inner : MetadataRepository} {capacity : ℕ} {s : ViewRun}
    (reachable : (system inner capacity fun s act => act.Live ∧ s.Settled act).Reachable s)
    (quiet : s.calls = []) :
    (∀ key loc, (key, loc) ∈ s.view.cache.entries → s.view.inner.lookupObject key = .ok loc) ∧
      ∀ key, (s.view.lookupObject key).2 = s.view.inner.lookupObject key := by
  have coherent := reachable_coherent reachable
  have current : ∀ key loc, (key, loc) ∈ s.view.cache.entries →
      s.view.inner.lookupObject key = .ok loc := by
    intro key loc member
    rcases coherent.cached key loc member with same | ⟨call, inside, _⟩
    · exact same
    · rw [quiet] at inside
      cases inside
  refine ⟨current, fun key => ?_⟩
  have alone : Coherent ⟨s.view, []⟩ := quiet ▸ coherent
  exact alone.lookupObject_eq key

/-! A key that is registered again while a lookup of it is under way. -/
section Sample

def located (version : ℕ) : ObjectLocation := ⟨text "k", version, [], 0, false, [text "a"]⟩

def onceRegistered : MetadataRepository := ((MetadataRepository.create 1).registerObject (located 1)).1

/-- The lookup is done before the second registration reaches the repository. -/
def lookupFirst : List ViewAction :=
  [.call (.lookup (text "k")), .call (.register (located 2)), .step 0, .step 0, .step 0, .step 0,
    .step 0]

/-- The lookup has read the repository and fills the cache last. -/
def fillLast : List ViewAction :=
  [.call (.lookup (text "k")), .call (.register (located 2)), .step 0, .step 0, .step 1, .step 0,
    .step 0]

def after (acts : List ViewAction) : ViewRun := acts.foldl exec ⟨.create onceRegistered 8, []⟩

end Sample

theorem quiet_coherent_lookupFirst :
    (after lookupFirst).calls = [] ∧
      (after lookupFirst).view.cache.entries = [(text "k", located 2)] ∧
      ((after lookupFirst).view.lookupObject (text "k")).2 =
        (after lookupFirst).view.inner.lookupObject (text "k") := by
  obtain ⟨along, quiet, entries⟩ :
      Along exec (fun s act => act.Live ∧ s.Settled act) ⟨.create onceRegistered 8, []⟩ lookupFirst ∧
        (after lookupFirst).calls = [] ∧
        (after lookupFirst).view.cache.entries = [(text "k", located 2)] := by decide +kernel
  have start : (system onceRegistered 8 fun s act => act.Live ∧ s.Settled act).Reachable
      ⟨.create onceRegistered 8, []⟩ := .start rfl
  exact ⟨quiet, entries, (quiet_coherent (start.along along) quiet).2 (text "k")⟩

/-- A lookup that overlaps a registration leaves the old location in the cache. -/
theorem fill_after_publish_stale :
    (system onceRegistered 8 fun _ act => act.Live).Reachable (after fillLast) ∧
      (after fillLast).calls = [] ∧
      ((after fillLast).view.lookupObject (text "k")).2 = .ok (located 1) ∧
      (after fillLast).view.inner.lookupObject (text "k") = .ok (located 2) := by
  obtain ⟨along, rest⟩ :
      Along exec (fun _ act => act.Live) ⟨.create onceRegistered 8, []⟩ fillLast ∧
        (after fillLast).calls = [] ∧
        ((after fillLast).view.lookupObject (text "k")).2 = .ok (located 1) ∧
        (after fillLast).view.inner.lookupObject (text "k") = .ok (located 2) := by decide +kernel
  have start : (system onceRegistered 8 fun _ act => act.Live).Reachable
      ⟨.create onceRegistered 8, []⟩ := .start rfl
  exact ⟨start.along along, rest⟩

end ViewRun

/-! ## Calls one after another -/

def ViewRequest.control : ViewRequest → ControlRequest
  | .lookup key => .lookupObject key
  | .register loc => .registerObject loc
  | .remove key => .removeObject key

namespace CachingMetadataView

def serve (v : CachingMetadataView) : ViewRequest → CachingMetadataView × ControlAnswer
  | .lookup key => ((v.lookupObject key).1, .location (v.lookupObject key).2)
  | .register loc => ((v.registerObject loc).1, .status (v.registerObject loc).2)
  | .remove key => ((v.removeObject key).1, .status (v.removeObject key).2)

/-- A whole call is its steps taken without interruption. -/
theorem serve_uninterrupted (v : CachingMetadataView) (req : ViewRequest) :
    ∃ n, (List.replicate n (ViewAction.step 0)).foldl ViewRun.exec
      (ViewRun.exec ⟨v, []⟩ (.call req)) = ⟨(v.serve req).1, []⟩ := by
  obtain ⟨lookup, register, remove⟩ := ViewRun.run_uninterrupted v
  cases req with
  | lookup key => exact ⟨3, lookup key⟩
  | register loc => exact ⟨2, register loc⟩
  | remove key => exact ⟨2, remove key⟩

/-- A call that is alone has no other call's entry to respect. -/
theorem alone_steps {s : ViewRun} (coherent : s.Coherent) (alone : s.calls.length ≤ 1) (n : ℕ) :
    ((List.replicate n (ViewAction.step 0)).foldl ViewRun.exec s).Coherent := by
  induction n generalizing s with
  | zero => exact coherent
  | succ n ih =>
      obtain ⟨view, calls⟩ := s
      cases calls with
      | nil => exact ih coherent alone
      | cons call rest =>
          obtain rfl : rest = [] :=
            List.eq_nil_of_length_eq_zero (Nat.le_zero.mp (Nat.le_of_succ_le_succ alone))
          have stepped := coherent.step (by
            intro key mutates other none
            cases none)
          rw [List.append_nil] at stepped
          apply ih
          · simpa [ViewRun.exec, ViewRun.advance] using stepped
          · cases left : (call.step view).2 <;> simp [ViewRun.exec, ViewRun.advance, left]

theorem serve_coherent {v : CachingMetadataView} (coherent : ViewRun.Coherent ⟨v, []⟩)
    {req : ViewRequest} (live : (ViewAction.call req).Live) :
    ViewRun.Coherent ⟨(v.serve req).1, []⟩ := by
  obtain ⟨n, run⟩ := v.serve_uninterrupted req
  rw [← run]
  exact alone_steps (coherent.exec live trivial) (Nat.le_refl 1) n

theorem serve_inner (v : CachingMetadataView) (req : ViewRequest) :
    (v.serve req).1.inner = (v.inner.serve req.control).1 := by
  cases req with
  | lookup key =>
      simp only [serve, lookupObject, ViewRequest.control, MetadataRepository.serve]
      split
      · rfl
      · split <;> rfl
  | register loc => rfl
  | remove key => rfl

theorem serve_answer {v : CachingMetadataView} (coherent : ViewRun.Coherent ⟨v, []⟩)
    (req : ViewRequest) : (v.serve req).2 = (v.inner.serve req.control).2 := by
  cases req with
  | lookup key => exact congrArg _ (coherent.lookupObject_eq key)
  | register loc => rfl
  | remove key => rfl

/-- Used by one caller at a time the view answers as the repository under it,
whatever the repository holds and however small the cache is. -/
theorem answers_eq_repository (inner : MetadataRepository) (capacity : ℕ) (reqs : List ViewRequest)
    (live : ∀ loc, .register loc ∈ reqs → loc.deleted = false) :
    outputs serve (.create inner capacity) reqs =
      outputs (fun r req => r.serve (ViewRequest.control req)) inner reqs := by
  have allowed : ∀ req ∈ reqs, (ViewAction.call req).Live := by
    intro req member
    cases req with
    | lookup key => trivial
    | register loc => exact live loc member
    | remove key => trivial
  -- the two stay in step while every cache entry is current
  apply (outputs_eq_iff (fun v r => v.inner = r ∧ ViewRun.Coherent ⟨v, []⟩)
    (fun _ _ => True) ?_ ?_ ⟨rfl, ViewRun.Coherent.create inner capacity⟩).mpr
  · exact Along.of_forall (fun _ _ _ => trivial) inner
  · rintro req member v _ ⟨rfl, coherent⟩
    exact ⟨serve_inner v req, serve_coherent coherent (allowed req member)⟩
  · rintro req member v _ ⟨rfl, coherent⟩
    exact iff_true_intro (serve_answer coherent req)

/-- A cache of one entry: the second registration pushes the first key out. -/
def evicting : List ViewRequest :=
  [.lookup (text "k"), .register { ViewRun.located 1 with key := text "b" }, .lookup (text "k"),
    .remove (text "b"), .lookup (text "b"), .remove (text "b")]

theorem answers_eq_repository_evicting :
    (∀ loc, .register loc ∈ evicting → loc.deleted = false) ∧
      outputs serve (.create ViewRun.onceRegistered 1) evicting =
        outputs (fun r req => r.serve (ViewRequest.control req)) ViewRun.onceRegistered evicting := by
  have live : ∀ loc, .register loc ∈ evicting → loc.deleted = false := by
    intro loc member
    simp only [evicting, List.mem_cons, List.not_mem_nil, ViewRequest.register.injEq, reduceCtorEq,
      false_or, or_false] at member
    rw [member]
    rfl
  exact ⟨live, answers_eq_repository ViewRun.onceRegistered 1 evicting live⟩

end CachingMetadataView
end Dos.ControlPlane
