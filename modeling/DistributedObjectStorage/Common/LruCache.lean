import Mathlib.Data.Nat.Notation
import DistributedObjectStorage.Library.AssocList
import DistributedObjectStorage.Library.Transition

/-!
# The LRU cache

`order_` is a linked list whose nodes have addresses, `index_` maps a key to
the address of its node. What the two hold together is one list in order of
recency.
-/
namespace Dos

structure LruNode (K V : Type) where
  address : ℕ
  key : K
  value : V
  deriving DecidableEq, Repr

/-- `allocated` is the address that the next list node gets. -/
structure LruCache (K V : Type) where
  capacity : ℕ
  order : List (LruNode K V)
  index : List (K × ℕ)
  hits : ℕ
  misses : ℕ
  allocated : ℕ

namespace LruCache
variable {K V : Type}

def create (capacity : ℕ) : LruCache K V where
  capacity := if capacity = 0 then 1 else capacity
  order := []
  index := []
  hits := 0
  misses := 0
  allocated := 0

/-- `splice` of one node to the front of its own list. -/
def moveToFront (order : List (LruNode K V)) (address : ℕ) : List (LruNode K V) :=
  match order.find? (·.address = address) with
  | none => order
  | some node => node :: order.filter (·.address ≠ address)

variable [DecidableEq K]

def get (c : LruCache K V) (key : K) : LruCache K V × Option V :=
  match AssocList.find c.index key with
  | none => ({ c with misses := c.misses + 1 }, none)
  | some address =>
      ({ c with hits := c.hits + 1, order := moveToFront c.order address },
        (c.order.find? (·.address = address)).map (·.value))

def assign (order : List (LruNode K V)) (address : ℕ) (value : V) : List (LruNode K V) :=
  order.map fun node => if node.address = address then { node with value := value } else node

def put (c : LruCache K V) (key : K) (value : V) : LruCache K V :=
  match AssocList.find c.index key with
  | some address => { c with order := moveToFront (assign c.order address value) address }
  | none =>
      let c :=
        { c with
          order := ⟨c.allocated, key, value⟩ :: c.order
          index := (key, c.allocated) :: c.index
          allocated := c.allocated + 1 }
      if c.capacity < c.index.length then
        match c.order.getLast? with
        | none => c
        | some evict =>
            { c with index := AssocList.remove c.index evict.key, order := c.order.dropLast }
      else c

def erase (c : LruCache K V) (key : K) : LruCache K V :=
  match AssocList.find c.index key with
  | none => c
  | some address =>
      { c with
        order := c.order.filter (·.address ≠ address)
        index := AssocList.remove c.index key }

def clear (c : LruCache K V) : LruCache K V := { c with order := [], index := [] }

def contains (c : LruCache K V) (key : K) : Bool := (AssocList.find c.index key).isSome

def size (c : LruCache K V) : ℕ := c.index.length

/-! ## What the cache holds -/

section Contents
omit [DecidableEq K]

/-- The entries, most recently used first. -/
def entries (c : LruCache K V) : List (K × V) := c.order.map fun node => (node.key, node.value)

/-- The index names every node once, by its key. -/
structure Wf (c : LruCache K V) : Prop where
  addresses : (c.order.map (·.address)).Nodup
  keys : (c.order.map (·.key)).Nodup
  indexed : c.index.Perm (c.order.map fun node => (node.key, node.address))
  below : ∀ node ∈ c.order, node.address < c.allocated

theorem create_wf (capacity : ℕ) : (create capacity : LruCache K V).Wf where
  addresses := List.nodup_nil
  keys := List.nodup_nil
  indexed := .nil
  below := List.forall_mem_nil _

theorem clear_wf (c : LruCache K V) : c.clear.Wf where
  addresses := List.nodup_nil
  keys := List.nodup_nil
  indexed := .nil
  below := List.forall_mem_nil _

/-- The cache is well formed and holds the list, which fits. -/
structure Represents (capacity : ℕ) (c : LruCache K V) (l : List (K × V)) : Prop where
  wf : c.Wf
  holds : c.entries = l
  fits : l.length ≤ capacity
  limit : c.capacity = capacity

theorem Represents.create (capacity : ℕ) :
    Represents (max 1 capacity) (create capacity : LruCache K V) [] where
  wf := create_wf capacity
  holds := rfl
  fits := Nat.zero_le _
  limit := by
    change (if capacity = 0 then 1 else capacity) = max 1 capacity
    split <;> omega

section Wf
variable {c : LruCache K V} {node : LruNode K V} {key : K} (wf : c.Wf)
include wf

theorem Wf.distinct : AssocList.Distinct c.entries := by
  have same : c.entries.map (·.1) = c.order.map (·.key) := by simp [entries]
  rw [AssocList.Distinct, same]
  exact wf.keys

theorem Wf.length : c.index.length = c.entries.length := by
  simpa [entries] using wf.indexed.length_eq

theorem Wf.find_node (member : node ∈ c.order) :
    c.order.find? (·.address = node.address) = some node := by
  cases found : c.order.find? (·.address = node.address) with
  | none => exact absurd (by simp) (List.find?_eq_none.mp found node member)
  | some other =>
      have same : other.address = node.address := by simpa using List.find?_some found
      rw [List.inj_on_of_nodup_map wf.addresses (List.mem_of_find?_eq_some found) member same]

variable [DecidableEq K]

/-- The index answers with the address of the node of the key. -/
theorem Wf.find_index {address : ℕ} :
    AssocList.find c.index key = some address ↔
      ∃ node ∈ c.order, node.key = key ∧ node.address = address := by
  have distinct : AssocList.Distinct c.index := by
    have same := wf.indexed.map Prod.fst
    rw [List.map_map] at same
    exact same.nodup_iff.mpr wf.keys
  rw [distinct.find_iff, wf.indexed.mem_iff]
  simp

theorem Wf.find_absent (absent : AssocList.find c.index key = none) :
    key ∉ c.order.map (·.key) := by
  intro member
  obtain ⟨node, inside, same⟩ := List.mem_map.mp member
  rw [wf.find_index.mpr ⟨node, inside, same, rfl⟩] at absent
  cases absent

theorem Wf.find_absent_entries (absent : AssocList.find c.index key = none) :
    AssocList.find c.entries key = none := by
  refine AssocList.find_none.mpr (fun value member => ?_)
  obtain ⟨node, inside, same⟩ := List.mem_map.mp member
  exact wf.find_absent absent (List.mem_map.mpr ⟨node, inside, (Prod.mk.inj same).1⟩)

theorem Wf.find_entry (member : node ∈ c.order) :
    AssocList.find c.entries node.key = some node.value :=
  wf.distinct.find_iff.mpr (List.mem_map.mpr ⟨node, member, rfl⟩)

/-- A node can be told by its address or by its key. -/
theorem Wf.filter_address (member : node ∈ c.order) :
    c.order.filter (·.address ≠ node.address) = c.order.filter (·.key ≠ node.key) := by
  refine List.filter_congr (fun other inside => ?_)
  have told : other.address = node.address ↔ other.key = node.key := by
    constructor
    · intro same
      rw [List.inj_on_of_nodup_map wf.addresses inside member same]
    · intro same
      rw [List.inj_on_of_nodup_map wf.keys inside member same]
  simp [told]

omit wf in
theorem entries_filter (order : List (LruNode K V)) (key : K) :
    (order.filter (·.key ≠ key)).map (fun node => (node.key, node.value)) =
      AssocList.remove (order.map fun node => (node.key, node.value)) key := by
  rw [AssocList.remove, List.filter_map]
  rfl

omit wf in
theorem entries_front (order : List (LruNode K V)) (node : LruNode K V) (value : V) :
    ({ node with value := value } :: order.filter (·.key ≠ node.key)).map
        (fun node => (node.key, node.value)) =
      (node.key, value) :: AssocList.remove (order.map fun node => (node.key, node.value)) node.key := by
  rw [List.map_cons, entries_filter]

theorem Wf.without (key : K) :
    Wf { c with
      order := c.order.filter (·.key ≠ key)
      index := AssocList.remove c.index key } where
  addresses := wf.addresses.sublist (List.filter_sublist.map _)
  keys := wf.keys.sublist (List.filter_sublist.map _)
  indexed := by
    have kept := wf.indexed.filter (fun entry => decide (entry.1 ≠ key))
    rw [List.filter_map] at kept
    exact kept
  below := fun node member => wf.below node (List.mem_filter.mp member).1

theorem Wf.perm_front (member : node ∈ c.order) :
    c.order.Perm (node :: c.order.filter (·.key ≠ node.key)) := by
  have whole : c.order.Nodup := wf.keys.of_map
  have fresh : (node :: c.order.filter (·.key ≠ node.key)).Nodup := by
    refine List.nodup_cons.mpr ⟨?_, whole.filter _⟩
    simp
  refine (List.perm_ext_iff_of_nodup whole fresh).mpr (fun other => ?_)
  simp only [List.mem_cons, List.mem_filter, decide_eq_true_eq]
  constructor
  · intro inside
    by_cases same : other.key = node.key
    · exact .inl (List.inj_on_of_nodup_map wf.keys inside member same)
    · exact .inr ⟨inside, same⟩
  · rintro (rfl | ⟨inside, _⟩)
    · exact member
    · exact inside

/-- The node of a hit in front of the others, with the value it is to have. -/
theorem Wf.front (member : node ∈ c.order) (value : V) (hits : ℕ) :
    Wf { c with
      order := { node with value := value } :: c.order.filter (·.key ≠ node.key), hits := hits } where
  addresses := by
    refine List.nodup_cons.mpr ⟨?_, wf.addresses.sublist (List.filter_sublist.map _)⟩
    simp only [← wf.filter_address member]
    simp
  keys := by
    refine List.nodup_cons.mpr ⟨?_, wf.keys.sublist (List.filter_sublist.map _)⟩
    simp
  indexed := wf.indexed.trans ((wf.perm_front member).map _)
  below := by
    intro other inside
    rcases List.mem_cons.mp inside with rfl | rest
    · exact wf.below node member
    · exact wf.below other (List.mem_filter.mp rest).1

/-- A node for a key that has none. -/
theorem Wf.push (absent : AssocList.find c.index key = none) (value : V) :
    Wf { c with
      order := ⟨c.allocated, key, value⟩ :: c.order
      index := (key, c.allocated) :: c.index
      allocated := c.allocated + 1 } where
  addresses := by
    refine List.nodup_cons.mpr ⟨fun member => ?_, wf.addresses⟩
    obtain ⟨node, inside, same⟩ := List.mem_map.mp member
    exact absurd same (Nat.ne_of_lt (wf.below node inside))
  keys := List.nodup_cons.mpr ⟨wf.find_absent absent, wf.keys⟩
  indexed := wf.indexed.cons _
  below := by
    intro node inside
    rcases List.mem_cons.mp inside with rfl | old
    · exact Nat.lt_succ_self _
    · exact Nat.lt_succ_of_lt (wf.below node old)

/-- The last node is the only one of its key. -/
theorem Wf.dropLast_eq (last : c.order.getLast? = some node) :
    c.order.dropLast = c.order.filter (·.key ≠ node.key) := by
  obtain ⟨front, split⟩ := List.getLast?_eq_some_iff.mp last
  have keys := wf.keys
  rw [split] at keys ⊢
  have others : front.filter (·.key ≠ node.key) = front := by
    refine List.filter_eq_self.mpr (fun other inside => ?_)
    rw [List.map_append, List.nodup_append] at keys
    simpa using keys.2.2 other.key (List.mem_map_of_mem inside) node.key (by simp)
  rw [List.dropLast_concat, List.filter_append, others]
  simp

/-! ## The cache is a list in order of recency -/

theorem Wf.moveToFront_eq (member : node ∈ c.order) :
    moveToFront c.order node.address = node :: c.order.filter (·.key ≠ node.key) := by
  simp only [moveToFront, wf.find_node member, wf.filter_address member]

theorem Wf.moveToFront_assign (member : node ∈ c.order) (value : V) :
    moveToFront (assign c.order node.address value) node.address =
      { node with value := value } :: c.order.filter (·.key ≠ node.key) := by
  have address (other : LruNode K V) : (if other.address = node.address then
      { other with value := value } else other).address = other.address := by
    split <;> rfl
  have others : (c.order.filter (·.key ≠ node.key)).map (fun other =>
      if other.address = node.address then { other with value := value } else other) =
      c.order.filter (·.key ≠ node.key) := by
    rw [← wf.filter_address member, List.map_congr_left (g := id), List.map_id]
    intro other inside
    have differs : other.address ≠ node.address := by simpa using (List.mem_filter.mp inside).2
    simp [differs]
  simp only [moveToFront, assign, List.find?_map, List.filter_map, Function.comp_def, address,
    wf.find_node member, Option.map_some, others, wf.filter_address member, if_true]

theorem get_refines (key : K) :
    (c.get key).1.Wf ∧ (c.get key).1.entries = AssocList.touch c.entries key ∧
      (c.get key).2 = AssocList.find c.entries key := by
  unfold get
  cases found : AssocList.find c.index key with
  | none =>
      have missing := wf.find_absent_entries found
      refine ⟨⟨wf.addresses, wf.keys, wf.indexed, wf.below⟩, ?_, missing.symm⟩
      simp only [AssocList.touch, missing]
      rfl
  | some address =>
      obtain ⟨node, member, rfl, rfl⟩ := wf.find_index.mp found
      simp only [wf.moveToFront_eq member, wf.find_node member, Option.map_some]
      refine ⟨wf.front member node.value (c.hits + 1), ?_, (wf.find_entry member).symm⟩
      simp only [AssocList.touch, wf.find_entry member]
      exact entries_front c.order node node.value

theorem put_refines (key : K) (value : V) :
    (c.put key value).Wf ∧
      (c.put key value).entries = AssocList.insert c.capacity c.entries key value := by
  unfold put
  cases found : AssocList.find c.index key with
  | some address =>
      obtain ⟨node, member, rfl, rfl⟩ := wf.find_index.mp found
      simp only [wf.moveToFront_assign member]
      refine ⟨wf.front member value c.hits, ?_⟩
      simp only [AssocList.insert, wf.find_entry member, Option.isSome_some, if_true]
      exact entries_front c.order node value
  | none =>
      have missing := wf.find_absent_entries found
      have pushed := wf.push found value
      have longer : c.index.length + 1 = c.entries.length + 1 := by rw [wf.length]
      simp only [AssocList.insert, missing, List.length_cons, longer]
      split
      · cases last : (⟨c.allocated, key, value⟩ :: c.order).getLast? with
        | none => simp at last
        | some evict =>
            simp only
            refine ⟨?_, List.map_dropLast ..⟩
            rw [pushed.dropLast_eq last]
            exact pushed.without evict.key
      · exact ⟨pushed, rfl⟩

theorem erase_refines (key : K) :
    (c.erase key).Wf ∧ (c.erase key).entries = AssocList.remove c.entries key := by
  unfold erase
  cases found : AssocList.find c.index key with
  | none =>
      refine ⟨wf, ?_⟩
      have missing := AssocList.find_none.mp (wf.find_absent_entries found)
      refine (List.filter_eq_self.mpr (fun entry member => ?_)).symm
      rw [decide_eq_true_iff]
      rintro rfl
      exact missing entry.2 member
  | some address =>
      obtain ⟨node, member, rfl, rfl⟩ := wf.find_index.mp found
      simp only [wf.filter_address member]
      exact ⟨wf.without node.key, entries_filter _ _⟩

theorem contains_refines (key : K) :
    c.contains key = (AssocList.find c.entries key).isSome := by
  unfold contains
  cases found : AssocList.find c.index key with
  | none => simp [wf.find_absent_entries found]
  | some address =>
      obtain ⟨node, member, rfl, rfl⟩ := wf.find_index.mp found
      simp [wf.find_entry member]

end Wf
end Contents

/-! ## Runs -/

section Runs
open Transition

inductive Request (K V : Type) where
  | get (key : K)
  | put (key : K) (value : V)
  | erase (key : K)
  | clear
  deriving DecidableEq, Repr

/-- Only `Get` answers. -/
def serve (c : LruCache K V) : Request K V → LruCache K V × Option V
  | .get key => c.get key
  | .put key value => (c.put key value, none)
  | .erase key => (c.erase key, none)
  | .clear => (c.clear, none)

/-- The reference keeps one association list, most recently used first. -/
def reference (capacity : ℕ) (l : List (K × V)) : Request K V → List (K × V) × Option V
  | .get key => (AssocList.touch l key, AssocList.find l key)
  | .put key value => (AssocList.insert capacity l key value, none)
  | .erase key => (AssocList.remove l key, none)
  | .clear => ([], none)

def served (capacity : ℕ) (reqs : List (Request K V)) : LruCache K V :=
  reqs.foldl (fun c req => (c.serve req).1) (create capacity)

def referenced (capacity : ℕ) (reqs : List (Request K V)) : List (K × V) :=
  reqs.foldl (fun l req => (reference capacity l req).1) []

variable {capacity : ℕ} {c : LruCache K V} {l : List (K × V)}

theorem put_capacity (c : LruCache K V) (key : K) (value : V) : (c.put key value).capacity = c.capacity := by
  unfold put
  split
  · rfl
  · dsimp only
    split
    · split <;> rfl
    · rfl

/-- The step lemma. -/
theorem Represents.serve (rep : Represents capacity c l) (req : Request K V) :
    Represents capacity (c.serve req).1 (reference capacity l req).1 ∧
      (c.serve req).2 = (reference capacity l req).2 := by
  obtain ⟨wf, rfl, fits, rfl⟩ := rep
  cases req with
  | get key =>
      obtain ⟨kept, moved, answer⟩ := get_refines wf key
      refine ⟨⟨kept, moved, Nat.le_trans AssocList.length_touch_le fits, ?_⟩, answer⟩
      change (c.get key).1.capacity = c.capacity
      unfold get
      split <;> rfl
  | put key value =>
      obtain ⟨kept, moved⟩ := put_refines wf key value
      exact ⟨⟨kept, moved, AssocList.length_insert_le fits, put_capacity c key value⟩, rfl⟩
  | erase key =>
      obtain ⟨kept, moved⟩ := erase_refines wf key
      refine ⟨⟨kept, moved, Nat.le_trans (List.length_filter_le _ _) fits, ?_⟩, rfl⟩
      change (c.erase key).capacity = c.capacity
      unfold erase
      split <;> rfl
  | clear => exact ⟨⟨clear_wf c, rfl, Nat.zero_le _, rfl⟩, rfl⟩

/-- The run lemma. -/
theorem Represents.run (rep : Represents capacity c l) (reqs : List (Request K V)) :
    Represents capacity (reqs.foldl (fun c req => (c.serve req).1) c)
      (reqs.foldl (fun l req => (reference capacity l req).1) l) := by
  induction reqs generalizing c l with
  | nil => exact rep
  | cons req reqs ih => exact ih (rep.serve req).1

/-- The cache refines the list in order of recency: its two structures stay in
step, and what it answers is what the list answers. -/
theorem refines_recency_list (capacity : ℕ) (reqs : List (Request K V)) :
    ((served capacity reqs).order.map (·.key)).Nodup ∧
    (∀ key, key ∈ (served capacity reqs).order.map (·.key) ↔ key ∈ (served capacity reqs).index.map (·.1)) ∧
    (∀ entry ∈ (served capacity reqs).index, ∃ node,
      (served capacity reqs).order.find? (·.address = entry.2) = some node ∧ node.key = entry.1) ∧
    (served capacity reqs).size ≤ (served capacity reqs).capacity ∧
    outputs serve (create capacity) reqs = outputs (reference (max 1 capacity)) [] reqs ∧
    (∀ key, (served capacity reqs).contains key =
      (AssocList.find (referenced (max 1 capacity) reqs) key).isSome) ∧
    (served capacity reqs).size = (referenced (max 1 capacity) reqs).length := by
  have rep : Represents (max 1 capacity) (served capacity reqs) (referenced (max 1 capacity) reqs) :=
    (Represents.create capacity).run reqs
  have answers : outputs serve (LruCache.create capacity) reqs = outputs (reference (max 1 capacity)) [] reqs :=
    outputs_eq (Represents (max 1 capacity)) (fun req _ c l rep => rep.serve req) (.create capacity)
  have size : (served capacity reqs).size = (referenced (max 1 capacity) reqs).length := by
    rw [LruCache.size, rep.wf.length, rep.holds]
  refine ⟨rep.wf.keys, fun key => ?_, fun entry member => ?_, ?_, answers, fun key => ?_, size⟩
  · rw [(rep.wf.indexed.map Prod.fst).mem_iff, List.map_map]
    rfl
  · obtain ⟨node, inside, rfl⟩ := List.mem_map.mp (rep.wf.indexed.mem_iff.mp member)
    exact ⟨node, rep.wf.find_node inside, rfl⟩
  · rw [size, rep.limit]
    exact rep.fits
  · rw [contains_refines rep.wf, rep.holds]

end Runs
end LruCache
end Dos
