import Mathlib.Data.List.Basic
import Mathlib.Data.Nat.Notation
import Mathlib.Tactic.Common

/-! A stream of symbols is cut into blocks of one size, and a state absorbs block
after block. What has arrived since the last whole block waits in a buffer. -/
namespace BlockStream

variable {σ α : Type*} (size : ℕ) (compress : σ → List α → σ)

/-- One more symbol. -/
def push (s : σ × List α) (a : α) : σ × List α :=
  if s.2.length + 1 = size then (compress s.1 (s.2 ++ [a]), []) else (s.1, s.2 ++ [a])

def absorb (s : σ × List α) (data : List α) : σ × List α := data.foldl (push size compress) s

/-- The whole blocks of a text. -/
def blocks (text : List α) : List (List α) :=
  (List.range (text.length / size)).map fun i => (text.drop (size * i)).take size

variable {size compress}

theorem absorb_append (s : σ × List α) (x y : List α) :
    absorb size compress s (x ++ y) = absorb size compress (absorb size compress s x) y :=
  List.foldl_append

/-- Symbols that do not fill the buffer are kept. -/
theorem absorb_short {state : σ} {buffer data : List α} (room : buffer.length + data.length < size) :
    absorb size compress (state, buffer) data = (state, buffer ++ data) := by
  induction data generalizing buffer with
  | nil => simp [absorb]
  | cons a data ih =>
      rw [List.length_cons] at room
      have open' : buffer.length + 1 ≠ size := by omega
      have later : (buffer ++ [a]).length + data.length < size := by
        rw [List.length_append, List.length_singleton]
        omega
      change absorb size compress (push size compress (state, buffer) a) data = _
      rw [push, if_neg open', ih later, List.append_assoc]
      rfl

/-- Symbols that fill the buffer make a block of it. -/
theorem absorb_fill {state : σ} {buffer data : List α} (some : data ≠ [])
    (full : buffer.length + data.length = size) :
    absorb size compress (state, buffer) data = (compress state (buffer ++ data), []) := by
  obtain ⟨lead, last, rfl⟩ := (List.eq_nil_or_concat' data).resolve_left some
  rw [List.length_append, List.length_singleton] at full
  have filled : (buffer ++ lead).length + 1 = size := by
    rw [List.length_append]
    omega
  have kept : absorb size compress (state, buffer) lead = (state, buffer ++ lead) := absorb_short (by omega)
  rw [absorb_append, kept]
  change push size compress (state, buffer ++ lead) last = _
  rw [push, if_pos filled, List.append_assoc]

/-- A buffer that starts short of a block stays so. -/
theorem length_absorb {s : σ × List α} (room : s.2.length < size) (data : List α) :
    (absorb size compress s data).2.length = (s.2.length + data.length) % size := by
  induction data generalizing s with
  | nil => exact (Nat.mod_eq_of_lt room).symm
  | cons a data ih =>
      change (absorb size compress (push size compress s a) data).2.length = _
      rw [List.length_cons]
      unfold push
      split
      · next filled =>
          rw [ih (by simp; omega)]
          have total : s.2.length + (data.length + 1) = size + data.length := by omega
          rw [total, Nat.add_mod_left]
          simp
      · next open' =>
          have later : (s.2 ++ [a]).length < size := by
            rw [List.length_append, List.length_singleton]
            omega
          rw [ih later, List.length_append, List.length_singleton]
          congr 1
          omega

theorem length_of_mem_blocks {text block : List α} (member : block ∈ blocks size text) : block.length = size := by
  obtain ⟨i, below, rfl⟩ := List.mem_map.mp member
  have whole := Nat.mul_le_of_le_div size (i + 1) text.length (List.mem_range.mp below)
  rw [List.length_take, List.length_drop]
  rw [Nat.mul_comm, Nat.mul_add] at whole
  omega

theorem blocks_append {block : List α} (whole : block.length = size) (positive : 0 < size) (text : List α) :
    blocks size (block ++ text) = block :: blocks size text := by
  have count : (block ++ text).length / size = text.length / size + 1 := by
    rw [List.length_append, whole, Nat.add_div_left _ positive]
  rw [blocks, count, List.range_succ_eq_map, List.map_cons, List.map_map]
  congr 1
  · rw [Nat.mul_zero, List.drop_zero, ← whole, List.take_left]
  · apply List.map_congr_left
    intro i _
    have skip : size * (i + 1) = block.length + size * i := by
      rw [whole, Nat.mul_add]
      omega
    change ((block ++ text).drop (size * (i + 1))).take size = _
    rw [skip, List.drop_length_add_append]

/-- A text of whole blocks is absorbed block by block and leaves nothing in the buffer. -/
theorem absorb_blocks (positive : 0 < size) {text : List α} {n : ℕ} (whole : text.length = size * n) (state : σ) :
    absorb size compress (state, []) text = ((blocks size text).foldl compress state, []) := by
  induction n generalizing text state with
  | zero =>
      rw [List.eq_nil_of_length_eq_zero whole]
      simp [absorb, blocks]
  | succ n ih =>
      rw [Nat.mul_add, Nat.mul_one] at whole
      have first : (text.take size).length = size := by
        rw [List.length_take]
        omega
      have some : text.take size ≠ [] := List.ne_nil_of_length_pos (by omega)
      have rest : (text.drop size).length = size * n := by
        rw [List.length_drop]
        omega
      have split := List.take_append_drop size text
      generalize text.take size = block at first some split
      generalize text.drop size = text' at rest split
      subst split
      rw [absorb_append, absorb_fill some (by simpa using first), List.nil_append, ih rest,
        blocks_append first positive]
      rfl

end BlockStream
