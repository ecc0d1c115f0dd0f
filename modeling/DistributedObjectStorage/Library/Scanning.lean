import Mathlib.Data.List.Basic
import Mathlib.Data.Nat.Notation

/-!
# Text that arrives in blocks

The first occurrence of a pattern, lines and words of a text, and a buffer that
grows block by block until it satisfies a test.
-/
namespace Scanning
variable {α : Type*}

/-! ## The first occurrence of a pattern -/

section Find
variable [DecidableEq α] {needle s whole : List α}

/-- Where the pattern starts for the first time. -/
def find (needle : List α) : List α → Option ℕ
  | [] => if needle = [] then some 0 else none
  | a :: s => if needle <+: a :: s then some 0 else (find needle s).map (· + 1)

theorem find_start (start : needle <+: s) : find needle s = some 0 := by
  cases s with
  | nil =>
      rw [find, if_pos (List.prefix_nil.mp start)]
  | cons a s =>
      rw [find, if_pos start]

theorem find_short (short : s.length < needle.length) : find needle s = none := by
  induction s with
  | nil =>
      rw [find, if_neg (List.ne_nil_of_length_pos short)]
  | cons a s ih =>
      have long : ¬ needle <+: a :: s := fun start => Nat.not_le_of_lt short start.length_le
      rw [find, if_neg long, ih (Nat.lt_of_succ_lt short), Option.map_none]

/-- The occurrence is inside the text. -/
theorem find_le {i : ℕ} (found : find needle s = some i) : i + needle.length ≤ s.length := by
  induction s generalizing i with
  | nil =>
      rw [find] at found
      split at found
      · next none =>
          cases found
          rw [none]
          exact Nat.le.refl
      · cases found
  | cons a s ih =>
      rw [find] at found
      split at found
      · next start =>
          cases found
          rw [Nat.zero_add]
          exact start.length_le
      · obtain ⟨j, later, rfl⟩ := Option.map_eq_some_iff.mp found
        have inside := ih later
        rw [List.length_cons]
        omega

/-- A text known only up to some point shows the pattern once it is all there. -/
theorem find_cut {i : ℕ} (found : find needle whole = some i) (cut : s <+: whole) :
    find needle s = if i + needle.length ≤ s.length then some i else none := by
  induction s generalizing whole i with
  | nil =>
      cases needle with
      | nil =>
          rw [find_start (List.nil_prefix ..)] at found
          cases found
          rfl
      | cons a needle => rfl
  | cons a s ih =>
      obtain ⟨rest, rfl⟩ := cut
      by_cases start : needle <+: a :: s ++ rest
      · rw [find_start start] at found
        cases found
        rw [Nat.zero_add]
        by_cases enough : needle.length ≤ (a :: s).length
        · rw [if_pos enough]
          exact find_start (List.prefix_of_prefix_length_le start (List.prefix_append ..) enough)
        · rw [if_neg enough]
          exact find_short (Nat.lt_of_not_le enough)
      · rw [List.cons_append] at found start
        rw [find, if_neg start] at found
        obtain ⟨j, later, rfl⟩ := Option.map_eq_some_iff.mp found
        have notYet : ¬ needle <+: a :: s := fun first => start (first.trans (List.prefix_append ..))
        rw [find, if_neg notYet, ih later (List.prefix_append ..)]
        simp only [List.length_cons]
        split <;> split <;> simp <;> omega

theorem exists_find (inside : needle <:+: s) : ∃ i, find needle s = some i := by
  obtain ⟨lead, rest, rfl⟩ := inside
  rw [List.append_assoc]
  induction lead with
  | nil => exact ⟨0, find_start (List.prefix_append ..)⟩
  | cons a lead ih =>
      obtain ⟨i, found⟩ := ih
      rw [List.cons_append, find, found]
      split
      · exact ⟨0, rfl⟩
      · exact ⟨i + 1, rfl⟩

theorem isInfix_of_find {i : ℕ} (found : find needle s = some i) : needle <:+: s := by
  induction s generalizing i with
  | nil =>
      rw [find] at found
      split at found
      · next none => exact none ▸ List.infix_rfl
      · cases found
  | cons a s ih =>
      rw [find] at found
      split at found
      · next start => exact start.isInfix
      · obtain ⟨j, later, -⟩ := Option.map_eq_some_iff.mp found
        exact (ih later).trans (List.suffix_cons a s).isInfix

/-- What is nowhere in a text is nowhere in its beginnings. -/
theorem find_none_cut (absent : find needle whole = none) (cut : s <+: whole) : find needle s = none := by
  cases found : find needle s with
  | none => rfl
  | some i =>
      obtain ⟨j, present⟩ := exists_find ((isInfix_of_find found).trans cut.isInfix)
      cases absent.symm.trans present

/-- No occurrence starts where the first symbol of the pattern is missing. -/
theorem find_append {a : α} {lead : List α} (absent : a ∉ lead) (needle s : List α) :
    find (a :: needle) (lead ++ s) = (find (a :: needle) s).map (· + lead.length) := by
  induction lead with
  | nil => simp
  | cons b lead ih =>
      rw [List.mem_cons, not_or] at absent
      obtain ⟨other, absent⟩ := absent
      have notHere : ¬ a :: needle <+: b :: (lead ++ s) := by
        intro start
        exact other (List.cons_prefix_cons.mp start).1
      rw [List.cons_append, find, if_neg notHere, ih absent, Option.map_map]
      rfl

end Find

/-! ## Lines and words -/

section Lines
variable [DecidableEq α] {sep : α} {line : List α}

/-- The lines that reading up to the separator gives until the text is used up. -/
def lines (sep : α) : List α → List (List α)
  | [] => []
  | a :: s =>
      if a = sep then [] :: lines sep s
      else match lines sep s with
        | [] => [[a]]
        | line :: rest => (a :: line) :: rest

theorem lines_cut (single : sep ∉ line) (s : List α) :
    lines sep (line ++ sep :: s) = line :: lines sep s := by
  induction line with
  | nil => simp [lines]
  | cons a line ih =>
      rw [List.mem_cons, not_or] at single
      obtain ⟨other, single⟩ := single
      rw [List.cons_append, lines, if_neg (Ne.symm other), ih single]

/-- A text that is printed line by line. -/
theorem mem_lines_flatMap {β : Type} {print : β → List α} {xs : List β}
    (ended : ∀ x ∈ xs, ∃ line, sep ∉ line ∧ print x = line ++ [sep]) :
    line ∈ lines sep (xs.flatMap print) ↔ ∃ x ∈ xs, sep ∉ line ∧ print x = line ++ [sep] := by
  induction xs with
  | nil => simp [lines]
  | cons x xs ih =>
      obtain ⟨⟨first, single, text⟩, ended⟩ := List.forall_mem_cons.mp ended
      have here : line = first ↔ sep ∉ line ∧ print x = line ++ [sep] := by
        rw [text, List.append_left_inj]
        exact ⟨fun same => ⟨same ▸ single, same.symm⟩, fun same => same.2.symm⟩
      rw [List.flatMap_cons, text, List.append_assoc, List.singleton_append, lines_cut single, List.mem_cons, here,
        ih ended, List.exists_mem_cons_iff]

theorem lines_last (single : sep ∉ line) (some : line ≠ []) : lines sep line = [line] := by
  induction line with
  | nil => exact absurd rfl some
  | cons a line ih =>
      rw [List.mem_cons, not_or] at single
      obtain ⟨other, single⟩ := single
      rw [lines, if_neg (Ne.symm other)]
      cases line with
      | nil => rfl
      | cons b line => rw [ih single (List.cons_ne_nil b line)]

theorem lines_cons (a : α) (s : List α) :
    lines sep (a :: s) =
      if a = sep then [] :: lines sep s
      else match lines sep s with
        | [] => [[a]]
        | line :: rest => (a :: line) :: rest := rfl

theorem lines_ne_nil (a : α) (s : List α) : lines sep (a :: s) ≠ [] := by
  rw [lines_cons]
  split
  · exact List.cons_ne_nil _ _
  · split <;> exact List.cons_ne_nil _ _

/-- A text that ends with a separator does not share its last line. -/
theorem lines_append {s : List α} (ended : s = [] ∨ s.getLast? = some sep) (t : List α) :
    lines sep (s ++ t) = lines sep s ++ lines sep t := by
  induction s with
  | nil => rfl
  | cons a s ih =>
      cases s with
      | nil =>
          have last : a = sep := by simpa using ended
          simp [lines, last]
      | cons b s =>
          have later := ih (.inr (by simpa using ended))
          rw [List.cons_append, lines_cons, later, lines_cons a (b :: s)]
          by_cases stop : a = sep
          · rw [if_pos stop, if_pos stop, List.cons_append]
          · rw [if_neg stop, if_neg stop]
            cases split : lines sep (b :: s) with
            | nil => exact absurd split (lines_ne_nil b s)
            | cons line rest => rfl

theorem headD_lines (sep : α) (s : List α) : (lines sep s).headD [] = s.takeWhile (· ≠ sep) := by
  induction s with
  | nil => rfl
  | cons a s ih =>
      by_cases stop : a = sep
      · simp [lines, stop]
      · rw [lines, if_neg stop, List.takeWhile_cons_of_pos (by simpa using stop), ← ih]
        cases lines sep s with
        | nil => rfl
        | cons line rest => rfl

end Lines

section Words
variable {space : α → Bool} {word tail : List α}

/-- The next word, and what follows it. -/
def nextWord (space : α → Bool) (s : List α) : List α × List α :=
  ((s.dropWhile space).takeWhile (! space ·), (s.dropWhile space).dropWhile (! space ·))

/-- No word goes on at the start of the text. -/
def Boundary (space : α → Bool) (s : List α) : Prop := ∀ a, s.head? = some a → space a = true

theorem Boundary.cut {s : List α} (boundary : Boundary space tail) (cut : s <+: tail) : Boundary space s := by
  intro a first
  obtain ⟨rest, rfl⟩ := cut
  apply boundary a
  rw [List.head?_append, first]
  rfl

/-- A word that is read to its end is followed by no more of it. -/
theorem boundary_dropWhile {a : α} (blank : space a = true) (s t : List α) :
    Boundary space (s.dropWhile (! space ·) ++ a :: t) := by
  intro b first
  induction s with
  | nil =>
      cases first
      exact blank
  | cons c s ih =>
      by_cases stop : space c = true
      · rw [List.dropWhile_cons_of_neg (by simp [stop])] at first
        cases first
        exact stop
      · rw [List.dropWhile_cons_of_pos (by simp [stop])] at first
        exact ih first

theorem nextWord_space {a : α} (blank : space a = true) (s : List α) :
    nextWord space (a :: s) = nextWord space s := by
  simp [nextWord, blank]

theorem nextWord_word (solid : ∀ a ∈ word, space a = false) (some : word ≠ [])
    (boundary : Boundary space tail) : nextWord space (word ++ tail) = (word, tail) := by
  have start : (word ++ tail).dropWhile space = word ++ tail := by
    cases word with
    | nil => exact absurd rfl some
    | cons a word => simp [solid a List.mem_cons_self]
  have inside : ∀ a ∈ word, (! space a) = true := by
    intro a member
    rw [solid a member]
    rfl
  have stop : tail.takeWhile (! space ·) = [] ∧ tail.dropWhile (! space ·) = tail := by
    cases tail with
    | nil => exact ⟨rfl, rfl⟩
    | cons a tail => simp [boundary a rfl]
  rw [nextWord, start, List.takeWhile_append_of_pos inside, List.dropWhile_append_of_pos inside, stop.1,
    stop.2, List.append_nil]

end Words

/-! ## Reading block by block -/

section Blocks
variable {done done' : List α → Bool} {buf : List α} {blocks : List (List α)} {goal : ℕ}

/-- Append blocks to the buffer until it passes the test or no block is left. -/
def readUntil (done : List α → Bool) : List α → List (List α) → List α × List (List α)
  | buf, [] => (buf, [])
  | buf, block :: blocks =>
      if done buf then (buf, block :: blocks) else readUntil done (buf ++ block) blocks

/-- Nothing is lost and nothing is read twice. -/
theorem readUntil_append (done : List α → Bool) (buf : List α) (blocks : List (List α)) :
    (readUntil done buf blocks).1 ++ (readUntil done buf blocks).2.flatten = buf ++ blocks.flatten := by
  induction blocks generalizing buf with
  | nil => rfl
  | cons block blocks ih =>
      rw [readUntil]
      split
      · rfl
      · rw [ih, List.flatten_cons, List.append_assoc]

theorem readUntil_stop (done : List α → Bool) (buf : List α) (blocks : List (List α)) :
    done (readUntil done buf blocks).1 = true ∨ (readUntil done buf blocks).2 = [] := by
  induction blocks generalizing buf with
  | nil => exact .inr rfl
  | cons block blocks ih =>
      rw [readUntil]
      split
      · next now => exact .inl now
      · exact ih _

/-- A buffer that starts empty is a beginning of what there is to read. -/
theorem readUntil_nil_start (done : List α → Bool) (blocks : List (List α)) :
    (readUntil done [] blocks).1 <+: blocks.flatten :=
  ⟨_, readUntil_append done [] blocks⟩

/-- It gets as far as asked for when there is enough to read. -/
theorem le_length_readUntil {k : ℕ} (below : k ≤ goal) (enough : k ≤ blocks.flatten.length) :
    k ≤ (readUntil (fun s => decide (goal ≤ s.length)) [] blocks).1.length := by
  rcases readUntil_stop (fun s => decide (goal ≤ s.length)) [] blocks with stop | none
  · exact Nat.le_trans below (of_decide_eq_true stop)
  · have all := readUntil_append (fun s => decide (goal ≤ s.length)) [] blocks
    rw [none, List.flatten_nil, List.append_nil, List.nil_append] at all
    rw [all]
    exact enough

/-- It holds all there is when no more is asked for than there is. -/
theorem readUntil_nil_all (short : blocks.flatten.length ≤ goal) :
    (readUntil (fun s => decide (goal ≤ s.length)) [] blocks).1 = blocks.flatten :=
  (readUntil_nil_start ..).eq_of_length_le (le_length_readUntil short Nat.le.refl)

theorem prefix_readUntil (done : List α → Bool) (buf : List α) (blocks : List (List α)) :
    buf <+: (readUntil done buf blocks).1 := by
  induction blocks generalizing buf with
  | nil => exact List.prefix_rfl
  | cons block blocks ih =>
      rw [readUntil]
      split
      · exact List.prefix_rfl
      · exact (List.prefix_append ..).trans (ih _)

/-- Only what the test says about the beginnings of this text matters. -/
theorem readUntil_congr (same : ∀ s, s <+: buf ++ blocks.flatten → done s = done' s) :
    readUntil done buf blocks = readUntil done' buf blocks := by
  induction blocks generalizing buf with
  | nil => rfl
  | cons block blocks ih =>
      rw [readUntil, readUntil, same buf (List.prefix_append ..)]
      split
      · rfl
      · apply ih
        intro s cut
        rw [List.append_assoc, ← List.flatten_cons] at cut
        exact same s cut

/-- To stop early and then read on is to read on. -/
theorem readUntil_readUntil (done done' : List α → Bool) (earlier : ∀ s, done' s = true → done s = true)
    (buf : List α) (blocks : List (List α)) :
    readUntil done' (readUntil done buf blocks).1 (readUntil done buf blocks).2 =
      readUntil done' buf blocks := by
  induction blocks generalizing buf with
  | nil => rfl
  | cons block blocks ih =>
      by_cases now : done buf = true
      · rw [readUntil, if_pos now]
      · have notYet : ¬ done' buf = true := fun late => now (earlier buf late)
        rw [readUntil, if_neg now, ih, readUntil, if_neg notYet]

/-- What lies before the text that is being gathered does not matter. -/
theorem drop_readUntil {k : ℕ} (behind : k ≤ buf.length) :
    (readUntil (fun s => decide (k + goal ≤ s.length)) buf blocks).1.drop k =
      (readUntil (fun s => decide (goal ≤ s.length)) (buf.drop k) blocks).1 := by
  induction blocks generalizing buf with
  | nil => rfl
  | cons block blocks ih =>
      have same : k + goal ≤ buf.length ↔ goal ≤ (buf.drop k).length := by
        rw [List.length_drop]
        omega
      rw [readUntil, readUntil]
      simp only [same]
      split
      · rfl
      · rw [ih (Nat.le_trans behind (List.prefix_append ..).length_le), List.drop_append_of_le_length behind]

theorem exists_take_cons {n : ℕ} {block : List α} :
    (∃ k, n + ((block :: blocks).take k).flatten.length = goal) ↔
      n = goal ∨ ∃ k, n + block.length + (blocks.take k).flatten.length = goal := by
  constructor
  · rintro ⟨k, ends⟩
    cases k with
    | zero => exact .inl ends
    | succ k =>
        rw [List.take_succ_cons, List.flatten_cons, List.length_append, ← Nat.add_assoc] at ends
        exact .inr ⟨k, ends⟩
  · rintro (here | ⟨k, ends⟩)
    · exact ⟨0, here⟩
    · refine ⟨k + 1, ?_⟩
      rw [List.take_succ_cons, List.flatten_cons, List.length_append, ← Nat.add_assoc]
      exact ends

/-- The buffer stops at a given length exactly when a block ends there. -/
theorem length_readUntil_eq_iff (blocks : List (List α)) (short : buf.length ≤ goal) :
    (readUntil (fun s => decide (goal ≤ s.length)) buf blocks).1.length = goal ↔
      ∃ k, buf.length + (blocks.take k).flatten.length = goal := by
  induction blocks generalizing buf with
  | nil => simp [readUntil]
  | cons block blocks ih =>
      rw [readUntil, exists_take_cons]
      by_cases now : goal ≤ buf.length
      · have here : buf.length = goal := Nat.le_antisymm short now
        rw [if_pos (decide_eq_true now)]
        exact ⟨fun _ => .inl here, fun _ => here⟩
      · have notHere : buf.length ≠ goal := fun here => now (Nat.le_of_eq here.symm)
        rw [if_neg (by simpa using now), or_iff_right notHere, ← List.length_append]
        by_cases fits : (buf ++ block).length ≤ goal
        · exact ih fits
        · -- The block goes past the goal, and so does all that follows.
          have longer := (prefix_readUntil (fun s => decide (goal ≤ s.length)) (buf ++ block) blocks).length_le
          constructor
          · intro ends
            omega
          · rintro ⟨k, ends⟩
            omega

theorem length_readUntil_nil_iff (goal : ℕ) (blocks : List (List α)) :
    (readUntil (fun s => decide (goal ≤ s.length)) [] blocks).1.length = goal ↔
      ∃ k, (blocks.take k).flatten.length = goal := by
  have empty : ([] : List α).length ≤ goal := Nat.zero_le goal
  have general := length_readUntil_eq_iff blocks empty
  simpa using general

end Blocks
end Scanning
