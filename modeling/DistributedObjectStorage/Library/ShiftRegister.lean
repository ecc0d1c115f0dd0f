import Mathlib.Logic.Function.Iterate

/-!
# Shift registers with feedback

A register moves down one place at a time and adds its feedback when a one falls
out. The feedback reaches the top bit, so no shift loses anything, and chunks
that fit into the register together leave different remainders.
-/
namespace ShiftRegister

variable {w : ℕ} (p : BitVec w)

/-- One shift. The bit that falls out decides on the feedback. -/
def step (x : BitVec w) : BitVec w := (x >>> 1) ^^^ (if x.getLsbD 0 then p else 0)

/-- The register after some chunks of `k` bits. -/
def absorb (k : ℕ) (x : BitVec w) (chunks : List (BitVec w)) : BitVec w :=
  chunks.foldl (fun x chunk => (step p)^[k] (x ^^^ chunk)) x

/-- A chunk of `k` bits. -/
def Fits (k : ℕ) (chunk : BitVec w) : Prop := ∀ i, k ≤ i → chunk.getLsbD i = false

/-- Chunks side by side, the first one lowest. -/
def pack (k : ℕ) : List (BitVec w) → BitVec w
  | [] => 0
  | chunk :: chunks => chunk ^^^ (pack k chunks <<< k)

/-! ## One shift -/

theorem step_xor (x y : BitVec w) : step p (x ^^^ y) = step p x ^^^ step p y := by
  unfold step
  rw [BitVec.ushiftRight_xor_distrib, BitVec.getLsbD_xor]
  apply BitVec.eq_of_getLsbD_eq
  intro i _
  cases x.getLsbD 0 <;> cases y.getLsbD 0 <;> simp [Bool.xor_comm, Bool.xor_left_comm]

theorem iterate_xor (n : ℕ) (x y : BitVec w) :
    (step p)^[n] (x ^^^ y) = (step p)^[n] x ^^^ (step p)^[n] y := by
  induction n generalizing x y with
  | zero => rfl
  | succ n ih => rw [Function.iterate_succ_apply, step_xor, ih, ← Function.iterate_succ_apply,
      ← Function.iterate_succ_apply]

variable {p}

/-- The top bit after a shift is the bit that fell out. -/
theorem msb_step (top : p.msb = true) (x : BitVec w) : (step p x).msb = x.getLsbD 0 := by
  have wide : w ≠ 0 := by
    rintro rfl
    simp [BitVec.of_length_zero] at top
  unfold step
  rw [BitVec.msb_xor, BitVec.msb_ushiftRight]
  cases x.getLsbD 0 with
  | false => simp
  | true => simp [top]

theorem step_injective (top : p.msb = true) : Function.Injective (step p) := by
  intro x y same
  have low : x.getLsbD 0 = y.getLsbD 0 := by rw [← msb_step top x, same, msb_step top y]
  have high : x >>> 1 = y >>> 1 := by
    unfold step at same
    rwa [low, BitVec.xor_left_inj] at same
  apply BitVec.eq_of_getLsbD_eq
  intro i _
  cases i with
  | zero => exact low
  | succ i =>
      have bit := congrArg (fun z : BitVec w => z.getLsbD i) high
      simpa only [BitVec.getLsbD_ushiftRight, Nat.add_comm 1 i] using bit

/-- Bits that start high enough only move down. -/
theorem step_shiftLeft {y : BitVec w} (room : ∀ i, w ≤ i + 1 → y.getLsbD i = false) :
    step p (y <<< 1) = y := by
  have low : (y <<< 1).getLsbD 0 = false := by simp
  unfold step
  rw [low]
  apply BitVec.eq_of_getLsbD_eq
  intro i _
  by_cases inside : 1 + i < w
  · simp [inside, BitVec.getLsbD_eq_getElem (show i < w by omega)]
  · simp [inside, room i (by omega)]

theorem iterate_shiftLeft (n : ℕ) {y : BitVec w} (room : ∀ i, w ≤ i + n → y.getLsbD i = false) :
    (step p)^[n] (y <<< n) = y := by
  induction n with
  | zero => simp
  | succ n ih =>
      have once : step p (y <<< (n + 1)) = y <<< n := by
        rw [BitVec.shiftLeft_add]
        apply step_shiftLeft
        intro i high
        by_cases inside : i < w
        · have above : y.getLsbD (i - n) = false := room (i - n) (by omega)
          simp [above]
        · simp [inside]
      rw [Function.iterate_succ_apply, once]
      exact ih fun i high => room i (by omega)

/-! ## Chunks -/

section Chunks
variable {k : ℕ} {chunks others : List (BitVec w)}

theorem fits_pack (fits : ∀ chunk ∈ chunks, Fits k chunk) : Fits (k * chunks.length) (pack k chunks) := by
  induction chunks with
  | nil =>
      intro i _
      simp [pack]
  | cons chunk chunks ih =>
      obtain ⟨first, rest⟩ := List.forall_mem_cons.mp fits
      intro i high
      rw [List.length_cons, Nat.mul_succ] at high
      have above : (pack k chunks).getLsbD (i - k) = false := ih rest (i - k) (by omega)
      simp [pack, first i (by omega), above]

/-- The chunks are absorbed as if they had been in the register from the start. -/
theorem absorb_eq (fits : ∀ chunk ∈ chunks, Fits k chunk) (short : k * chunks.length ≤ w) (x : BitVec w) :
    absorb p k x chunks = (step p)^[k * chunks.length] (x ^^^ pack k chunks) := by
  induction chunks generalizing x with
  | nil => simp [absorb, pack]
  | cons chunk chunks ih =>
      obtain ⟨first, rest⟩ := List.forall_mem_cons.mp fits
      rw [List.length_cons, Nat.mul_succ] at short
      have later : (step p)^[k] (pack k chunks <<< k) = pack k chunks :=
        iterate_shiftLeft k fun i high => fits_pack rest i (by omega)
      calc absorb p k x (chunk :: chunks)
          = absorb p k ((step p)^[k] (x ^^^ chunk)) chunks := rfl
        _ = (step p)^[k * chunks.length] ((step p)^[k] (x ^^^ chunk) ^^^ pack k chunks) :=
            ih rest (by omega) _
        _ = (step p)^[k * chunks.length] ((step p)^[k] (x ^^^ chunk ^^^ pack k chunks <<< k)) := by
            rw [iterate_xor p k (x ^^^ chunk), later]
        _ = (step p)^[k * (chunk :: chunks).length] (x ^^^ pack k (chunk :: chunks)) := by
            rw [List.length_cons, Nat.mul_succ, Function.iterate_add_apply, pack, BitVec.xor_assoc]

theorem pack_injective (fits : ∀ chunk ∈ chunks, Fits k chunk) (fits' : ∀ chunk ∈ others, Fits k chunk)
    (length : chunks.length = others.length) (short : k * chunks.length ≤ w)
    (same : pack k chunks = pack k others) : chunks = others := by
  induction chunks generalizing others with
  | nil => exact (List.length_eq_zero_iff.mp length.symm).symm
  | cons chunk chunks ih =>
      cases others with
      | nil => simp at length
      | cons other others =>
          obtain ⟨first, rest⟩ := List.forall_mem_cons.mp fits
          obtain ⟨first', rest'⟩ := List.forall_mem_cons.mp fits'
          have length' : chunks.length = others.length := Nat.succ.inj length
          rw [List.length_cons, Nat.mul_succ] at short
          have bit (i : ℕ) := congrArg (fun z : BitVec w => z.getLsbD i) same
          simp only [pack, BitVec.getLsbD_xor, BitVec.getLsbD_shiftLeft] at bit
          have head : chunk = other := by
            apply BitVec.eq_of_getLsbD_eq
            intro i _
            by_cases low : i < k
            · simpa [low] using bit i
            · rw [first i (by omega), first' i (by omega)]
          have tail : pack k chunks = pack k others := by
            apply BitVec.eq_of_getLsbD_eq
            intro i _
            by_cases inside : k + i < w
            · have high := bit (k + i)
              rw [first (k + i) (by omega), first' (k + i) (by omega)] at high
              simpa [inside, show ¬k + i < k by omega] using high
            · rw [fits_pack rest i (by omega), fits_pack rest' i (by rw [← length']; omega)]
          rw [head, ih rest rest' length' (by omega) tail]

theorem absorb_injective (top : p.msb = true) (chunks : List (BitVec w)) :
    Function.Injective fun x => absorb p k x chunks := by
  induction chunks with
  | nil => exact fun _ _ same => same
  | cons chunk chunks ih =>
      intro x y same
      have before := ih same
      exact (BitVec.xor_left_inj chunk).mp ((step_injective top).iterate k before)

/-- Chunks that fit into the register together cannot be exchanged for others. -/
theorem absorb_burst (top : p.msb = true) (fits : ∀ chunk ∈ chunks, Fits k chunk)
    (fits' : ∀ chunk ∈ others, Fits k chunk) (length : chunks.length = others.length)
    (short : k * chunks.length ≤ w) (ne : chunks ≠ others) (x : BitVec w) (front rest : List (BitVec w)) :
    absorb p k x (front ++ (chunks ++ rest)) ≠ absorb p k x (front ++ (others ++ rest)) := by
  intro same
  simp only [absorb, List.foldl_append] at same
  have window := absorb_injective (p := p) (k := k) top rest same
  change absorb p k _ chunks = absorb p k _ others at window
  rw [absorb_eq fits short, absorb_eq fits' (length ▸ short), ← length] at window
  have packed := (BitVec.xor_right_inj _).mp ((step_injective top).iterate _ window)
  exact ne (pack_injective fits fits' length short packed)

end Chunks
end ShiftRegister
