import Mathlib.Data.List.Induction
import Mathlib.Tactic.IntervalCases
import DistributedObjectStorage.Library.SecureHash
import DistributedObjectStorage.Common.Decimal
import DistributedObjectStorage.Common.Sha256

/-!
# The streaming hash computes SHA-256

The words of the source are those of the standard bit for bit, the buffer is
that of a block stream, and the padding is fed through the same stream.
-/
namespace Dos.Sha256
open BlockStream

/-! ## Words -/

def Words.bits (s : Words) : SecureHash.Vars :=
  ⟨s.a.toBitVec, s.b.toBitVec, s.c.toBitVec, s.d.toBitVec, s.e.toBitVec, s.f.toBitVec, s.g.toBitVec, s.h.toBitVec⟩

theorem initState_bits : initState.bits = SecureHash.initial := by decide +kernel

theorem roundConstants_eq :
    roundConstants = (List.range 64).map fun t => UInt32.ofBitVec (SecureHash.roundConstant t) := by
  have table : (List.range 64).map (fun t => UInt32.ofBitVec (SecureHash.roundConstant t)) =
      (List.range 64).map fun t => UInt32.ofBitVec (SecureHash.fraction 3
        (((List.range 312).filter fun n => decide (2 ≤ n ∧ ∀ d < 18, 2 ≤ d → d ∣ n → d = n)).getD t 0)) := by
    simp only [SecureHash.roundConstant, SecureHash.primes_eq]
  rw [table]
  decide +kernel

theorem bigEndian_bits (p q r s : UInt8) :
    ((p.toUInt32 <<< 24) ||| (q.toUInt32 <<< 16) ||| (r.toUInt32 <<< 8) ||| s.toUInt32).toBitVec =
      SecureHash.bigEndian p q r s := by
  have shifted : ((p.toUInt32 <<< 24) ||| (q.toUInt32 <<< 16) ||| (r.toUInt32 <<< 8) ||| s.toUInt32).toBitVec =
      (p.toBitVec.setWidth 32 <<< 24) ||| (q.toBitVec.setWidth 32 <<< 16) ||| (r.toBitVec.setWidth 32 <<< 8) |||
        s.toBitVec.setWidth 32 := rfl
  rw [shifted, SecureHash.bigEndian]
  apply BitVec.eq_of_getLsbD_eq
  intro i below
  simp only [BitVec.getLsbD_or, BitVec.getLsbD_shiftLeft, BitVec.getLsbD_setWidth, BitVec.getLsbD_append]
  interval_cases i <;> simp

/-! ## Compression -/

theorem blockWords_eq (block : Bytes) :
    blockWords block =
      (List.range (block.length / 4)).map fun t => UInt32.ofBitVec (SecureHash.word block t) := by
  induction block using blockWords.induct with
  | case1 p q r s rest ih =>
      have count : (p :: q :: r :: s :: rest).length / 4 = rest.length / 4 + 1 := by
        simp only [List.length_cons]
        omega
      rw [blockWords, count, List.range_succ_eq_map, List.map_cons, List.map_map, ih]
      congr 1
      · apply UInt32.toBitVec_inj.mp
        exact bigEndian_bits p q r s
  | case2 rest short =>
      have small : rest.length / 4 = 0 := by
        rcases rest with _ | ⟨p, _ | ⟨q, _ | ⟨r, _ | ⟨s, rest⟩⟩⟩⟩
        · simp
        · simp
        · simp
        · simp
        · exact (short p q r s rest rfl).elim
      rw [small, blockWords]
      · rfl
      · exact short

theorem sigma0_bits (x : UInt32) :
    (rotr x 7 ^^^ rotr x 18 ^^^ (x >>> 3)).toBitVec = SecureHash.sigma0 x.toBitVec := by
  simp only [SecureHash.sigma0, BitVec.rotateRight_def]
  rfl

theorem sigma1_bits (x : UInt32) :
    (rotr x 17 ^^^ rotr x 19 ^^^ (x >>> 10)).toBitVec = SecureHash.sigma1 x.toBitVec := by
  simp only [SecureHash.sigma1, BitVec.rotateRight_def]
  rfl

/-- The next word stands where the recursion of the standard puts it. -/
theorem extend_eq (block : Bytes) {t : ℕ} (later : 16 ≤ t) :
    extend ((List.range t).map fun i => UInt32.ofBitVec (SecureHash.schedule block i)).reverse =
      ((List.range (t + 1)).map fun i => UInt32.ofBitVec (SecureHash.schedule block i)).reverse := by
  have word {i : ℕ} (inside : i < t) :
      ((List.range t).map fun i => UInt32.ofBitVec (SecureHash.schedule block i)).reverse.getD i 0 =
        UInt32.ofBitVec (SecureHash.schedule block (t - 1 - i)) := by
    rw [List.getD_eq_getElem?_getD, List.getElem?_reverse (by simpa using inside), List.length_map, List.length_range,
      List.getElem?_map, List.getElem?_range (by omega)]
    rfl
  rw [List.range_succ, List.map_append, List.reverse_append, extend]
  simp only [word (show 14 < t by omega), word (show 1 < t by omega), word (show 15 < t by omega),
    word (show 6 < t by omega)]
  change _ :: _ = _ :: _
  congr 1
  apply UInt32.toBitVec_inj.mp
  have split : SecureHash.schedule block t = SecureHash.sigma1 (SecureHash.schedule block (t - 2)) +
      SecureHash.schedule block (t - 7) + SecureHash.sigma0 (SecureHash.schedule block (t - 15)) +
        SecureHash.schedule block (t - 16) := by
    rw [SecureHash.schedule, if_neg (Nat.not_lt_of_le later)]
  simp only [UInt32.toBitVec_add, sigma0_bits, sigma1_bits, split]
  simp only [Nat.sub_sub]
  ac_rfl

theorem schedule_eq {block : Bytes} (whole : block.length = 64) :
    schedule block = (List.range 64).map fun t => UInt32.ofBitVec (SecureHash.schedule block t) := by
  have start : blockWords block = (List.range 16).map fun t => UInt32.ofBitVec (SecureHash.schedule block t) := by
    rw [blockWords_eq, whole]
    apply List.map_congr_left
    intro t below
    rw [SecureHash.schedule, if_pos (List.mem_range.mp below)]
  have run (k : ℕ) : (List.range k).foldl (fun w _ => extend w) (blockWords block).reverse =
      ((List.range (16 + k)).map fun t => UInt32.ofBitVec (SecureHash.schedule block t)).reverse := by
    induction k with
    | zero => rw [start]; rfl
    | succ k ih =>
        rw [List.range_succ, List.foldl_append, ih]
        exact extend_eq block (Nat.le_add_right 16 k)
  rw [schedule, run, List.reverse_reverse]

theorem round_bits (s : Words) (k w : UInt32) :
    (round s (k, w)).bits = SecureHash.round k.toBitVec w.toBitVec s.bits := by
  simp only [SecureHash.round, SecureHash.bigSigma0, SecureHash.bigSigma1, BitVec.rotateRight_def]
  rfl

theorem processBlock_bits (s : Words) {block : Bytes} (whole : block.length = 64) :
    (processBlock s block).bits = SecureHash.compress s.bits block := by
  have rounds : ((roundConstants.zip (schedule block)).foldl round s).bits =
      (List.range 64).foldl (fun v t => SecureHash.round (SecureHash.roundConstant t) (SecureHash.schedule block t) v)
        s.bits := by
    rw [roundConstants_eq, schedule_eq whole, List.zip_map', List.foldl_map]
    exact (List.foldl_hom Words.bits fun s t => (round_bits s _ _).symm).symm
  rw [SecureHash.compress, ← rounds]
  rfl

/-- The fold over whole blocks is that of the standard. -/
theorem foldl_processBlock_bits {blocks : List Bytes} (whole : ∀ block ∈ blocks, block.length = 64) (s : Words) :
    (blocks.foldl processBlock s).bits = blocks.foldl SecureHash.compress s.bits := by
  induction blocks generalizing s with
  | nil => rfl
  | cons block blocks ih =>
      obtain ⟨first, rest⟩ := List.forall_mem_cons.mp whole
      rw [List.foldl_cons, List.foldl_cons, ih rest, processBlock_bits s first]

/-! ## The stream -/

/-- The message so far, as the block stream has it, and its length in bits. -/
structure Fed (h : Sha256) (message : Bytes) : Prop where
  stream : (h.state, h.buffer) = absorb 64 processBlock (initState, []) message
  bits : h.bitCount = UInt64.ofNat (8 * message.length)

theorem Fed.reset : Fed reset [] := ⟨rfl, rfl⟩

theorem updateLoop_stream {fuel : ℕ} {h : Sha256} {data : Bytes} (room : h.buffer.length < 64)
    (enough : data.length ≤ fuel) :
    ((updateLoop fuel h data).state, (updateLoop fuel h data).buffer) =
        absorb 64 processBlock (h.state, h.buffer) data ∧
      (updateLoop fuel h data).bitCount = h.bitCount := by
  induction fuel generalizing h data with
  | zero =>
      rw [List.eq_nil_of_length_eq_zero (Nat.le_zero.mp enough)]
      exact ⟨rfl, rfl⟩
  | succ fuel ih =>
      rw [updateLoop]
      split
      · next none =>
          rw [List.isEmpty_iff.mp none]
          exact ⟨rfl, rfl⟩
      · next nonempty =>
          have some : 0 < data.length := List.length_pos_iff.mpr fun none => nonempty (List.isEmpty_iff.mpr none)
          have split := List.take_append_drop (min (64 - h.buffer.length) data.length) data
          have size : (data.take (min (64 - h.buffer.length) data.length)).length =
              min (64 - h.buffer.length) data.length := by
            rw [List.length_take]
            omega
          dsimp only
          generalize data.take (min (64 - h.buffer.length) data.length) = front at size split ⊢
          generalize data.drop (min (64 - h.buffer.length) data.length) = rest at split ⊢
          have total := congrArg List.length split
          rw [List.length_append] at total
          rw [← split, absorb_append]
          by_cases full : (h.buffer ++ front).length = 64
          · rw [if_pos full]
            rw [List.length_append] at full
            rw [absorb_fill (List.ne_nil_of_length_pos (by omega)) full]
            have empty : ([] : Bytes).length < 64 := by decide
            exact ih (h := { h with state := processBlock h.state (h.buffer ++ front), buffer := [] }) empty (by omega)
          · rw [if_neg full]
            rw [List.length_append] at full
            have kept : absorb 64 processBlock (h.state, h.buffer) front = (h.state, h.buffer ++ front) :=
              absorb_short (by omega)
            have short : (h.buffer ++ front).length < 64 := by
              rw [List.length_append]
              omega
            rw [kept]
            exact ih (h := { h with buffer := h.buffer ++ front }) short (by omega)

section Feeding
variable {h : Sha256} {message : Bytes}

theorem Fed.length_buffer (fed : Fed h message) : h.buffer.length = message.length % 64 := by
  have length : (absorb 64 processBlock (initState, []) message).2.length = _ := length_absorb (by decide) message
  rw [← fed.stream] at length
  simpa using length

theorem Fed.update (fed : Fed h message) (data : Bytes) : Fed (h.update data) (message ++ data) := by
  have room : h.buffer.length < 64 := by
    rw [fed.length_buffer]
    exact Nat.mod_lt _ (by decide)
  obtain ⟨stream, bits⟩ := updateLoop_stream
    (h := { h with bitCount := h.bitCount + data.length.toUInt64 * 8 }) room (Nat.le_refl data.length)
  constructor
  · rw [absorb_append, ← fed.stream]
    exact stream
  · refine bits.trans ?_
    change h.bitCount + UInt64.ofNat data.length * 8 = _
    rw [fed.bits, List.length_append, Nat.mul_add, UInt64.ofNat_add, Nat.mul_comm 8 data.length,
      UInt64.ofNat_mul data.length 8]
    rfl

theorem Fed.chunks (chunks : List Bytes) : Fed (chunks.foldl Sha256.update Sha256.reset) chunks.flatten := by
  induction chunks using List.reverseRecOn with
  | nil => exact .reset
  | append_singleton chunks chunk ih =>
      rw [List.foldl_append, List.flatten_append, List.flatten_singleton]
      exact ih.update chunk

/-- The body of the padding loop. -/
def feedZero (h : Sha256) : Sha256 := h.update [0x00]

theorem Fed.zeros (fed : Fed h message) (k : ℕ) :
    Fed (feedZero^[k] h) (message ++ List.replicate k 0) := by
  induction k with
  | zero =>
      rw [List.replicate_zero, List.append_nil]
      exact fed
  | succ k ih =>
      rw [Function.iterate_succ_apply', List.replicate_succ', ← List.append_assoc]
      exact ih.update [0x00]

/-- The padding loop stops where the buffer has 56 bytes for the first time. -/
theorem padLoop_eq {fuel k : ℕ} (enough : k ≤ fuel)
    (stops : (feedZero^[k] h).buffer.length = 56)
    (first : ∀ i < k, (feedZero^[i] h).buffer.length ≠ 56) :
    padLoop fuel h = feedZero^[k] h := by
  induction k generalizing fuel h with
  | zero =>
      have here : h.buffer.length = 56 := stops
      cases fuel with
      | zero => rfl
      | succ fuel =>
          rw [padLoop, if_pos here]
          rfl
  | succ k ih =>
      have onwards : h.buffer.length ≠ 56 := first 0 (Nat.succ_pos k)
      cases fuel with
      | zero => cases enough
      | succ fuel =>
          rw [padLoop, if_neg onwards, Function.iterate_succ_apply]
          apply ih (Nat.le_of_succ_le_succ enough)
          · exact stops
          · intro i below
            exact first (i + 1) (Nat.succ_lt_succ below)

/-- The padding is what the standard asks for, after fewer than 64 turns of the loop. -/
theorem Fed.padding (fed : Fed h message) :
    SecureHash.zeros message.length < 64 ∧
      (feedZero^[SecureHash.zeros message.length] (h.update [0x80])).buffer.length = 56 ∧
      ∀ i < SecureHash.zeros message.length, (feedZero^[i] (h.update [0x80])).buffer.length ≠ 56 := by
  have length (k : ℕ) : (feedZero^[k] (h.update [0x80])).buffer.length = (message.length + 1 + k) % 64 := by
    rw [((fed.update [0x80]).zeros k).length_buffer, List.length_append, List.length_append, List.length_replicate,
      List.length_singleton]
  have complete := Nat.find_spec (SecureHash.exists_zeros message.length)
  refine ⟨?_, ?_, ?_⟩
  · refine Nat.lt_of_le_of_lt (Nat.find_min' (SecureHash.exists_zeros message.length) ?_)
      (Nat.mod_lt (119 - message.length % 64) (by decide))
    omega
  · rw [length, SecureHash.zeros]
    omega
  · intro i below
    have early := Nat.find_min (SecureHash.exists_zeros message.length) below
    rw [length]
    omega

theorem lenByte_eq {n k : ℕ} (small : n < 2 ^ 64) (inside : k < 8) :
    (UInt64.ofNat n >>> UInt64.ofNat (8 * k)).toUInt8 = UInt8.ofNat (n / 256 ^ k) := by
  apply UInt8.toNat_inj.mp
  have shift : (UInt64.ofNat (8 * k)).toNat % 64 = 8 * k := by
    rw [UInt64.toNat_ofNat']
    omega
  rw [UInt64.toNat_toUInt8, UInt64.toNat_shiftRight, shift, UInt64.toNat_ofNat_of_lt' small,
    Nat.shiftRight_eq_div_pow, Nat.pow_mul, UInt8.toNat_ofNat']

theorem lenBytes_eq {n : ℕ} (small : n < 2 ^ 64) :
    (([56, 48, 40, 32, 24, 16, 8, 0] : List UInt64).map fun shift => (UInt64.ofNat n >>> shift).toUInt8) =
      SecureHash.lengthBytes n := by
  have shifts : ([56, 48, 40, 32, 24, 16, 8, 0] : List UInt64) =
      (List.range 8).map fun i => UInt64.ofNat (8 * (7 - i)) := rfl
  rw [shifts, List.map_map]
  apply List.map_congr_left
  intro i below
  exact lenByte_eq small (by have := List.mem_range.mp below; omega)

/-- All of the padded message goes through the stream. -/
theorem Fed.final (fed : Fed h message) (small : message.length < 2 ^ 61) :
    (processBlock (padLoop 64 (h.update [0x80])).state ((padLoop 64 (h.update [0x80])).buffer ++
      ([56, 48, 40, 32, 24, 16, 8, 0] : List UInt64).map fun shift => (h.bitCount >>> shift).toUInt8)).bits =
        SecureHash.digest message := by
  obtain ⟨turns, stops, first⟩ := fed.padding
  rw [padLoop_eq (Nat.le_of_lt turns) stops first, fed.bits, lenBytes_eq (by omega)]
  have padded := (fed.update [0x80]).zeros (SecureHash.zeros message.length)
  generalize feedZero^[SecureHash.zeros message.length] (h.update [0x80]) = last at stops padded
  have split : SecureHash.pad message = (message ++ [0x80] ++
      List.replicate (SecureHash.zeros message.length) 0) ++ SecureHash.lengthBytes (8 * message.length) := by
    simp only [SecureHash.pad, List.append_assoc, List.cons_append, List.nil_append]
  have eight : (SecureHash.lengthBytes (8 * message.length)).length = 8 := by
    simp [SecureHash.lengthBytes]
  have complete := Nat.find_spec (SecureHash.exists_zeros message.length)
  have blocks : (SecureHash.pad message).length = 64 * ((SecureHash.pad message).length / 64) := by
    have length : (SecureHash.pad message).length = message.length + 1 + SecureHash.zeros message.length + 8 := by
      rw [split, List.length_append, List.length_append, List.length_append, List.length_replicate, eight]
      rfl
    rw [length, SecureHash.zeros]
    omega
  have filled : absorb 64 processBlock (last.state, last.buffer) (SecureHash.lengthBytes (8 * message.length)) =
      (processBlock last.state (last.buffer ++ SecureHash.lengthBytes (8 * message.length)), []) :=
    absorb_fill (List.ne_nil_of_length_pos (by omega)) (by omega)
  have whole : absorb 64 processBlock (initState, []) (SecureHash.pad message) = _ :=
    absorb_blocks (by decide) blocks initState
  rw [split, absorb_append, ← padded.stream, filled, ← split] at whole
  rw [(Prod.mk.inj whole).1, foldl_processBlock_bits fun _ => length_of_mem_blocks, initState_bits]
  rfl

/-! ## Hexadecimal -/

theorem hexDigit_eq : ∀ k < 16, hexDigits.getD k 48 = (Nat.digitChar k).val.toUInt8 := by decide +kernel

theorem ascii_digitChar : ∀ k < 16, (Nat.digitChar k).val.toNat < 128 := by decide +kernel

theorem nibble_eq (word : UInt32) {k : ℕ} (inside : k < 8) :
    ((word >>> UInt32.ofNat (4 * k)) &&& 0xf).toNat = word.toNat / 16 ^ k % 16 := by
  have shift : (UInt32.ofNat (4 * k)).toNat % 32 = 4 * k := by
    rw [UInt32.toNat_ofNat']
    omega
  have mask : (0xf : UInt32).toNat = 2 ^ 4 - 1 := rfl
  rw [UInt32.toNat_and, UInt32.toNat_shiftRight, shift, mask, Nat.and_two_pow_sub_one_eq_mod,
    Nat.shiftRight_eq_div_pow, Nat.pow_mul]

theorem hexWord_eq (word : UInt32) : hexWord word = (SecureHash.hexWord word.toBitVec).map (·.val.toUInt8) := by
  have shifts : ([28, 24, 20, 16, 12, 8, 4, 0] : List UInt32) =
      (List.range 8).map fun i => UInt32.ofNat (4 * (7 - i)) := rfl
  rw [hexWord, SecureHash.hexWord, shifts, List.map_map, List.map_map]
  apply List.map_congr_left
  intro i below
  have inside : 7 - i < 8 := by omega
  change hexDigits.getD ((word >>> UInt32.ofNat (4 * (7 - i))) &&& 0xf).toNat 48 = _
  rw [nibble_eq word inside, hexDigit_eq _ (Nat.mod_lt _ (by decide))]
  rfl

theorem text_hex (s : Words) :
    text (SecureHash.hex s.bits) = [s.a, s.b, s.c, s.d, s.e, s.f, s.g, s.h].flatMap hexWord := by
  have words : ([s.bits.a, s.bits.b, s.bits.c, s.bits.d, s.bits.e, s.bits.f, s.bits.g, s.bits.h] : List (BitVec 32)) =
      [s.a, s.b, s.c, s.d, s.e, s.f, s.g, s.h].map UInt32.toBitVec := rfl
  have ascii : ∀ c ∈ [s.bits.a, s.bits.b, s.bits.c, s.bits.d, s.bits.e, s.bits.f, s.bits.g, s.bits.h].flatMap
      SecureHash.hexWord, c.val.toNat < 128 := by
    intro c member
    obtain ⟨w, -, inside⟩ := List.mem_flatMap.mp member
    obtain ⟨i, -, rfl⟩ := List.mem_map.mp inside
    exact ascii_digitChar _ (Nat.mod_lt _ (by decide))
  rw [SecureHash.hex, text_ascii ascii, words, List.flatMap_map, List.map_flatMap]
  congr 1
  funext word
  exact (hexWord_eq word).symm

/-- However a message is cut into chunks, the digest is that of the standard, and
the padding loop ends within a block. -/
theorem hexDigest_chunks (chunks : List Bytes) (small : chunks.flatten.length < 2 ^ 61) :
    (chunks.foldl update reset).hexDigest = text (SecureHash.hex (SecureHash.digest chunks.flatten)) ∧
      ∃ k < 64, (feedZero^[k] ((chunks.foldl update reset).update [0x80])).buffer.length = 56 ∧
        ∀ i < k, (feedZero^[i] ((chunks.foldl update reset).update [0x80])).buffer.length ≠ 56 := by
  have fed := Fed.chunks chunks
  obtain ⟨turns, stops, first⟩ := fed.padding
  refine ⟨?_, SecureHash.zeros chunks.flatten.length, turns, stops, first⟩
  rw [← fed.final small, text_hex]
  rfl

end Feeding

/-- The known answer for three bytes in three chunks. -/
theorem hexDigest_abc :
    text (SecureHash.hex (SecureHash.digest (text "abc"))) =
      text "ba7816bf8f01cfea414140de5dae2223b00361a396177a9cb410ff61f20015ad" := by
  have known := (hexDigest_chunks [text "ab", [], text "c"] (by decide)).1
  have whole : [text "ab", [], text "c"].flatten = text "abc" := by decide
  rw [whole] at known
  rw [← known]
  decide +kernel

end Dos.Sha256
