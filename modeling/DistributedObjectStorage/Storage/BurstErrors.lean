import Mathlib.Data.List.Basic
import Mathlib.Logic.Function.Iterate
import DistributedObjectStorage.Library.ShiftRegister
import DistributedObjectStorage.Storage.WalFormat

/-!
# Short bursts

`Crc32` is a shift register with feedback that takes eight bits at a time. Four
bytes fit into it, so damage within four bytes changes the checksum, and both
readers stop in front of a record that was damaged like this.
-/
namespace Dos.Wire

/-- The generator, the highest power lowest. -/
def polynomial : BitVec 32 := 0xEDB88320

/-- The same bytes apart from one window of four bytes at most. -/
inductive Burst : Bytes → Bytes → Prop
  | window (front : Bytes) {hit damaged : Bytes} (rest : Bytes) : hit.length = damaged.length →
      hit.length ≤ 4 → hit ≠ damaged → Burst (front ++ (hit ++ rest)) (front ++ (damaged ++ rest))

theorem Burst.length {body damaged : Bytes} (burst : Burst body damaged) : body.length = damaged.length := by
  cases burst with
  | window front rest same short ne => simp [same]

/-! ## The register -/

/-- The mask is all ones if the lowest bit is set, and zero otherwise. -/
theorem crcBit_toBitVec (crc : UInt32) :
    (crcBit crc).toBitVec = ShiftRegister.step polynomial crc.toBitVec := by
  have low : (crc &&& 1).toBitVec = (BitVec.ofBool (crc.toBitVec.getLsbD 0)).setWidth 32 := by
    rw [UInt32.toBitVec_and]
    exact BitVec.and_one_eq_setWidth_ofBool_getLsbD
  unfold crcBit ShiftRegister.step
  rw [UInt32.toBitVec_xor, UInt32.toBitVec_and, UInt32.toBitVec_sub, low]
  cases crc.toBitVec.getLsbD 0 with
  | false => rfl
  | true => rfl

theorem crcByte_toBitVec (crc : UInt32) (b : UInt8) :
    (crcByte crc b).toBitVec =
      (ShiftRegister.step polynomial)^[8] (crc.toBitVec ^^^ b.toUInt32.toBitVec) := by
  have shifts (n : ℕ) (crc : UInt32) :
      ((List.range n).foldl (fun crc _ => crcBit crc) crc).toBitVec =
        (ShiftRegister.step polynomial)^[n] crc.toBitVec := by
    induction n with
    | zero => rfl
    | succ n ih =>
        rw [List.range_succ, List.foldl_append, List.foldl_cons, List.foldl_nil, crcBit_toBitVec, ih,
          Function.iterate_succ_apply']
  rw [crcByte, shifts, UInt32.toBitVec_xor]

/-- The bytes as the register takes them. -/
def chunks (data : Bytes) : List (BitVec 32) := data.map fun b => b.toUInt32.toBitVec

theorem foldl_crcByte_toBitVec (crc : UInt32) (data : Bytes) :
    (data.foldl crcByte crc).toBitVec = ShiftRegister.absorb polynomial 8 crc.toBitVec (chunks data) := by
  induction data generalizing crc with
  | nil => rfl
  | cons b data ih =>
      rw [List.foldl_cons, ih, crcByte_toBitVec]
      rfl

theorem chunks_fit (data : Bytes) : ∀ chunk ∈ chunks data, ShiftRegister.Fits 8 chunk := by
  intro chunk mem
  obtain ⟨b, -, rfl⟩ := List.mem_map.mp mem
  intro i high
  simp [high]

theorem chunks_injective : Function.Injective chunks := by
  apply List.map_injective_iff.mpr
  intro a b same
  have bits := congrArg (fun z : BitVec 32 => z.setWidth 8) same
  apply UInt8.toBitVec_inj.mp
  simpa using bits

theorem crc32_burst {body damaged : Bytes} (burst : Burst body damaged) : crc32 damaged ≠ crc32 body := by
  intro same
  have register := congrArg (fun crc => (~~~crc).toBitVec) same.symm
  simp only [crc32, UInt32.not_not, foldl_crcByte_toBitVec] at register
  cases burst with
  | window front rest length short ne =>
      simp only [chunks, List.map_append] at register
      refine ShiftRegister.absorb_burst (by decide) (chunks_fit _) (chunks_fit _) ?_ ?_ ?_ _ _ _ register
      · simp [chunks, length]
      · rw [chunks, List.length_map]
        omega
      · exact fun same => ne (chunks_injective same)

/-! ## The readers -/

/-- A record on disk: the length field, a body, and what stands where its checksum belongs. -/
def record (body : Bytes) (crc : UInt32) : Bytes := Framing.sealed body crc.toNat

/-- Some records, whole or damaged. -/
def records (entries : List (Bytes × UInt32)) : Bytes := (entries.map fun e => record e.1 e.2).flatten

theorem next_burst {body damaged : Bytes} (short : body.length < 2 ^ 32) (burst : Burst body damaged)
    (rest : Bytes) :
    Framing.next (fun body => (crc32 body).toNat) (record damaged (crc32 body) ++ rest) = none := by
  have changed : (crc32 damaged).toNat ≠ (crc32 body).toNat := by
    intro same
    exact crc32_burst burst (UInt32.toNat_inj.mp same)
  rw [burst.length] at short
  rw [record, Framing.next_sealed short (crc32 body).toNat_lt, if_pos (Or.inr changed)]

/-- A reader of records gets no further than to what is not one. -/
theorem readRecords_records {Seen : Type} {decode : Bytes → Option Seen} {entries : List (Bytes × UInt32)}
    (fits : ∀ e ∈ entries, e.1.length < 2 ^ 32) {rest : Bytes}
    (stop : Framing.next (fun body => (crc32 body).toNat) rest = none) :
    Framing.readRecords (fun body => (crc32 body).toNat) decode (records entries ++ rest).length
        (records entries ++ rest) =
      Framing.readRecords (fun body => (crc32 body).toNat) decode (records entries).length (records entries) := by
  have shape : records entries =
      ((entries.map fun e => (e.1, e.2.toNat)).map fun f => Framing.sealed f.1 f.2).flatten := by
    rw [List.map_map]
    rfl
  have fits' : ∀ f ∈ entries.map fun e => (e.1, e.2.toNat), f.1.length < 2 ^ 32 ∧ f.2 < 2 ^ 32 := by
    intro f mem
    obtain ⟨e, here, rfl⟩ := List.mem_map.mp mem
    exact ⟨fits e here, e.2.toNat_lt⟩
  have longer : (records entries).length ≤ (records entries ++ rest).length := by simp
  rw [← Framing.readRecords_fuel longer (Nat.le_refl _), shape]
  exact Framing.readRecords_unread fits' stop _

/-- A file of any records, one of them damaged: what is read is what is read
without it and all behind it. -/
theorem burst_not_read {entries : List (Bytes × UInt32)} (fits : ∀ e ∈ entries, e.1.length < 2 ^ 32)
    {body damaged : Bytes} (short : body.length < 2 ^ 32) (burst : Burst body damaged) (rest : Bytes) :
    readFramedRecords (records entries ++ (record damaged (crc32 body) ++ rest)) =
        readFramedRecords (records entries) ∧
      Storage.WalFile.replay (records entries ++ (record damaged (crc32 body) ++ rest)) =
        Storage.WalFile.replay (records entries) := by
  have stop := next_burst short burst rest
  refine ⟨?_, readRecords_records fits stop⟩
  rw [readFramedRecords, Framing.read, Framing.scan_eq_readRecords, readRecords_records fits stop,
    readFramedRecords, Framing.read, Framing.scan_eq_readRecords]

/-- Damage within four bytes is always found: the checksums differ, and no reader
of a file gets to the record. -/
theorem burst_detected {body damaged : Bytes} (burst : Burst body damaged) :
    crc32 damaged ≠ crc32 body ∧
      ∀ entries : List (Bytes × UInt32), (∀ e ∈ entries, e.1.length < 2 ^ 32) → body.length < 2 ^ 32 →
        ∀ rest : Bytes,
          readFramedRecords (records entries ++ (record damaged (crc32 body) ++ rest)) =
              readFramedRecords (records entries) ∧
            Storage.WalFile.replay (records entries ++ (record damaged (crc32 body) ++ rest)) =
              Storage.WalFile.replay (records entries) :=
  ⟨crc32_burst burst, fun _ fits short rest => burst_not_read fits short burst rest⟩

/-- Two bytes of a COMMIT record between two whole records. -/
theorem burst_detected_commit :
    let body := Storage.encodeBody { seq := 258, isCommit := true }
    let damaged : Bytes := [1, 0, 0, 0, 0, 0, 0, 2, 1]
    let first := Storage.encodeBody { seq := 1, isCommit := true }
    crc32 damaged ≠ crc32 body ∧
      readFramedRecords (records [(first, crc32 first)] ++ (record damaged (crc32 body) ++ frame first)) =
        [first] ∧
      Storage.WalFile.replay (records [(first, crc32 first)] ++ (record damaged (crc32 body) ++ frame first)) =
        [{ seq := 1, isCommit := true }] := by
  intro body damaged first
  have burst : Burst body damaged := by
    change Burst ([1, 0, 0, 0, 0, 0, 0] ++ ([1, 2] ++ [])) ([1, 0, 0, 0, 0, 0, 0] ++ ([2, 1] ++ []))
    exact .window _ _ rfl (by decide) (by decide)
  obtain ⟨changed, unread⟩ := burst_detected burst
  obtain ⟨framed, replayed⟩ := unread [(first, crc32 first)] (by decide) (by decide) (frame first)
  exact ⟨changed, framed.trans (by decide +kernel), replayed.trans (by decide +kernel)⟩

end Dos.Wire
