import DistributedObjectStorage.Common.Wire
import DistributedObjectStorage.Storage.Wal

/-!
# The bytes of the write-ahead log

Each record is a frame. A COMMIT body holds its sequence number only, a BEGIN
body all fields. `Replay` reads records until a frame is not whole or a body is
no record.
-/
namespace Dos.Storage
open Wire

/-- The struct `WalRecord` with the byte behind its `op`: the enumeration has
two names, its underlying type holds any byte. -/
structure RawRecord where
  seq : ℕ := 0
  isCommit : Bool := false
  op : UInt8 := 1
  key : Bytes := []
  version : ℕ := 0
  checksum : Bytes := []
  size : ℕ := 0
  deriving DecidableEq, Repr

def encodeBody (rec : RawRecord) : Bytes :=
  (if rec.isCommit then 1 else 0) :: (putU64 rec.seq ++
    if rec.isCommit then []
    else rec.op ::
      (putU64 rec.version ++ (putU64 rec.size ++ (putStr rec.key ++ putStr rec.checksum))))

def readU8 : Bytes → Option (UInt8 × Bytes)
  | [] => none
  | b :: r => some (b, r)

def decodeBody (body : Bytes) : Option RawRecord := do
  let (isCommit, r) ← readU8 body
  let (seq, r) ← readU64 r
  if isCommit ≠ 0 then return { seq, isCommit := true }
  let (op, r) ← readU8 r
  let (version, r) ← readU64 r
  let (size, r) ← readU64 r
  let (key, r) ← readStr r
  let (checksum, _) ← readStr r
  return { seq, isCommit := false, op, key, version, checksum, size }

namespace WalFile

/-- `AppendRecord` on the bytes of the file. -/
def appendRecord (file : Bytes) (rec : RawRecord) : Bytes := file ++ frame (encodeBody rec)

def replay (all : Bytes) : List RawRecord :=
  Framing.readRecords (fun body => (crc32 body).toNat) decodeBody all.length all

end WalFile

/-- The fields fit their machine types, and the body its length field. -/
structure RawRecord.Fits (rec : RawRecord) : Prop where
  seq : rec.seq < 2 ^ 64
  version : rec.version < 2 ^ 64
  size : rec.size < 2 ^ 64
  body : (encodeBody rec).length < 2 ^ 32

instance RawRecord.Fits.decidable (rec : RawRecord) : Decidable rec.Fits :=
  decidable_of_iff (rec.seq < 2 ^ 64 ∧ rec.version < 2 ^ 64 ∧ rec.size < 2 ^ 64 ∧
      (encodeBody rec).length < 2 ^ 32)
    ⟨fun ⟨seq, version, size, body⟩ => ⟨seq, version, size, body⟩,
      fun fits => ⟨fits.seq, fits.version, fits.size, fits.body⟩⟩

/-- What the file keeps of a record. -/
def RawRecord.reduced (rec : RawRecord) : RawRecord :=
  if rec.isCommit then { seq := rec.seq, isCommit := true } else rec

/-! ## Bodies -/

section Body
variable {rec : RawRecord}

theorem RawRecord.Fits.strings (fits : rec.Fits) (plain : rec.isCommit = false) :
    rec.key.length < 2 ^ 32 ∧ rec.checksum.length < 2 ^ 32 := by
  have short := fits.body
  simp only [encodeBody, plain, Bool.false_eq_true, if_false, putStr, List.length_cons,
    List.length_append] at short
  omega

theorem decodeBody_encodeBody (fits : rec.Fits) : decodeBody (encodeBody rec) = some rec.reduced := by
  cases commit : rec.isCommit with
  | true =>
      have last : readU64 (putU64 rec.seq) = some (rec.seq, []) := by
        simpa using readU64_put fits.seq []
      simp [decodeBody, encodeBody, RawRecord.reduced, commit, readU8, last]
  | false =>
      obtain ⟨key, checksum⟩ := fits.strings commit
      have last : readStr (putStr rec.checksum) = some (rec.checksum, []) := by
        simpa using readStr_put checksum []
      simp only [decodeBody, encodeBody, RawRecord.reduced, commit, readU8, readU64_put fits.seq,
        readU64_put fits.version, readU64_put fits.size, readStr_put key, last, Bool.false_eq_true,
        if_false, ne_eq, not_true_eq_false, pure, Option.bind_eq_bind, Option.bind_some]
      rw [← commit]

theorem RawRecord.Fits.describable (fits : rec.Fits) :
    Framing.Describable (fun body => (crc32 body).toNat) (encodeBody rec) :=
  Wire.describable (List.cons_ne_nil _ _) fits.body

end Body

/-! ## Files -/

namespace WalFile

/-- The file of some records. -/
def ofRecords (records : List RawRecord) : Bytes := records.foldl appendRecord []

theorem foldl_appendRecord (records : List RawRecord) (file : Bytes) :
    records.foldl appendRecord file =
      file ++ Framing.stream (fun body => (crc32 body).toNat) encodeBody records := by
  induction records generalizing file with
  | nil => simp
  | cons rec records ih =>
      rw [List.foldl_cons, ih, appendRecord, Framing.stream_cons, List.append_assoc]
      rfl

/-- The fuel never runs out: the loop goes on for as long as records follow. -/
theorem replay_loop (all : Bytes) :
    replay all =
      match Framing.next (fun body => (crc32 body).toNat) all with
      | none => []
      | some (body, rest) =>
          match decodeBody body with
          | none => []
          | some rec => rec :: replay rest := by
  have start : replay all =
      Framing.readRecords (fun body => (crc32 body).toNat) decodeBody (all.length + 1) all :=
    Framing.readRecords_fuel (Nat.le_refl _) (Nat.le_succ _)
  rw [start, Framing.readRecords]
  cases found : Framing.next (fun body => (crc32 body).toNat) all with
  | none => rfl
  | some split =>
      have shorter := Framing.next_shorter found
      have again : Framing.readRecords (fun body => (crc32 body).toNat) decodeBody all.length split.2 =
          replay split.2 := Framing.readRecords_fuel (Nat.le_of_lt shorter) (Nat.le_refl _)
      simp only [again]
      cases decodeBody split.1 with
      | none => rfl
      | some rec => rfl

theorem replay_append (f g : Bytes) : replay f <+: replay (f ++ g) := by
  unfold replay
  rw [List.length_append]
  exact Framing.readRecords_append f.length g.length f g

theorem replay_ofRecords {records : List RawRecord} (fits : ∀ rec ∈ records, rec.Fits) {rest : Bytes}
    (stop : Framing.next (fun body => (crc32 body).toNat) rest = none) :
    replay (ofRecords records ++ rest) = records.map RawRecord.reduced := by
  have bytes : ofRecords records =
      Framing.stream (fun body => (crc32 body).toNat) encodeBody records := by
    rw [ofRecords, foldl_appendRecord, List.nil_append]
  have frames : records.length ≤ (ofRecords records ++ rest).length := by
    rw [bytes, List.length_append]
    exact Nat.le_add_right_of_le (Framing.length_le_stream records)
  obtain ⟨more, length⟩ := Nat.exists_eq_add_of_le frames
  unfold replay
  rw [length, bytes,
    Framing.readRecords_stream (fun rec member => (fits rec member).describable)
      (fun rec member => decodeBody_encodeBody (fits rec member)),
    Framing.readRecords_stop stop, List.append_nil]

theorem next_torn {rec : RawRecord} (fits : rec.Fits) {t : Bytes} (start : t <+: frame (encodeBody rec))
    (cut : t ≠ frame (encodeBody rec)) :
    Framing.next (fun body => (crc32 body).toNat) t = none := by
  have short : t.length < (frame (encodeBody rec)).length := by
    refine Nat.lt_of_le_of_ne start.length_le (fun same => cut ?_)
    exact start.eq_of_length same
  rw [List.prefix_iff_eq_take.mp start]
  exact Framing.next_cut fits.describable short

/-- Replaying a log gives its records back whatever follows them, nothing more
when that is a torn record, and never less when a file grows. -/
theorem replay_format (records : List RawRecord) (fits : ∀ rec ∈ records, rec.Fits) :
    (∀ t, records.map RawRecord.reduced <+: replay (ofRecords records ++ t)) ∧
      (∀ t rec, RawRecord.Fits rec → t <+: frame (encodeBody rec) → t ≠ frame (encodeBody rec) →
        replay (ofRecords records ++ t) = records.map RawRecord.reduced) ∧
      ∀ f g, replay f <+: replay (f ++ g) := by
  refine ⟨?_, ?_, replay_append⟩
  · intro t
    have whole := replay_ofRecords fits Framing.next_nil
    rw [List.append_nil] at whole
    rw [← whole]
    exact replay_append _ t
  · intro t rec described start cut
    exact replay_ofRecords fits (next_torn described start cut)

/-- A BEGIN whose key looks like a frame. -/
def framedKey : RawRecord := { seq := 1, op := 2, key := frame [1, 2], version := 3, checksum := [0] }

theorem replay_format_framedKey :
    replay (ofRecords [framedKey, { seq := 1, isCommit := true, key := [9] }] ++
      (frame (encodeBody framedKey)).take 7) = [framedKey, { seq := 1, isCommit := true }] := by
  have start : (frame (encodeBody framedKey)).take 7 <+: frame (encodeBody framedKey) :=
    List.take_prefix 7 _
  exact (replay_format _ (by decide +kernel)).2.1 _ framedKey (by decide +kernel) start (by decide +kernel)

end WalFile

/-! ## Records and bytes -/

def WalOp.code : WalOp → UInt8
  | .put => 1
  | .delete => 2

def WalRecord.raw (rec : WalRecord) : RawRecord :=
  { seq := rec.seq, isCommit := rec.isCommit, op := rec.op.code, key := rec.key,
    version := rec.version, checksum := rec.checksum, size := rec.size }

/-- The file holds the frames of the log's records, and behind them a tail
without a whole frame, which is empty unless the log is torn. -/
structure Wal.Stored (w : Wal) (file : Bytes) : Prop where
  bytes : ∃ tail, file = WalFile.ofRecords (w.records.map WalRecord.raw) ++ tail ∧
    Framing.next (fun body => (crc32 body).toNat) tail = none ∧ (w.torn = false → tail = [])
  fits : ∀ rec ∈ w.records, rec.raw.Fits ∧ rec.raw.reduced = rec.raw

namespace Wal.Stored
variable {w : Wal} {file : Bytes}

theorem empty : Wal.Stored .empty [] :=
  ⟨⟨[], rfl, Framing.next_nil, fun _ => rfl⟩, List.forall_mem_nil _⟩

/-- The bytes replay to the records of the log. -/
theorem replay (stored : w.Stored file) : WalFile.replay file = w.replay.map WalRecord.raw := by
  obtain ⟨tail, rfl, stop, -⟩ := stored.bytes
  have fits : ∀ raw ∈ w.records.map WalRecord.raw, raw.Fits := by
    intro raw member
    obtain ⟨rec, inside, rfl⟩ := List.mem_map.mp member
    exact (stored.fits rec inside).1
  rw [WalFile.replay_ofRecords fits stop, List.map_map]
  exact List.map_congr_left (fun rec member => (stored.fits rec member).2)

theorem appendRecord (stored : w.Stored file) (whole : w.torn = false) {rec : WalRecord}
    (fits : rec.raw.Fits) (plain : rec.raw.reduced = rec.raw) :
    (w.appendRecord rec).Stored (WalFile.appendRecord file rec.raw) := by
  obtain ⟨tail, bytes, -, empty⟩ := stored.bytes
  rw [empty whole, List.append_nil] at bytes
  have grown : w.appendRecord rec = { w with records := w.records ++ [rec] } := by
    rw [Wal.appendRecord, if_neg (by simp [whole])]
  rw [grown]
  refine ⟨⟨[], ?_, Framing.next_nil, fun _ => rfl⟩, ?_⟩
  · simp [WalFile.ofRecords, bytes]
  · intro other member
    rcases List.mem_append.mp member with old | new
    · exact stored.fits other old
    · rw [List.mem_singleton.mp new]
      exact ⟨fits, plain⟩

/-- An append that dies inside its frame tears the log. -/
theorem tear (stored : w.Stored file) (whole : w.torn = false) {rec : RawRecord} (fits : rec.Fits)
    {t : Bytes} (start : t <+: frame (encodeBody rec)) (cut : t ≠ frame (encodeBody rec)) :
    w.tear.Stored (file ++ t) := by
  obtain ⟨tail, bytes, -, empty⟩ := stored.bytes
  rw [empty whole, List.append_nil] at bytes
  refine ⟨⟨t, ?_, WalFile.next_torn fits start cut, fun never => absurd never (by simp [Wal.tear])⟩,
    stored.fits⟩
  rw [bytes]
  rfl

end Wal.Stored
end Dos.Storage
