import Mathlib.Algebra.Group.Nat.Defs

/-!
# Length-and-checksum framed byte streams

A frame is a four byte length, a body and a four byte checksum. A reader takes
frames as long as they are whole and stops at the first one that is not. The
checksum function is a parameter.
-/
namespace Framing

/-! ## Big-endian integers -/

def bigEndian : ℕ → ℕ → List UInt8
  | 0, _ => []
  | width + 1, v => UInt8.ofNat (v / 256 ^ width) :: bigEndian width v

def fromBigEndian (bytes : List UInt8) : ℕ := bytes.foldl (fun v b => v * 256 + b.toNat) 0

@[simp] theorem bigEndian_length (width v : ℕ) : (bigEndian width v).length = width := by
  induction width with
  | zero => rfl
  | succ width ih => simp [bigEndian, ih]

theorem foldl_bigEndian (start width v : ℕ) :
    (bigEndian width v).foldl (fun v b => v * 256 + b.toNat) start =
      start * 256 ^ width + v % 256 ^ width := by
  induction width generalizing start with
  | zero => simp [bigEndian, Nat.mod_one]
  | succ width ih =>
      have digit : (UInt8.ofNat (v / 256 ^ width)).toNat = v / 256 ^ width % 256 := by simp
      have power : 256 ^ (width + 1) = 256 * 256 ^ width := Nat.pow_succ'
      rw [bigEndian, List.foldl_cons, ih, digit, Nat.mod_pow_succ, power, Nat.add_mul, Nat.mul_assoc,
        Nat.mul_comm (v / 256 ^ width % 256), Nat.add_assoc, Nat.add_comm (256 ^ width * _)]

theorem fromBigEndian_bigEndian {width v : ℕ} (fits : v < 256 ^ width) :
    fromBigEndian (bigEndian width v) = v := by
  unfold fromBigEndian
  rw [foldl_bigEndian, Nat.mod_eq_of_lt fits]
  omega

theorem foldl_lt (bytes : List UInt8) (start : ℕ) :
    bytes.foldl (fun v b => v * 256 + b.toNat) start < (start + 1) * 256 ^ bytes.length := by
  induction bytes generalizing start with
  | nil => simp
  | cons b bytes ih =>
      have digit : b.toNat < 256 := UInt8.toNat_lt b
      calc (b :: bytes).foldl (fun v b => v * 256 + b.toNat) start
          < (start * 256 + b.toNat + 1) * 256 ^ bytes.length := ih _
        _ ≤ (start + 1) * 256 * 256 ^ bytes.length := by
            apply Nat.mul_le_mul_right
            omega
        _ = (start + 1) * 256 ^ (b :: bytes).length := by
            rw [List.length_cons, Nat.pow_succ', Nat.mul_assoc]

theorem fromBigEndian_lt (bytes : List UInt8) : fromBigEndian bytes < 256 ^ bytes.length := by
  have bound := foldl_lt bytes 0
  rwa [Nat.zero_add, Nat.one_mul] at bound

/-! ## Frames -/

section Frames
variable (sum : List UInt8 → ℕ)

def frame (body : List UInt8) : List UInt8 :=
  bigEndian 4 body.length ++ body ++ bigEndian 4 (sum body)

/-- A frame with any checksum in it. -/
def sealed (body : List UInt8) (stored : ℕ) : List UInt8 :=
  bigEndian 4 body.length ++ body ++ bigEndian 4 stored

/-- The first frame, when it is whole, and what follows it. -/
def next (bytes : List UInt8) : Option (List UInt8 × List UInt8) :=
  let len := fromBigEndian (bytes.take 4)
  let body := (bytes.drop 4).take len
  let stored := fromBigEndian ((bytes.drop (4 + len)).take 4)
  if bytes.length < 4 then none
  else if len = 0 ∨ bytes.length < 4 + len + 4 then none
  else if sum body ≠ stored then none
  else some (body, bytes.drop (4 + len + 4))

/-- The whole frames in front, and the rest. Every frame takes at least one
byte, so the length of the input is enough fuel. -/
def scan : ℕ → List UInt8 → List (List UInt8) × List UInt8
  | 0, bytes => ([], bytes)
  | fuel + 1, bytes =>
      match next sum bytes with
      | none => ([], bytes)
      | some (body, rest) =>
          let (bodies, rest) := scan fuel rest
          (body :: bodies, rest)

def read (bytes : List UInt8) : List (List UInt8) := (scan sum bytes.length bytes).1

def tail (bytes : List UInt8) : List UInt8 := (scan sum bytes.length bytes).2

/-- A body that its length field and its checksum field can describe. -/
structure Describable (body : List UInt8) : Prop where
  nonempty : body ≠ []
  short : body.length < 2 ^ 32
  word : sum body < 2 ^ 32

variable {sum} {body : List UInt8}

theorem sealed_length (stored : ℕ) : (sealed body stored).length = 4 + body.length + 4 := by
  simp [sealed, Nat.add_assoc]

theorem frame_length : (frame sum body).length = 4 + body.length + 4 := sealed_length _

/-- The reader takes a frame exactly if its checksum is the one of its body. -/
theorem next_sealed (short : body.length < 2 ^ 32) {stored : ℕ} (word : stored < 2 ^ 32) (rest : List UInt8) :
    next sum (sealed body stored ++ rest) = if body = [] ∨ sum body ≠ stored then none else some (body, rest) := by
  have header : fromBigEndian ((sealed body stored ++ rest).take 4) = body.length := by
    rw [sealed, List.append_assoc, List.append_assoc, List.take_left' (bigEndian_length 4 _)]
    exact fromBigEndian_bigEndian short
  have content : ((sealed body stored ++ rest).drop 4).take body.length = body := by
    rw [sealed, List.append_assoc, List.append_assoc, List.drop_left' (bigEndian_length 4 _),
      List.take_left]
  have trailer : fromBigEndian (((sealed body stored ++ rest).drop (4 + body.length)).take 4) = stored := by
    have front : (bigEndian 4 body.length ++ body).length = 4 + body.length := by simp
    rw [sealed, List.append_assoc, List.drop_left' front, List.take_left' (bigEndian_length 4 _)]
    exact fromBigEndian_bigEndian word
  have size : (sealed body stored ++ rest).length = 4 + body.length + 4 + rest.length := by
    rw [List.length_append, sealed_length]
  simp only [next, header, content, trailer, size]
  rw [if_neg (by omega)]
  by_cases empty : body = []
  · subst empty
    simp
  · have filled : body.length ≠ 0 := by simpa using empty
    rw [if_neg (by omega), List.drop_left' (sealed_length stored)]
    simp only [empty, false_or]

theorem next_frame (ok : Describable sum body) (rest : List UInt8) :
    next sum (frame sum body ++ rest) = some (body, rest) := by
  have taken : ¬(body = [] ∨ sum body ≠ sum body) := by simp [ok.nonempty]
  rw [frame, ← sealed, next_sealed ok.short ok.word, if_neg taken]

/-- Less than a whole frame is no frame. -/
theorem next_cut (ok : Describable sum body) {n : ℕ} (short : n < (frame sum body).length) :
    next sum ((frame sum body).take n) = none := by
  have size : ((frame sum body).take n).length = n := by
    rw [List.length_take]
    omega
  by_cases header : n < 4
  · simp only [next, size, if_pos header]
  · have len : fromBigEndian (((frame sum body).take n).take 4) = body.length := by
      rw [List.take_take, Nat.min_eq_left (by omega), frame, List.append_assoc,
        List.take_left' (bigEndian_length 4 _)]
      exact fromBigEndian_bigEndian ok.short
    rw [frame_length] at short
    simp only [next, size, len, if_neg header]
    rw [if_pos (by omega)]

theorem next_nil : next sum [] = none := rfl

theorem scan_stop {bytes : List UInt8} (stop : next sum bytes = none) (fuel : ℕ) :
    scan sum fuel bytes = ([], bytes) := by
  cases fuel with
  | zero => rfl
  | succ fuel => simp only [scan, stop]

theorem scan_frames {bodies : List (List UInt8)} (ok : ∀ body ∈ bodies, Describable sum body)
    {rest : List UInt8} (stop : next sum rest = none) {fuel : ℕ} (enough : bodies.length ≤ fuel) :
    scan sum fuel ((bodies.map (frame sum)).flatten ++ rest) = (bodies, rest) := by
  induction bodies generalizing fuel with
  | nil => exact scan_stop stop fuel
  | cons body bodies ih =>
      obtain ⟨first, others⟩ := List.forall_mem_cons.mp ok
      cases fuel with
      | zero => simp at enough
      | succ fuel =>
          have more : bodies.length ≤ fuel := by simpa using enough
          simp only [scan, List.map_cons, List.flatten_cons, List.append_assoc, next_frame first,
            ih others more]

theorem length_le_frames (bodies : List (List UInt8)) :
    bodies.length ≤ ((bodies.map (frame sum)).flatten).length := by
  induction bodies with
  | nil => exact Nat.le_refl _
  | cons body bodies ih =>
      rw [List.map_cons, List.flatten_cons, List.length_append, frame_length, List.length_cons]
      omega

/-- Frames followed by anything that does not start with one. -/
theorem scan_stream {bodies : List (List UInt8)} (ok : ∀ body ∈ bodies, Describable sum body)
    {rest : List UInt8} (stop : next sum rest = none) :
    read sum ((bodies.map (frame sum)).flatten ++ rest) = bodies ∧
      tail sum ((bodies.map (frame sum)).flatten ++ rest) = rest := by
  have enough : bodies.length ≤ ((bodies.map (frame sum)).flatten ++ rest).length := by
    rw [List.length_append]
    exact Nat.le_add_right_of_le (length_le_frames bodies)
  unfold read tail
  rw [scan_frames ok stop enough]
  exact ⟨rfl, rfl⟩

/-- No body is longer than its length field can say. -/
theorem next_short {bytes rest : List UInt8} (whole : next sum bytes = some (body, rest)) :
    body.length < 2 ^ 32 := by
  simp only [next] at whole
  split at whole
  · contradiction
  · next header =>
      split at whole
      · contradiction
      · split at whole
        · contradiction
        · obtain ⟨rfl, -⟩ := Prod.mk.inj (Option.some.inj whole)
          have word : (bytes.take 4).length = 4 := by
            rw [List.length_take]
            omega
          have bound := fromBigEndian_lt (bytes.take 4)
          rw [word] at bound
          exact Nat.lt_of_le_of_lt (List.length_take_le _ _) bound

theorem scan_short {fuel : ℕ} {bytes : List UInt8} :
    ∀ body ∈ (scan sum fuel bytes).1, body.length < 2 ^ 32 := by
  induction fuel generalizing bytes with
  | zero => exact List.forall_mem_nil _
  | succ fuel ih =>
      intro body member
      cases found : next sum bytes with
      | none =>
          simp only [scan, found] at member
          exact absurd member List.not_mem_nil
      | some split =>
          simp only [scan, found] at member
          rcases List.mem_cons.mp member with rfl | later
          · exact next_short found
          · exact ih body later

/-! ## Streams that go on -/

theorem next_shorter {bytes rest : List UInt8} (whole : next sum bytes = some (body, rest)) :
    rest.length < bytes.length := by
  simp only [next] at whole
  split at whole
  · contradiction
  · split at whole
    · contradiction
    · split at whole
      · contradiction
      · obtain ⟨-, rfl⟩ := Prod.mk.inj (Option.some.inj whole)
        rw [List.length_drop]
        omega

/-- A whole frame in front does not depend on what follows it. -/
theorem next_append {bytes rest : List UInt8} (whole : next sum bytes = some (body, rest))
    (more : List UInt8) : next sum (bytes ++ more) = some (body, rest ++ more) := by
  simp only [next] at whole
  split at whole
  · contradiction
  · next header =>
      have len : (bytes ++ more).take 4 = bytes.take 4 := List.take_append_of_le_length (by omega)
      simp only [next, len, List.length_append]
      rw [if_neg (by omega)]
      split at whole
      · contradiction
      · next fits =>
          have content : ((bytes ++ more).drop 4).take (fromBigEndian (bytes.take 4)) =
              (bytes.drop 4).take (fromBigEndian (bytes.take 4)) := by
            rw [List.drop_append_of_le_length (by omega),
              List.take_append_of_le_length (by rw [List.length_drop]; omega)]
          have trailer : ((bytes ++ more).drop (4 + fromBigEndian (bytes.take 4))).take 4 =
              (bytes.drop (4 + fromBigEndian (bytes.take 4))).take 4 := by
            rw [List.drop_append_of_le_length (by omega),
              List.take_append_of_le_length (by rw [List.length_drop]; omega)]
          rw [if_neg (by omega), content, trailer]
          split at whole
          · contradiction
          · next same =>
              obtain ⟨rfl, rfl⟩ := Prod.mk.inj (Option.some.inj whole)
              rw [if_neg same, List.drop_append_of_le_length (by omega)]

/-! ## Streams of records -/

section Records
variable {Record : Type} {encode : Record → List UInt8}

/-- The frames of some records. -/
def stream (sum : List UInt8 → ℕ) (encode : Record → List UInt8) (records : List Record) :
    List UInt8 := (records.map fun record => frame sum (encode record)).flatten

@[simp] theorem stream_nil : stream sum encode [] = [] := rfl

@[simp] theorem stream_cons (record : Record) (records : List Record) :
    stream sum encode (record :: records) =
      frame sum (encode record) ++ stream sum encode records := rfl

theorem length_le_stream (records : List Record) :
    records.length ≤ (stream sum encode records).length := by
  induction records with
  | nil => exact Nat.le_refl _
  | cons record records ih =>
      rw [stream_cons, List.length_append, frame_length, List.length_cons]
      omega

/-- Cutting a stream leaves the records whose frames are whole, and no whole
frame after them. -/
theorem stream_cut {records : List Record}
    (ok : ∀ record ∈ records, Describable sum (encode record)) (n : ℕ) :
    ∃ kept torn, kept <+: records ∧
      (stream sum encode records).take n = stream sum encode kept ++ torn ∧
      next sum torn = none ∧
      ∀ longer, longer <+: records → (stream sum encode longer).length ≤ n →
        longer.length ≤ kept.length := by
  induction records generalizing n with
  | nil =>
      refine ⟨[], [], List.nil_prefix, by simp, next_nil, ?_⟩
      intro longer start _
      exact start.length_le
  | cons record records ih =>
      obtain ⟨first, others⟩ := List.forall_mem_cons.mp ok
      by_cases short : n < (frame sum (encode record)).length
      · refine ⟨[], (frame sum (encode record)).take n, List.nil_prefix, ?_, next_cut first short, ?_⟩
        · rw [stream_cons, List.take_append_of_le_length (Nat.le_of_lt short)]
          rfl
        · intro longer start inside
          cases longer with
          | nil => exact Nat.le_refl _
          | cons other longer =>
              -- the first record of a prefix is the first of all, and it does not fit
              obtain ⟨rfl, -⟩ := List.cons_prefix_cons.mp start
              rw [stream_cons, List.length_append] at inside
              omega
      · obtain ⟨kept, torn, start, cut, stop, longest⟩ :=
          ih others (n - (frame sum (encode record)).length)
        refine ⟨record :: kept, torn, List.cons_prefix_cons.mpr ⟨rfl, start⟩, ?_, stop, ?_⟩
        · rw [stream_cons, stream_cons, List.take_append, cut,
            List.take_of_length_le (Nat.le_of_not_lt short), List.append_assoc]
        · intro longer begins inside
          cases longer with
          | nil => exact Nat.zero_le _
          | cons other longer =>
              obtain ⟨rfl, others⟩ := List.cons_prefix_cons.mp begins
              rw [stream_cons, List.length_append] at inside
              exact Nat.succ_le_succ (longest longer others (by omega))

variable {Seen : Type} {decode : List UInt8 → Option Seen}

/-- Read records until a frame is not whole or its body is no record. -/
def readRecords (sum : List UInt8 → ℕ) (decode : List UInt8 → Option Seen) :
    ℕ → List UInt8 → List Seen
  | 0, _ => []
  | fuel + 1, bytes =>
      match next sum bytes with
      | none => []
      | some (body, rest) =>
          match decode body with
          | none => []
          | some record => record :: readRecords sum decode fuel rest

/-- Fuel beyond the length of the input changes nothing. -/
theorem readRecords_fuel {bytes : List UInt8} {fuel other : ℕ} (enough : bytes.length ≤ fuel)
    (also : bytes.length ≤ other) :
    readRecords sum decode fuel bytes = readRecords sum decode other bytes := by
  induction fuel generalizing bytes other with
  | zero =>
      have none : bytes = [] := List.length_eq_zero_iff.mp (Nat.le_zero.mp enough)
      cases other with
      | zero => rfl
      | succ other => simp only [none, readRecords, next_nil]
  | succ fuel ih =>
      cases found : next sum bytes with
      | none =>
          cases other with
          | zero => simp only [readRecords, found]
          | succ other => simp only [readRecords, found]
      | some split =>
          obtain ⟨body, rest⟩ := split
          have shorter := next_shorter found
          cases other with
          | zero => omega
          | succ other =>
              have same := ih (by omega : rest.length ≤ fuel) (by omega : rest.length ≤ other)
              simp only [readRecords, found, same]

/-- What is read from some bytes is read from them also when more follow. -/
theorem readRecords_append (fuel extra : ℕ) (bytes more : List UInt8) :
    readRecords sum decode fuel bytes <+: readRecords sum decode (fuel + extra) (bytes ++ more) := by
  induction fuel generalizing bytes with
  | zero => exact List.nil_prefix
  | succ fuel ih =>
      rw [Nat.succ_add]
      cases found : next sum bytes with
      | none =>
          simp only [readRecords, found]
          exact List.nil_prefix
      | some split =>
          obtain ⟨body, rest⟩ := split
          simp only [readRecords, found, next_append found more]
          cases decode body with
          | none => exact List.nil_prefix
          | some record => exact List.cons_prefix_cons.mpr ⟨rfl, ih rest⟩

/-- A stream gives its records back, and then whatever follows it. -/
theorem readRecords_stream {view : Record → Seen} {records : List Record}
    (ok : ∀ record ∈ records, Describable sum (encode record))
    (back : ∀ record ∈ records, decode (encode record) = some (view record))
    (fuel : ℕ) (rest : List UInt8) :
    readRecords sum decode (records.length + fuel) (stream sum encode records ++ rest) =
      records.map view ++ readRecords sum decode fuel rest := by
  induction records with
  | nil => simp
  | cons record records ih =>
      obtain ⟨first, others⟩ := List.forall_mem_cons.mp ok
      obtain ⟨now, later⟩ := List.forall_mem_cons.mp back
      rw [List.length_cons, Nat.succ_add, stream_cons, List.append_assoc]
      simp only [readRecords, next_frame first, now, ih others later, List.map_cons,
        List.cons_append]

theorem readRecords_stop {bytes : List UInt8} (stop : next sum bytes = none) (fuel : ℕ) :
    readRecords sum decode fuel bytes = [] := by
  cases fuel with
  | zero => rfl
  | succ fuel => simp only [readRecords, stop]

/-- Reading bodies is reading records that are their bodies. -/
theorem scan_eq_readRecords (fuel : ℕ) (bytes : List UInt8) :
    (scan sum fuel bytes).1 = readRecords sum some fuel bytes := by
  induction fuel generalizing bytes with
  | zero => rfl
  | succ fuel ih =>
      cases found : next sum bytes with
      | none => simp only [scan, readRecords, found]
      | some split => simp only [scan, readRecords, found, ih]

/-- Behind frames of any kind, what does not start with a frame is not read. -/
theorem readRecords_unread {frames : List (List UInt8 × ℕ)}
    (fits : ∀ f ∈ frames, f.1.length < 2 ^ 32 ∧ f.2 < 2 ^ 32) {rest : List UInt8} (stop : next sum rest = none)
    (fuel : ℕ) :
    readRecords sum decode fuel ((frames.map fun f => sealed f.1 f.2).flatten ++ rest) =
      readRecords sum decode fuel (frames.map fun f => sealed f.1 f.2).flatten := by
  induction frames generalizing fuel with
  | nil => rw [List.map_nil, List.flatten_nil, List.nil_append, readRecords_stop stop, readRecords_stop next_nil]
  | cons f frames ih =>
      obtain ⟨⟨short, word⟩, others⟩ := List.forall_mem_cons.mp fits
      rw [List.map_cons, List.flatten_cons, List.append_assoc]
      cases fuel with
      | zero => rfl
      | succ fuel =>
          simp only [readRecords, next_sealed short word]
          by_cases broken : f.1 = [] ∨ sum f.1 ≠ f.2
          · simp only [if_pos broken]
          · simp only [if_neg broken, ih others]

end Records
end Frames
end Framing
