import DistributedObjectStorage.Common.Sha256
import DistributedObjectStorage.Storage.MetadataStore
import DistributedObjectStorage.Storage.Wal

/-!
# The object store of one node

`Disk` is what survives a crash. A mutation is a sequence of disk steps; the
whole operations at the end run them without interruption. Time is an argument,
and I/O errors do not occur.
-/
namespace Dos.Storage

/-- Payload files are named by the key digest; `tmp` holds staged payloads. -/
structure Disk where
  metadata : SqliteMetadataStore
  files : OrderedMap Bytes Bytes
  tmp : List Bytes
  wal : Wal

/-- The path of a payload file below the store's root. -/
def physicalPath (digest : Bytes) : Bytes :=
  text "data/" ++ digest.take 2 ++ text "/" ++ (digest.drop 2).take 2 ++ text "/" ++ digest

namespace Disk

def empty : Disk := ⟨⟨∅⟩, ∅, [], .empty⟩

def readWholeFile (d : Disk) (digest : Bytes) : StatusOr Bytes :=
  match d.files[digest]? with
  | none => .error (.ioError (text "open for read: " ++ physicalPath digest))
  | some data => .ok data

/-! ## Reading -/

def get (d : Disk) (key : Bytes) : StatusOr Bytes :=
  match d.metadata.get key with
  | .error status => .error status
  | .ok row =>
      match d.readWholeFile (keyDigest key) with
      | .error status => .error status
      | .ok data =>
          if sha256Hex data ≠ row.checksum then
            .error (.checksumMismatch (text "checksum mismatch for key: " ++ key))
          else .ok data

def head (d : Disk) (key : Bytes) : StatusOr ObjectMetadata := d.metadata.get key

/-! ## The steps of a mutation -/

def appendBegin (d : Disk) (seq : ℕ) (op : WalOp) (key : Bytes) (version : ℕ) (checksum : Bytes)
    (size : ℕ) : Disk :=
  { d with wal := d.wal.appendRecord (.begin seq op key version checksum size) }

/-- `WriteFileAtomic` up to the rename. -/
def stagePayload (d : Disk) (data : Bytes) : Disk := { d with tmp := data :: d.tmp }

/-- The rename of `WriteFileAtomic`. -/
def placePayload (d : Disk) (key data : Bytes) : Disk :=
  { d with files := d.files.insert (keyDigest key) data, tmp := d.tmp.erase data }

def putRow (d : Disk) (row : ObjectMetadata) : Disk := { d with metadata := d.metadata.put row }

def deleteRow (d : Disk) (key : Bytes) : Disk × Status :=
  let (metadata, status) := d.metadata.delete key
  ({ d with metadata := metadata }, status)

def appendCommit (d : Disk) (seq : ℕ) : Disk :=
  { d with wal := d.wal.appendRecord (.commit seq) }

end Disk

/-- The arguments of `DoPut`. -/
structure WriteRequest where
  key : Bytes
  data : Bytes
  explicitVersion : ℕ
  conditional : Bool
  expectedVersion : ℕ
  requestId : Bytes
  deriving DecidableEq, Repr

def WriteRequest.put (key data : Bytes) : WriteRequest := ⟨key, data, 0, false, 0, []⟩

def WriteRequest.putWithVersion (key data : Bytes) (version : ℕ) : WriteRequest :=
  ⟨key, data, version, false, 0, []⟩

def WriteRequest.putConditional (key data : Bytes) (expectedVersion : ℕ) (requestId : Bytes) :
    WriteRequest := ⟨key, data, 0, true, expectedVersion, requestId⟩

/-- `DoPut` answers from the current row, or it writes a new one. -/
inductive PutPlan where
  | answer (result : StatusOr ObjectMetadata)
  | write (row : ObjectMetadata)

def versionConflict (req : WriteRequest) (currentVersion : ℕ) : Status :=
  .conflict (text "version conflict for '" ++ req.key ++ text "': expected " ++
    text (toString req.expectedVersion) ++ text ", have " ++ text (toString currentVersion))

/-- The row of a write that finds the given version. -/
def newRow (req : WriteRequest) (currentVersion : ℕ) (now : Int) : ObjectMetadata where
  key := req.key
  size := req.data.length
  checksum := sha256Hex req.data
  version :=
    if req.explicitVersion ≠ 0 then req.explicitVersion
    else if req.conditional then increment req.expectedVersion
    else increment currentVersion
  createdAt := now
  deleted := false
  requestId := req.requestId

/-- The version check and the new row. -/
def planWrite (req : WriteRequest) (currentVersion : ℕ) (now : Int) : PutPlan :=
  if req.conditional ∧ currentVersion ≠ req.expectedVersion then
    .answer (.error (versionConflict req currentVersion))
  else .write (newRow req currentVersion now)

/-- `DoPut` up to the first disk step. -/
def planPut (d : Disk) (req : WriteRequest) (now : Int) : PutPlan :=
  match d.metadata.peek req.key with
  | .ok row =>
      if req.requestId ≠ [] ∧ row.requestId = req.requestId then .answer (.ok row)
      else planWrite req row.version now
  | .error _ => planWrite req 0 now

/-! ## Recovery -/

/-- One iteration of the loop of `Recover`. -/
def recoverRecord (committed : List ℕ) (now : Int) (d : Disk) (rec : WalRecord) : Disk :=
  if rec.isCommit ∨ rec.seq ∈ committed then d
  else
    match rec.op with
    | .put =>
        if (d.metadata.peek rec.key).toOption.any (rec.version ≤ ·.version) then d
        else
          match d.readWholeFile (keyDigest rec.key) with
          | .error _ => d
          | .ok data =>
              if sha256Hex data = rec.checksum then
                d.putRow
                  { key := rec.key
                    size := rec.size
                    checksum := rec.checksum
                    version := rec.version
                    createdAt := now
                    deleted := false
                    requestId := [] }
              else d
    | .delete =>
        if (d.metadata.peek rec.key).toOption.any (!·.deleted) then (d.deleteRow rec.key).1 else d

/-- `Recover` without interruption: the records, the staging area, the log. -/
def recover (d : Disk) (now : Int) : Disk :=
  let records := d.wal.replay
  let d := records.foldl (recoverRecord (Wal.committed records) now) d
  { d with tmp := [], wal := .empty }

/-! ## Whole operations of an open store -/

structure LocalObjectStore where
  disk : Disk
  nextSeq : ℕ

namespace LocalObjectStore

/-- `Open` of an existing directory. -/
def openStore (d : Disk) (now : Int) : LocalObjectStore := ⟨recover d now, 1⟩

def doPut (s : LocalObjectStore) (req : WriteRequest) (now : Int) :
    LocalObjectStore × StatusOr ObjectMetadata :=
  match planPut s.disk req now with
  | .answer result => (s, result)
  | .write row =>
      let d := s.disk.appendBegin s.nextSeq .put row.key row.version row.checksum row.size
      let d := (d.stagePayload req.data).placePayload row.key req.data
      let d := (d.putRow row).appendCommit s.nextSeq
      (⟨d, s.nextSeq + 1⟩, .ok row)

def put (s : LocalObjectStore) (key data : Bytes) (now : Int) :
    LocalObjectStore × StatusOr ObjectMetadata :=
  if key = [] then (s, .error (.invalidArgument (text "empty key"))) else s.doPut (.put key data) now

def putWithVersion (s : LocalObjectStore) (key data : Bytes) (version : ℕ) (now : Int) :
    LocalObjectStore × StatusOr ObjectMetadata :=
  if key = [] then (s, .error (.invalidArgument (text "empty key")))
  else if version = 0 then
    (s, .error (.invalidArgument (text "explicit version must be non-zero")))
  else s.doPut (.putWithVersion key data version) now

def putConditional (s : LocalObjectStore) (key data : Bytes) (expectedVersion : ℕ)
    (requestId : Bytes) (now : Int) : LocalObjectStore × StatusOr ObjectMetadata :=
  if key = [] then (s, .error (.invalidArgument (text "empty key")))
  else s.doPut (.putConditional key data expectedVersion requestId) now

def get (s : LocalObjectStore) (key : Bytes) : StatusOr Bytes := s.disk.get key

def head (s : LocalObjectStore) (key : Bytes) : StatusOr ObjectMetadata := s.disk.head key

/-- A delete that finds nothing leaves its BEGIN record open. -/
def delete (s : LocalObjectStore) (key : Bytes) : LocalObjectStore × Status :=
  let d := s.disk.appendBegin s.nextSeq .delete key 0 [] 0
  let (d, status) := d.deleteRow key
  if status.isOk then (⟨d.appendCommit s.nextSeq, s.nextSeq + 1⟩, status)
  else (⟨d, s.nextSeq + 1⟩, status)

end LocalObjectStore
end Dos.Storage
