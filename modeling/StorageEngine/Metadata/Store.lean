import Mathlib.Data.List.Dedup
import StorageEngine.Lib.Table
import StorageEngine.Metadata.PgText

/-!
# The metadata store

The six tables of `db/init.sql` and the database clock. Left out are the columns no query of
`PostgresRepository` reads (`files.is_public`, `files.created_at`, `users.created_at`,
`clusters.status`). `SERIAL` columns draw from a sequence of their own; all SQL integers are
unbounded here (PostgreSQL fails a statement that overflows one, it never wraps).

| here | there |
| --- | --- |
| `seconds`, `hours`                        | `INTERVAL 'n hours'`; points of time are `TIMESTAMP`s in microseconds |
| `NodeInfo`, `ChunkRoutingPlan`, `FileDownloadManifest` | `common/models.hpp` |
| `WorkerLocation`, `OrphanedChunk`, `UserRecord` | `IMetadataRepository.hpp:6-24` |
| `RepoError`                               | what a repository call throws; `what` is the text the sources give it |
-/

namespace StorageEngine

open Relational (Table)

/-- In microseconds, the resolution of a PostgreSQL timestamp. -/
def seconds (n : Nat) : Nat := n * 1000000

def hours (n : Nat) : Nat := seconds (n * 3600)

/-! ## Rows -/

/-- `worker_nodes.status`. -/
inductive WorkerStatus where
  | active | readOnly
deriving DecidableEq, Repr

/-- `worker_nodes` (`init.sql:5`). -/
structure WorkerRow where
  internalHost : String
  internalPort : Int
  advertisedHost : String
  advertisedPort : Int
  freeSpace : Int
  status : WorkerStatus
  lastHeartbeat : Nat
deriving DecidableEq, Repr

/-- `users` (`:18`). -/
structure UserRow where
  email : String
  passwordHash : String
  salt : String
deriving DecidableEq, Repr

/-- `files` (`:27`). -/
structure FileRow where
  userId : Int
  filename : String
  size : Int
  /-- `TEXT[]`: `none` is a null element. -/
  chunks : List (Option String)
deriving DecidableEq, Repr

/-- `chunks` (`:38`). -/
structure ChunkRow where
  /-- Worker ids. -/
  nodes : List Int
  refCount : Int
  createdAt : Nat
deriving DecidableEq, Repr

/-- `clusters` (`:51`). -/
structure ClusterRow where
  clusterName : String
  activeNodes : List Int
deriving DecidableEq, Repr

/-- The tables, their sequences and the clock. -/
structure Store where
  workers : Table Int WorkerRow
  users : Table Int UserRow
  files : Table Int FileRow
  chunks : Table String ChunkRow
  clusters : Table Int ClusterRow
  /-- `bucket_id ↦ cluster_id`. -/
  shardMap : Table Nat Int
  workerSeq : Int
  userSeq : Int
  fileSeq : Int
  clusterSeq : Int
  /-- `CURRENT_TIMESTAMP`. -/
  now : Nat

/-- The database as `db/init.sql` creates it. -/
def Store.empty : Store where
  workers := .empty
  users := .empty
  files := .empty
  chunks := .empty
  clusters := .empty
  shardMap := .empty
  workerSeq := 1
  userSeq := 1
  fileSeq := 1
  clusterSeq := 1
  now := 0

/-! ## What the calls return -/

structure NodeInfo where
  advertisedHost : String
  advertisedPort : Int
deriving DecidableEq, Repr

structure ChunkRoutingPlan where
  hash : String
  assignedNodes : List NodeInfo
deriving DecidableEq, Repr

structure FileDownloadManifest where
  fileSize : Int
  plans : List ChunkRoutingPlan
deriving DecidableEq, Repr

structure WorkerLocation where
  host : String
  port : Int
deriving DecidableEq, Repr

structure OrphanedChunk where
  hash : String
  locations : List WorkerLocation
deriving DecidableEq, Repr

structure UserRecord where
  found : Bool
  id : Int
  passwordHash : String
  salt : String
deriving DecidableEq, Repr

/-- The failures of a repository call. The last five are PostgreSQL's and libpqxx's own. -/
inductive RepoError where
  | chunkLocked
  | shardMapUninitialized (bucketId : Nat)
  | fileNotFound
  | workerListEmpty
  | workersUnknown
  | clusterUnknown
  | malformedArray
  | valueTooLong
  | foreignKey
  | uniqueViolation
  | unexpectedNull
deriving DecidableEq, Repr

/-- `e.what()` of the errors the repository itself throws. -/
def RepoError.what : RepoError → Option String
  | .chunkLocked => some "CHUNK_LOCKED"
  | .shardMapUninitialized b => some ("Shard map uninitialized for bucket " ++ toString b)
  | .fileNotFound => some "File not found or access denied."
  | .workerListEmpty => some "Validation failed: Worker ID list cannot be empty."
  | .workersUnknown => some "Validation failed: One or more provided worker IDs do not exist."
  | .clusterUnknown => some "Validation failed: Target cluster_id does not exist."
  | .malformedArray | .valueTooLong | .foreignKey | .uniqueViolation | .unexpectedNull => none

/-- The order in which an unordered query meets its rows: those whose key is in `order` first, as
listed there, then the rest. Every permutation of the rows is a `scan` of them, so an arbitrary `order`
is an arbitrary query plan. -/
def scan {κ ρ : Type} [DecidableEq κ] (order : List κ) (rows : List (κ × ρ)) : List (κ × ρ) :=
  (order.dedup.filterMap fun k => rows.find? fun e => e.1 == k) ++ rows.filter fun e => !order.contains e.1

end StorageEngine
