import Mathlib.Data.List.Sort
import StorageEngine.Metadata.Store

/-!
# `PostgresRepository`, one call = one transaction

Every call opens a transaction and commits at its end; an exception leaves the store as it was. So a
call is a function from the store to the store after the commit and what it returns, or an error. An
unordered `SELECT` may return its rows in any order: where the code depends on that order the call
takes it as an argument (see `scan`). A sequence is drawn from also by an `INSERT` that fails: `registerWorker` draws so
for the worker it finds, while `createUser`, `commitFile` and `addCluster` draw with the row only, which leaves out gaps
between the ids of users, files and clusters. Nothing reads a sequence but the next `INSERT`.
Texts are passed on whole; libpq would cut one at a NUL character.

| here | there (`PostgresRepository.hpp`) |
| --- | --- |
| `nodeData`, `parseNodePlan`      | the `json_agg(…) FROM worker_nodes` subquery and `ParseNodePlanFromJson` (`:20-36`) |
| `verifyNodesExist`               | `VerifyNodesExist` (`:54-83`) |
| `createUser`, `getUserByEmail`   | `:99-142` |
| `registerWorker`                 | `:144-179` |
| `filterMissingChunks`            | `:181-252`, the loop body is `filterMissingOne` |
| `commitFile`                     | `:254-284` |
| `getDownloadPlan`                | `:286-328` |
| `getOrphanedChunks`              | `:330-378` |
| `deleteChunkRecordsBulk`, `revertTombstone` | `:380-431` |
| `addCluster`, `replaceCluster`   | `:433-536` |
| `fileExists`, `deleteFile`       | `:537-577` |
-/

namespace StorageEngine

open Relational

/-! ## Worker nodes -/

/-- Worker rows whose id is in a node array (`worker_id = ANY(nodes)`). -/
def workersOf (db : Store) (nodes : List Int) : List WorkerRow :=
  (db.workers.select fun id _ => nodes.contains id).map Prod.snd

/-- `json_agg` over those rows: `none` is the SQL `NULL` of an empty aggregate. -/
def nodeData (db : Store) (nodes : List Int) : Option (List NodeInfo) :=
  match workersOf db nodes with
  | [] => none
  | ws => some (ws.map fun w => ⟨w.advertisedHost, w.advertisedPort⟩)

def parseNodePlan (hash : String) (nodes : List NodeInfo) : ChunkRoutingPlan := ⟨hash, nodes⟩

/-- The count of matching rows is compared with the number of distinct ids. -/
def verifyNodesExist (db : Store) (nodeIds : List Int) : Except RepoError Unit :=
  if nodeIds.isEmpty then .error .workerListEmpty
  else if (db.workers.select fun id _ => nodeIds.contains id).length = nodeIds.dedup.length then .ok ()
  else .error .workersUnknown

/-- The `ON CONFLICT (internal_host, internal_port)` upsert. A heartbeat never lifts `READ_ONLY`. -/
def registerWorker (db : Store) (internalHost : String) (internalPort : Int) (advertisedHost : String)
    (advertisedPort : Int) (freeSpace : Int) : Except RepoError Store :=
  match varchar 255 internalHost, varchar 255 advertisedHost with
  | some ih, some ah =>
    let same : Int → WorkerRow → Bool := fun _ w => w.internalHost == ih && w.internalPort == internalPort
    -- the sequence is drawn from before the conflict is found
    let db' := { db with workerSeq := db.workerSeq + 1 }
    if (db.workers.select same).isEmpty then
      match db.workers.insert? db.workerSeq ⟨ih, internalPort, ah, advertisedPort, freeSpace, .active, db.now⟩ with
      | some ws => .ok { db' with workers := ws }
      | none => .error .uniqueViolation
    else
      .ok { db' with workers := db.workers.updateWhere same fun w =>
        { w with advertisedHost := ah, advertisedPort := advertisedPort, freeSpace := freeSpace,
                 lastHeartbeat := db.now,
                 status := if w.status = .readOnly then .readOnly else .active } }
  | _, _ => .error .valueTooLong

/-! ## Users -/

/-- `false` where the call catches an exception. -/
def createUser (db : Store) (email passwordHash salt : String) : Store × Bool :=
  match varchar 255 email, varchar 255 passwordHash, varchar 64 salt with
  | some e, some p, some s =>
    if (db.users.select fun _ u => u.email == e).isEmpty then
      match db.users.insert? db.userSeq ⟨e, p, s⟩ with
      | some us => ({ db with users := us, userSeq := db.userSeq + 1 }, true)
      | none => (db, false)
    else (db, false)
  | _, _, _ => (db, false)

def getUserByEmail (db : Store) (email : String) : UserRecord :=
  match db.users.select fun _ u => u.email == email with
  | [] => ⟨false, 0, "", ""⟩
  | (id, u) :: _ => ⟨true, id, u.passwordHash, u.salt⟩

/-! ## Upload -/

/-- `UPDATE chunks SET created_at = CURRENT_TIMESTAMP WHERE chunk_hash = $1`. -/
def refreshChunk (now : Nat) (chunks : Table String ChunkRow) (hash : String) : Table String ChunkRow :=
  chunks.updateWhere (fun h _ => h == hash) fun r => { r with createdAt := now }

/-- One turn of the `FilterMissingChunks` loop: the store after it and the plan it pushes, if any. -/
def filterMissingOne (numBuckets : Nat) (db : Store) (hash : String) :
    Except RepoError (Store × Option ChunkRoutingPlan) :=
  match db.chunks.get? hash with
  | none =>
    let bucketId := calculateBucketId hash numBuckets
    match (db.shardMap.get? bucketId).bind db.clusters.get? with
    | none => .error (.shardMapUninitialized bucketId)
    | some cluster =>
      -- `routing_res[0][1].as<std::string>()` throws on NULL
      match nodeData db cluster.activeNodes with
      | none => .error .unexpectedNull
      | some nodes =>
        match varchar 64 hash with
        | none => .error .valueTooLong
        | some key =>
          .ok ({ db with chunks := db.chunks.insertNew key ⟨cluster.activeNodes, 0, db.now⟩ },
            some (parseNodePlan hash nodes))
  | some row =>
    if row.refCount = -1 then .error .chunkLocked
    else
      let db' := { db with chunks := refreshChunk db.now db.chunks hash }
      if row.refCount = 0 then
        match nodeData db row.nodes with
        | none => .error .unexpectedNull
        | some nodes => .ok (db', some (parseNodePlan hash nodes))
      else .ok (db', none)

def filterMissingChunks (numBuckets : Nat) : Store → List String → Except RepoError (Store × List ChunkRoutingPlan)
  | db, [] => .ok (db, [])
  | db, hash :: rest =>
    match filterMissingOne numBuckets db hash with
    | .error e => .error e
    | .ok (db', plan) =>
      match filterMissingChunks numBuckets db' rest with
      | .error e => .error e
      | .ok (db'', plans) => .ok (db'', plan.toList ++ plans)

/-- `UPDATE chunks SET ref_count = ref_count + 1, created_at = CURRENT_TIMESTAMP WHERE chunk_hash = $1`. -/
def addReference (now : Nat) (chunks : Table String ChunkRow) (hash : String) : Table String ChunkRow :=
  chunks.updateWhere (fun h _ => h == hash) fun r => { r with refCount := r.refCount + 1, createdAt := now }

/-- The increments do not check that they hit a row. -/
def commitFile (db : Store) (userId : Int) (filename : String) (fileSize : Int) (chunkHashes : List String) :
    Except RepoError Store :=
  match textArrayIn (arrayLiteral chunkHashes) with
  | none => .error .malformedArray
  | some arr =>
    match varchar 255 filename with
    | none => .error .valueTooLong
    | some name =>
      if (db.users.get? userId).isNone then .error .foreignKey
      else
        match db.files.insert? db.fileSeq ⟨userId, name, fileSize, arr⟩ with
        | none => .error .uniqueViolation
        | some files =>
          .ok { db with files := files, fileSeq := db.fileSeq + 1,
                        chunks := chunkHashes.foldl (addReference db.now) db.chunks }

/-! ## Files -/

/-- `filename = $1 AND user_id = $2`. -/
def isFile (userId : Int) (filename : String) : Int → FileRow → Bool :=
  fun _ r => r.userId == userId && r.filename == filename

/-- The rows of a `SELECT … FROM files WHERE filename = $1 AND user_id = $2`. -/
def fileRows (order : List Int) (db : Store) (userId : Int) (filename : String) : List FileRow :=
  (scan order (db.files.select (isFile userId filename))).map Prod.snd

/-- The rows one `files` row contributes to the plan query: `unnest … WITH ORDINALITY` joined with
`chunks`. A null element or a hash without a `chunks` row joins with nothing. -/
def unnestJoin (db : Store) (r : FileRow) : List (Nat × String × List NodeInfo) :=
  r.chunks.zipIdx.filterMap fun e =>
    e.1.bind fun hash => (db.chunks.get? hash).map fun c => (e.2, hash, (nodeData db c.nodes).getD [])

/-- Two queries: the size is that of the row that comes first, the plans are those of all rows of the
name. `ORDER BY u.ord` leaves the order of equal ordinals to the plan of the second query. -/
def getDownloadPlan (order order' : List Int) (db : Store) (userId : Int) (filename : String) :
    Except RepoError FileDownloadManifest :=
  match fileRows order db userId filename with
  | [] => .error .fileNotFound
  | first :: _ =>
    let joined := (fileRows order' db userId filename).flatMap (unnestJoin db)
    let sorted := joined.insertionSort fun a b => a.1 ≤ b.1
    .ok ⟨first.size, sorted.map fun e => parseNodePlan e.2.1 e.2.2⟩

def fileExists (db : Store) (userId : Int) (filename : String) : Bool :=
  !(db.files.select (isFile userId filename)).isEmpty

/-- `chunk_hash = ANY(arr)` decrements a row once however often the array repeats it; the array is that
of the row that comes first, the deletion takes every row of the name. -/
def deleteFile (order : List Int) (db : Store) (userId : Int) (filename : String) : Store × Bool :=
  match fileRows order db userId filename with
  | [] => (db, false)
  | first :: _ =>
    ({ db with
        chunks := db.chunks.updateWhere (fun h _ => first.chunks.contains (some h)) fun r =>
          { r with refCount := r.refCount - 1 }
        files := db.files.deleteWhere (isFile userId filename) }, true)

/-! ## Garbage collection -/

/-- `ref_count = 0 AND created_at < NOW() - INTERVAL 'n hours'`. -/
def isOrphan (expiryHours : Nat) (now : Nat) : String → ChunkRow → Bool :=
  fun _ r => r.refCount == 0 && r.createdAt + hours expiryHours < now

/-- The rows the `LIMIT`ed subquery takes, no row being locked. -/
def orphanHashes (order : List String) (db : Store) (expiryHours limit : Nat) : List String :=
  ((scan order (db.chunks.select (isOrphan expiryHours db.now))).take limit).map Prod.fst

/-- `locations` of `GetOrphanedChunks` (`:350-368`). -/
def locationsOf (db : Store) (nodes : List Int) : List WorkerLocation :=
  (workersOf db nodes).map fun w => ⟨w.internalHost, w.internalPort⟩

/-- A claimed chunk as `GetOrphanedChunks` returns it. -/
def orphanOf (db : Store) (hash : String) : OrphanedChunk :=
  ⟨hash, match db.chunks.get? hash with
    | some r => locationsOf db r.nodes
    | none => []⟩

/-- Where the call can fail: in the query, while it decodes a row, or at the commit. -/
inductive ClaimFault where
  | query | decode (row : Nat) | commit
deriving DecidableEq, Repr

/-- The claim of the given rows, committed. -/
def claimChunks (db : Store) (claimed : List String) : Store :=
  { db with chunks := db.chunks.updateWhere (fun h _ => claimed.contains h) fun r => { r with refCount := -1 } }

/-- A failure is caught after the loop has filled `orphans`: the claim is rolled back, the rows decoded
before it are returned all the same. -/
def getOrphanedChunks (order : List String) (fault : Option ClaimFault) (db : Store) (expiryHours limit : Nat) :
    Store × List OrphanedChunk :=
  let claimed := orphanHashes order db expiryHours limit
  let orphans := claimed.map (orphanOf db)
  match fault with
  | none => (claimChunks db claimed, orphans)
  | some .query => (db, [])
  | some (.decode row) => (db, orphans.take row)
  | some .commit => (db, orphans)

def deleteChunkRecordsBulk (db : Store) (hashes : List String) : Store :=
  if hashes.isEmpty then db
  else { db with chunks := db.chunks.deleteWhere fun h r => r.refCount == -1 && hashes.contains h }

def revertTombstone (db : Store) (hash : String) : Store :=
  { db with chunks := db.chunks.updateWhere (fun h r => h == hash && r.refCount == -1) fun r =>
      { r with refCount := 0, createdAt := db.now } }

/-! ## Clusters -/

/-- `SELECT cluster_id, COUNT(bucket_id) FROM shard_map GROUP BY cluster_id`. -/
def bucketCounts (db : Store) : List (Int × Nat) :=
  let owners := db.shardMap.rows.map Prod.snd
  owners.dedup.map fun c => (c, owners.count c)

/-- One turn of the rebalancing loop: the surplus of one cluster goes to the new one. -/
def reassign (order : List Nat) (newClusterId : Int) (targetBuckets : Nat) (shardMap : Table Nat Int)
    (owner : Int × Nat) : Table Nat Int :=
  if owner.2 ≤ targetBuckets then shardMap
  else
    let owned := scan order (shardMap.select fun _ c => c == owner.1)
    let moved := (owned.take (owner.2 - targetBuckets)).map Prod.fst
    shardMap.updateWhere (fun b _ => moved.contains b) fun _ => newClusterId

def addCluster (numBuckets : Nat) (order : List Nat) (db : Store) (clusterName : String)
    (activeNodeIds : List Int) : Except RepoError Store :=
  match verifyNodesExist db activeNodeIds with
  | .error e => .error e
  | .ok () =>
    match varchar 50 clusterName with
    | none => .error .valueTooLong
    | some name =>
      if !(db.clusters.select fun _ c => c.clusterName == name).isEmpty then .error .uniqueViolation
      else
        match db.clusters.insert? db.clusterSeq ⟨name, activeNodeIds⟩ with
        | none => .error .uniqueViolation
        | some clusters =>
          let current := bucketCounts db
          let shardMap :=
            if current.isEmpty then
              -- `generate_series(0, num_buckets - 1)`, on an empty map
              (List.range numBuckets).foldl (fun m b => m.put b db.clusterSeq) db.shardMap
            else
              current.foldl (reassign order db.clusterSeq (numBuckets / (current.length + 1))) db.shardMap
          .ok { db with clusters := clusters, clusterSeq := db.clusterSeq + 1, shardMap := shardMap }

def replaceCluster (db : Store) (clusterId : Int) (newWorkerIds : List Int) : Except RepoError Store :=
  match db.clusters.get? clusterId with
  | none => .error .clusterUnknown
  | some cluster =>
    match verifyNodesExist db newWorkerIds with
    | .error e => .error e
    | .ok () =>
      .ok { db with
        workers := db.workers.updateWhere (fun id _ => cluster.activeNodes.contains id) fun w =>
          { w with status := .readOnly }
        clusters := db.clusters.updateWhere (fun id _ => id == clusterId) fun c =>
          { c with activeNodes := newWorkerIds } }

end StorageEngine
