import StorageEngine.Lib.ReadCommitted
import StorageEngine.Metadata.Repository

/-!
# The repository calls, statement by statement

Each call of `PostgresRepository` is a session of its own whose statements other sessions may interleave
with. A `Position` is the statement a call executes next, with the C++ variables that are live there.

| here | there (`PostgresRepository.hpp`) |
| --- | --- |
| `deleteSelect`, `deleteUpdate`, `deleteRows`, `deleteCommit` | the three statements of `DeleteFile` and its commit (`:553-575`) |
| `filterSelect`, `filterRoute`, `filterInsert`, `filterRefresh` | the statements of one turn of the `FilterMissingChunks` loop (`:189-246`) |
| `claimUpdate`, `claimCommit`  | the one query of `GetOrphanedChunks` and its commit (`:338-371`) |

`CURRENT_TIMESTAMP` and `NOW()` are the time the transaction began, taken at its first statement.
-/

namespace StorageEngine

open Relational ReadCommitted

/-- A row that can be locked. -/
inductive RowKey where
  | file (id : Int)
  | chunk (hash : String)
deriving DecidableEq, Repr

/-- The effect of a statement on the rows it hit. -/
inductive RowWrite where
  | decrement (hashes : List String)
  | removeFiles (ids : List Int)
  | refresh (hash : String) (now : Nat)
  | insertChunk (hash : String) (row : ChunkRow)
  | claim (hashes : List String)
deriving DecidableEq, Repr

/-- The store after the write. -/
def RowWrite.effect : RowWrite → Store → Store
  | .decrement hashes, db =>
    { db with chunks := db.chunks.updateWhere (fun h _ => hashes.contains h) fun r =>
        { r with refCount := r.refCount - 1 } }
  | .removeFiles ids, db => { db with files := db.files.deleteWhere fun id _ => ids.contains id }
  | .refresh hash now, db => { db with chunks := refreshChunk now db.chunks hash }
  | .insertChunk hash row, db => { db with chunks := db.chunks.insertNew hash row }
  | .claim hashes, db => claimChunks db hashes

/-- The rows that the write locks. -/
def RowWrite.rows : RowWrite → List RowKey
  | .decrement hashes | .claim hashes => hashes.map .chunk
  | .removeFiles ids => ids.map .file
  | .refresh hash _ | .insertChunk hash _ => [.chunk hash]

inductive Position where
  | deleteSelect (order : List Int) (userId : Int) (filename : String)
  | deleteUpdate (userId : Int) (filename : String) (chunks : List (Option String))
  | deleteRows (userId : Int) (filename : String)
  | deleteCommit
  /-- The turn for the first of `todo`, or the commit; `began` is the transaction's time, if it has begun. -/
  | filterSelect (began : Option Nat) (todo : List String) (plans : List ChunkRoutingPlan)
  | filterRoute (began : Nat) (hash : String) (rest : List String) (plans : List ChunkRoutingPlan)
  | filterInsert (began : Nat) (hash : String) (activeNodes : List Int) (nodes : List NodeInfo) (rest : List String)
      (plans : List ChunkRoutingPlan)
  | filterRefresh (began : Nat) (hash : String) (refCount : Int) (nodeData : Option (List NodeInfo))
      (rest : List String) (plans : List ChunkRoutingPlan)
  | claimUpdate (order : List String) (expiryHours limit : Nat)
  | claimCommit (orphans : List OrphanedChunk)
deriving DecidableEq, Repr

/-- What a call returns. -/
inductive Result where
  | deleted (found : Bool)
  | plans (plans : List ChunkRoutingPlan)
  | raised (e : RepoError)
  | orphans (orphans : List OrphanedChunk)
deriving DecidableEq, Repr

/-- What a statement comes to. -/
abbrev Answer := Reply RowWrite Position Result

/-- A write to the given rows, which waits while one of them is locked. -/
def lockRows (locked : RowKey → Bool) (w : RowWrite) (next : Position) : Answer :=
  if w.rows.any locked then .wait else .go [w] next

/-- `SELECT ref_count, nodes, … FROM chunks WHERE chunk_hash = $1` and the branches on its result. -/
def filterTurn (began : Nat) (db : Store) (hash : String) (rest : List String) (plans : List ChunkRoutingPlan) : Answer :=
  match db.chunks.get? hash with
  | none => .go [] (.filterRoute began hash rest plans)
  | some row =>
    if row.refCount = -1 then .abort (.raised .chunkLocked)
    else .go [] (.filterRefresh began hash row.refCount (nodeData db row.nodes) rest plans)

/-- The routing query. -/
def routeTurn (numBuckets began : Nat) (db : Store) (hash : String) (rest : List String) (plans : List ChunkRoutingPlan) :
    Answer :=
  let bucketId := calculateBucketId hash numBuckets
  match (db.shardMap.get? bucketId).bind db.clusters.get? with
  | none => .abort (.raised (.shardMapUninitialized bucketId))
  | some cluster =>
    match nodeData db cluster.activeNodes with
    | none => .abort (.raised .unexpectedNull)
    | some nodes => .go [] (.filterInsert began hash cluster.activeNodes nodes rest plans)

/-- `INSERT … ON CONFLICT (chunk_hash) DO NOTHING`: it waits for a session that is inserting or changing the
row, and then does nothing if the row is there. -/
def insertTurn (began : Nat) (db : Store) (locked : RowKey → Bool) (hash : String) (activeNodes : List Int)
    (nodes : List NodeInfo) (rest : List String) (plans : List ChunkRoutingPlan) : Answer :=
  let next := Position.filterSelect (some began) rest (plans ++ [parseNodePlan hash nodes])
  match varchar 64 hash with
  | none => .abort (.raised .valueTooLong)
  | some key =>
    if locked (.chunk key) then .wait
    else if (db.chunks.get? key).isSome then .go [] next
    else .go [.insertChunk key ⟨activeNodes, 0, began⟩] next

/-- `UPDATE chunks SET created_at = CURRENT_TIMESTAMP`, then the plan from what the `SELECT` returned (a
`NULL` there raises after the `UPDATE`, which is rolled back with the rest). -/
def refreshTurn (began : Nat) (db : Store) (locked : RowKey → Bool) (hash : String) (refCount : Int)
    (nodeData : Option (List NodeInfo)) (rest : List String) (plans : List ChunkRoutingPlan) : Answer :=
  let update := fun plans =>
    if (db.chunks.get? hash).isSome then
      lockRows locked (.refresh hash began) (.filterSelect (some began) rest plans)
    else .go [] (.filterSelect (some began) rest plans)
  if refCount = 0 then
    match nodeData with
    | none => .abort (.raised .unexpectedNull)
    | some nodes => update (plans ++ [parseNodePlan hash nodes])
  else update plans

/-- The statement at a position. -/
def statement (numBuckets : Nat) (pos : Position) (db : Store) (locked : RowKey → Bool) : Answer :=
  match pos with
  | .deleteSelect order u f =>
    match fileRows order db u f with
    | [] => .abort (.deleted false)
    | first :: _ => .go [] (.deleteUpdate u f first.chunks)
  | .deleteUpdate u f chunks =>
    let hit := (db.chunks.select fun h _ => chunks.contains (some h)).map Prod.fst
    lockRows locked (.decrement hit) (.deleteRows u f)
  | .deleteRows u f =>
    let hit := (db.files.select (isFile u f)).map Prod.fst
    lockRows locked (.removeFiles hit) .deleteCommit
  | .deleteCommit => .commit (.deleted true)
  | .filterSelect _ [] plans => .commit (.plans plans)
  | .filterSelect began (hash :: rest) plans => filterTurn (began.getD db.now) db hash rest plans
  | .filterRoute began hash rest plans => routeTurn numBuckets began db hash rest plans
  | .filterInsert began hash activeNodes nodes rest plans => insertTurn began db locked hash activeNodes nodes rest plans
  | .filterRefresh began hash refCount nodes rest plans => refreshTurn began db locked hash refCount nodes rest plans
  | .claimUpdate order expiry limit =>
    -- `FOR UPDATE SKIP LOCKED`
    let free := (db.chunks.select (isOrphan expiry db.now)).filter fun e => !locked (.chunk e.1)
    let claimed := ((scan order free).take limit).map Prod.fst
    .go [.claim claimed] (.claimCommit (claimed.map (orphanOf db)))
  | .claimCommit orphans => .commit (.orphans orphans)

/-- The sessions of the repository over one database; the only outside move is time passing. -/
def sessions (numBuckets : Nat) : System Store RowKey RowWrite Position Result Nat where
  effect := RowWrite.effect
  rows := RowWrite.rows
  stmt := statement numBuckets
  env d db := { db with now := db.now + d }

/-- The calls over one database. -/
abbrev Sessions (ι : Type) := Config ι Store RowWrite Position Result

end StorageEngine
