import StorageEngine.Concurrency.Statements

/-!
# The cluster calls beside upload-init, statement by statement

| here | there (`PostgresRepository.hpp`) |
| --- | --- |
| `upload`       | a statement of another call, as in `Statements.lean` |
| `addVerify`, `addInsert`, `addCount`, `addBootstrap`, `addReassign`, `addCommit` | the statements of `AddCluster` and its commit (`:433-497`) |
| `replaceCheck`, `replaceVerify`, `replaceReadOnly`, `replaceNodes`, `replaceCommit` | those of `ReplaceCluster` (`:499-536`) |

A sequence is outside transactions: the `clusterId` of an `AddCluster` is what `nextval` hands it.
-/

namespace StorageEngine

open Relational ReadCommitted

/-- What a statement locks. -/
inductive LayoutKey where
  | row (key : RowKey)
  | cluster (id : Int)
  | clusterName (name : String)
  | bucket (id : Nat)
  | worker (id : Int)
deriving DecidableEq, Repr

/-- What a statement writes. -/
inductive LayoutWrite where
  | row (w : RowWrite)
  | insertCluster (id : Int) (cluster : ClusterRow)
  | bootstrap (numBuckets : Nat) (clusterId : Int)
  | reassign (moved : List Nat) (clusterId : Int)
  | readOnly (ids : List Int)
  | setNodes (clusterId : Int) (nodes : List Int)
deriving DecidableEq, Repr

/-- The store after the write. -/
def LayoutWrite.effect : LayoutWrite → Store → Store
  | .row w, db => w.effect db
  | .insertCluster id cluster, db => { db with clusters := db.clusters.insertNew id cluster }
  | .bootstrap numBuckets clusterId, db =>
    { db with shardMap := (List.range numBuckets).foldl (fun m b => m.put b clusterId) db.shardMap }
  | .reassign moved clusterId, db =>
    { db with shardMap := db.shardMap.updateWhere (fun b _ => moved.contains b) fun _ => clusterId }
  | .readOnly ids, db =>
    { db with workers := db.workers.updateWhere (fun id _ => ids.contains id) fun w => { w with status := .readOnly } }
  | .setNodes clusterId nodes, db =>
    { db with clusters := db.clusters.updateWhere (fun id _ => id == clusterId) fun c => { c with activeNodes := nodes } }

/-- The rows, and the unique names, that the write locks. -/
def LayoutWrite.rows : LayoutWrite → List LayoutKey
  | .row w => w.rows.map .row
  | .insertCluster id cluster => [.cluster id, .clusterName cluster.clusterName]
  | .bootstrap numBuckets _ => (List.range numBuckets).map .bucket
  | .reassign moved _ => moved.map .bucket
  | .readOnly ids => ids.map .worker
  | .setNodes clusterId _ => [.cluster clusterId]

/-- Before a statement, with what the earlier ones of the call have read. -/
inductive LayoutPosition where
  | upload (pos : Position)
  | addVerify (order : List Nat) (clusterId : Int) (clusterName : String) (activeNodeIds : List Int)
  | addInsert (order : List Nat) (clusterId : Int) (clusterName : String) (activeNodeIds : List Int)
  | addCount (order : List Nat) (newClusterId : Int)
  | addBootstrap (newClusterId : Int)
  /-- The turn for the first of the clusters counted. -/
  | addReassign (order : List Nat) (newClusterId : Int) (targetBuckets : Nat) (current : List (Int × Nat))
  | addCommit
  | replaceCheck (clusterId : Int) (newWorkerIds : List Int)
  | replaceVerify (clusterId : Int) (newWorkerIds : List Int)
  | replaceReadOnly (clusterId : Int) (newWorkerIds : List Int)
  | replaceNodes (clusterId : Int) (newWorkerIds : List Int)
  | replaceCommit
deriving DecidableEq, Repr

/-- What a call returns. -/
inductive LayoutResult where
  | upload (r : Result)
  | done
  | raised (e : RepoError)
deriving DecidableEq, Repr

/-- What a statement comes to. -/
abbrev LayoutAnswer := Reply LayoutWrite LayoutPosition LayoutResult

/-- The statements of `FilterMissingChunks` are those of `Statements.lean`. -/
def uploadAnswer : Answer → LayoutAnswer
  | .wait => .wait
  | .go ws next => .go (ws.map .row) (.upload next)
  | .commit r => .commit (.upload r)
  | .abort r => .abort (.upload r)

/-- A write to rows that are there, which waits while another session has one of them. -/
def lockLayout (locked : LayoutKey → Bool) (w : LayoutWrite) (next : LayoutPosition) : LayoutAnswer :=
  if w.rows.any locked then .wait else .go [w] next

/-- `INSERT INTO clusters … RETURNING cluster_id`. -/
def clusterInsert (db : Store) (locked : LayoutKey → Bool) (order : List Nat) (clusterId : Int) (clusterName : String)
    (activeNodeIds : List Int) : LayoutAnswer :=
  match varchar 50 clusterName with
  | none => .abort (.raised .valueTooLong)
  | some name =>
    if locked (.cluster clusterId) || locked (.clusterName name) then .wait
    else if !(db.clusters.select fun _ c => c.clusterName == name).isEmpty || (db.clusters.get? clusterId).isSome then
      .abort (.raised .uniqueViolation)
    else .go [.insertCluster clusterId ⟨name, activeNodeIds⟩] (.addCount order clusterId)

/-- The buckets the subquery of the reassigning `UPDATE` takes. -/
def movedBuckets (order : List Nat) (targetBuckets : Nat) (shardMap : Table Nat Int) (owner : Int × Nat) : List Nat :=
  ((scan order (shardMap.select fun _ c => c == owner.1)).take (owner.2 - targetBuckets)).map Prod.fst

/-- It is the turn of the loop of `addCluster`. -/
theorem reassign_effect (order : List Nat) (newClusterId : Int) {targetBuckets : Nat} (db : Store) {owner : Int × Nat}
    (h : targetBuckets < owner.2) :
    (LayoutWrite.reassign (movedBuckets order targetBuckets db.shardMap owner) newClusterId).effect db =
      { db with shardMap := reassign order newClusterId targetBuckets db.shardMap owner } := by
  unfold reassign
  rw [if_neg (Nat.not_le.2 h)]
  rfl

/-- The statement at a position. -/
def layoutStatement (numBuckets : Nat) (pos : LayoutPosition) (db : Store) (locked : LayoutKey → Bool) : LayoutAnswer :=
  match pos with
  | .upload pos => uploadAnswer (statement numBuckets pos db fun k => locked (.row k))
  | .addVerify order clusterId name nodes =>
    match verifyNodesExist db nodes with
    | .error e => .abort (.raised e)
    | .ok () => .go [] (.addInsert order clusterId name nodes)
  | .addInsert order clusterId name nodes => clusterInsert db locked order clusterId name nodes
  | .addCount order newClusterId =>
    let current := bucketCounts db
    if current.isEmpty then .go [] (.addBootstrap newClusterId)
    else .go [] (.addReassign order newClusterId (numBuckets / (current.length + 1)) current)
  | .addBootstrap newClusterId => lockLayout locked (.bootstrap numBuckets newClusterId) .addCommit
  | .addReassign _ _ _ [] => .go [] .addCommit
  | .addReassign order newClusterId target (owner :: rest) =>
    if owner.2 ≤ target then .go [] (.addReassign order newClusterId target rest)
    else
      lockLayout locked (.reassign (movedBuckets order target db.shardMap owner) newClusterId)
        (.addReassign order newClusterId target rest)
  | .addCommit => .commit .done
  | .replaceCheck clusterId nodes =>
    if (db.clusters.get? clusterId).isNone then .abort (.raised .clusterUnknown)
    else .go [] (.replaceVerify clusterId nodes)
  | .replaceVerify clusterId nodes =>
    match verifyNodesExist db nodes with
    | .error e => .abort (.raised e)
    | .ok () => .go [] (.replaceReadOnly clusterId nodes)
  | .replaceReadOnly clusterId nodes =>
    let old := ((db.clusters.get? clusterId).map ClusterRow.activeNodes).getD []
    let hit := (db.workers.select fun id _ => old.contains id).map Prod.fst
    lockLayout locked (.readOnly hit) (.replaceNodes clusterId nodes)
  | .replaceNodes clusterId nodes => lockLayout locked (.setNodes clusterId nodes) .replaceCommit
  | .replaceCommit => .commit .done

/-- All these sessions over one database; the only outside move is time passing. -/
def layout (numBuckets : Nat) : System Store LayoutKey LayoutWrite LayoutPosition LayoutResult Nat where
  effect := LayoutWrite.effect
  rows := LayoutWrite.rows
  stmt := layoutStatement numBuckets
  env d db := { db with now := db.now + d }

/-- The calls over one database. -/
abbrev LayoutSessions (ι : Type) := Config ι Store LayoutWrite LayoutPosition LayoutResult

/-- The three calls. -/
inductive LayoutCall where
  | filterMissingChunks (clientHashes : List String)
  | addCluster (order : List Nat) (clusterId : Int) (clusterName : String) (activeNodeIds : List Int)
  | replaceCluster (clusterId : Int) (newWorkerIds : List Int)
deriving DecidableEq, Repr

/-- Before the first statement of the call. -/
def LayoutCall.begin : LayoutCall → LayoutPosition
  | .filterMissingChunks hashes => .upload (.filterSelect none hashes [])
  | .addCluster order clusterId name nodes => .addVerify order clusterId name nodes
  | .replaceCluster clusterId nodes => .replaceCheck clusterId nodes

/-- All calls at their first statement. -/
def layoutFrom {ι : Type} (db : Store) (calls : ι → LayoutCall) : LayoutSessions ι :=
  ⟨db, fun i => .active (calls i).begin []⟩

/-! ## What the writes leave alone -/

/-- What `json_agg` makes of a worker. -/
def WorkerRow.nodeInfo (w : WorkerRow) : NodeInfo := ⟨w.advertisedHost, w.advertisedPort⟩

/-- Where the workers of a node array are reached. -/
def endpoints (db : Store) (nodes : List Int) : List NodeInfo := (workersOf db nodes).map WorkerRow.nodeInfo

theorem mem_of_nodeData {db : Store} {nodes : List Int} {infos : List NodeInfo} (h : nodeData db nodes = some infos) :
    infos = endpoints db nodes := by
  unfold nodeData at h
  split at h
  · cases h
  · rename_i ws hne
    exact (Option.some.inj h).symm

/-- A worker's status does not show in its endpoints. -/
theorem endpoints_effect (w : LayoutWrite) (db : Store) (nodes : List Int) :
    endpoints (w.effect db) nodes = endpoints db nodes := by
  cases w with
  | row w => cases w <;> rfl
  | insertCluster id cluster => rfl
  | bootstrap numBuckets clusterId => rfl
  | reassign moved clusterId => rfl
  | readOnly ids =>
    simp only [endpoints, workersOf, LayoutWrite.effect, Table.select, Table.updateWhere, List.filter_map, List.map_map]
    refine List.map_congr_left fun e _ => ?_
    simp only [Function.comp_apply, WorkerRow.nodeInfo]
    split <;> rfl
  | setNodes clusterId ns => rfl

/-- The node array of a chunk's row. -/
def nodesAt (db : Store) (hash : String) : Option (List Int) := (db.chunks.get? hash).map ChunkRow.nodes

/-- The node array a write gives a new row. -/
def LayoutWrite.newNodes (hash : String) : LayoutWrite → Option (List Int)
  | .row (.insertChunk key r) => if hash = key then some r.nodes else none
  | _ => none

/-- **Node arrays are written once.** -/
theorem nodesAt_effect (w : LayoutWrite) (db : Store) (hash : String) :
    nodesAt (w.effect db) hash = (nodesAt db hash).or (w.newNodes hash) := by
  have hupdate : ∀ (p : String → ChunkRow → Bool) (f : ChunkRow → ChunkRow), (∀ r, (f r).nodes = r.nodes) →
      ((db.chunks.updateWhere p f).get? hash).map ChunkRow.nodes = (nodesAt db hash).or none := by
    intro p f hf
    rw [Option.or_none, Table.get?_updateWhere, Option.map_map]
    refine congrArg (Option.map · _) (funext fun r => ?_)
    simp only [Function.comp_apply]
    split
    · exact hf r
    · rfl
  cases w with
  | row w =>
    cases w with
    | decrement hashes => exact hupdate _ _ fun _ => rfl
    | removeFiles ids => exact Option.or_none.symm
    | refresh key now => exact hupdate _ _ fun _ => rfl
    | insertChunk key row =>
      simp only [nodesAt, LayoutWrite.effect, RowWrite.effect, Table.get?_insertNew, LayoutWrite.newNodes]
      split
      · rename_i hk
        subst hk
        cases db.chunks.get? hash <;> rfl
      · exact Option.or_none.symm
    | claim hashes => exact hupdate _ _ fun _ => rfl
  | insertCluster id cluster => exact Option.or_none.symm
  | bootstrap numBuckets clusterId => exact Option.or_none.symm
  | reassign moved clusterId => exact Option.or_none.symm
  | readOnly ids => exact Option.or_none.symm
  | setNodes clusterId ns => exact Option.or_none.symm

/-- The nodes that the transaction gave to a new chunk. -/
def newNodes (ws : List LayoutWrite) (hash : String) : Option (List Int) := ws.findSome? (LayoutWrite.newNodes hash)

theorem newNodes_append (ws vs : List LayoutWrite) (hash : String) :
    newNodes (ws ++ vs) hash = (newNodes ws hash).or (newNodes vs hash) := List.findSome?_append

theorem endpoints_view (n : Nat) (ws : List LayoutWrite) (db : Store) (nodes : List Int) :
    endpoints ((layout n).view ws db) nodes = endpoints db nodes := by
  induction ws generalizing db with
  | nil => rfl
  | cons w ws ih => exact (ih (w.effect db)).trans (endpoints_effect w db nodes)

theorem nodesAt_view (n : Nat) (ws : List LayoutWrite) (db : Store) (hash : String) :
    nodesAt ((layout n).view ws db) hash = (nodesAt db hash).or (newNodes ws hash) := by
  induction ws generalizing db with
  | nil => exact Option.or_none.symm
  | cons w ws ih =>
    have hstep : nodesAt ((layout n).view (w :: ws) db) hash = (nodesAt (w.effect db) hash).or (newNodes ws hash) :=
      ih (w.effect db)
    rw [hstep, nodesAt_effect, Option.or_assoc]
    congr 1
    unfold newNodes
    rw [List.findSome?_cons]
    cases LayoutWrite.newNodes hash w <;> rfl

end StorageEngine
