import StorageEngine.Cluster.Worker
import StorageEngine.Gc.Grace
import StorageEngine.Lib.Wire
import StorageEngine.Metadata.Placement

/-!
# Clients, collectors and workers over HTTP

The whole system: the masters with their daemons, any number of uploading clients, the workers' disks, and
the requests between them, which a worker may process long after the sender has given up on them. A client
is a conforming one: in one attempt it posts every chunk reported missing to every assigned node, waits for
a 200 from each, and commits within 24 hours of its upload-init.

| here | there |
| --- | --- |
| `DeleteTask`, `stepTask`  | `DeletePhysicalChunkFromWorkers` (`main.cpp:40-61`), one pool task for each orphan |
| `batchDone`               | the futures loop of `PurgeOrphanBatchParallel` (`:85-108`) |
| `gc`                      | the daemon's own steps, see `stepMasters` |
| `Attempt`                 | `UploadFile` from `InitializeUpload` to `CommitFile` (`DSEClient.cpp:172-238`) |
| `post`, `ack`             | `UploadChunkToWorker` (`ParallelTransferManager.cpp:27-52`), retries included |
| `deliver`, `lose`         | a worker's handler runs; the request never arrives |
-/

namespace StorageEngine

open Relational Async

/-- A request and the machine it goes to. -/
structure Sent (μ : Type) where
  machine : μ
  request : ChunkRequest
deriving DecidableEq

/-- The requests to workers and the answers that are under way. -/
abbrev ChunkWire (μ : Type) := Wire (Sent μ) ChunkResponse

/-! ## Physical deletes -/

structure DeleteTask (μ : Type) where
  /-- Still to be asked. -/
  locations : List WorkerLocation
  /-- The `DELETE` whose response the task waits for. -/
  waiting : Option (Envelope (Sent μ))
  allSuccess : Bool

/-- At the first of its locations (`main.cpp:40-61`). -/
def DeleteTask.start {μ : Type} (locations : List WorkerLocation) : DeleteTask μ := ⟨locations, none, true⟩

/-- No location is left, and no answer is waited for. -/
def DeleteTask.finished {μ : Type} (t : DeleteTask μ) : Bool := t.locations.isEmpty && t.waiting.isNone

/-- What a task of the purge does next, or meets. -/
inductive TaskEvent where
  | send
  | answer (r : ChunkResponse)
  /-- No connection, or a timeout: `!res`. -/
  | fail
  /-- An exception ends the task. -/
  | abort
deriving DecidableEq

variable {ι κ μ : Type} [DecidableEq ι] [DecidableEq κ] [DecidableEq μ] (sha256 : Bytes → String) (net : Addresses μ)
  (n : Nat)

def stepTask (wire : ChunkWire μ) (hash : String) (t : DeleteTask μ) : TaskEvent → Option (DeleteTask μ × ChunkWire μ)
  | .send =>
    match t.waiting, t.locations with
    | none, loc :: rest =>
      let req : Sent μ := ⟨net.internal loc, .delete hash⟩
      some (⟨rest, some (wire.next req), t.allSuccess⟩, wire.send req)
    | _, _ => none
  | .answer r =>
    match t.waiting with
    | some e => if (e, r) ∈ wire.replies then some (⟨t.locations, none, t.allSuccess && r.status == 200⟩, wire) else none
    | none => none
  | .fail => t.waiting.map fun _ => (⟨t.locations, none, false⟩, wire)
  | .abort => some (⟨[], none, false⟩, wire)

/-! ## The system -/

structure Attempt (μ : Type) where
  chunkHashes : List String
  /-- When the upload-init ran. -/
  since : Nat
  plans : List ChunkRoutingPlan
  posts : List (NodeInfo × Envelope (Sent μ))
  /-- Nodes that answered 200, with the hash. -/
  acked : List (NodeInfo × String)

/-- Every chunk reported missing has been acknowledged by every assigned node. -/
def Attempt.complete {μ : Type} (a : Attempt μ) : Prop := ∀ p ∈ a.plans, ∀ node ∈ p.assignedNodes, (node, p.hash) ∈ a.acked

instance {μ : Type} (a : Attempt μ) : Decidable a.complete :=
  inferInstanceAs (Decidable (∀ p ∈ a.plans, ∀ node ∈ p.assignedNodes, (node, p.hash) ∈ a.acked))

/-- Masters, upload attempts, workers, and what is between them. -/
structure Cluster (ι κ μ : Type) where
  masters : Masters ι
  task : ι → String → DeleteTask μ
  attempt : κ → Option (Attempt μ)
  disk : μ → Disk
  wire : ChunkWire μ
  /-- The commits that succeeded: the id of the `files` row and the list. -/
  commits : List (Int × List String)

/-- An empty database, empty disks, nothing under way. -/
def Cluster.init (ι κ μ : Type) : Cluster ι κ μ where
  masters := .init ι
  task _ _ := .start []
  attempt _ := none
  disk _ := .empty
  wire := .empty
  commits := []

/-- The database that all masters share. -/
def Cluster.db (s : Cluster ι κ μ) : Store := s.masters.db

/-- One step of a master, of a client, of a worker or of the network. -/
inductive ClusterStep (ι κ μ : Type) where
  /-- Another request of a master, or time passing. -/
  | other (t : Txn)
  | init (c : κ) (hashes : List String)
  | post (c : κ) (node : NodeInfo) (hash : String) (body : Bytes)
  | ack (c : κ) (node : NodeInfo) (e : Envelope (Sent μ)) (r : ChunkResponse)
  | commit (c : κ) (userId : Int) (filename : String) (fileSize : Int)
  | gc (a : MasterStep ι)
  | task (d : ι) (hash : String) (e : TaskEvent)
  | deliver (e : Envelope (Sent μ))
  | lose (e : Envelope (Sent μ))
deriving DecidableEq

/-- A claim starts one task for each orphan of the batch. -/
def startTasks (old : String → DeleteTask μ) : GcPhase → String → DeleteTask μ
  | .purging orphans => fun h =>
    match orphans.find? fun o => o.hash == h with
    | some o => .start o.locations
    | none => old h
  | _ => old

/-- All futures are in, and `deleted` are the tasks that returned `true`. -/
def batchDone (task : String → DeleteTask μ) (deleted : List String) (orphans : List OrphanedChunk) : Bool :=
  orphans.all fun o => (task o.hash).finished && (deleted.contains o.hash == (task o.hash).allSuccess)

/-- A daemon's step, from the state of its tasks. -/
def gcEnabled (s : Cluster ι κ μ) : MasterStep ι → Bool
  | .client _ => false
  | .record d deleted _ =>
    match s.masters.daemon d with
    | .purging orphans => batchDone (s.task d) deleted orphans
    | _ => false
  | .claim .. | .revert .. | .crash _ => true

/-- A claimed batch starts a task for each of its chunks. -/
def gcTasks (s : Cluster ι κ μ) (m : Masters ι) : MasterStep ι → ι → String → DeleteTask μ
  | .claim d _ _ => Function.update s.task d (startTasks (s.task d) (m.daemon d))
  | _ => s.task

/-- `none` where the step is not possible. -/
def stepCluster (s : Cluster ι κ μ) : ClusterStep ι κ μ → Option (Cluster ι κ μ)
  | .other t =>
    if t.isOther ∧ RegistersItself net t then some { s with masters := { s.masters with db := t.apply n s.db } } else none
  | .init c hashes =>
    if ∀ h ∈ hashes, HexDigest h then
      match filterMissingChunks n s.db hashes with
      | .error _ => some { s with attempt := Function.update s.attempt c none }
      | .ok (db, plans) =>
        some { s with masters := { s.masters with db := db }
                      attempt := Function.update s.attempt c (some ⟨hashes, s.db.now, plans, [], []⟩) }
    else none
  | .post c node hash body =>
    match s.attempt c with
    | some a =>
      if ∃ p ∈ a.plans, p.hash = hash ∧ node ∈ p.assignedNodes then
        let req : Sent μ := ⟨net.advertised node, .post hash body⟩
        some { s with wire := s.wire.send req
                      attempt := Function.update s.attempt c (some { a with posts := (node, s.wire.next req) :: a.posts }) }
      else none
    | none => none
  | .ack c node e r =>
    match s.attempt c, e.request.request with
    | some a, .post hash _ =>
      if (node, e) ∈ a.posts ∧ (e, r) ∈ s.wire.replies ∧ r.status = 200 then
        some { s with attempt := Function.update s.attempt c (some { a with acked := (node, hash) :: a.acked }) }
      else none
    | _, _ => none
  | .commit c u f size =>
    match s.attempt c with
    | some a =>
      if a.complete ∧ s.db.now ≤ a.since + hours 24 then
        match commitFile s.db u f size a.chunkHashes with
        | .error _ => some s
        | .ok db => some { s with masters := { s.masters with db := db }
                                  commits := (s.db.fileSeq, a.chunkHashes) :: s.commits }
      else none
    | none => none
  | .gc a =>
    if gcEnabled s a then (stepMasters n s.masters a).map fun m => { s with masters := m, task := gcTasks s m a }
    else none
  | .task d hash e =>
    match s.masters.daemon d with
    | .purging orphans =>
      if hash ∈ orphans.map OrphanedChunk.hash then
        (stepTask net s.wire hash (s.task d hash) e).map fun res =>
          { s with task := Function.update s.task d (Function.update (s.task d) hash res.1), wire := res.2 }
      else none
    | _ => none
  | .deliver e =>
    if h : e ∈ s.wire.inFlight then
      let res := serve sha256 (s.disk e.request.machine) e.request.request
      some { s with disk := Function.update s.disk e.request.machine res.1, wire := s.wire.reply e h res.2 }
    else none
  | .lose e => some { s with wire := s.wire.lose e }

end StorageEngine
