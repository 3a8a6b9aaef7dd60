import StorageEngine.ControlPlane.Telemetry

/-!
# What nobody reads

Of what a worker reports, only its addresses matter: two runs of the master that differ in free space, last heartbeats and
`READ_ONLY` marks give the same responses and the same claims (`telemetry_inert`).
-/

namespace StorageEngine

open Relational Transition
open Json (Tree)

variable {cfg : MasterConfig} {env : Circumstances} {db db' : Store} {req : HttpRequest}

/-- Without what a worker says of itself from time to time, and without its status. -/
def WorkerRow.blind (w : WorkerRow) : WorkerRow := { w with freeSpace := 0, lastHeartbeat := 0, status := .active }

/-- The store without what heartbeats report. -/
def Store.blind (db : Store) : Store :=
  { db with workers := db.workers.updateWhere (fun _ _ => true) WorkerRow.blind }

section
variable (db : Store)

theorem blind_of_workers {db₁ db₂ : Store} (h : { db₁ with workers := .empty } = { db₂ with workers := Table.empty })
    (hworkers : db₁.blind.workers = db₂.blind.workers) : db₁.blind = db₂.blind := by
  cases db₁
  cases db₂
  simp only [Store.blind, Store.mk.injEq] at h hworkers ⊢
  exact ⟨hworkers, h.2⟩

theorem updateWhere_blind {p q : Int → WorkerRow → Bool} {f g : WorkerRow → WorkerRow}
    (h : ∀ id w, (if p id w.blind then f w.blind else w.blind).blind = (if q id w then g w else w).blind) :
    ((db.blind.workers.updateWhere p f).updateWhere (fun _ _ => true) WorkerRow.blind) =
      (db.workers.updateWhere q g).updateWhere (fun _ _ => true) WorkerRow.blind := by
  simp only [Store.blind, Table.updateWhere, List.map_map, if_true, Table.mk.injEq]
  exact List.map_congr_left fun e _ => Prod.ext rfl (h e.1 e.2)

@[simp] theorem blind_users : db.blind.users = db.users := rfl

@[simp] theorem blind_files : db.blind.files = db.files := rfl

@[simp] theorem blind_chunks : db.blind.chunks = db.chunks := rfl

@[simp] theorem blind_clusters : db.blind.clusters = db.clusters := rfl

@[simp] theorem blind_shardMap : db.blind.shardMap = db.shardMap := rfl

@[simp] theorem blind_workerSeq : db.blind.workerSeq = db.workerSeq := rfl

@[simp] theorem blind_fileSeq : db.blind.fileSeq = db.fileSeq := rfl

@[simp] theorem blind_userSeq : db.blind.userSeq = db.userSeq := rfl

@[simp] theorem blind_clusterSeq : db.blind.clusterSeq = db.clusterSeq := rfl

@[simp] theorem blind_get?_workers (id : Int) : db.blind.workers.get? id = (db.workers.get? id).map WorkerRow.blind := by
  rw [Store.blind, Table.get?_updateWhere]
  rfl

@[simp] theorem blind_blind : db.blind.blind = db.blind := by
  refine blind_of_workers rfl ?_
  simp only [Store.blind, Table.updateWhere, if_true, List.map_map]
  rfl

/-- A condition on ids and addresses selects the same rows. -/
theorem select_blind {p : Int → WorkerRow → Bool} (h : ∀ id w, p id w.blind = p id w) :
    db.blind.workers.select p = (db.workers.select p).map fun e => (e.1, e.2.blind) := by
  simp only [Table.select, Store.blind, Table.updateWhere, if_true, List.filter_map]
  exact congrArg _ (List.filter_congr fun e _ => h e.1 e.2)

theorem workersOf_blind (nodes : List Int) : workersOf db.blind nodes = (workersOf db nodes).map WorkerRow.blind := by
  simp only [workersOf, select_blind db (p := fun id _ => nodes.contains id) fun _ _ => rfl, List.map_map]
  rfl

@[simp] theorem nodeData_blind (nodes : List Int) : nodeData db.blind nodes = nodeData db nodes := by
  rw [nodeData, nodeData, workersOf_blind]
  cases workersOf db nodes with
  | nil => rfl
  | cons w ws =>
    simp only [List.map_cons, List.map_map]
    rfl

@[simp] theorem locationsOf_blind (nodes : List Int) : locationsOf db.blind nodes = locationsOf db nodes := by
  simp only [locationsOf, workersOf_blind, List.map_map]
  rfl

@[simp] theorem verifyNodesExist_blind (ids : List Int) : verifyNodesExist db.blind ids = verifyNodesExist db ids := by
  simp only [verifyNodesExist, select_blind db (p := fun id _ => ids.contains id) fun _ _ => rfl, List.length_map]

/-! ### The repository -/

theorem filterMissingOne_blind (n : Nat) (hash : String) :
    filterMissingOne n db.blind hash = (filterMissingOne n db hash).map (Prod.map Store.blind id) := by
  simp only [filterMissingOne, nodeData_blind, blind_chunks, blind_shardMap, blind_clusters]
  cases db.chunks.get? hash with
  | none =>
    simp only
    cases (db.shardMap.get? (calculateBucketId hash n)).bind db.clusters.get? with
    | none => rfl
    | some cluster =>
      simp only
      cases nodeData db cluster.activeNodes with
      | none => rfl
      | some nodes => cases varchar 64 hash <;> rfl
  | some row =>
    simp only
    split
    · rfl
    · split
      · cases nodeData db row.nodes <;> rfl
      · rfl

theorem filterMissingChunks_blind (n : Nat) (db : Store) (hashes : List String) :
    filterMissingChunks n db.blind hashes = (filterMissingChunks n db hashes).map (Prod.map Store.blind id) := by
  induction hashes generalizing db with
  | nil => rfl
  | cons hash rest ih =>
    simp only [filterMissingChunks, filterMissingOne_blind]
    cases filterMissingOne n db hash with
    | error e => rfl
    | ok one =>
      obtain ⟨db', plan⟩ := one
      simp only [Except.map, Prod.map, ih]
      cases filterMissingChunks n db' rest <;> rfl

theorem commitFile_blind (userId : Int) (filename : String) (fileSize : Int) (hashes : List String) :
    commitFile db.blind userId filename fileSize hashes =
      (commitFile db userId filename fileSize hashes).map Store.blind := by
  unfold commitFile
  cases textArrayIn (arrayLiteral hashes) with
  | none => rfl
  | some arr =>
    cases varchar 255 filename with
    | none => rfl
    | some name =>
      by_cases huser : (db.users.get? userId).isNone = true
      · simp only [blind_users, huser, if_true]
        rfl
      · simp only [blind_users, blind_files, blind_fileSeq, huser]
        cases db.files.insert? db.fileSeq ⟨userId, name, fileSize, arr⟩ <;> rfl

theorem getDownloadPlan_blind (order order' : List Int) (userId : Int) (filename : String) :
    getDownloadPlan order order' db.blind userId filename = getDownloadPlan order order' db userId filename := by
  have hjoin : unnestJoin db.blind = unnestJoin db := by
    funext r
    simp only [unnestJoin, nodeData_blind]
    rfl
  simp only [getDownloadPlan, hjoin]
  rfl

theorem deleteFile_blind (order : List Int) (userId : Int) (filename : String) :
    deleteFile order db.blind userId filename = (deleteFile order db userId filename).map Store.blind id := by
  have hrows : fileRows order db.blind userId filename = fileRows order db userId filename := rfl
  rw [deleteFile, deleteFile, hrows]
  cases fileRows order db userId filename <;> rfl

theorem createUser_blind (email passwordHash salt : String) :
    createUser db.blind email passwordHash salt = (createUser db email passwordHash salt).map Store.blind id := by
  unfold createUser
  split
  · rename_i e p s _ _ _
    simp only [blind_users, blind_userSeq]
    by_cases hnew : (db.users.select fun _ u => u.email == e).isEmpty = true
    · simp only [hnew, if_true]
      cases db.users.insert? db.userSeq ⟨e, p, s⟩ <;> rfl
    · simp only [hnew]
      rfl
  · rfl

theorem addCluster_blind (n : Nat) (order : List Nat) (name : String) (ids : List Int) :
    addCluster n order db.blind name ids = (addCluster n order db name ids).map Store.blind := by
  unfold addCluster
  rw [verifyNodesExist_blind]
  cases verifyNodesExist db ids with
  | error e => rfl
  | ok _ =>
    cases varchar 50 name with
    | none => rfl
    | some name' =>
      simp only [blind_clusters, blind_clusterSeq]
      by_cases hnew : (db.clusters.select fun _ c => c.clusterName == name').isEmpty = true
      · simp only [hnew]
        cases db.clusters.insert? db.clusterSeq ⟨name', ids⟩ <;> rfl
      · simp only [hnew]
        rfl

/-- The status is written, and not read. -/
theorem replaceCluster_blind (id : Int) (ids : List Int) :
    (replaceCluster db.blind id ids).map Store.blind = (replaceCluster db id ids).map Store.blind := by
  unfold replaceCluster
  rw [verifyNodesExist_blind, blind_clusters]
  cases db.clusters.get? id with
  | none => rfl
  | some cluster =>
    simp only
    cases verifyNodesExist db ids with
    | error e => rfl
    | ok _ =>
      refine congrArg Except.ok (blind_of_workers rfl (updateWhere_blind db fun id w => ?_))
      split <;> rfl

/-- The free space is written, and not read. -/
theorem registerWorker_blind (ih : String) (ip : Int) (ah : String) (ap free free' : Int) :
    (registerWorker db.blind ih ip ah ap free).map Store.blind =
      (registerWorker db ih ip ah ap free').map Store.blind := by
  unfold registerWorker
  split
  · rename_i ih' ah' _ _
    simp only [select_blind db (p := fun _ w => w.internalHost == ih' && w.internalPort == ip) fun _ _ => rfl,
      List.isEmpty_map]
    split
    · simp only [blind_workerSeq]
      cases hget : db.workers.get? db.workerSeq with
      | some w => simp only [Table.insert?, blind_get?_workers, hget, Option.map_some, reduceCtorEq, if_false]
      | none =>
        have hblind : db.blind.workers.get? db.workerSeq = none := by rw [blind_get?_workers, hget, Option.map_none]
        simp only [Table.insert?, hblind, hget, if_true]
        refine congrArg Except.ok (blind_of_workers rfl (Table.mk.injEq .. ▸ ?_))
        rw [Table.rows_insertNew_of_none hblind, Table.rows_insertNew_of_none hget]
        simp only [Store.blind, Table.updateWhere, if_true, List.map_append, List.map_map]
        rfl
    · refine congrArg Except.ok (blind_of_workers rfl (updateWhere_blind db fun id w => ?_))
      show (if (w.internalHost == ih' && w.internalPort == ip) = true then _ else _ : WorkerRow).blind = _
      split <;> rfl
  · rfl

theorem getOrphanedChunks_blind (order : List String) (fault : Option ClaimFault) (expiry limit : Nat) :
    getOrphanedChunks order fault db.blind expiry limit =
      (getOrphanedChunks order fault db expiry limit).map Store.blind id := by
  have horphan : orphanOf db.blind = orphanOf db := by
    funext h
    simp only [orphanOf, locationsOf_blind]
    rfl
  unfold getOrphanedChunks
  simp only [horphan]
  cases fault with
  | none => rfl
  | some fault => cases fault <;> rfl

end

/-! ### Requests and runs -/

theorem reach_map {α β : Type} (dbUp : Bool) (f : α → β) (res : Except RepoError α) :
    reach dbUp (res.map f) = (reach dbUp res).map f := by
  cases dbUp with
  | false => rfl
  | true => cases res <;> rfl

/-- The same response, and the same store to anyone who reads it. -/
def Unseen (out out' : Store × HttpResponse) : Prop := out.map Store.blind id = out'.map Store.blind id

section
variable (cfg : MasterConfig) (env : Circumstances) (db : Store)

theorem kept_unseen (res : HttpResponse) : Unseen (db.blind, res) (db, res) := Prod.ext (blind_blind db) rfl

theorem handleUploadInit_blind (body : Bytes) :
    Unseen (handleUploadInit cfg env db.blind body) (handleUploadInit cfg env db body) := by
  unfold handleUploadInit
  split
  · exact kept_unseen db _
  · rename_i hashes _
    rw [filterMissingChunks_blind, reach_map]
    cases reach env.dbUp (filterMissingChunks cfg.numBuckets db hashes) with
    | ok res => exact kept_unseen res.1 _
    | error e =>
      rcases e with - | e
      · exact kept_unseen db _
      · cases e <;> exact kept_unseen db _

theorem handleCommit_blind (body : Bytes) (userId : Int) :
    Unseen (handleCommit env db.blind body userId) (handleCommit env db body userId) := by
  unfold handleCommit
  split
  · exact kept_unseen db _
  · rename_i f size hashes _
    rw [commitFile_blind, reach_map]
    cases reach env.dbUp (commitFile db userId f size hashes) with
    | ok db' => exact kept_unseen db' _
    | error e => exact kept_unseen db _

theorem handleSignup_blind (body : Bytes) :
    Unseen (handleSignup cfg env db.blind body) (handleSignup cfg env db body) := by
  unfold handleSignup
  split
  · exact kept_unseen db _
  split
  · exact kept_unseen db _
  · cases env.dbUp with
    | false => exact kept_unseen db _
    | true =>
      simp only [if_true, createUser_blind]
      rename_i email password _ _ bytes _
      generalize charText (hexPrint bytes.1) = salt
      cases createUser db email (hashPassword cfg password salt) salt with
      | mk db' created => cases created <;> exact kept_unseen db' _

theorem handleLogin_blind (body : Bytes) :
    Unseen (handleLogin cfg env db.blind body) (handleLogin cfg env db body) := by
  unfold handleLogin
  split
  · exact kept_unseen db _
  · rename_i email password _
    have htoken : loginToken cfg env db.blind email password = loginToken cfg env db email password := rfl
    rw [htoken]
    split
    · exact kept_unseen db _
    · split <;> exact kept_unseen db _

theorem handleDownloadPlan_blind (filename : Option Bytes) (userId : Int) :
    Unseen (handleDownloadPlan env db.blind filename userId) (handleDownloadPlan env db filename userId) := by
  unfold handleDownloadPlan
  split
  · exact kept_unseen db _
  split
  · exact kept_unseen db _
  · rw [getDownloadPlan_blind]
    split <;> exact kept_unseen db _

theorem handleFileExists_blind (filename : Option Bytes) (userId : Int) :
    Unseen (handleFileExists env db.blind filename userId) (handleFileExists env db filename userId) := by
  unfold handleFileExists
  split
  · exact kept_unseen db _
  · split <;> exact kept_unseen db _

theorem handleDeleteFile_blind (filename : Option Bytes) (userId : Int) :
    Unseen (handleDeleteFile env db.blind filename userId) (handleDeleteFile env db filename userId) := by
  unfold handleDeleteFile
  split
  · exact kept_unseen db _
  split
  · rename_i f _ _
    rw [deleteFile_blind]
    cases deleteFile env.order db userId f with
    | mk db' found => cases found <;> exact kept_unseen db' _
  · exact kept_unseen db _

theorem handleAddCluster_blind (body : Bytes) :
    Unseen (handleAddCluster cfg env db.blind body) (handleAddCluster cfg env db body) := by
  unfold handleAddCluster
  split
  · exact kept_unseen db _
  · rename_i name ids _
    rw [addCluster_blind, reach_map]
    cases reach env.dbUp (addCluster cfg.numBuckets env.bucketOrder db name ids) with
    | ok db' => exact kept_unseen db' _
    | error e => exact kept_unseen db _

/-- Where both calls fail, or both leave the same to be read. -/
theorem reach_blind (dbUp : Bool) {res res' : Except RepoError Store} (h : res.map Store.blind = res'.map Store.blind) :
    (∃ e e', reach dbUp res = .error e ∧ reach dbUp res' = .error e') ∨
      ∃ db₁ db₂, reach dbUp res = .ok db₁ ∧ reach dbUp res' = .ok db₂ ∧ db₁.blind = db₂.blind := by
  cases dbUp with
  | false => exact Or.inl ⟨none, none, rfl, rfl⟩
  | true =>
    cases res with
    | error e =>
      cases res' with
      | error e' => exact Or.inl ⟨some e, some e', rfl, rfl⟩
      | ok db₂ => cases h
    | ok db₁ =>
      cases res' with
      | error e' => cases h
      | ok db₂ => exact Or.inr ⟨db₁, db₂, rfl, rfl, Except.ok.inj h⟩

theorem handleReplaceCluster_blind (body : Bytes) :
    Unseen (handleReplaceCluster env db.blind body) (handleReplaceCluster env db body) := by
  unfold handleReplaceCluster
  split
  · exact kept_unseen db _
  · rename_i id ids _
    rcases reach_blind env.dbUp (replaceCluster_blind db id ids) with ⟨e, e', h, h'⟩ | ⟨db₁, db₂, h, h', heq⟩
    · rw [h, h']
      exact kept_unseen db _
    · rw [h, h']
      exact Prod.ext heq rfl

/-- The body may be another, as long as it differs in the free space only. -/
theorem handleHeartbeat_blind (secret : Option Bytes) {body body' : Bytes} (free : Int)
    (hbody : heartbeatOf body' = (heartbeatOf body).map fun h => { h with freeSpace := free }) :
    Unseen (handleHeartbeat cfg env db.blind secret body) (handleHeartbeat cfg env db secret body') := by
  unfold handleHeartbeat
  split
  · exact kept_unseen db _
  rw [hbody]
  cases heartbeatOf body with
  | none => exact kept_unseen db _
  | some h =>
    rcases reach_blind env.dbUp (registerWorker_blind db h.internalHost h.internalPort h.advertisedHost
      h.advertisedPort h.freeSpace free) with ⟨e, e', he, he'⟩ | ⟨db₁, db₂, hdb, hdb', heq⟩
    · simp only [Option.map_some, he, he']
      exact kept_unseen db _
    · simp only [Option.map_some, hdb, hdb']
      exact Prod.ext heq rfl

theorem authorized_blind {req : HttpRequest} {handler handler' : Int → Store × HttpResponse}
    (h : ∀ userId, Unseen (handler userId) (handler' userId)) :
    Unseen (authorized cfg env db.blind req handler) (authorized cfg env db req handler') := by
  unfold authorized
  split
  · exact kept_unseen db _
  · exact h _

theorem handle_blind (req : HttpRequest) : Unseen (handle cfg env db.blind req) (handle cfg env db req) := by
  unfold handle
  split
  · exact kept_unseen db _
  · unfold handleHealthCheck
    split <;> exact kept_unseen db _
  · exact handleSignup_blind cfg env db req.body
  · exact handleLogin_blind cfg env db req.body
  · exact authorized_blind cfg env db fun _ => handleUploadInit_blind cfg env db req.body
  · exact authorized_blind cfg env db fun userId => handleCommit_blind env db req.body userId
  · exact authorized_blind cfg env db fun userId => handleDownloadPlan_blind env db req.filename userId
  · refine handleHeartbeat_blind cfg env db _ ?_ ?_
    · exact ((heartbeatOf req.body).map Heartbeat.freeSpace).getD 0
    · cases heartbeatOf req.body <;> rfl
  · exact handleAddCluster_blind cfg env db req.body
  · exact handleReplaceCluster_blind env db req.body
  · exact authorized_blind cfg env db fun userId => handleFileExists_blind env db req.filename userId
  · exact authorized_blind cfg env db fun userId => handleDeleteFile_blind env db req.filename userId

end

/-- A heartbeat in two runs, where the worker's disk is not equally full. -/
inductive SameButSpace : MasterEvent → MasterEvent → Prop where
  | same (e : MasterEvent) : SameButSpace e e
  | heartbeat (env : Circumstances) (w : WorkerIdentity) (available available' : Option Nat) :
      SameButSpace (.request env (heartbeatRequest w available)) (.request env (heartbeatRequest w available'))

/-- What an event lets somebody see. -/
inductive Observation where
  | response (res : HttpResponse)
  | claimed (orphans : List OrphanedChunk)
  | none
deriving DecidableEq

section
variable (cfg : MasterConfig)

/-- What an event shows to the outside. -/
def observe (db : Store) : MasterEvent → Observation
  | .request env req => .response (handle cfg env db req).2
  | .background (.getOrphanedChunks order fault expiry limit) =>
    .claimed (getOrphanedChunks order fault db expiry limit).2
  | .background _ => .none

/-- What a run shows to the outside. -/
def observations (db : Store) : List MasterEvent → List Observation
  | [] => []
  | e :: es =>
    observe cfg db e ::
      match stepApi cfg db e with
      | .none => []
      | some db' => observations db' es

end

theorem background_blind (cfg : MasterConfig) {t : Txn} (ht : t.inBackground = true) (db : Store) :
    t.apply cfg.numBuckets db.blind = (t.apply cfg.numBuckets db).blind ∧
      observe cfg db.blind (.background t) = observe cfg db (.background t) := by
  cases t with
  | tick d => exact ⟨rfl, rfl⟩
  | revertTombstone h => exact ⟨rfl, rfl⟩
  | deleteChunkRecordsBulk hs =>
    refine ⟨?_, rfl⟩
    simp only [Txn.apply, StorageEngine.deleteChunkRecordsBulk]
    split <;> rfl
  | getOrphanedChunks order fault expiry limit =>
    simp only [Txn.apply, observe, getOrphanedChunks_blind]
    exact ⟨rfl, rfl⟩
  | _ => cases ht

theorem stepApi_inert (cfg : MasterConfig) {db₁ db₂ : Store} (h : db₁.blind = db₂.blind) {e₁ e₂ : MasterEvent}
    (he : SameButSpace e₁ e₂) :
    (stepApi cfg db₁ e₁).map Store.blind = (stepApi cfg db₂ e₂).map Store.blind ∧
      observe cfg db₁ e₁ = observe cfg db₂ e₂ := by
  have hrequest : ∀ {env : Circumstances} {req₁ req₂ : HttpRequest},
      Unseen (handle cfg env db₁.blind req₁) (handle cfg env db₁ req₁) →
      Unseen (handle cfg env db₂.blind req₁) (handle cfg env db₂ req₂) →
      (stepApi cfg db₁ (.request env req₁)).map Store.blind = (stepApi cfg db₂ (.request env req₂)).map Store.blind ∧
        observe cfg db₁ (.request env req₁) = observe cfg db₂ (.request env req₂) := fun h₁ h₂ => by
    have hboth := h₁.symm.trans ((congrArg (fun d => (handle cfg _ d _).map Store.blind id) h).trans h₂)
    obtain ⟨hstore, hresponse⟩ := Prod.mk.inj hboth
    exact ⟨congrArg some hstore, congrArg Observation.response hresponse⟩
  cases he with
  | heartbeat env w available available' =>
    refine hrequest (handle_blind cfg env db₁ _) ?_
    refine handleHeartbeat_blind cfg env db₂ _ (freeSpaceOf available') ?_
    show heartbeatOf (heartbeatPayload w _) = (heartbeatOf (heartbeatPayload w _)).map _
    rw [heartbeatOf_payload, heartbeatOf_payload]
    rfl
  | same =>
    cases e₁ with
    | request env req => exact hrequest (handle_blind cfg env db₁ req) (handle_blind cfg env db₂ req)
    | background t =>
      cases ht : t.inBackground with
      | false =>
        refine ⟨by simp [stepApi, ht], ?_⟩
        cases t <;> first | rfl | cases ht
      | true =>
        obtain ⟨hstore₁, hobserve₁⟩ := background_blind cfg ht db₁
        obtain ⟨hstore₂, hobserve₂⟩ := background_blind cfg ht db₂
        refine ⟨?_, hobserve₁.symm.trans ((congrArg (observe cfg · _) h).trans hobserve₂)⟩
        simp only [stepApi, ht, if_true, Option.map_some, ← hstore₁, ← hstore₂, h]

/-- **What is said of disks decides nothing**: two runs that differ in the free space of heartbeats only, from stores
that differ only in free space, last heartbeats and `READ_ONLY` marks, give the same responses and the same claims, and
end in stores that differ in these columns only. -/
theorem telemetry_inert (cfg : MasterConfig) {db₁ db₂ : Store} (hstores : db₁.blind = db₂.blind)
    {es₁ es₂ : List MasterEvent} (hevents : List.Forall₂ SameButSpace es₁ es₂) :
    observations cfg db₁ es₁ = observations cfg db₂ es₂ ∧
      (exec (stepApi cfg) db₁ es₁).map Store.blind = (exec (stepApi cfg) db₂ es₂).map Store.blind := by
  induction hevents generalizing db₁ db₂ with
  | nil => exact ⟨rfl, congrArg some hstores⟩
  | @cons e₁ e₂ es₁ es₂ he _ ih =>
    obtain ⟨hstep, hobserve⟩ := stepApi_inert cfg hstores he
    cases hstep₁ : stepApi cfg db₁ e₁ with
    | none =>
      rw [hstep₁, Option.map_none] at hstep
      have hstep₂ := Option.map_eq_none_iff.1 hstep.symm
      simp only [observations, exec, hstep₁, hstep₂, hobserve, Option.bind_none, Option.map_none, and_self]
    | some db₁' =>
      rw [hstep₁, Option.map_some] at hstep
      obtain ⟨db₂', hstep₂, hsame⟩ := Option.map_eq_some_iff.1 hstep.symm
      obtain ⟨hobservations, hfinal⟩ := ih hsame.symm
      simp only [observations, exec, hstep₁, hstep₂, hobserve, hobservations, hfinal, Option.bind_some, and_self]

theorem response_sample {db : Store} {available : Option Nat}
    (hok : (registerWorker db "w" 9000 "h" 9000 (freeSpaceOf available)).isOk = true) :
    (handle sampleConfig (sampleCircumstances 0) db (heartbeatRequest sampleIdentity available)).2 = ⟨200, []⟩ := by
  have hhandle : handle sampleConfig (sampleCircumstances 0) db (heartbeatRequest sampleIdentity available) =
      handleHeartbeat sampleConfig (sampleCircumstances 0) db (some sampleConfig.clusterSecret)
        (heartbeatPayload sampleIdentity (freeSpaceOf available)) := rfl
  have hbody : heartbeatOf (heartbeatPayload sampleIdentity (freeSpaceOf available)) =
      some ⟨"w", 9000, "h", 9000, freeSpaceOf available⟩ := heartbeatOf_payload sampleIdentity available
  rw [hhandle, handleHeartbeat, if_neg (not_not.2 rfl), hbody]
  cases hres : registerWorker db "w" 9000 "h" 9000 (freeSpaceOf available) with
  | ok db' => simp only [hres, reach, sampleCircumstances, if_true, Except.mapError]
  | error e =>
    rw [hres] at hok
    cases hok

/-- The first worker, as a busy one and as one that is full, not written to and last heard of long ago. -/
theorem telemetry_inert_sample :
    busyStore ⟨"w", 9000, "h", 9000, 5, .active, hours 48⟩ ≠ busyStore ⟨"w", 9000, "h", 9000, 0, .readOnly, 0⟩ ∧
    observations sampleConfig (busyStore ⟨"w", 9000, "h", 9000, 5, .active, hours 48⟩)
      [.background (.getOrphanedChunks [] none 24 1000),
        .request (sampleCircumstances 0) (heartbeatRequest sampleIdentity (some 5))] =
      [.claimed [⟨"g", [⟨"w", 9000⟩]⟩], .response ⟨200, []⟩] ∧
    observations sampleConfig (busyStore ⟨"w", 9000, "h", 9000, 0, .readOnly, 0⟩)
      [.background (.getOrphanedChunks [] none 24 1000),
        .request (sampleCircumstances 0) (heartbeatRequest sampleIdentity none)] =
      [.claimed [⟨"g", [⟨"w", 9000⟩]⟩], .response ⟨200, []⟩] := by
  have hbusy : observations sampleConfig (busyStore ⟨"w", 9000, "h", 9000, 5, .active, hours 48⟩)
      [.background (.getOrphanedChunks [] none 24 1000),
        .request (sampleCircumstances 0) (heartbeatRequest sampleIdentity (some 5))] =
      [.claimed [⟨"g", [⟨"w", 9000⟩]⟩], .response ⟨200, []⟩] := by
    have hclaimed : (getOrphanedChunks [] none (busyStore ⟨"w", 9000, "h", 9000, 5, .active, hours 48⟩) 24 1000).2 =
        [⟨"g", [⟨"w", 9000⟩]⟩] := by
      decide +kernel
    have hresponse := @response_sample
      ((Txn.getOrphanedChunks [] none 24 1000).apply 4 (busyStore ⟨"w", 9000, "h", 9000, 5, .active, hours 48⟩)) (some 5)
      (by decide +kernel)
    have hstep : stepApi sampleConfig (busyStore ⟨"w", 9000, "h", 9000, 5, .active, hours 48⟩)
        (.background (.getOrphanedChunks [] none 24 1000)) = some ((Txn.getOrphanedChunks [] none 24 1000).apply 4
          (busyStore ⟨"w", 9000, "h", 9000, 5, .active, hours 48⟩)) := rfl
    simp only [observations, observe, hclaimed, hstep, hresponse]
    rfl
  have hstores : (busyStore ⟨"w", 9000, "h", 9000, 5, .active, hours 48⟩).blind =
      (busyStore ⟨"w", 9000, "h", 9000, 0, .readOnly, 0⟩).blind := rfl
  refine ⟨fun h => ?_, hbusy, ?_⟩
  · have hrow : some (WorkerRow.freeSpace ⟨"w", 9000, "h", 9000, 5, .active, hours 48⟩) =
        some (WorkerRow.freeSpace ⟨"w", 9000, "h", 9000, 0, .readOnly, 0⟩) :=
      congrArg (fun db : Store => (db.workers.get? 1).map WorkerRow.freeSpace) h
    exact absurd hrow (by decide)
  · rw [← hbusy]
    exact (telemetry_inert sampleConfig hstores.symm (.cons (.same _) (.cons (.heartbeat _ _ _ _) .nil))).1

end StorageEngine
