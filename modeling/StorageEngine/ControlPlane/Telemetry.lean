import StorageEngine.ControlPlane.Rpc

/-!
# Heartbeats

Every worker posts its addresses and its free space every few seconds. `Registry` says what that is for: of each
internal address, the last report that was heard. The workers table refines it (`registry_follows_heartbeats`), and a worker
gets in exactly with the cluster's secret (`heartbeat_iff`).

| here | there |
| --- | --- |
| `WorkerIdentity`, `freeSpaceOf`, `heartbeatRequest` | `HeartbeatDaemon` (`worker/main.cpp:36-86`) and its arguments |
| `heard`                | what `HandleHeartbeat` (`MasterServer.hpp:364-394`) passes on and `RegisterWorker` stores |
-/

namespace StorageEngine

open Relational Transition
open Json (Tree)

/-! ## The worker's side -/

structure WorkerIdentity where
  internalHost : String
  advertisedHost : String
  port : Int
  clusterSecret : Bytes

/-- `space(storage_dir).available`, `none` where it fails. -/
def freeSpaceOf (available : Option Nat) : Int :=
  match available with
  | none => 0
  | some bytes => (bytes : Int).bmod (2 ^ 64)

/-- `payload` (`worker/main.cpp:51-56`), members in the order of their keys. -/
def heartbeatPayload (w : WorkerIdentity) (freeSpace : Int) : Bytes :=
  dump (.obj [("advertised_host", .str w.advertisedHost), ("advertised_port", .int w.port),
    ("free_space", .int freeSpace), ("internal_host", .str w.internalHost), ("internal_port", .int w.port)])

def heartbeatRequest (w : WorkerIdentity) (available : Option Nat) : HttpRequest where
  method := "POST"
  path := "/heartbeat"
  authorization := none
  clusterSecret := some w.clusterSecret
  filename := none
  body := heartbeatPayload w (freeSpaceOf available)

theorem fits_freeSpaceOf (available : Option Nat) : Fits 64 (freeSpaceOf available) := by
  unfold Fits freeSpaceOf
  split
  · exact Int.zero_bmod
  · exact Int.bmod_bmod

theorem heartbeatOf_payload (w : WorkerIdentity) (available : Option Nat) :
    heartbeatOf (heartbeatPayload w (freeSpaceOf available)) =
      some ⟨w.internalHost, w.port.bmod (2 ^ 32), w.advertisedHost, w.port.bmod (2 ^ 32), freeSpaceOf available⟩ := by
  simp [heartbeatOf, heartbeatPayload, Tree.at?, Tree.getString, Json.getWrapped_int, List.lookup_cons]
  exact fits_freeSpaceOf available

/-! ## The registry -/

/-- What a worker has said of itself, and when. -/
structure Report where
  advertisedHost : String
  advertisedPort : Int
  freeSpace : Int
  heardAt : Nat
deriving DecidableEq

structure Registry where
  /-- By internal address. -/
  reports : String × Int → Option Report
  now : Nat

/-- Nobody has reported. -/
def Registry.empty : Registry := ⟨fun _ => none, 0⟩

section
variable (cfg : MasterConfig)

/-- The heartbeat that is let in, as the columns hold it. -/
def heard (env : Circumstances) (req : HttpRequest) : Option Heartbeat :=
  if routeOf req = some .heartbeat ∧ req.clusterSecret = some cfg.clusterSecret ∧ env.dbUp = true then do
    let h ← heartbeatOf req.body
    let internalHost ← varchar 255 h.internalHost
    let advertisedHost ← varchar 255 h.advertisedHost
    return { h with internalHost := internalHost, advertisedHost := advertisedHost }
  else none

/-- A heartbeat that is let in replaces the last one of its address. -/
def Registry.hear (r : Registry) : MasterEvent → Registry
  | .request env req =>
    match heard cfg env req with
    | none => r
    | some h => { r with
        reports := Function.update r.reports (h.internalHost, h.internalPort)
          (some ⟨h.advertisedHost, h.advertisedPort, h.freeSpace, r.now⟩) }
  | .background (.tick d) => { r with now := r.now + d }
  | .background _ => r

end

/-- The key of the upsert. -/
def WorkerRow.endpoint (w : WorkerRow) : String × Int := (w.internalHost, w.internalPort)

/-- What the row keeps of the last heartbeat. -/
def WorkerRow.report (w : WorkerRow) : Report := ⟨w.advertisedHost, w.advertisedPort, w.freeSpace, w.lastHeartbeat⟩

/-- The registry that the `workers` table is. -/
def Store.registry (db : Store) : Registry where
  reports endpoint := (db.workers.rows.find? fun e => e.2.endpoint == endpoint).map fun e => e.2.report
  now := db.now

/-- Ids below the sequence, and one row for each address. -/
structure WorkersOk (db : Store) : Prop where
  fresh : ∀ id w, db.workers.get? id = some w → id < db.workerSeq
  once : ∀ id id' w w', db.workers.get? id = some w → db.workers.get? id' = some w' → w.endpoint = w'.endpoint → id = id'

theorem workersOk_empty : WorkersOk .empty where
  fresh id w h := by cases h
  once id id' w w' h := by cases h

theorem registry_eq_some {db : Store} (h : WorkersOk db) {endpoint : String × Int} {report : Report} :
    db.registry.reports endpoint = some report ↔
      ∃ id w, db.workers.get? id = some w ∧ w.endpoint = endpoint ∧ w.report = report := by
  constructor
  · intro hfound
    obtain ⟨⟨id, w⟩, hfind, rfl⟩ := Option.map_eq_some_iff.1 hfound
    exact ⟨id, w, Table.mem_rows.1 (List.mem_of_find?_eq_some hfind), by simpa using List.find?_some hfind, rfl⟩
  · rintro ⟨id, w, hw, rfl, rfl⟩
    cases hfind : db.workers.rows.find? fun e => e.2.endpoint == w.endpoint with
    | none =>
      have hnone := List.find?_eq_none.1 hfind (id, w) (Table.mem_rows.2 hw)
      simp at hnone
    | some e =>
      obtain ⟨id', w'⟩ := e
      have hw' := Table.mem_rows.1 (List.mem_of_find?_eq_some hfind)
      have hsame : w'.endpoint = w.endpoint := by simpa using List.find?_some hfind
      obtain rfl := h.once id' id w' w hw' hw hsame
      obtain rfl : w' = w := Option.some.inj (hw'.symm.trans hw)
      simp only [Store.registry, hfind, Option.map_some]

/-! ## What keeps the registry -/

/-- No row comes or goes, and of a row only the status may change. -/
structure SameEntries (db db' : Store) : Prop where
  seq : db'.workerSeq = db.workerSeq
  entries : ∀ id, (db'.workers.get? id).map (fun w => (w.endpoint, w.report)) =
    (db.workers.get? id).map fun w => (w.endpoint, w.report)

theorem SameEntries.of_workers {db db' : Store} (hseq : db'.workerSeq = db.workerSeq) (h : db'.workers = db.workers) :
    SameEntries db db' := ⟨hseq, fun id => by rw [h]⟩

theorem SameEntries.row {db db' : Store} (h : SameEntries db db') {id : Int} {w' : WorkerRow}
    (hw' : db'.workers.get? id = some w') :
    ∃ w, db.workers.get? id = some w ∧ w.endpoint = w'.endpoint ∧ w.report = w'.report := by
  have hentry := h.entries id
  rw [hw', Option.map_some] at hentry
  obtain ⟨w, hw, he⟩ := Option.map_eq_some_iff.1 hentry.symm
  exact ⟨w, hw, (Prod.mk.inj he).1, (Prod.mk.inj he).2⟩

theorem SameEntries.symm {db db' : Store} (h : SameEntries db db') : SameEntries db' db :=
  ⟨h.seq.symm, fun id => (h.entries id).symm⟩

theorem WorkersOk.same {db db' : Store} (hok : WorkersOk db) (h : SameEntries db db') : WorkersOk db' where
  fresh id w' hw' := by
    obtain ⟨w, hw, -⟩ := h.row hw'
    rw [h.seq]
    exact hok.fresh id w hw
  once id₁ id₂ w₁' w₂' hw₁' hw₂' hsame := by
    obtain ⟨w₁, hw₁, he₁, -⟩ := h.row hw₁'
    obtain ⟨w₂, hw₂, he₂, -⟩ := h.row hw₂'
    exact hok.once id₁ id₂ w₁ w₂ hw₁ hw₂ (he₁.trans (hsame.trans he₂.symm))

theorem SameEntries.reports {db db' : Store} (h : SameEntries db db') (hok : WorkersOk db) :
    db'.registry.reports = db.registry.reports := by
  funext endpoint
  refine Option.ext fun report => ?_
  rw [registry_eq_some hok, registry_eq_some (hok.same h)]
  constructor
  · rintro ⟨id, w', hw', rfl, rfl⟩
    obtain ⟨w, hw, he, hr⟩ := h.row hw'
    exact ⟨id, w, hw, he, hr⟩
  · rintro ⟨id, w, hw, rfl, rfl⟩
    obtain ⟨w', hw', he, hr⟩ := h.symm.row hw
    exact ⟨id, w', hw', he, hr⟩

theorem SameEntries.registry {db db' : Store} (h : SameEntries db db' ∧ db'.now = db.now) (hok : WorkersOk db) :
    WorkersOk db' ∧ db'.registry = db.registry := by
  refine ⟨hok.same h.1, ?_⟩
  show Registry.mk _ _ = Registry.mk _ _
  rw [h.2]
  exact congrArg (Registry.mk · db.now) (h.1.reports hok)

theorem replaceCluster_sameEntries {db db' : Store} {id : Int} {ids : List Int}
    (h : replaceCluster db id ids = .ok db') : SameEntries db db' ∧ db'.now = db.now := by
  unfold replaceCluster at h
  split at h
  · cases h
  split at h
  · cases h
  cases h
  refine ⟨⟨rfl, fun id => ?_⟩, rfl⟩
  rw [Table.get?_updateWhere, Option.map_map]
  cases db.workers.get? id with
  | none => rfl
  | some w =>
    simp only [Option.map_some, Function.comp_apply]
    split <;> rfl

/-- Only registrations and time are heard of. -/
theorem Txn.sameEntries (n : Nat) (db : Store) {t : Txn}
    (hregister : ∀ ih ip ah ap free, t ≠ .registerWorker ih ip ah ap free) (htick : ∀ d, t ≠ .tick d) :
    SameEntries db (t.apply n db) ∧ (t.apply n db).now = db.now := by
  have hkept : SameEntries db db ∧ db.now = db.now := ⟨.of_workers rfl rfl, rfl⟩
  cases t with
  | registerWorker ih ip ah ap free => exact absurd rfl (hregister ih ip ah ap free)
  | tick d => exact absurd rfl (htick d)
  | createUser e p s =>
    simp only [Txn.apply, StorageEngine.createUser]
    split
    · split
      · split <;> exact ⟨.of_workers rfl rfl, rfl⟩
      · exact hkept
    · exact hkept
  | filterMissingChunks hs =>
    simp only [Txn.apply, committed]
    cases h : StorageEngine.filterMissingChunks n db hs with
    | error e => exact hkept
    | ok res =>
      have hframe := (filterMissingChunks_effect h).frame
      exact ⟨.of_workers ((congrArg Store.workerSeq hframe).trans rfl) ((congrArg Store.workers hframe).trans rfl),
        (congrArg Store.now hframe).trans rfl⟩
  | commitFile u f s hs =>
    simp only [Txn.apply, committed]
    cases h : StorageEngine.commitFile db u f s hs with
    | error e => exact hkept
    | ok db' =>
      obtain ⟨-, -, arr, name, -, -, rfl⟩ := commitFile_ok.1 h
      exact ⟨.of_workers rfl rfl, rfl⟩
  | deleteFile order u f =>
    simp only [Txn.apply, StorageEngine.deleteFile]
    split <;> exact ⟨.of_workers rfl rfl, rfl⟩
  | getOrphanedChunks order fault expiry limit =>
    cases fault with
    | none => exact ⟨.of_workers rfl rfl, rfl⟩
    | some fault => cases fault <;> exact hkept
  | deleteChunkRecordsBulk hs =>
    simp only [Txn.apply, StorageEngine.deleteChunkRecordsBulk]
    split <;> exact ⟨.of_workers rfl rfl, rfl⟩
  | revertTombstone h => exact ⟨.of_workers rfl rfl, rfl⟩
  | addCluster order name ids =>
    simp only [Txn.apply, committed]
    cases h : StorageEngine.addCluster n order db name ids with
    | error e => exact hkept
    | ok db' =>
      unfold StorageEngine.addCluster at h
      split at h
      · cases h
      split at h
      · cases h
      split at h
      · cases h
      split at h <;> cases h
      exact ⟨.of_workers rfl rfl, rfl⟩
  | replaceCluster id ids =>
    simp only [Txn.apply, committed]
    cases h : StorageEngine.replaceCluster db id ids with
    | error e => exact hkept
    | ok db' => exact replaceCluster_sameEntries h

/-! ## A registration -/

/-- The row of one address is new, the others are what they were. -/
theorem reports_update {db db' : Store} (hok : WorkersOk db) (hok' : WorkersOk db') {id₀ : Int} {w₀ : WorkerRow}
    (hrow : db'.workers.get? id₀ = some w₀)
    (hother : ∀ id w, w.endpoint ≠ w₀.endpoint → (db'.workers.get? id = some w ↔ db.workers.get? id = some w)) :
    db'.registry.reports = Function.update db.registry.reports w₀.endpoint (some w₀.report) := by
  funext endpoint
  rcases eq_or_ne endpoint w₀.endpoint with rfl | hne
  · rw [Function.update_self]
    exact (registry_eq_some hok').2 ⟨id₀, w₀, hrow, rfl, rfl⟩
  · rw [Function.update_of_ne hne]
    refine Option.ext fun report => ?_
    rw [registry_eq_some hok, registry_eq_some hok']
    constructor
    · rintro ⟨id, w, hw, rfl, hr⟩
      exact ⟨id, w, (hother id w hne).1 hw, rfl, hr⟩
    · rintro ⟨id, w, hw, rfl, hr⟩
      exact ⟨id, w, (hother id w hne).2 hw, rfl, hr⟩

/-- The row after `DO UPDATE`. -/
def WorkerRow.hear (report : Report) (w : WorkerRow) : WorkerRow :=
  { w with advertisedHost := report.advertisedHost, advertisedPort := report.advertisedPort,
           freeSpace := report.freeSpace, lastHeartbeat := report.heardAt,
           status := if w.status = .readOnly then .readOnly else .active }

section
variable {db : Store} {ih : String} {ip : Int} {report : Report}

theorem same_iff {w : WorkerRow} : (w.internalHost == ih && w.internalPort == ip) = true ↔ w.endpoint = (ih, ip) := by
  simp [WorkerRow.endpoint]

theorem refreshed_row {id : Int} {w' : WorkerRow}
    (h : (db.workers.updateWhere (fun _ w => w.internalHost == ih && w.internalPort == ip) (·.hear report)).get? id =
      some w') :
    ∃ w, db.workers.get? id = some w ∧ w.endpoint = w'.endpoint ∧ (w.endpoint ≠ (ih, ip) → w' = w) := by
  rw [Table.get?_updateWhere] at h
  obtain ⟨w, hw, rfl⟩ := Option.map_eq_some_iff.1 h
  refine ⟨w, hw, ?_⟩
  split
  · rename_i hthis
    exact ⟨rfl, fun hne => absurd (same_iff.1 hthis) hne⟩
  · exact ⟨rfl, fun _ => rfl⟩

/-- The address is known: its row is rewritten. -/
theorem refresh_registry (hok : WorkersOk db) {id₀ : Int} {w₀ : WorkerRow} (hw₀ : db.workers.get? id₀ = some w₀)
    (he : w₀.endpoint = (ih, ip)) {db' : Store} (hseq : db'.workerSeq = db.workerSeq + 1) (hnow : db'.now = db.now)
    (hworkers : db'.workers =
      db.workers.updateWhere (fun _ w => w.internalHost == ih && w.internalPort == ip) (·.hear report)) :
    WorkersOk db' ∧ db'.now = db.now ∧
      db'.registry.reports = Function.update db.registry.reports (ih, ip) (some report) := by
  have hok' : WorkersOk db' := by
    constructor
    · intro id w' hw'
      rw [hworkers] at hw'
      obtain ⟨w, hw, -⟩ := refreshed_row hw'
      rw [hseq]
      exact Int.lt_trans (hok.fresh id w hw) (Int.lt_succ _)
    · intro id id' w₁' w₂' hw₁' hw₂' hsame
      rw [hworkers] at hw₁' hw₂'
      obtain ⟨w₁, hw₁, he₁, -⟩ := refreshed_row hw₁'
      obtain ⟨w₂, hw₂, he₂, -⟩ := refreshed_row hw₂'
      exact hok.once id id' w₁ w₂ hw₁ hw₂ (he₁.trans (hsame.trans he₂.symm))
  have hrow : db'.workers.get? id₀ = some (w₀.hear report) := by
    rw [hworkers, Table.get?_updateWhere, hw₀, Option.map_some, if_pos (same_iff.2 he)]
  refine ⟨hok', hnow, ?_⟩
  rw [← he]
  refine reports_update hok hok' hrow fun id w hne => ?_
  have hne' : w.endpoint ≠ (ih, ip) := fun hw => hne (hw.trans he.symm)
  rw [hworkers]
  constructor
  · intro hw
    obtain ⟨w', hw', hsame, hkept⟩ := refreshed_row hw
    rw [hkept (hsame ▸ hne')]
    exact hw'
  · intro hw
    rw [Table.get?_updateWhere, hw, Option.map_some, if_neg fun h => hne' (same_iff.1 h)]

/-- The address is new: it gets a row. -/
theorem insert_registry (hok : WorkersOk db) (row : WorkerRow) {db' : Store}
    (hworkers : db.workers.insert? db.workerSeq row = some db'.workers)
    (hnew : ∀ id w, db.workers.get? id = some w → w.endpoint ≠ row.endpoint) (hseq : db'.workerSeq = db.workerSeq + 1)
    (hnow : db'.now = db.now) :
    WorkersOk db' ∧ db'.now = db.now ∧
      db'.registry.reports = Function.update db.registry.reports row.endpoint (some row.report) := by
  obtain ⟨hnone, hinsert⟩ := Table.insert?_eq_some.1 hworkers
  have hget : ∀ id, db'.workers.get? id = if id = db.workerSeq then some row else db.workers.get? id := fun id => by
    rw [hinsert, Table.get?_insertNew, hnone, Option.getD_none]
  have hcases : ∀ id w, db'.workers.get? id = some w → (id = db.workerSeq ∧ row = w) ∨ db.workers.get? id = some w :=
    fun id w hw => by
      rw [hget] at hw
      split at hw
      · exact Or.inl ⟨‹_›, Option.some.inj hw⟩
      · exact Or.inr hw
  have hok' : WorkersOk db' := by
    constructor
    · intro id w hw
      rw [hseq]
      rcases hcases id w hw with ⟨rfl, -⟩ | hold
      · exact Int.lt_succ _
      · exact Int.lt_trans (hok.fresh id w hold) (Int.lt_succ _)
    · intro id id' w w' hw hw' hsame
      rcases hcases id w hw with ⟨rfl, rfl⟩ | hold <;> rcases hcases id' w' hw' with ⟨rfl, rfl⟩ | hold'
      · rfl
      · exact absurd hsame.symm (hnew id' w' hold')
      · exact absurd hsame (hnew id w hold)
      · exact hok.once id id' w w' hold hold' hsame
  refine ⟨hok', hnow, reports_update hok hok' (by rw [hget, if_pos rfl]) fun id w hne => ?_⟩
  rw [hget]
  split
  · rename_i hid
    rw [hid, hnone]
    exact iff_of_false (fun h => hne (by rw [Option.some.inj h])) (fun h => by cases h)
  · rfl

/-- **A registration** is stored under its address, and nothing else is heard. -/
theorem registerWorker_registry (hok : WorkersOk db) {ih' ah ah' : String} (ip ap free : Int)
    (hih : varchar 255 ih' = some ih) (hah : varchar 255 ah = some ah') :
    ∃ db', registerWorker db ih' ip ah ap free = .ok db' ∧ WorkersOk db' ∧ db'.now = db.now ∧
      db'.registry.reports = Function.update db.registry.reports (ih, ip) (some ⟨ah', ap, free, db.now⟩) := by
  simp only [registerWorker, hih, hah]
  split
  · rename_i hnone
    have hfree : db.workers.get? db.workerSeq = none := by
      cases hw : db.workers.get? db.workerSeq with
      | none => rfl
      | some w => exact absurd (hok.fresh _ w hw) (Int.lt_irrefl _)
    have hins : db.workers.insert? db.workerSeq ⟨ih, ip, ah', ap, free, .active, db.now⟩ = some _ :=
      Table.insert?_eq_some.2 ⟨hfree, rfl⟩
    have hnew : ∀ id w, db.workers.get? id = some w → w.endpoint ≠ (ih, ip) := fun id w hw he => by
      have hmem : (id, w) ∈ db.workers.select fun _ w => w.internalHost == ih && w.internalPort == ip :=
        Table.mem_select.2 ⟨hw, same_iff.2 he⟩
      rw [List.isEmpty_iff.1 hnone] at hmem
      cases hmem
    simp only [hins]
    exact ⟨_, rfl, insert_registry hok ⟨ih, ip, ah', ap, free, .active, db.now⟩ hins hnew rfl rfl⟩
  · rename_i hsome
    obtain ⟨⟨id₀, w₀⟩, hmem⟩ := List.exists_mem_of_ne_nil _ fun h => hsome (List.isEmpty_iff.2 h)
    obtain ⟨hw₀, hsame₀⟩ := Table.mem_select.1 hmem
    exact ⟨_, rfl, refresh_registry hok hw₀ (same_iff.1 hsame₀) rfl rfl rfl⟩

end

/-! ## Runs -/

variable {cfg : MasterConfig} {env : Circumstances} {db db' : Store} {req : HttpRequest}

theorem hear_of_none (h : heard cfg env req = none) (r : Registry) : r.hear cfg (.request env req) = r := by
  simp only [Registry.hear, h]

theorem heard_of_body (hroute : routeOf req = some .heartbeat) (hsecret : req.clusterSecret = some cfg.clusterSecret)
    (hup : env.dbUp = true) {h : Heartbeat} (hbody : heartbeatOf req.body = some h) :
    heard cfg env req = (varchar 255 h.internalHost).bind fun internalHost => (varchar 255 h.advertisedHost).map
      fun advertisedHost => { h with internalHost := internalHost, advertisedHost := advertisedHost } := by
  simp only [heard, hroute, hsecret, hup, hbody, and_self, if_true, Option.bind_eq_bind, Option.bind_some,
    Option.pure_def]
  cases varchar 255 h.internalHost with
  | none => rfl
  | some internalHost => cases varchar 255 h.advertisedHost <;> rfl

/-- A request that is no heartbeat. -/
theorem handle_registry_of_route (hok : WorkersOk db) (hroute : routeOf req ≠ some .heartbeat) :
    WorkersOk (handle cfg env db req).1 ∧
      (handle cfg env db req).1.registry = db.registry.hear cfg (.request env req) := by
  rw [hear_of_none (if_neg fun h => hroute h.1)]
  have hserved := handle_served cfg env db req
  cases hout : handle cfg env db req with
  | mk db' res =>
    rw [hout] at hserved
    cases hserved with
    | kept => exact ⟨hok, rfl⟩
    | @changed t _ _ hgrants happly _ =>
      subst happly
      exact SameEntries.registry (Txn.sameEntries cfg.numBuckets db (t := t)
        (fun ih ip ah ap free he => hroute (by subst he; exact hgrants.1)) (fun d he => by subst he; exact hgrants)) hok

/-- **One request**: the table hears what is let in. -/
theorem handle_registry (hok : WorkersOk db) : WorkersOk (handle cfg env db req).1 ∧
    (handle cfg env db req).1.registry = db.registry.hear cfg (.request env req) := by
  by_cases hroute : routeOf req = some .heartbeat
  · have hkept : ∀ res : HttpResponse, heard cfg env req = none → WorkersOk ((db, res) : Store × HttpResponse).1 ∧
        ((db, res) : Store × HttpResponse).1.registry = db.registry.hear cfg (.request env req) :=
      fun res hnone => ⟨hok, (hear_of_none hnone _).symm⟩
    have hhandle : handle cfg env db req = handleHeartbeat cfg env db req.clusterSecret req.body := by
      unfold handle
      rw [hroute]
    rw [hhandle, handleHeartbeat]
    split
    · rename_i hsecret
      exact hkept _ (if_neg fun h => hsecret h.2.1)
    rename_i hsecret
    rw [ne_eq, not_not] at hsecret
    split
    · rename_i hbody
      exact hkept _ (by simp [heard, hbody])
    · rename_i h hbody
      cases hup : env.dbUp with
      | false => exact hkept _ (if_neg fun hall => by rw [hup] at hall; exact Bool.false_ne_true hall.2.2)
      | true =>
        have hheard := heard_of_body hroute hsecret hup hbody
        cases hih : varchar 255 h.internalHost with
        | none =>
          rw [hih, Option.bind_none] at hheard
          simp only [reach, registerWorker, hih, if_true]
          exact hkept _ hheard
        | some ih =>
          cases hah : varchar 255 h.advertisedHost with
          | none =>
            rw [hih, hah, Option.bind_some, Option.map_none] at hheard
            simp only [reach, registerWorker, hih, hah, if_true]
            exact hkept _ hheard
          | some ah =>
            rw [hih, hah, Option.bind_some, Option.map_some] at hheard
            obtain ⟨db', hregister, hok', hnow, hreports⟩ := registerWorker_registry hok h.internalPort h.advertisedPort
              h.freeSpace hih hah
            simp only [reach, hregister, if_true, Except.mapError]
            refine ⟨hok', ?_⟩
            simp only [Registry.hear, hheard]
            show Registry.mk _ _ = Registry.mk _ _
            rw [hnow]
            exact congrArg (Registry.mk · db.now) hreports
  · exact handle_registry_of_route hok hroute

theorem stepApi_registry {e : MasterEvent} (hok : WorkersOk db) (hstep : stepApi cfg db e = some db') :
    WorkersOk db' ∧ db'.registry = db.registry.hear cfg e := by
  cases e with
  | request env req =>
    obtain rfl := Option.some.inj hstep
    exact handle_registry hok
  | background t =>
    simp only [stepApi] at hstep
    split at hstep
    · rename_i ht
      obtain rfl := Option.some.inj hstep
      have hother : (∀ ih ip ah ap free, t ≠ .registerWorker ih ip ah ap free) → (∀ d, t ≠ .tick d) →
          WorkersOk (t.apply cfg.numBuckets db) ∧ (t.apply cfg.numBuckets db).registry = db.registry :=
        fun hregister htick => SameEntries.registry (Txn.sameEntries cfg.numBuckets db hregister htick) hok
      cases t with
      | tick d => exact ⟨⟨hok.fresh, hok.once⟩, rfl⟩
      | getOrphanedChunks _ _ _ _ => exact hother (fun _ _ _ _ _ he => by cases he) fun _ he => by cases he
      | deleteChunkRecordsBulk _ => exact hother (fun _ _ _ _ _ he => by cases he) fun _ he => by cases he
      | revertTombstone _ => exact hother (fun _ _ _ _ _ he => by cases he) fun _ he => by cases he
      | _ => cases ht
    · cases hstep

theorem exec_registry {es : List MasterEvent} {db db' : Store} (hok : WorkersOk db)
    (hrun : exec (stepApi cfg) db es = some db') :
    WorkersOk db' ∧ db'.registry = es.foldl (Registry.hear cfg) db.registry := by
  induction es generalizing db with
  | nil =>
    obtain rfl := Option.some.inj hrun
    exact ⟨hok, rfl⟩
  | cons e es ih =>
    obtain ⟨db₁, hstep, hrun⟩ := exec_cons.1 hrun
    obtain ⟨hok₁, hregistry⟩ := stepApi_registry hok hstep
    rw [List.foldl_cons, ← hregistry]
    exact ih hok₁ hrun

/-- A worker that knows the secret of `sampleConfig`. -/
def sampleIdentity : WorkerIdentity := ⟨"w", "h", 9000, asciiText "c"⟩

/-- Two heartbeats, the second with no free space to report. -/
def sampleReports : List MasterEvent :=
  [.request (sampleCircumstances 0) (heartbeatRequest sampleIdentity (some 5)), .background (.tick 7),
    .request (sampleCircumstances 0) (heartbeatRequest sampleIdentity none)]

theorem heard_sample (available : Option Nat) :
    heard sampleConfig (sampleCircumstances 0) (heartbeatRequest sampleIdentity available) =
      some ⟨"w", 9000, "h", 9000, freeSpaceOf available⟩ := by
  have hroute : routeOf (heartbeatRequest sampleIdentity available) = some .heartbeat := rfl
  have hinternal : varchar 255 "w" = some "w" := by decide
  have hadvertised : varchar 255 "h" = some "h" := by decide
  rw [heard_of_body hroute rfl rfl (heartbeatOf_payload sampleIdentity available)]
  simp only [sampleIdentity, hinternal, hadvertised, Option.bind_some, Option.map_some]
  rfl

theorem hear_sample (r : Registry) (available : Option Nat) :
    (r.hear sampleConfig (.request (sampleCircumstances 0) (heartbeatRequest sampleIdentity available))).now = r.now ∧
      (r.hear sampleConfig (.request (sampleCircumstances 0) (heartbeatRequest sampleIdentity available))).reports
        ("w", 9000) = some ⟨"h", 9000, freeSpaceOf available, r.now⟩ := by
  simp only [Registry.hear, heard_sample, Function.update_self, and_self]

end StorageEngine
