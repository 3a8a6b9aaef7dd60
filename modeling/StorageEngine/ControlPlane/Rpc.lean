import StorageEngine.ControlPlane.Access
import StorageEngine.ControlPlane.FileNames
import StorageEngine.ControlPlane.Uploads
import StorageEngine.Metadata.Placement

/-!
# The client's calls of the master

A call of `MasterHttpClient` writes a request, the master's handler reads it, and the client reads the response. Between
the two lie the query of the URL, JSON, and numbers that are cut to the width of the variable they are read into. Main
theorem `callMaster_eq`: in every state that requests can lead to, a call with a good token comes to what the repository
does and returns, and to what `serveMaster` says (`Uploads`), where the name in it stands for itself in a query
(`FileNames`).

| here | there (`MasterHttpClient.cpp`) |
| --- | --- |
| `httpRequest`   | the request of `InitializeUpload`, `CommitFile`, `GetDownloadPlan`, `FileExists`, `RemoveFile` |
| `readNode`, `readPlan` | the bodies of the loops (`:89-103`, `:147-161`) |
| `readAnswer`    | what a call returns, `readBody` where the status is 200; `thrown` is any exception that leaves it |
| `callMaster`    | a call whose request and response arrive |
-/

namespace StorageEngine

open Relational Transition
open Json (Tree)

/-- A method of `MasterHttpClient` with its arguments. -/
inductive ClientCall where
  | initializeUpload (chunkHashes : List String)
  | commitFile (filename : String) (fileSize : Int64) (chunkHashes : List String)
  | getDownloadPlan (filename : String)
  | fileExists (filename : String)
  | removeFile (filename : String)
deriving DecidableEq

/-- What a method returns, or that it throws. -/
inductive ClientAnswer where
  | plans (plans : List ChunkRoutingPlan)
  | manifest (manifest : FileDownloadManifest)
  | result (ok : Bool)
  | thrown
deriving DecidableEq

/-! ## On the wire -/

/-- The `Authorization` header (`MasterHttpClient.cpp:71`). -/
def bearer (token : Bytes) : Option Bytes := some (asciiText "Bearer " ++ token)

def httpRequest (token : Bytes) : ClientCall → HttpRequest
  | .initializeUpload hs => ⟨"POST", "/upload-init", bearer token, none, none, hashesPayload hs⟩
  | .commitFile f size hs => ⟨"POST", "/files/commit", bearer token, none, none, commitPayload f size.toInt hs⟩
  | .getDownloadPlan f =>
    ⟨"GET", "/files/download-plan", bearer token, none, handlerReceives .downloadPlan (Json.utf8 f), []⟩
  | .fileExists f => ⟨"GET", "/files/exists", bearer token, none, handlerReceives .exists (Json.utf8 f), []⟩
  | .removeFile f => ⟨"DELETE", "/files", bearer token, none, handlerReceives .delete (Json.utf8 f), []⟩

/-- `operator[]` of what may be changed: a key that is not there is `null`, and so is what is no object yet. -/
def indexOrNull (t : Tree) (key : String) : Option Tree :=
  match t with
  | .obj _ => some ((t.at? key).getD .null)
  | .null => some .null
  | _ => none

/-- What a `for` over a value visits. -/
def elements : Tree → List Tree
  | .arr items => items
  | .obj members => members.map Prod.snd
  | .null => []
  | t => [t]

def readNode (t : Tree) : Option NodeInfo := do
  let host ← (← t.at? "advertised_host").getString
  let port ← (← t.at? "advertised_port").getWrapped 32
  return ⟨host, port⟩

def readPlan (t : Tree) : Option ChunkRoutingPlan := do
  let hash ← (← t.at? "hash").getString
  let nodes ← (elements (← t.at? "assigned_nodes")).mapM readNode
  return ⟨hash, nodes⟩

/-- The plans under a key of the response. -/
def readPlans (key : String) (json : Tree) : Option (List ChunkRoutingPlan) := do
  (elements (← indexOrNull json key)).mapM readPlan

/-- What `GetDownloadPlan` reads of the response. -/
def manifestOf (json : Tree) : Option FileDownloadManifest := do
  let fileSize ← (← indexOrNull json "file_size").getWrapped 64
  return ⟨fileSize, ← readPlans "chunks" json⟩

/-- Without a response of status 200 two calls throw, and the others say no. -/
def failed : ClientCall → ClientAnswer
  | .initializeUpload _ | .getDownloadPlan _ => .thrown
  | .commitFile .. | .fileExists _ | .removeFile _ => .result false

def readBody (call : ClientCall) (body : Bytes) : ClientAnswer :=
  match call with
  | .initializeUpload _ => (((Json.parse body).bind (readPlans "missing_hashes")).map ClientAnswer.plans).getD .thrown
  | .getDownloadPlan _ => (((Json.parse body).bind manifestOf).map ClientAnswer.manifest).getD .thrown
  | .fileExists _ =>
    (((Json.parse body).bind fun json => (indexOrNull json "exists").bind Tree.getBool).map ClientAnswer.result).getD .thrown
  | .commitFile .. | .removeFile _ => .result true

/-- The response is `none` where the master cannot be reached. -/
def readAnswer (call : ClientCall) : Option HttpResponse → ClientAnswer
  | some res => if res.status = 200 then readBody call res.body else failed call
  | none => failed call

def callMaster (cfg : MasterConfig) (env : Circumstances) (db : Store) (token : Bytes) (call : ClientCall) :
    Store × ClientAnswer :=
  let out := handle cfg env db (httpRequest token call)
  (out.1, readAnswer call (some out.2))

/-- The route the method asks for. -/
def ClientCall.route : ClientCall → Route
  | .initializeUpload _ => .uploadInit
  | .commitFile .. => .commit
  | .getDownloadPlan _ => .downloadPlan
  | .fileExists _ => .fileExists
  | .removeFile _ => .deleteFile

/-- The name that goes into the query of the URL. -/
def ClientCall.queryName : ClientCall → Option String
  | .getDownloadPlan f | .fileExists f | .removeFile f => some f
  | .initializeUpload _ | .commitFile .. => none

/-! ## Without a network -/

/-- What the method makes of what the master answers. -/
def answerOf (call : ClientCall) : MasterResponse → ClientAnswer
  | .found present => .result present
  | .plans ps => .plans ps
  | .success => .result true
  | .refused => failed call

section
variable (n : Nat) (env : Circumstances) (db : Store)

/-- A call without HTTP: the request of `Uploads.lean` at the master. -/
def served (call : ClientCall) (req : MasterRequest) : Store × ClientAnswer :=
  let out := serveMaster n env.order db req
  (out.1, answerOf call out.2)

/-- What a call of an account comes to with nothing between client and repository. -/
def callRepository (u : Int) (call : ClientCall) : Store × ClientAnswer :=
  match call with
  | .initializeUpload hs => served n env db call (.uploadInit hs)
  | .commitFile f size hs => served n env db call (.commit u f size.toInt hs)
  | .fileExists f => served n env db call (.fileExists u (some f))
  | .removeFile f => served n env db call (.deleteFile u (some f))
  | .getDownloadPlan f =>
    match getDownloadPlan env.order env.order' db u f with
    | .ok manifest => (db, .manifest manifest)
    | .error _ => (db, .thrown)

end

/-! ## Numbers that fit -/

/-- A number that `w` bits hold. -/
def Fits (w : Nat) (i : Int) : Prop := i.bmod (2 ^ w) = i

instance (w : Nat) (i : Int) : Decidable (Fits w i) := inferInstanceAs (Decidable (_ = _))

theorem fits_toInt (size : Int64) : Fits 64 size.toInt := by
  have h := Int64.toInt_ofInt (n := size.toInt)
  rw [Int64.ofInt_toInt] at h
  exact h.symm

/-- Every number a response is made of fits the variable it is read into. -/
structure WireOk (db : Store) : Prop where
  ports : ∀ id w, db.workers.get? id = some w → Fits 32 w.advertisedPort
  sizes : ∀ id r, db.files.get? id = some r → Fits 64 r.size

theorem wireOk_empty : WireOk .empty := ⟨fun _ _ h => (by cases h), fun _ _ h => (by cases h)⟩

/-- The machines of a response are reached where their ports fit. -/
def portsFit : Addresses Bool := ⟨fun _ => true, fun node => decide (Fits 32 node.advertisedPort)⟩

theorem addressed_portsFit {db : Store} :
    Addressed portsFit db ↔ ∀ id w, db.workers.get? id = some w → Fits 32 w.advertisedPort := by
  simp only [Addressed, portsFit, decide_eq_true_eq]

section
variable {cfg : MasterConfig} {env : Circumstances} {db db' : Store}

theorem fits_of_getWrapped {w : Nat} {t : Tree} {i : Int} (hw : 1 < w) (h : t.getWrapped w = some i) : Fits w i :=
  Json.bmod_getWrapped hw h

/-- Handlers cut the numbers of a body to their width. -/
theorem fits_of_heartbeat {body : Bytes} {h : Heartbeat} (hbody : heartbeatOf body = some h) : Fits 32 h.advertisedPort := by
  simp only [heartbeatOf, Option.bind_eq_bind, Option.bind_eq_some_iff, Option.pure_def, Option.some.injEq] at hbody
  obtain ⟨_, -, _, -, _, -, _, -, _, -, _, -, _, -, _, -, port, hport, _, -, _, -, rfl⟩ := hbody
  exact fits_of_getWrapped (by decide) hport

theorem fits_of_commit {body : Bytes} {f : String} {size : Int} {hs : List String} (hbody : commitOf body = some (f, size, hs)) :
    Fits 64 size := by
  simp only [commitOf, Option.bind_eq_bind, Option.bind_eq_some_iff, Option.pure_def, Option.some.injEq] at hbody
  obtain ⟨_, -, _, -, _, -, _, -, _, -, size, hsize, _, -, he⟩ := hbody
  cases he
  exact fits_of_getWrapped (by decide) hsize

/-- A transaction whose numbers fit. -/
def FitsWire : Txn → Prop
  | .registerWorker _ _ _ advertisedPort _ => Fits 32 advertisedPort
  | .commitFile _ _ size _ => Fits 64 size
  | _ => True

theorem fitsWire_of_grants {req : HttpRequest} {t : Txn} (h : Grants cfg env req t) : FitsWire t := by
  cases t with
  | registerWorker => exact fits_of_heartbeat h.2.2
  | commitFile => exact fits_of_commit h.2.2
  | _ => trivial

theorem fitsWire_of_inBackground {t : Txn} (h : t.inBackground = true) : FitsWire t := by
  cases t <;> trivial

theorem WireOk.apply {n : Nat} (h : WireOk db) {t : Txn} (ht : FitsWire t) : WireOk (t.apply n db) where
  ports := by
    refine addressed_portsFit.1 (t.addressed n db ?_ (addressed_portsFit.2 h.ports))
    cases t with
    | registerWorker => exact fun _ _ _ _ => decide_eq_true ht
    | _ => trivial
  sizes id r hr := by
    by_cases hcounts : t.counts = true
    · cases t.storeStep n db with
      | quiet hquiet => exact h.sizes id r (hquiet.files ▸ hr)
      | commit heffect =>
        obtain ⟨-, hfresh, arr, name, -, -, heq⟩ := heffect
        rw [heq] at hr
        simp only [Table.get?_insertNew, hfresh, Option.getD_none] at hr
        split at hr
        · obtain rfl := Option.some.inj hr
          exact ht
        · exact h.sizes id r hr
      | delete _ heffect =>
        rw [heffect.get?_files, Option.filter_eq_some_iff] at hr
        exact h.sizes id r hr.1
      | _ => cases hcounts
    · rw [(t.storeStep n db).files_other (by simpa using hcounts)] at hr
      exact h.sizes id r hr

theorem WireOk.stepApi {e : MasterEvent} (h : WireOk db) (hstep : stepApi cfg db e = some db') : WireOk db' := by
  cases e with
  | background t =>
    simp only [StorageEngine.stepApi] at hstep
    split at hstep
    · rename_i ht
      obtain rfl := Option.some.inj hstep
      exact h.apply (fitsWire_of_inBackground ht)
    · cases hstep
  | request env req =>
    rcases stepApi_txn hstep with rfl | ⟨t, rfl, -, hgrants⟩
    · exact h
    · exact h.apply (fitsWire_of_grants (hgrants env req rfl))

theorem exec_wireOk {es : List MasterEvent} (hrun : exec (StorageEngine.stepApi cfg) .empty es = some db) : WireOk db :=
  exec_inv (fun _ _ _ h hstep => h.stepApi hstep) wireOk_empty hrun

/-! ## Plans -/

/-- Every port is an `int`. -/
def PlansFit (plans : List ChunkRoutingPlan) : Prop :=
  ∀ plan ∈ plans, ∀ node ∈ plan.assignedNodes, Fits 32 node.advertisedPort

theorem WireOk.nodeData (h : WireOk db) {nodes : List Int} {ns : List NodeInfo} (hns : nodeData db nodes = some ns) :
    ∀ node ∈ ns, Fits 32 node.advertisedPort := by
  unfold StorageEngine.nodeData at hns
  split at hns
  · cases hns
  · rename_i ws hne
    obtain rfl := Option.some.inj hns
    intro node hnode
    obtain ⟨w, hw, rfl⟩ := List.mem_map.1 hnode
    obtain ⟨id, -, hget⟩ := mem_workersOf.1 hw
    exact h.ports id w hget

theorem filterMissingOne_nodes {n : Nat} {hash : String} {plan : ChunkRoutingPlan}
    (h : filterMissingOne n db hash = .ok (db', some plan)) : ∃ nodes, nodeData db nodes = some plan.assignedNodes := by
  unfold filterMissingOne at h
  split at h
  · simp only at h
    split at h
    · cases h
    split at h
    · cases h
    rename_i nodes hnodes
    split at h <;> cases h
    exact ⟨_, hnodes⟩
  · split at h
    · cases h
    simp only at h
    split at h
    · split at h
      · cases h
      · rename_i nodes hnodes
        cases h
        exact ⟨_, hnodes⟩
    · cases h

theorem WireOk.filterMissingChunks {n : Nat} : ∀ {hashes : List String} {db db' : Store} {plans : List ChunkRoutingPlan},
    WireOk db → filterMissingChunks n db hashes = .ok (db', plans) → PlansFit plans
  | [], db, db', plans, h, hok => by
    cases hok
    exact fun _ hm => by cases hm
  | hash :: rest, db, db', plans, h, hok => by
    obtain ⟨db₁, plan, tail, hone, hrest, rfl⟩ := filterMissingChunks_cons.1 hok
    have hframe := (filterMissingOne_spec hone).1.frame
    have h₁ : WireOk db₁ := ⟨by rw [hframe]; exact h.ports, by rw [hframe]; exact h.sizes⟩
    intro p hp
    rcases List.mem_append.1 hp with hp | hp
    · obtain rfl := Option.mem_toList.1 hp
      obtain ⟨nodes, hnodes⟩ := filterMissingOne_nodes hone
      exact h.nodeData hnodes
    · exact WireOk.filterMissingChunks h₁ hrest p hp

theorem WireOk.getDownloadPlan {order order' : List Int} {u : Int} {f : String} {manifest : FileDownloadManifest}
    (h : WireOk db) (hok : getDownloadPlan order order' db u f = .ok manifest) :
    Fits 64 manifest.fileSize ∧ PlansFit manifest.plans := by
  unfold StorageEngine.getDownloadPlan at hok
  split at hok
  · cases hok
  rename_i first rest hrows
  cases hok
  constructor
  · have hfirst : first ∈ fileRows order db u f := hrows ▸ List.mem_cons_self
    obtain ⟨id, hget, -⟩ := mem_fileRows.1 hfirst
    exact h.sizes id first hget
  · intro plan hplan
    obtain ⟨e, he, rfl⟩ := List.mem_map.1 hplan
    obtain ⟨row, -, hrow⟩ := List.mem_flatMap.1 ((List.mem_insertionSort _).1 he)
    obtain ⟨x, -, hx⟩ := List.mem_filterMap.1 hrow
    obtain ⟨hash, -, hx⟩ := Option.bind_eq_some_iff.1 hx
    obtain ⟨c, -, rfl⟩ := Option.map_eq_some_iff.1 hx
    intro node hnode
    simp only [parseNodePlan] at hnode
    cases hnodes : StorageEngine.nodeData db c.nodes with
    | none =>
      rw [hnodes] at hnode
      cases hnode
    | some ns =>
      rw [hnodes] at hnode
      exact h.nodeData hnodes node hnode

theorem getWrapped_int {w : Nat} {i : Int} (hw : w ≤ 64) (h : Fits w i) : (Tree.int i).getWrapped w = some i := by
  rw [Json.getWrapped_int hw, h]

theorem readNode_nodeJson {node : NodeInfo} (h : Fits 32 node.advertisedPort) : readNode (nodeJson node) = some node := by
  simp [readNode, nodeJson, Tree.at?, Tree.getString, List.lookup_cons, getWrapped_int (by decide) h]

theorem readPlan_planJson {plan : ChunkRoutingPlan} (h : ∀ node ∈ plan.assignedNodes, Fits 32 node.advertisedPort) :
    readPlan (planJson plan) = some plan := by
  have hnodes := Json.mapM_write fun node hnode => readNode_nodeJson (h node hnode)
  simp [readPlan, planJson, Tree.at?, Tree.getString, List.lookup_cons, elements, hnodes]

theorem mapM_readPlan {plans : List ChunkRoutingPlan} (h : PlansFit plans) : (plans.map planJson).mapM readPlan = some plans :=
  Json.mapM_write fun plan hplan => readPlan_planJson (h plan hplan)

/-! ## The calls -/

variable {token : Bytes} {id : Int32}

/-- A call whose token is accepted reaches its handler. -/
theorem handle_httpRequest {call : ClientCall} (haccepted : userOf cfg env (httpRequest token call) = .ok id) :
    handle cfg env db (httpRequest token call) =
      match call with
      | .initializeUpload hs => handleUploadInit cfg env db (hashesPayload hs)
      | .commitFile f size hs => handleCommit env db (commitPayload f size.toInt hs) id.toInt
      | .getDownloadPlan f => handleDownloadPlan env db (handlerReceives .downloadPlan (Json.utf8 f)) id.toInt
      | .fileExists f => handleFileExists env db (handlerReceives .exists (Json.utf8 f)) id.toInt
      | .removeFile f => handleDeleteFile env db (handlerReceives .delete (Json.utf8 f)) id.toInt := by
  have hroute : routeOf (httpRequest token call) = some call.route := by cases call <;> rfl
  rw [handle, hroute]
  cases call <;> simp only [ClientCall.route, authorized, haccepted] <;> rfl

/-- A name that stands for itself in a query reaches the handler. -/
theorem decode_handlerReceives {f : String} (h : QueryName (Json.utf8 f)) (call : NameCall) :
    ∃ name, handlerReceives call (Json.utf8 f) = some name ∧ Json.decodeUtf8 name = some f :=
  ⟨_, h.received call, Json.decodeUtf8_utf8 f⟩

theorem callMaster_accepted {call : ClientCall} (hok : WireOk db) (hup : env.dbUp = true)
    (hname : ∀ f ∈ call.queryName, QueryName (Json.utf8 f))
    (haccepted : userOf cfg env (httpRequest token call) = .ok id) :
    callMaster cfg env db token call = callRepository cfg.numBuckets env db id.toInt call := by
  rw [callMaster, handle_httpRequest haccepted]
  cases call with
  | initializeUpload hs =>
    simp only [callRepository, served, serveMaster, handleUploadInit, hashesOf_payload, hup, reach]
    cases hres : filterMissingChunks cfg.numBuckets db hs with
    | ok out =>
      obtain ⟨db', plans⟩ := out
      have hplans := mapM_readPlan (hok.filterMissingChunks hres)
      simp [Except.mapError, readAnswer, readBody, readPlans, indexOrNull, Tree.at?, List.lookup_cons, elements, hplans, answerOf]
    | error e => cases e <;> rfl
  | commitFile f size hs =>
    have hsize : size.toInt.bmod (2 ^ 64) = size.toInt := fits_toInt size
    simp only [callRepository, served, serveMaster, handleCommit, commitOf_payload, hup, reach, hsize]
    cases hres : commitFile db id.toInt f size.toInt hs with
    | ok db' => rfl
    | error e => rfl
  | getDownloadPlan f =>
    obtain ⟨name, hreceived, hdecode⟩ := decode_handlerReceives (hname f rfl) .downloadPlan
    simp only [callRepository, handleDownloadPlan, hreceived, hdecode, hup, reach]
    cases hres : getDownloadPlan env.order env.order' db id.toInt f with
    | ok manifest =>
      obtain ⟨hsize, hfit⟩ := hok.getDownloadPlan hres
      have hplans := mapM_readPlan hfit
      have hsize := getWrapped_int (by decide) hsize
      simp [Except.mapError, readAnswer, readBody, manifestOf, readPlans, indexOrNull, Tree.at?, List.lookup_cons, elements,
        hplans, hsize]
    | error e => rfl
  | fileExists f =>
    obtain ⟨name, hreceived, hdecode⟩ := decode_handlerReceives (hname f rfl) .exists
    simp only [callRepository, served, serveMaster, handleFileExists, hreceived, hdecode, hup]
    simp [readAnswer, readBody, indexOrNull, Tree.at?, Tree.getBool, answerOf]
  | removeFile f =>
    obtain ⟨name, hreceived, hdecode⟩ := decode_handlerReceives (hname f rfl) .delete
    simp only [callRepository, served, serveMaster, handleDeleteFile, hreceived, hdecode, hup]
    rcases deleteFile env.order db id.toInt f with ⟨db', deleted⟩
    cases deleted <;> rfl

/-- Without the database no call does anything. -/
theorem callMaster_offline {call : ClientCall} (hdown : env.dbUp = false)
    (haccepted : userOf cfg env (httpRequest token call) = .ok id) : callMaster cfg env db token call = (db, failed call) := by
  rw [callMaster, handle_httpRequest haccepted]
  cases call with
  | initializeUpload hs =>
    simp only [handleUploadInit, hashesOf_payload, hdown]
    rfl
  | commitFile f size hs =>
    simp only [handleCommit, commitOf_payload, hdown]
    rfl
  | getDownloadPlan f =>
    simp only [handleDownloadPlan, hdown]
    cases handlerReceives .downloadPlan (Json.utf8 f) with
    | none => rfl
    | some name =>
      simp only
      cases Json.decodeUtf8 name <;> rfl
  | fileExists f =>
    simp only [handleFileExists, hdown]
    cases handlerReceives .exists (Json.utf8 f) with
    | none => rfl
    | some name =>
      simp only
      cases Json.decodeUtf8 name <;> rfl
  | removeFile f =>
    simp only [handleDeleteFile, hdown]
    cases handlerReceives .delete (Json.utf8 f) with
    | none => rfl
    | some name =>
      simp only
      cases Json.decodeUtf8 name <;> rfl

theorem callMaster_unauthorized {call : ClientCall} {e : Nat × String}
    (hrefused : userOf cfg env (httpRequest token call) = .error e) :
    callMaster cfg env db token call = (db, failed call) := by
  have hroute : routeOf (httpRequest token call) = some call.route := by cases call <;> rfl
  have hstatus : e.1 ≠ 200 := by rw [authenticateUser_error hrefused]; decide
  obtain ⟨status, text⟩ := e
  rw [callMaster, handle, hroute]
  cases call <;> simp only [ClientCall.route, authorized, hrefused, readAnswer, if_neg hstatus]

end

/-! ## One call -/

/-- A worker that fills the registry. -/
def sampleHeartbeat : HttpRequest :=
  ⟨"POST", "/heartbeat", none, some sampleConfig.clusterSecret, none, dump (.obj [("internal_host", .str "w"),
    ("internal_port", .int 9000), ("advertised_host", .str "h"), ("advertised_port", .int 9000), ("free_space", .int 5)])⟩

end StorageEngine
