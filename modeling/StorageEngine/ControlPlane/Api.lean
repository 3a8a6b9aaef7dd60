import StorageEngine.ControlPlane.Session
import StorageEngine.Lib.JsonTree
import StorageEngine.Metadata.Txn

/-!
# The master's HTTP interface

All routes of `MasterServer`, from the parsed request to the response and the store after it. What a request meets
besides the store is its `Circumstances`: the clock, the random bytes, the query plans, and whether the database can be
reached. PBKDF2 and the MAC are parameters. `none` for a header or a parameter is one that the request does not have.

| here | there (`MasterServer.hpp`) |
| --- | --- |
| `routeOf`                          | `RegisterRoutes` (`:48-84`); any other request is answered with 404 by `httplib` |
| `authorized`                       | the head of the handlers that call `AuthenticateUser` |
| `handleFileExists`, `handleDeleteFile` | `:87-131`; what they do not catch `httplib` answers with 500 |
| `handleHealthCheck`                | `:132-145` |
| `handleSignup`, `handleLogin`      | `:147-220`, `GenerateSalt`, `HashPasswordPBKDF2` (`common/crypto.hpp:193-230`) |
| `handleUploadInit`, `handleCommit` | `:222-301` |
| `handleDownloadPlan`               | `:303-362`; a `runtime_error` is a 404, and so are libpqxx's own |
| `handleHeartbeat`                  | `:364-394` |
| `handleAddCluster`, `handleReplaceCluster` | `:396-439` |
| `credentialsPayload`, `hashesPayload`, `commitPayload` | the bodies `MasterHttpClient` sends (`MasterHttpClient.cpp:16-125`) |
-/

namespace StorageEngine

open Json (Tree)

/-- The characters of the bytes. -/
def charText (bs : Bytes) : String := String.ofList (bs.map fun b => Char.ofNat b.toNat)

/-- What the server is started with, and the cryptography it calls. -/
structure MasterConfig where
  nodePort : Int
  numBuckets : Nat
  clusterSecret : Bytes
  sessionSecret : Bytes
  hmac : Bytes → Bytes → Bytes
  length_hmac : ∀ key data, (hmac key data).length = 32
  /-- 100000 rounds of HMAC-SHA256 over the password and the salt. -/
  pbkdf2 : Bytes → Bytes → Bytes
  length_pbkdf2 : ∀ password salt, (pbkdf2 password salt).length = 32

structure Circumstances where
  /-- `system_clock`, in seconds. -/
  clock : Int
  /-- `none` where `RAND_bytes` fails. -/
  randomBytes : Option { bs : Bytes // bs.length = 16 }
  dbUp : Bool
  dbVersion : String
  order : List Int
  order' : List Int
  bucketOrder : List Nat

/-- What the handlers read of `httplib::Request`. -/
structure HttpRequest where
  method : String
  path : String
  authorization : Option Bytes
  clusterSecret : Option Bytes
  filename : Option Bytes
  body : Bytes

/-- What they set of `httplib::Response`. -/
structure HttpResponse where
  status : Nat
  body : Bytes
deriving DecidableEq

/-- One handler each. -/
inductive Route where
  | healthCheck | signup | login | uploadInit | commit | downloadPlan | heartbeat | addCluster | replaceCluster
  | fileExists | deleteFile
deriving DecidableEq, Repr

/-- `RegisterRoutes` (`MasterServer.hpp:48-84`). -/
def routes : List ((String × String) × Route) :=
  [(("GET", "/"), .healthCheck), (("POST", "/auth/signup"), .signup), (("POST", "/auth/login"), .login),
   (("POST", "/upload-init"), .uploadInit), (("POST", "/files/commit"), .commit),
   (("GET", "/files/download-plan"), .downloadPlan), (("POST", "/heartbeat"), .heartbeat),
   (("POST", "/admin/cluster/add"), .addCluster), (("POST", "/admin/cluster/replace"), .replaceCluster),
   (("GET", "/files/exists"), .fileExists), (("DELETE", "/files"), .deleteFile)]

/-- A `HEAD` goes the way of a `GET`. -/
def routeOf (req : HttpRequest) : Option Route :=
  routes.lookup (if req.method = "HEAD" then "GET" else req.method, req.path)

/-- `R"({"error": "…"})"`. -/
def errorText (what : String) : Bytes := Json.utf8 ("\x7b\"error\": \"" ++ what ++ "\"\x7d")

/-- `dump()`. The values of this interface hold no floats. -/
def dump (t : Tree) : Bytes := Json.write .exact none 0 t

/-- A call of the repository; `none` is the failure to reach the database. -/
def reach {α : Type} (dbUp : Bool) (res : Except RepoError α) : Except (Option RepoError) α :=
  if dbUp then res.mapError some else .error none

section
variable (cfg : MasterConfig) (env : Circumstances) (db : Store)

/-- `HashPasswordPBKDF2` (`crypto.hpp:211-230`). -/
def hashPassword (password salt : String) : String :=
  charText (hexPrint (cfg.pbkdf2 (Json.utf8 password) (Json.utf8 salt)))

/-- `AuthenticateUser` on the request. -/
def userOf (req : HttpRequest) : Except (Nat × String) Int32 :=
  authenticateUser cfg.hmac req.authorization cfg.sessionSecret env.clock 0

def authorized (req : HttpRequest) (handler : Int → Store × HttpResponse) : Store × HttpResponse :=
  match userOf cfg env req with
  | .error (status, text) => (db, ⟨status, Json.utf8 text⟩)
  | .ok userId => handler userId.toInt

def handleFileExists (filename : Option Bytes) (userId : Int) : Store × HttpResponse :=
  match filename with
  | none => (db, ⟨400, []⟩)
  | some name =>
    match Json.decodeUtf8 name, env.dbUp with
    | some f, true => (db, ⟨200, dump (.obj [("exists", .bool (fileExists db userId f))])⟩)
    | _, _ => (db, ⟨500, []⟩)

def handleDeleteFile (filename : Option Bytes) (userId : Int) : Store × HttpResponse :=
  match filename with
  | none => (db, ⟨400, []⟩)
  | some name =>
    match Json.decodeUtf8 name, env.dbUp with
    | some f, true =>
      match deleteFile env.order db userId f with
      | (db', true) => (db', ⟨200, Json.utf8 "\x7b\"status\": \"success\", \"message\": \"File deleted.\"\x7d"⟩)
      | (db', false) => (db', ⟨404, errorText "File not found"⟩)
    | _, _ => (db, ⟨500, []⟩)

def handleHealthCheck : Store × HttpResponse :=
  if env.dbUp then
    (db, ⟨200, Json.utf8 ("Master Node OK. Port: " ++ toString cfg.nodePort ++ "\nDB: " ++ env.dbVersion)⟩)
  else (db, ⟨500, errorText "Database offline"⟩)

/-- The email and the password of a body. -/
def credentials (body : Bytes) : Option (String × String) := do
  let json ← Json.parse body
  let email ← json.at? "email"
  let password ← json.at? "password"
  return (← email.getString, ← password.getString)

def handleSignup (body : Bytes) : Store × HttpResponse :=
  match credentials body with
  | none => (db, ⟨400, errorText "Invalid JSON payload"⟩)
  | some (email, rawPassword) =>
    match env.randomBytes with
    | none => (db, ⟨500, errorText "Internal server error"⟩)
    | some bytes =>
      let salt := charText (hexPrint bytes.1)
      -- `CreateUser` catches what the database throws
      match if env.dbUp then createUser db email (hashPassword cfg rawPassword salt) salt else (db, false) with
      | (db', true) => (db', ⟨201, Json.utf8 "\x7b\"status\": \"success\"\x7d"⟩)
      | (db', false) => (db', ⟨409, errorText "Registration failed"⟩)

/-- The token of a login that succeeds. -/
def loginToken (email password : String) : Option Bytes :=
  let user := getUserByEmail db email
  if user.found && constantTimeEquals (Json.utf8 (hashPassword cfg password user.salt)) (Json.utf8 user.passwordHash) then
    some (generateSessionToken cfg.hmac (Int32.ofInt user.id) cfg.sessionSecret env.clock)
  else none

def handleLogin (body : Bytes) : Store × HttpResponse :=
  match credentials body with
  | none => (db, ⟨400, []⟩)
  | some (email, password) =>
    if !env.dbUp then (db, ⟨500, []⟩)
    else
      match loginToken cfg env db email password with
      | some token => (db, ⟨200, dump (.obj [("status", .str "success"), ("token", .str (charText token))])⟩)
      | none => (db, ⟨401, errorText "Invalid credentials"⟩)

/-- `assigned_nodes` of a plan, one node. -/
def nodeJson (node : NodeInfo) : Tree :=
  .obj [("advertised_host", .str node.advertisedHost), ("advertised_port", .int node.advertisedPort)]

/-- A plan in the answer of `HandleUploadInit` and of `HandleDownloadPlan`. -/
def planJson (plan : ChunkRoutingPlan) : Tree :=
  .obj [("assigned_nodes", .arr (plan.assignedNodes.map nodeJson)), ("hash", .str plan.hash)]

/-- What `HandleUploadInit` takes out of its body. -/
def hashesOf (body : Bytes) : Option (List String) := do
  let json ← Json.parse body
  (← json.at? "hashes").getStrings

def handleUploadInit (body : Bytes) : Store × HttpResponse :=
  match hashesOf body with
  | none => (db, ⟨400, []⟩)
  | some clientHashes =>
    match reach env.dbUp (filterMissingChunks cfg.numBuckets db clientHashes) with
    | .ok (db', missing) =>
      (db', ⟨200, dump (.obj [("missing_hashes", .arr (missing.map planJson)), ("status", .str "success")])⟩)
    | .error (some .chunkLocked) => (db, ⟨423, errorText "Resource locked. Retry."⟩)
    | .error _ => (db, ⟨500, []⟩)

/-- The name, the size and the hashes of a body. -/
def commitOf (body : Bytes) : Option (String × Int × List String) := do
  let json ← Json.parse body
  let filename ← json.at? "filename"
  let fileSize ← json.at? "file_size"
  let chunkHashes ← json.at? "chunk_hashes"
  return (← filename.getString, ← fileSize.getWrapped 64, ← chunkHashes.getStrings)

def handleCommit (body : Bytes) (userId : Int) : Store × HttpResponse :=
  match commitOf body with
  | none => (db, ⟨400, []⟩)
  | some (filename, fileSize, chunkHashes) =>
    match reach env.dbUp (commitFile db userId filename fileSize chunkHashes) with
    | .ok db' => (db', ⟨200, Json.utf8 "\x7b\"status\": \"success\"\x7d"⟩)
    | .error _ => (db, ⟨500, []⟩)

def handleDownloadPlan (filename : Option Bytes) (userId : Int) : Store × HttpResponse :=
  match filename with
  | none => (db, ⟨400, errorText "Missing filename parameter"⟩)
  | some name =>
    match Json.decodeUtf8 name with
    | none => (db, ⟨404, errorText "File not found or access denied"⟩)
    | some f =>
      match reach env.dbUp (getDownloadPlan env.order env.order' db userId f) with
      | .ok manifest =>
        (db, ⟨200, dump (.obj [("chunks", .arr (manifest.plans.map planJson)), ("file_size", .int manifest.fileSize),
          ("status", .str "success")])⟩)
      | .error _ => (db, ⟨404, errorText "File not found or access denied"⟩)

/-- The body of a heartbeat. -/
structure Heartbeat where
  internalHost : String
  internalPort : Int
  advertisedHost : String
  advertisedPort : Int
  freeSpace : Int
deriving DecidableEq

/-- What `HandleHeartbeat` takes out of its body. -/
def heartbeatOf (body : Bytes) : Option Heartbeat := do
  let json ← Json.parse body
  let internalHost ← (← json.at? "internal_host").getString
  let internalPort ← (← json.at? "internal_port").getWrapped 32
  let advertisedHost ← (← json.at? "advertised_host").getString
  let advertisedPort ← (← json.at? "advertised_port").getWrapped 32
  let freeSpace ← (← json.at? "free_space").getWrapped 64
  return ⟨internalHost, internalPort, advertisedHost, advertisedPort, freeSpace⟩

def handleHeartbeat (clusterSecret : Option Bytes) (body : Bytes) : Store × HttpResponse :=
  if clusterSecret ≠ some cfg.clusterSecret then (db, ⟨401, []⟩)
  else
    match heartbeatOf body with
    | none => (db, ⟨400, []⟩)
    | some h =>
      match reach env.dbUp
          (registerWorker db h.internalHost h.internalPort h.advertisedHost h.advertisedPort h.freeSpace) with
      | .ok db' => (db', ⟨200, []⟩)
      | .error _ => (db, ⟨500, []⟩)

/-- The name and the nodes of a new cluster. -/
def clusterOf (body : Bytes) : Option (String × List Int) := do
  let json ← Json.parse body
  let clusterName ← json.at? "cluster_name"
  let activeNodeIds ← json.at? "active_node_ids"
  return (← clusterName.getString, ← activeNodeIds.getWrappeds 32)

def handleAddCluster (body : Bytes) : Store × HttpResponse :=
  match clusterOf body with
  | none => (db, ⟨500, errorText "Failed to integrate cluster"⟩)
  | some (clusterName, activeNodeIds) =>
    match reach env.dbUp (addCluster cfg.numBuckets env.bucketOrder db clusterName activeNodeIds) with
    | .ok db' => (db', ⟨200, Json.utf8 "\x7b\"status\": \"Load distributed successfully.\"\x7d"⟩)
    | .error _ => (db, ⟨500, errorText "Failed to integrate cluster"⟩)

/-- What `HandleReplaceCluster` takes out of its body. -/
def replacementOf (body : Bytes) : Option (Int × List Int) := do
  let json ← Json.parse body
  let clusterId ← json.at? "cluster_id"
  let newWorkerIds ← json.at? "new_worker_ids"
  return (← clusterId.getWrapped 32, ← newWorkerIds.getWrappeds 32)

def handleReplaceCluster (body : Bytes) : Store × HttpResponse :=
  match replacementOf body with
  | none => (db, ⟨500, errorText "Failed to execute in-place cluster replacement"⟩)
  | some (clusterId, newWorkerIds) =>
    match reach env.dbUp (replaceCluster db clusterId newWorkerIds) with
    | .ok db' =>
      (db', ⟨200, dump (.obj [("message", .str "Cluster nodes replaced in-place. Former nodes marked READ_ONLY."),
        ("status", .str "success")])⟩)
    | .error _ => (db, ⟨500, errorText "Failed to execute in-place cluster replacement"⟩)

/-- The handler of the route; no route is 404. -/
def handle (req : HttpRequest) : Store × HttpResponse :=
  match routeOf req with
  | none => (db, ⟨404, []⟩)
  | some .healthCheck => handleHealthCheck cfg env db
  | some .signup => handleSignup cfg env db req.body
  | some .login => handleLogin cfg env db req.body
  | some .uploadInit => authorized cfg env db req fun _ => handleUploadInit cfg env db req.body
  | some .commit => authorized cfg env db req fun userId => handleCommit env db req.body userId
  | some .downloadPlan => authorized cfg env db req fun userId => handleDownloadPlan env db req.filename userId
  | some .heartbeat => handleHeartbeat cfg env db req.clusterSecret req.body
  | some .addCluster => handleAddCluster cfg env db req.body
  | some .replaceCluster => handleReplaceCluster env db req.body
  | some .fileExists => authorized cfg env db req fun userId => handleFileExists env db req.filename userId
  | some .deleteFile => authorized cfg env db req fun userId => handleDeleteFile env db req.filename userId

end

/-! ## Tokens -/

/-- A token the master has issued is good for a day. -/
theorem userOf_generate {cfg : MasterConfig} {env : Circumstances} {req : HttpRequest} {u : Int32} {time : Int}
    (htoken : req.authorization = some (asciiText "Bearer " ++ generateSessionToken cfg.hmac u cfg.sessionSecret time))
    (htime : ClockTime time) (hnow : env.clock ≤ time + 86400) : userOf cfg env req = .ok u := by
  refine authenticateUser_ok.2 ⟨_, htoken, ?_⟩
  have haccepted := (verify_generate cfg.length_hmac cfg.sessionSecret env.clock 0 u u htime (Or.inl rfl)).2 ⟨hnow, rfl⟩
  rwa [List.append_nil] at haccepted

/-! ## Payloads -/

def credentialsPayload (email password : String) : Bytes := dump (.obj [("email", .str email), ("password", .str password)])

def hashesPayload (chunkHashes : List String) : Bytes := dump (.obj [("hashes", Tree.strs chunkHashes)])

def commitPayload (filename : String) (fileSize : Int) (chunkHashes : List String) : Bytes :=
  dump (.obj [("chunk_hashes", Tree.strs chunkHashes), ("file_size", .int fileSize), ("filename", .str filename)])

@[simp] theorem parse_dump (t : Tree) : Json.parse (dump t) = some t := Json.parse_write .exact none t

@[simp] theorem credentials_payload (email password : String) :
    credentials (credentialsPayload email password) = some (email, password) := by
  simp [credentials, credentialsPayload, Tree.at?, Tree.getString, List.lookup_cons]

@[simp] theorem hashesOf_payload (chunkHashes : List String) : hashesOf (hashesPayload chunkHashes) = some chunkHashes := by
  simp [hashesOf, hashesPayload, Tree.at?]

@[simp] theorem commitOf_payload (filename : String) (fileSize : Int) (chunkHashes : List String) :
    commitOf (commitPayload filename fileSize chunkHashes) = some (filename, fileSize.bmod (2 ^ 64), chunkHashes) := by
  simp [commitOf, commitPayload, Tree.at?, Tree.getString, Json.getWrapped_int, List.lookup_cons]

end StorageEngine
