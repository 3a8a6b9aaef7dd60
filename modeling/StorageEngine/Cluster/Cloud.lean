import StorageEngine.Client.DownloadFile
import StorageEngine.ControlPlane.FileNames
import StorageEngine.Lib.Transition
import StorageEngine.Metadata.ReadBack

/-!
# Upload attempts against the system

One client, the metadata store, and the chunk files of the workers. An attempt is a call of `UploadFile` on a file
that does not change; the master answers from the store, a worker with its handler. A request may be lost, or carried
out with its answer lost. What the client's own disk and clock do is left open, as is what the transfer does.

Chunks of the file are found again in a state that is reached: what is counted, logged or committed is on a listed
worker (`CloudInv`).

| here | there |
| --- | --- |
| `askExists`, `askPlan`, `sendCommit` | `MasterHttpClient.cpp:105-175` with `MasterServer.hpp:88-106`, `:274-338` |
| `afterInit`                          | the store after `POST /upload/init`: a call that fails is rolled back |
| `CloudAttempt`, `stepCloud`          | one `UploadFile` (`DSEClient.cpp:63-326`) |
-/

namespace StorageEngine

open Extent Relational

/-! ## The master's answers -/

/-- The text of a name of ASCII characters. -/
def nameText (name : Bytes) : String := String.ofList (name.map fun c => Char.ofNat c.toNat)

/-- Anything but a 200 counts as `false`. -/
def askExists (db : Store) (userId : Int) (name : String) : Bool :=
  (handlerReceives .exists (asciiText name)).any fun n => fileExists db userId (nameText n)

def askPlan (order order' : List Int) (db : Store) (userId : Int) (name : String) : Option FileDownloadManifest :=
  (handlerReceives .downloadPlan (asciiText name)).bind fun n =>
    (getDownloadPlan order order' db userId (nameText n)).toOption

def sendCommit (json : JsonText) (db : Store) (userId : Int) (name : String) (size : Int) (hashes : List String) :
    Option Store :=
  (commitReceives json (asciiText name)).bind fun n => (commitFile db userId (nameText n) size hashes).toOption

def afterInit (numBuckets : Nat) (db : Store) (hashes : List String) : Store :=
  match filterMissingChunks numBuckets db hashes with
  | .ok (db', _) => db'
  | .error _ => db

/-! ## Attempts -/

/-- A request does not arrive, or its answer does not, or both do. -/
inductive Delivery where
  | lost | unanswered | answered
deriving DecidableEq, Repr

structure CloudAttempt where
  /-- The client's disk, its clock and the transfer. The master's answers come from the store, the file is the same
  at every look. -/
  events : UploadEvents
  /-- `FileExists` gets an answer. -/
  asked : Bool
  init : Delivery
  /-- A `POST` that arrives, though the transfer has no acknowledgement of it. -/
  arrives : Nat → Nat → Bool
  commit : Delivery

/-- The database, the workers' disks, and the transfer state of one file on the client. -/
structure Cloud where
  db : Store
  disks : NodeInfo → Disk
  transfers : TransferFiles

section

variable (sha256 : Bytes → String) (json : JsonText) (numBuckets : Nat) (userId : Int) (filepath : String) (file : LocalFile)

/-- What the client sees of an attempt: the master answers from its store. -/
def CloudAttempt.observed (s : Cloud) (a : CloudAttempt) : UploadEvents :=
  { a.events with
    found := some (a.asked && askExists s.db userId (filename filepath))
    seen := fun _ => some file
    init := fun hashes =>
      if a.init = .answered then (filterMissingChunks numBuckets s.db hashes).toOption.map Prod.snd else none
    commit := fun size hashes => decide (a.commit = .answered) &&
      (sendCommit json (afterInit numBuckets s.db hashes) userId (filename filepath) size hashes).isSome }

/-- What `UploadFile` comes to. -/
def CloudAttempt.result (s : Cloud) (a : CloudAttempt) : UploadResult :=
  uploadFile sha256 s.transfers filepath (a.observed json numBuckets userId filepath file s)

/-- The requests that arrive are served, whether or not the client hears of it. -/
def CloudAttempt.storeAfter (db : Store) (a : CloudAttempt) (res : UploadResult) : Store :=
  let db := match res.initialized with
    | some hashes => if a.init = .lost then db else afterInit numBuckets db hashes
    | none => db
  match res.committed with
  | some (size, hashes) =>
    if a.commit = .lost then db else (sendCommit json db userId (filename filepath) size hashes).getD db
  | none => db

/-- One request of a task that arrives. -/
def postTask (disks : NodeInfo → Disk) (task : PostTask) : NodeInfo → Disk :=
  Function.update disks task.node (postChunk sha256 (disks task.node) task.hash task.payload).1

/-- So are the chunks. -/
def CloudAttempt.disksAfter (disks : NodeInfo → Disk) (a : CloudAttempt) (res : UploadResult) : NodeInfo → Disk :=
  ((res.sent.filter fun e => a.events.transfer.acks e.1.1 e.1.2 || a.arrives e.1.1 e.1.2).map Prod.snd).foldl
    (postTask sha256) disks

/-- No step where a node acknowledges what its handler does not answer with 200. -/
def stepCloud (s : Cloud) (a : CloudAttempt) : Option Cloud :=
  let res := a.result sha256 json numBuckets userId filepath file s
  if res.acked.all fun e => (postChunk sha256 (s.disks e.2.node) e.2.hash e.2.payload).2.status == 200 then
    some ⟨a.storeAfter json numBuckets userId filepath s.db res, a.disksAfter sha256 s.disks res, res.transfers⟩
  else none

end

/-! ## The store -/

/-- Rows stay, with their nodes. -/
structure RowsKept (db db' : Store) : Prop where
  workers : db'.workers = db.workers
  chunks : ∀ h r, db.chunks.get? h = some r → ∃ r', db'.chunks.get? h = some r' ∧ r'.nodes = r.nodes

theorem RowsKept.refl (db : Store) : RowsKept db db := ⟨rfl, fun _ r hr => ⟨r, hr, rfl⟩⟩

theorem RowsKept.trans {db₁ db₂ db₃ : Store} (h : RowsKept db₁ db₂) (g : RowsKept db₂ db₃) : RowsKept db₁ db₃ := by
  refine ⟨g.workers.trans h.workers, fun k r hr => ?_⟩
  obtain ⟨r', hr', hnodes⟩ := h.chunks k r hr
  obtain ⟨r'', hr'', hnodes'⟩ := g.chunks k r' hr'
  exact ⟨r'', hr'', hnodes'.trans hnodes⟩

theorem RowsKept.nodeData {db db' : Store} (h : RowsKept db db') (nodes : List Int) :
    nodeData db' nodes = nodeData db nodes := by
  unfold StorageEngine.nodeData workersOf
  rw [h.workers]

theorem FilterEffect.rowsKept {db db' : Store} (h : FilterEffect db db') : RowsKept db db' := by
  refine ⟨by rw [h.frame], fun k r hr => ?_⟩
  obtain ⟨t, ht, -⟩ := h.kept k r hr
  exact ⟨_, ht, rfl⟩

theorem CommitEffect.rowsKept {db db' : Store} {userId : Int} {filename : String} {size : Int} {hashes : List String}
    (h : CommitEffect db userId filename size hashes db') : RowsKept db db' := by
  refine ⟨?_, fun k r hr => ?_⟩
  · obtain ⟨-, -, arr, name, -, -, rfl⟩ := h
    rfl
  · have hget := h.get?_chunks k
    rw [hr, Option.map_some] at hget
    exact ⟨_, hget, rfl⟩

theorem afterInit_effect (numBuckets : Nat) (db : Store) (hashes : List String) :
    FilterEffect db (afterInit numBuckets db hashes) := by
  unfold afterInit
  split
  · rename_i hok
    exact filterMissingChunks_effect hok
  · exact FilterEffect.refl db

/-- A commit that is carried out, under the name that arrived. -/
theorem sendCommit_eq_some {json : JsonText} {db db' : Store} {userId : Int} {name : String} {size : Int}
    {hashes : List String} (h : sendCommit json db userId name size hashes = some db') :
    CommitEffect db userId (nameText (asciiText name)) size hashes db' := by
  obtain ⟨received, hreceived, hcommit⟩ := Option.bind_eq_some_iff.1 h
  obtain ⟨text, htext, hparse⟩ := Option.bind_eq_some_iff.1 hreceived
  rw [json.parse_dump _ text htext, Option.some.injEq] at hparse
  subst hparse
  cases hok : commitFile db userId (nameText (asciiText name)) size hashes with
  | error e =>
    rw [hok] at hcommit
    cases hcommit
  | ok db₁ =>
    rw [hok] at hcommit
    obtain rfl := Option.some.inj hcommit
    exact commitFile_ok.1 hok

/-! ## The disks -/

variable {sha256 : Bytes → String}

/-- The answer to a `POST` does not depend on what is stored. -/
theorem postChunk_status (disk disk' : Disk) (hash : String) (body : Bytes) :
    (postChunk sha256 disk hash body).2.status = (postChunk sha256 disk' hash body).2.status := by
  unfold postChunk
  split
  · rfl
  split
  · rfl
  split <;> rfl

theorem holds_postTask {disks : NodeInfo → Disk} {node : NodeInfo} {hash : String} (task : PostTask)
    (h : Holds sha256 (disks node) hash) : Holds sha256 (postTask sha256 disks task node) hash := by
  unfold postTask
  by_cases hnode : node = task.node
  · subst hnode
    rw [Function.update_self]
    exact @Holds.serve sha256 _ _ (.post task.hash task.payload) h (by simp)
  · rwa [Function.update_of_ne hnode]

theorem holds_postTasks {tasks : List PostTask} {disks : NodeInfo → Disk} {node : NodeInfo} {hash : String}
    (h : Holds sha256 (disks node) hash) : Holds sha256 (tasks.foldl (postTask sha256) disks node) hash := by
  induction tasks generalizing disks with
  | nil => exact h
  | cons task tasks ih => exact ih (holds_postTask task h)

/-- What a handler accepts is stored when all requests are through. -/
theorem holds_of_postTasks {tasks : List PostTask} {disks disks' : NodeInfo → Disk} {task : PostTask} (h : task ∈ tasks)
    (hstatus : (postChunk sha256 (disks' task.node) task.hash task.payload).2.status = 200) :
    Holds sha256 (tasks.foldl (postTask sha256) disks task.node) task.hash := by
  induction tasks generalizing disks with
  | nil => cases h
  | cons t tasks ih =>
    rw [List.foldl_cons]
    rcases List.mem_cons.1 h with rfl | h
    · refine holds_postTasks ?_
      unfold postTask
      rw [Function.update_self]
      refine holds_of_post ?_
      simp only [serve]
      rw [postChunk_status _ (disks' task.node)]
      exact hstatus
    · exact ih h

/-- A chunk file holds what it held, or the bytes of a task. -/
theorem get?_postTasks {tasks : List PostTask} {disks : NodeInfo → Disk} {node : NodeInfo} {hash : String} {body : Bytes}
    (h : (tasks.foldl (postTask sha256) disks node).get? hash = some body) :
    (disks node).get? hash = some body ∨ ∃ task ∈ tasks, task.payload = body := by
  induction tasks generalizing disks with
  | nil => exact Or.inl h
  | cons t tasks ih =>
    rcases ih h with h | ⟨task, htask, he⟩
    · unfold postTask at h
      by_cases hnode : node = t.node
      · subst hnode
        rw [Function.update_self] at h
        rcases postChunk_cases sha256 (disks t.node) t.hash t.payload with ⟨-, hdisk, -⟩ | ⟨hdisk, -⟩
        · rw [hdisk, Table.get?_put] at h
          split at h
          · exact Or.inr ⟨t, List.mem_cons_self, Option.some.inj h⟩
          · exact Or.inl h
        · rw [hdisk] at h
          exact Or.inl h
      · rw [Function.update_of_ne hnode] at h
        exact Or.inl h
    · exact Or.inr ⟨task, List.mem_cons_of_mem _ htask, he⟩

/-! ## Chunks that can be found again -/

/-- A listed worker of the chunk's row has it. -/
def Available (sha256 : Bytes → String) (db : Store) (disks : NodeInfo → Disk) (hash : String) : Prop :=
  ∃ row, db.chunks.get? hash = some row ∧ ∃ node ∈ (nodeData db row.nodes).getD [], Holds sha256 (disks node) hash

theorem Available.mono {db db' : Store} {disks disks' : NodeInfo → Disk} {hash : String}
    (h : Available sha256 db disks hash) (hrows : RowsKept db db')
    (hdisks : ∀ node, Holds sha256 (disks node) hash → Holds sha256 (disks' node) hash) :
    Available sha256 db' disks' hash := by
  obtain ⟨row, hrow, node, hnode, hholds⟩ := h
  obtain ⟨row', hrow', hnodes⟩ := hrows.chunks hash row hrow
  exact ⟨row', hrow', node, by rwa [hrows.nodeData, hnodes], hdisks node hholds⟩

/-- What holds between the attempts at a file of the given content. -/
structure CloudInv (sha256 : Bytes → String) (content : Bytes) (s : Cloud) : Prop where
  /-- A chunk that counts as stored can be found. -/
  rows : ∀ h ∈ computeHashes sha256 content, ∀ row, s.db.chunks.get? h = some row →
    row.refCount ≠ 0 → row.refCount ≠ -1 → Available sha256 s.db s.disks h
  saved : ∀ m, s.transfers.manifest = some (some m) → m.chunkHashes = computeHashes sha256 content
  /-- So can a chunk that is not going to be sent again. -/
  logged : ∀ (k : Nat) h, (k : Int) ∈ s.transfers.log.getD [] → (computeHashes sha256 content)[k]? = some h →
    Available sha256 s.db s.disks h
  /-- No stored bytes only share their digest with a chunk. -/
  genuine : ∀ node h body, (s.disks node).get? h = some body → ∀ p ∈ pieces chunkSize content,
    sha256 body = sha256 p → body = p

/-! ## One attempt -/

section

variable {json : JsonText} {numBuckets : Nat} {userId : Int} {filepath : String} {file : LocalFile} {s s' : Cloud}
  {a : CloudAttempt} {hashes : List String}

/-- A hash that counts as stored in the store after an init counted as stored before. -/
theorem CloudInv.rows_afterInit (h : CloudInv sha256 file.content s) {hash : String}
    (hhash : hash ∈ computeHashes sha256 file.content) {row : ChunkRow}
    (hrow : (afterInit numBuckets s.db hashes).chunks.get? hash = some row) (hzero : row.refCount ≠ 0)
    (htombstone : row.refCount ≠ -1) : Available sha256 s.db s.disks hash := by
  have heff := afterInit_effect numBuckets s.db hashes
  cases hold : s.db.chunks.get? hash with
  | none =>
    exact absurd (heff.fresh hash row hold hrow).1 hzero
  | some row₀ =>
    obtain ⟨t, ht, -⟩ := heff.kept hash row₀ hold
    obtain rfl := Option.some.inj (ht.symm.trans hrow)
    exact h.rows hash hhash row₀ hold hzero htombstone

/-- An attempt that got its plans, and what the transfer came to. -/
structure Negotiated (sha256 : Bytes → String) (json : JsonText) (numBuckets : Nat) (userId : Int) (filepath : String)
    (file : LocalFile) (s : Cloud) (a : CloudAttempt) (t : TransferFiles) (m : UploadManifest)
    (plans : List ChunkRoutingPlan) (up : TransferResult) (out : UploadResult) : Prop where
  blueprint : Blueprint sha256 file s.transfers t m
  answered : a.init = .answered
  routed : filterMissingChunks numBuckets s.db m.chunkHashes = .ok (afterInit numBuckets s.db m.chunkHashes, plans)
  outcome : TransferOutcome t m plans file (a.observed json numBuckets userId filepath file s) up out
  served : ∀ e ∈ out.acked, (postChunk sha256 (s.disks e.2.node) e.2.hash e.2.payload).2.status = 200

variable {t : TransferFiles} {m : UploadManifest} {plans : List ChunkRoutingPlan} {up : TransferResult} {out : UploadResult}

theorem holds_disksAfter {disks : NodeInfo → Disk} {node : NodeInfo} {hash : String} (h : Holds sha256 (disks node) hash) :
    Holds sha256 (a.disksAfter sha256 disks out node) hash := holds_postTasks h

/-- **A chunk that a node acknowledges** can be found: the node is one of its row. -/
theorem Negotiated.available_of_acked (h : Negotiated sha256 json numBuckets userId filepath file s a t m plans up out)
    (hdigest : ∀ b, HexDigest (sha256 b)) {e : (Nat × Nat) × PostTask} (he : e ∈ out.acked) :
    Available sha256 (afterInit numBuckets s.db m.chunkHashes) (a.disksAfter sha256 s.disks out) e.2.hash := by
  obtain ⟨hsent, hack⟩ := h.outcome.mem_acked.1 he
  obtain ⟨plan, hplan, hhash, hnode, heq, -⟩ := h.outcome.of_sent hsent
  rw [h.blueprint.hashes] at hhash
  obtain ⟨p, -, hp, -⟩ := piece_of_computeHashes hhash
  obtain ⟨row, hrow, hnodes⟩ := (filterMissingChunks_plans h.routed).2 plan hplan (hp ▸ (hdigest p).varchar)
  rw [heq]
  refine ⟨row, hrow, e.2.node, ?_, ?_⟩
  · rw [(afterInit_effect ..).nodeData, hnodes]
    exact List.mem_of_getElem? hnode
  · rw [← heq]
    refine holds_of_postTasks (List.mem_map.2 ⟨e, List.mem_filter.2 ⟨hsent, ?_⟩, rfl⟩) (h.served e he)
    rw [Bool.or_eq_true]
    exact Or.inl hack

/-- **After a transfer that succeeds** every chunk of the file can be found: it counted as stored, was logged, or is
acknowledged now. -/
theorem Negotiated.available_of_success (h : Negotiated sha256 json numBuckets userId filepath file s a t m plans up out)
    (hinv : CloudInv sha256 file.content s) (hdigest : ∀ b, HexDigest (sha256 b)) (hsuccess : up.success = true)
    {hash : String} (hhash : hash ∈ computeHashes sha256 file.content) :
    Available sha256 (afterInit numBuckets s.db m.chunkHashes) (a.disksAfter sha256 s.disks out) hash := by
  have heff := afterInit_effect numBuckets s.db m.chunkHashes
  obtain ⟨hplans, hnodes⟩ := filterMissingChunks_plans h.routed
  have hkeep : Available sha256 s.db s.disks hash →
      Available sha256 (afterInit numBuckets s.db m.chunkHashes) (a.disksAfter sha256 s.disks out) hash :=
    fun hold => hold.mono heff.rowsKept fun node hholds => holds_disksAfter hholds
  cases hmissing : isMissing s.db hash with
  | false =>
    unfold isMissing at hmissing
    cases hrow : s.db.chunks.get? hash with
    | none =>
      rw [hrow] at hmissing
      cases hmissing
    | some row =>
      rw [hrow] at hmissing
      -- the init went through, so the row is no tombstone
      obtain ⟨p, -, hp⟩ := List.mem_map.1 hhash
      obtain ⟨row', hrow', htombstone, -⟩ := filterMissingChunks_refreshed h.routed hash (h.blueprint.hashes ▸ hhash)
        (hp ▸ (hdigest p).varchar)
      obtain ⟨now, hnow, -⟩ := heff.kept hash row hrow
      obtain rfl := Option.some.inj (hnow.symm.trans hrow')
      exact hkeep (hinv.rows hash hhash row hrow (by simpa using hmissing) htombstone)
  | true =>
    have hmem : hash ∈ plans.map ChunkRoutingPlan.hash := by
      rw [hplans, h.blueprint.hashes]
      exact List.mem_filter.2 ⟨hhash, hmissing⟩
    obtain ⟨plan, hplan, rfl⟩ := List.mem_map.1 hmem
    obtain ⟨k, hk, hdone | hall⟩ := h.outcome.of_success hsuccess h.blueprint.bits
      (by rw [hplans]; exact List.filter_sublist) hplan
    · rw [h.blueprint.hashes] at hk
      exact hkeep (hinv.logged k _ (h.blueprint.logged _ (h.blueprint.marked k hdone)) hk)
    · obtain ⟨p, -, hp⟩ := List.mem_map.1 hhash
      obtain ⟨row, -, hassigned⟩ := hnodes plan hplan (hp ▸ (hdigest p).varchar)
      obtain ⟨node, hnode⟩ := List.exists_mem_of_ne_nil _ (nodeData_ne_nil hassigned)
      obtain ⟨e, he, -, heq⟩ := hall node hnode
      rw [← heq]
      exact h.available_of_acked hdigest he

/-- The store once a commit has been tried. -/
theorem Negotiated.storeAfter_eq (h : Negotiated sha256 json numBuckets userId filepath file s a t m plans up out)
    (hcommitted : out.committed = some ((file.content.length : Int), m.chunkHashes)) :
    a.storeAfter json numBuckets userId filepath s.db out =
      if a.commit = .lost then afterInit numBuckets s.db m.chunkHashes
      else (sendCommit json (afterInit numBuckets s.db m.chunkHashes) userId (filename filepath)
        file.content.length m.chunkHashes).getD (afterInit numBuckets s.db m.chunkHashes) := by
  simp [CloudAttempt.storeAfter, h.outcome.initialized, h.answered, hcommitted]

/-- **The store afterwards**: as the init left it, or with the commit of a transfer that succeeded. -/
theorem Negotiated.storeAfter_cases (h : Negotiated sha256 json numBuckets userId filepath file s a t m plans up out) :
    a.storeAfter json numBuckets userId filepath s.db out = afterInit numBuckets s.db m.chunkHashes ∨
      up.success = true ∧ CommitEffect (afterInit numBuckets s.db m.chunkHashes) userId
        (nameText (asciiText (filename filepath))) file.content.length m.chunkHashes
        (a.storeAfter json numBuckets userId filepath s.db out) := by
  have htried : up.success = true → out.committed = some ((file.content.length : Int), m.chunkHashes) →
      a.storeAfter json numBuckets userId filepath s.db out = afterInit numBuckets s.db m.chunkHashes ∨
        up.success = true ∧ CommitEffect (afterInit numBuckets s.db m.chunkHashes) userId
          (nameText (asciiText (filename filepath))) file.content.length m.chunkHashes
          (a.storeAfter json numBuckets userId filepath s.db out) := by
    intro hsuccess hcommitted
    rw [h.storeAfter_eq hcommitted]
    split
    · exact Or.inl rfl
    · cases hsend : sendCommit json (afterInit numBuckets s.db m.chunkHashes) userId (filename filepath)
        file.content.length m.chunkHashes with
      | none => exact Or.inl rfl
      | some db => exact Or.inr ⟨hsuccess, sendCommit_eq_some hsend⟩
  rcases h.outcome.ended with ⟨-, -, hnone | ⟨hsuccess, hcommitted, -⟩⟩ | ⟨-, -, hcommitted, -, hsuccess, -, -⟩
  · left
    simp [CloudAttempt.storeAfter, h.outcome.initialized, h.answered, hnone]
  · exact htried hsuccess hcommitted
  · exact htried hsuccess hcommitted

/-- **A call that returns `true`** has committed the list of the file, after a transfer that succeeded. -/
theorem Negotiated.committed (h : Negotiated sha256 json numBuckets userId filepath file s a t m plans up out)
    (htrue : out.ended = .returned true) :
    up.success = true ∧ CommitEffect (afterInit numBuckets s.db m.chunkHashes) userId
      (nameText (asciiText (filename filepath))) file.content.length (computeHashes sha256 file.content)
      (a.storeAfter json numBuckets userId filepath s.db out) := by
  obtain ⟨-, -, hcommitted, hcommit, hsuccess, -, -⟩ := h.outcome.ended.resolve_left fun hfalse => hfalse.1 htrue
  obtain ⟨hanswered, hsome⟩ := Bool.and_eq_true_iff.1 hcommit
  obtain ⟨db, hdb⟩ := Option.isSome_iff_exists.1 hsome
  have hkept : ¬ a.commit = .lost := by
    rw [of_decide_eq_true hanswered]
    decide
  rw [h.storeAfter_eq hcommitted, if_neg hkept, hdb, ← h.blueprint.hashes]
  exact ⟨hsuccess, sendCommit_eq_some hdb⟩

theorem Negotiated.rowsKept (h : Negotiated sha256 json numBuckets userId filepath file s a t m plans up out) :
    RowsKept (afterInit numBuckets s.db m.chunkHashes) (a.storeAfter json numBuckets userId filepath s.db out) := by
  rcases h.storeAfter_cases with hsame | ⟨-, heff⟩
  · rw [hsame]
    exact RowsKept.refl _
  · exact heff.rowsKept

/-- **An attempt that got its plans** keeps the invariant. -/
theorem Negotiated.inv (h : Negotiated sha256 json numBuckets userId filepath file s a t m plans up out)
    (hinv : CloudInv sha256 file.content s) (hdigest : ∀ b, HexDigest (sha256 b))
    (hdistinct : ∀ q ∈ pieces chunkSize file.content, ∀ p ∈ pieces chunkSize file.content, sha256 q = sha256 p → q = p) :
    CloudInv sha256 file.content ⟨a.storeAfter json numBuckets userId filepath s.db out,
      a.disksAfter sha256 s.disks out, out.transfers⟩ := by
  have hkept := (afterInit_effect numBuckets s.db m.chunkHashes).rowsKept.trans h.rowsKept
  refine ⟨fun hash hhash row hrow hzero htombstone => ?_, fun m' hm' => ?_, fun k hash hk hhash => ?_,
    fun node hash body hbody p hp hsha => ?_⟩
  · rcases h.storeAfter_cases with hsame | ⟨hsuccess, -⟩
    · simp only [hsame] at hrow
      exact (hinv.rows_afterInit hhash hrow hzero htombstone).mono hkept fun node hholds => holds_disksAfter hholds
    · exact (h.available_of_success hinv hdigest hsuccess hhash).mono h.rowsKept fun node hholds => hholds
  · rcases h.outcome.manifest with hsame | hgone
    · exact h.blueprint.saved m' (hsame ▸ hm')
    · rw [hm'] at hgone
      cases hgone
  · rcases h.outcome.of_logged hk with hk | ⟨e, he, hek⟩
    · exact (hinv.logged k hash (h.blueprint.logged _ hk) hhash).mono hkept fun node hholds => holds_disksAfter hholds
    · obtain ⟨plan, -, hplan, -, heq, -⟩ := h.outcome.of_sent (h.outcome.mem_acked.1 he).1
      rw [Int.natCast_inj] at hek
      rw [hek, h.blueprint.hashes, hhash, ← heq, Option.some.injEq] at hplan
      rw [hplan]
      exact (h.available_of_acked hdigest he).mono h.rowsKept fun node hholds => hholds
  · rcases get?_postTasks hbody with hold | ⟨task, htask, rfl⟩
    · exact hinv.genuine node hash body hold p hp hsha
    · obtain ⟨e, he, rfl⟩ := List.mem_map.1 htask
      have hpiece := h.outcome.payload_of_sent rfl h.blueprint.hashes (List.mem_filter.1 he).1
      exact hdistinct _ (List.mem_of_getElem? hpiece) p hp hsha

/-- An attempt that sends nothing and does not commit. -/
theorem CloudInv.quiet (hinv : CloudInv sha256 file.content s) {res : UploadResult} {t' : TransferFiles}
    (hsent : res.sent = []) (hcommitted : res.committed = none)
    (hsaved : ∀ m, t'.manifest = some (some m) → m.chunkHashes = computeHashes sha256 file.content)
    (hlogged : ∀ k ∈ t'.log.getD [], k ∈ s.transfers.log.getD []) :
    CloudInv sha256 file.content
      ⟨a.storeAfter json numBuckets userId filepath s.db res, a.disksAfter sha256 s.disks res, t'⟩ := by
  have hdisks : a.disksAfter sha256 s.disks res = s.disks := by simp [CloudAttempt.disksAfter, hsent]
  have hstore : a.storeAfter json numBuckets userId filepath s.db res = s.db ∨
      ∃ hashes, a.storeAfter json numBuckets userId filepath s.db res = afterInit numBuckets s.db hashes := by
    unfold CloudAttempt.storeAfter
    rw [hcommitted]
    cases hinit : res.initialized with
    | none => exact Or.inl rfl
    | some hashes =>
      simp only
      split
      · exact Or.inl rfl
      · exact Or.inr ⟨hashes, rfl⟩
  rw [hdisks]
  rcases hstore with hsame | ⟨hashes, hsame⟩
  · rw [hsame]
    exact ⟨hinv.rows, hsaved, fun k h hk => hinv.logged k h (hlogged k hk), hinv.genuine⟩
  · rw [hsame]
    have hkept := (afterInit_effect numBuckets s.db hashes).rowsKept
    refine ⟨fun h hh row hrow hzero htombstone => ?_, hsaved, fun k h hk hh => ?_, hinv.genuine⟩
    · exact (hinv.rows_afterInit hh hrow hzero htombstone).mono hkept fun node hholds => hholds
    · exact (hinv.logged k h (hlogged k hk) hh).mono hkept fun node hholds => hholds

/-- **One attempt** keeps the invariant; one that returns `true` got its plans. -/
theorem CloudInv.step (hinv : CloudInv sha256 file.content s) (hdigest : ∀ b, HexDigest (sha256 b))
    (hdistinct : ∀ q ∈ pieces chunkSize file.content, ∀ p ∈ pieces chunkSize file.content, sha256 q = sha256 p → q = p)
    (hstep : stepCloud sha256 json numBuckets userId filepath file s a = some s') :
    CloudInv sha256 file.content s' ∧
      ((a.result sha256 json numBuckets userId filepath file s).ended = .returned true → ∃ t m plans up,
        Negotiated sha256 json numBuckets userId filepath file s a t m plans up
          (a.result sha256 json numBuckets userId filepath file s)) := by
  simp only [stepCloud] at hstep
  split at hstep
  · rename_i hguard
    obtain rfl := Option.some.inj hstep
    have hserved : ∀ e ∈ (a.result sha256 json numBuckets userId filepath file s).acked,
        (postChunk sha256 (s.disks e.2.node) e.2.hash e.2.payload).2.status = 200 := fun e he => by
      simpa using List.all_eq_true.1 hguard e he
    unfold CloudAttempt.result at hserved ⊢
    cases uploadFile_path sha256 s.transfers filepath (a.observed json numBuckets userId filepath file s) with
    | refused hwhy hended hout =>
      refine ⟨hinv.quiet (by rw [hout]; rfl) (by rw [hout]; rfl) ?_ ?_, fun htrue => absurd htrue hended⟩
      · rw [hout]
        exact hinv.saved
      · rw [hout]
        exact fun k hk => hk
    | unreadable hfound hstart hresume hblueprint hout =>
      unfold blueprint at hblueprint
      split at hblueprint <;> cases hblueprint
    | uninitialized hfound hstart hresume hblueprint hinit hout =>
      obtain rfl := Option.some.inj hstart
      have hspec := blueprint_spec hinv.saved rfl hresume hblueprint
      rw [hout]
      refine ⟨hinv.quiet rfl rfl hspec.saved hspec.logged, ?_⟩
      rintro ⟨⟩
    | @transferred f t₁ t₂ m₁ m₂ plans up hfound hstart hresume hblueprint hinit hout =>
      obtain rfl := Option.some.inj hstart
      have hinit' : (if a.init = .answered then
          (filterMissingChunks numBuckets s.db m₂.chunkHashes).toOption.map Prod.snd else none) = some plans := hinit
      split at hinit'
      · rename_i hanswered
        obtain ⟨⟨db, plans'⟩, hok, rfl⟩ := Option.map_eq_some_iff.1 hinit'
        cases hfilter : filterMissingChunks numBuckets s.db m₂.chunkHashes with
        | error e =>
          rw [hfilter] at hok
          cases hok
        | ok res =>
          rw [hfilter] at hok
          obtain rfl := Option.some.inj hok
          have hnegotiated : Negotiated sha256 json numBuckets userId filepath file s a t₂ m₂ plans' up _ :=
            ⟨blueprint_spec hinv.saved rfl hresume hblueprint, hanswered, by simp [afterInit, hfilter], hout,
              hserved⟩
          exact ⟨hnegotiated.inv hinv hdigest hdistinct, fun _ => ⟨_, _, _, _, hnegotiated⟩⟩
      · cases hinit'
  · cases hstep

end

end StorageEngine
