import StorageEngine.Lib.InputStream
import StorageEngine.Lib.Paths
import StorageEngine.Cluster.Encryption

/-!
# The chunk store of a worker

`LocalDiskStorage` over a file system, and the handlers of `WorkerServer` on it: what `Worker.lean` keeps in a table of
chunks lies in encrypted files. A hash is any string, a character for a byte. What the system answers to the calls of one
request is its `Outcome`; `none` is undefined behaviour.

| here | there |
| --- | --- |
| `filepath`    | `storage_dir / (hash + ".bin")` (`LocalDiskStorage.hpp:82, 112, 144`) |
| `saveChunk`   | `SaveChunk` (`:62-107`), `space` is what `ReserveSpace` answers |
| `loadChunk`   | `LoadChunk` (`:110-139`): nothing is the empty vector, `none` in an effect an exception |
| `deleteChunk` | `DeleteChunk` (`:142-158`): `remove` sets `ec` but for `ENOENT` |
| `handleChunk` | the handlers (`WorkerServer.hpp:22-72`), 500 on an exception (`httplib.h:12467-12484`) |
-/

namespace StorageEngine

open Relational (Table)
open InputStream Paths

/-- `get_param_value("hash")`. -/
def ChunkRequest.hash : ChunkRequest → String
  | .post hash _ | .get hash | .delete hash => hash

structure Outcome where
  setup : Setup
  space : Bool
  opens : Bool
  /-- Memory can be had for the size that `tellg` tells of a directory. -/
  dirFits : Bool
  /-- How many bytes reach the file before a write fails, `none` if none fails. -/
  written : Option Nat
  reads : Bool
  /-- The file system lets an entry be removed, and takes the path for its length as a whole. -/
  removes : Bool

/-- What the calls of a storage function did. -/
structure Effect (α : Type) where
  fs : FileSystem Bytes
  /-- The places where a file was opened or removed, `none` for a path that leads nowhere. -/
  touched : List (Option Location)
  result : α

/-- The same effect with another result. -/
def Effect.map {α β : Type} (f : α → β) (e : Effect α) : Effect β := ⟨e.fs, e.touched, f e.result⟩

/-- A worker: its key, its digest, and the directory of its chunks. -/
structure WorkerNode where
  evp : Evp
  nodeKey : AesKey
  sha256 : Bytes → String
  storageDir : Location

namespace WorkerNode

variable (w : WorkerNode) (fs : FileSystem Bytes) (o : Outcome)

def filepath (hash : String) : Option Location := fs.resolve w.storageDir (hash ++ ".bin")

def saveChunk (hash : String) (data : Bytes) : Option (Effect Bool) :=
  match encryptBytes w.evp w.nodeKey o.setup data with
  | .error .overrun => none
  | .error (.thrown _) => some ⟨fs, [], false⟩
  | .ok encryptedData =>
    if !o.space then some ⟨fs, [], false⟩
    else
      match if o.opens then fs.write (w.filepath fs hash) (o.written.elim encryptedData encryptedData.take) else none with
      | none => some ⟨fs, [w.filepath fs hash], false⟩
      | some fs' => some ⟨fs', [w.filepath fs hash], o.written.isNone⟩

/-- What is read of a file that is open. -/
def loadFile (content : Bytes) : Option Bytes :=
  let file := Stream.openedAtEnd content
  if file.tellg < 0 then some []
  else
    let (buffer, file') := (file.seekg 0).read file.tellg.toNat
    if o.reads && !file'.failbit then
      match decryptBytes w.evp w.nodeKey o.setup buffer with
      | .error .overrun => none
      | .error (.thrown _) => some []
      | .ok data => some data
    else some []

def loadChunk (hash : String) : Option (Effect (Option Bytes)) :=
  if !o.opens then some ⟨fs, [w.filepath fs hash], some []⟩
  else if (w.filepath fs hash).any fs.isDir then
    -- an `ifstream` opens a directory: the vector throws, or nothing can be read into it
    some ⟨fs, [w.filepath fs hash], if o.dirFits then some [] else none⟩
  else
    match fs.read (w.filepath fs hash) with
    | none => some ⟨fs, [w.filepath fs hash], some []⟩
    | some content => (w.loadFile o content).map fun data => ⟨fs, [w.filepath fs hash], some data⟩

def deleteChunk (hash : String) : Effect Bool :=
  if o.removes && !fs.refuses w.storageDir (hash ++ ".bin") then
    ⟨(fs.remove (w.filepath fs hash)).1, [w.filepath fs hash], (fs.remove (w.filepath fs hash)).2⟩
  else ⟨fs, [w.filepath fs hash], false⟩

def handleChunk : ChunkRequest → Option (Effect ChunkResponse)
  | .post hash body =>
    if maxPayload < body.length then some ⟨fs, [], ⟨413, "", []⟩⟩
    else if hash = "" then some ⟨fs, [], ⟨400, "", []⟩⟩
    else if w.sha256 body ≠ hash then some ⟨fs, [], ⟨400, "Hash mismatch. Payload corrupted.", []⟩⟩
    else (w.saveChunk fs o hash body).map (·.map fun saved => if saved then ⟨200, "OK", []⟩ else ⟨500, "", []⟩)
  | .get hash =>
    (w.loadChunk fs o hash).map (·.map fun
      | none => ⟨500, "", []⟩
      | some data => if data.isEmpty then ⟨404, "", []⟩ else ⟨200, "", data⟩)
  | .delete hash =>
    some ((w.deleteChunk fs o hash).map fun deleted => if deleted then ⟨200, "DELETED", []⟩ else ⟨404, "", []⟩)

end WorkerNode

/-- A request with what it touched and its answer. -/
structure Exchange where
  request : ChunkRequest
  touched : List (Option Location)
  response : ChunkResponse

/-- The requests one after another. -/
def WorkerNode.serveAll (w : WorkerNode) :
    FileSystem Bytes → List (ChunkRequest × Outcome) → Option (FileSystem Bytes × List Exchange)
  | fs, [] => some (fs, [])
  | fs, (req, o) :: rest =>
    (w.handleChunk fs o req).bind fun e =>
      (w.serveAll e.fs rest).map fun out => (out.1, ⟨req, e.touched, e.result⟩ :: out.2)

/-- The system did all it was asked for. -/
structure Outcome.Succeeds (o : Outcome) : Prop where
  rand : o.setup.rand.isSome = true
  newCtx : o.setup.newCtx = true
  init : o.setup.init = true
  space : o.space = true
  opens : o.opens = true
  written : o.written = none
  reads : o.reads = true
  removes : o.removes = true

/-! ## The path of a chunk -/

/-- No part of the path but a name. -/
def PlainHash (hash : String) : Prop := '/' ∉ hash.toList ∧ '\x00' ∉ hash.toList

instance (hash : String) : Decidable (PlainHash hash) := inferInstanceAs (Decidable (_ ∧ _))

/-- `<hash>.bin` in the storage directory. -/
def WorkerNode.chunkFile (w : WorkerNode) (hash : String) : Location := w.storageDir ++ [hash ++ ".bin"]

theorem plainHash_of_hex {hash : String} (h : HexDigest hash) : PlainHash hash :=
  ⟨fun hc => absurd (h.hex _ hc) (by decide), fun hc => absurd (h.hex _ hc) (by decide)⟩

theorem isName_bin {hash : String} (h : PlainHash hash) : IsName (hash ++ ".bin") where
  noSlash hc := by
    rw [String.toList_append, List.mem_append] at hc
    exact hc.elim h.1 (by decide)
  noNul hc := by
    rw [String.toList_append, List.mem_append] at hc
    exact hc.elim h.2 (by decide)
  ne := by
    have hlen : 4 ≤ (hash ++ ".bin").length := by
      rw [String.length_append]
      exact Nat.le_add_left _ _
    refine ⟨?_, ?_, ?_⟩ <;>
    · intro he
      rw [he] at hlen
      exact absurd hlen (by decide)

theorem plainHash_of_isName {hash : String} (hslash : '/' ∉ (hash ++ ".bin").toList)
    (hnul : '\x00' ∉ (hash ++ ".bin").toList) : PlainHash hash := by
  rw [String.toList_append, List.mem_append, not_or] at hslash hnul
  exact ⟨hslash.1, hnul.1⟩

theorem chunkFile_inj {w : WorkerNode} {h₁ h₂ : String} (h : w.chunkFile h₁ = w.chunkFile h₂) : h₁ = h₂ := by
  have hname := List.singleton_inj.1 (List.append_cancel_left h)
  rw [← String.toList_inj, String.toList_append, String.toList_append] at hname
  exact String.toList_inj.1 (List.append_cancel_right hname)

theorem filepath_plain {w : WorkerNode} {fs : FileSystem Bytes} (hdir : fs.isDir w.storageDir = true) {hash : String}
    (h : PlainHash hash) : w.filepath fs hash = some (w.chunkFile hash) :=
  FileSystem.resolve_name hdir (isName_bin h)

/-! ## The files of the chunks -/

/-- What lies in a file for a chunk. -/
inductive WorkerNode.StoredAs (w : WorkerNode) : Option Bytes → Option Bytes → Prop
  | none : StoredAs w none none
  | some {data file : Bytes} (hlen : data.length ≤ maxPayload) (hfile : Encrypted w.evp w.nodeKey data file) :
    StoredAs w (some data) (some file)

/-- The files of the chunks on `disk`. -/
structure WorkerNode.Represents (w : WorkerNode) (fs : FileSystem Bytes) (disk : Disk) : Prop where
  dir : fs.isDir w.storageDir = true
  noDir : ∀ hash, PlainHash hash → fs.isDir (w.chunkFile hash) = false
  files : ∀ hash, PlainHash hash → w.StoredAs (disk.get? hash) (fs.files.get? (w.chunkFile hash))

section

variable {w : WorkerNode} {fs : FileSystem Bytes} {o : Outcome} {hash : String}

theorem saveChunk_ok (haes : w.evp.AesCbc) (ho : o.Succeeds) (hpath : w.filepath fs hash = some (w.chunkFile hash))
    (hnoDir : fs.isDir (w.chunkFile hash) = false) (data : Bytes) :
    ∃ file, Encrypted w.evp w.nodeKey data file ∧ w.saveChunk fs o hash data =
      some ⟨{ fs with files := fs.files.put (w.chunkFile hash) file }, [some (w.chunkFile hash)], true⟩ := by
  obtain ⟨iv, hiv⟩ := Option.isSome_iff_exists.1 ho.rand
  obtain ⟨file, hfile, henc⟩ := encryptBytes_ok haes w.nodeKey hiv ho.newCtx ho.init data
  refine ⟨file, henc, ?_⟩
  have hwrite : fs.write (some (w.chunkFile hash)) file = some { fs with files := fs.files.put (w.chunkFile hash) file } :=
    FileSystem.write_eq_some.2 ⟨_, rfl, hnoDir, rfl⟩
  simp [WorkerNode.saveChunk, hfile, ho.space, ho.opens, ho.written, hwrite, hpath]

/-- A file is read whole. -/
theorem loadFile_eq (ho : o.Succeeds) (content : Bytes) : w.loadFile o content =
    match decryptBytes w.evp w.nodeKey o.setup content with
    | .error .overrun => none
    | .error (.thrown _) => some []
    | .ok data => some data := by
  have hread : ((Stream.openedAtEnd content).seekg 0).read content.length =
      (content, Stream.atOffset content content.length) := by
    rw [← Stream.atOffset_length, Stream.seekg_at _ _ (le_refl _), Int.toNat_zero, Stream.read_whole (by omega)]
    simp [Extent.slice]
  have htell : (Stream.openedAtEnd content).tellg = content.length := rfl
  simp only [WorkerNode.loadFile, htell, Int.toNat_natCast, hread, ho.reads]
  rw [if_neg (by omega)]
  rfl

theorem loadChunk_ok (haes : w.evp.AesCbc) (ho : o.Succeeds) (hpath : w.filepath fs hash = some (w.chunkFile hash))
    (hnoDir : fs.isDir (w.chunkFile hash) = false) {chunk : Option Bytes}
    (h : w.StoredAs chunk (fs.files.get? (w.chunkFile hash))) :
    w.loadChunk fs o hash = some ⟨fs, [some (w.chunkFile hash)], some (chunk.getD [])⟩ := by
  rw [WorkerNode.loadChunk, hpath, if_neg (by simp [ho.opens]), if_neg (by simp [hnoDir]), FileSystem.read,
    Option.bind_some]
  generalize fs.files.get? (w.chunkFile hash) = content at h
  cases h with
  | none => rfl
  | some hlen hfile =>
    have hlen' : maxPayload < 2 ^ 30 := by decide
    have hdec := decryptBytes_encrypted haes (by omega) hfile ho.newCtx ho.init
    simp only [loadFile_eq ho, hdec, Option.map_some, Option.getD_some]

theorem deleteChunk_ok (ho : o.Succeeds) (hdir : fs.isDir w.storageDir = true) (hhash : HexDigest hash)
    (hnoDir : fs.isDir (w.chunkFile hash) = false) :
    (w.deleteChunk fs o hash).result = true ∧ (w.deleteChunk fs o hash).fs.dirs = fs.dirs ∧
      ∀ k, (w.deleteChunk fs o hash).fs.files.get? k = if k = w.chunkFile hash then none else fs.files.get? k := by
  have hplain := plainHash_of_hex hhash
  have hshort : fs.refuses w.storageDir (hash ++ ".bin") = false := by
    rw [FileSystem.refuses_name hdir (isName_bin hplain), String.length_append, hhash.length]
    rfl
  rw [WorkerNode.deleteChunk, ho.removes, hshort, filepath_plain hdir hplain]
  exact FileSystem.removeAt_file hnoDir

theorem WorkerNode.Represents.put {disk : Disk} (h : w.Represents fs disk) {body file : Bytes}
    (hlen : body.length ≤ maxPayload) (henc : Encrypted w.evp w.nodeKey body file) :
    w.Represents { fs with files := fs.files.put (w.chunkFile hash) file } (disk.put hash body) where
  dir := h.dir
  noDir := h.noDir
  files k hk := by
    rw [Relational.Table.get?_put, Relational.Table.get?_put]
    by_cases hkh : k = hash
    · rw [if_pos hkh, if_pos (congrArg _ hkh)]
      exact .some hlen henc
    · rw [if_neg hkh, if_neg fun he => hkh (chunkFile_inj he)]
      exact h.files k hk

theorem WorkerNode.Represents.delete {disk : Disk} (h : w.Represents fs disk) {fs' : FileSystem Bytes}
    (hdirs : fs'.dirs = fs.dirs)
    (hfiles : ∀ k, fs'.files.get? k = if k = w.chunkFile hash then none else fs.files.get? k) :
    w.Represents fs' (disk.deleteWhere fun k _ => k == hash) := by
  have hisDir : ∀ loc, fs'.isDir loc = fs.isDir loc := by
    intro loc
    rw [FileSystem.isDir, FileSystem.isDir, hdirs]
  refine ⟨(hisDir _).trans h.dir, fun k hk => (hisDir _).trans (h.noDir k hk), fun k hk => ?_⟩
  rw [hfiles, Relational.Table.get?_deleteWhere]
  by_cases hkh : k = hash
  · rw [if_pos (congrArg _ hkh), Option.filter_eq_none_iff.2 (by simp [hkh])]
    exact .none
  · have hkeep : ((disk.get? k).filter fun _ => !(k == hash)) = disk.get? k := by
      cases disk.get? k with
      | none => rfl
      | some data => exact Option.filter_some_pos (by simpa using hkh)
    rw [if_neg fun he => hkh (chunkFile_inj he), hkeep]
    exact h.files k hk

/-- **A request to the store is one to the table of chunks.** -/
theorem handleChunk_refines (haes : w.evp.AesCbc) {disk : Disk} (hrep : w.Represents fs disk) {req : ChunkRequest}
    (hhash : HexDigest req.hash) (ho : o.Succeeds) :
    ∃ e, w.handleChunk fs o req = some e ∧ e.result = (serve w.sha256 disk req).2 ∧
      w.Represents e.fs (serve w.sha256 disk req).1 := by
  have hplain := plainHash_of_hex hhash
  have hpath := filepath_plain hrep.dir hplain
  have hnoDir := hrep.noDir _ hplain
  cases req with
  | post hash body =>
    simp only [WorkerNode.handleChunk, serve, postChunk]
    split
    · exact ⟨_, rfl, rfl, hrep⟩
    · rename_i hlen
      split
      · exact ⟨_, rfl, rfl, hrep⟩
      · split
        · exact ⟨_, rfl, rfl, hrep⟩
        · obtain ⟨file, henc, hsave⟩ := saveChunk_ok haes ho hpath hnoDir body
          simp only [ChunkRequest.hash] at hsave
          exact ⟨_, by rw [hsave]; rfl, rfl, hrep.put (not_lt.1 hlen) henc⟩
  | get hash =>
    have hload := loadChunk_ok haes ho hpath hnoDir (hrep.files hash hplain)
    simp only [ChunkRequest.hash] at hload
    refine ⟨_, by rw [WorkerNode.handleChunk, hload]; rfl, ?_, hrep⟩
    simp only [Effect.map, serve, getChunk]
    cases disk.get? hash with
    | none => rfl
    | some data => cases data <;> rfl
  | delete hash =>
    obtain ⟨hok, hdirs, hfiles⟩ := deleteChunk_ok ho hrep.dir hhash hnoDir
    simp only [ChunkRequest.hash] at hok hdirs hfiles
    refine ⟨_, rfl, ?_, hrep.delete hdirs hfiles⟩
    simp only [Effect.map, hok]
    rfl

end

/-! ## Request after request -/

/-- A worker that has just made its storage directory. -/
structure WorkerNode.Fresh (w : WorkerNode) (fs : FileSystem Bytes) : Prop where
  dir : fs.isDir w.storageDir = true
  empty : ∀ hash, fs.files.get? (w.chunkFile hash) = none ∧ fs.isDir (w.chunkFile hash) = false

/-- The body that is stored after an exchange, as its answer tells. -/
def afterExchange (hash : String) (last : Option Bytes) (e : Exchange) : Option Bytes :=
  match e.request with
  | .post h body => if h = hash ∧ e.response.status = 200 then some body else last
  | .get _ => last
  | .delete h => if h = hash then none else last

/-- The last `POST` of the chunk that was accepted, if no `DELETE` came after it. -/
def lastStored (hash : String) (log : List Exchange) : Option Bytes := log.foldl (afterExchange hash) none

/-- The body that is stored after a request. -/
def afterRequest (sha256 : Bytes → String) (hash : String) (last : Option Bytes) (req : ChunkRequest) : Option Bytes :=
  match req with
  | .post h body => if h = hash ∧ h ≠ "" ∧ body.length ≤ maxPayload ∧ sha256 body = h then some body else last
  | .get _ => last
  | .delete h => if h = hash then none else last

/-- The same, told from the requests. -/
def storedBody (sha256 : Bytes → String) (hash : String) (reqs : List ChunkRequest) : Option Bytes :=
  reqs.foldl (afterRequest sha256 hash) none

/-- A `GET` gives what was stored, and only a body of the right digest is accepted. -/
def Answered (sha256 : Bytes → String) (log : List Exchange) (req : ChunkRequest) (response : ChunkResponse) : Prop :=
  match req with
  | .post hash body => response.status = 200 → sha256 body = hash
  | .get hash =>
    match lastStored hash log with
    | some body => response.status = 200 ∧ response.data = body
    | none => response.status = 404
  | .delete _ => True

/-- Every request of the run is answered so, and the two buffers hold what is written to them. -/
structure WorkerNode.StoreRoundTrip (w : WorkerNode) (fs : FileSystem Bytes) (steps : List (ChunkRequest × Outcome)) :
    Prop where
  answers : ∀ i req o, steps[i]? = some (req, o) → ∃ fs' log e, w.serveAll fs (steps.take i) = some (fs', log) ∧
    w.handleChunk fs' o req = some e ∧ Answered w.sha256 log req e.result
  encryption : ∀ setup body, encryptBytes w.evp w.nodeKey setup body ≠ .error .overrun
  decryption : ∀ setup body file, body.length ≤ maxPayload → Encrypted w.evp w.nodeKey body file →
    decryptBytes w.evp w.nodeKey setup file ≠ .error .overrun

section

variable {w : WorkerNode} {fs : FileSystem Bytes} {disk : Disk}

theorem WorkerNode.Fresh.represents (h : w.Fresh fs) : w.Represents fs Relational.Table.empty where
  dir := h.dir
  noDir hash _ := (h.empty hash).2
  files hash _ := by
    rw [(h.empty hash).1]
    exact .none

/-- What is stored, and what is refused. -/
theorem postChunk_accepted (sha256 : Bytes → String) (disk : Disk) (hash : String) (body : Bytes) :
    (hash ≠ "" ∧ body.length ≤ maxPayload ∧ sha256 body = hash ∧
      postChunk sha256 disk hash body = (disk.put hash body, ⟨200, "OK", []⟩)) ∨
    (¬ (hash ≠ "" ∧ body.length ≤ maxPayload ∧ sha256 body = hash) ∧ (postChunk sha256 disk hash body).1 = disk ∧
      (postChunk sha256 disk hash body).2.status ≠ 200) := by
  unfold postChunk
  split
  · rename_i hlen
    exact Or.inr ⟨fun h => absurd h.2.1 (not_le.2 hlen), rfl, by simp⟩
  · rename_i hlen
    split
    · rename_i hempty
      exact Or.inr ⟨fun h => h.1 hempty, rfl, by simp⟩
    · rename_i hempty
      split
      · rename_i hsha
        exact Or.inr ⟨fun h => hsha h.2.2, rfl, by simp⟩
      · rename_i hsha
        exact Or.inl ⟨hempty, not_lt.1 hlen, not_not.1 hsha, rfl⟩

theorem get?_deleteChunk (disk : Disk) (h hash : String) :
    (deleteChunk disk h).1.get? hash = if h = hash then none else disk.get? hash := by
  rw [deleteChunk, Relational.Table.get?_deleteWhere]
  cases disk.get? hash with
  | none => simp
  | some body =>
    by_cases hh : h = hash
    · simp [hh]
    · rw [if_neg hh]
      exact Option.filter_some_pos (by simpa using fun he => hh he.symm)

theorem get?_serve (sha256 : Bytes → String) (disk : Disk) (hash : String) (req : ChunkRequest) :
    (serve sha256 disk req).1.get? hash = afterRequest sha256 hash (disk.get? hash) req := by
  cases req with
  | post h body =>
    simp only [serve, afterRequest]
    rcases postChunk_accepted sha256 disk h body with ⟨hempty, hlen, hsha, hpost⟩ | ⟨hrefused, hdisk, -⟩
    · rw [hpost, Relational.Table.get?_put]
      by_cases hh : hash = h
      · rw [if_pos hh, if_pos ⟨hh.symm, hempty, hlen, hsha⟩]
      · rw [if_neg hh, if_neg fun hc => hh hc.1.symm]
    · rw [hdisk, if_neg fun hc => hrefused hc.2]
  | get h => rfl
  | delete h => exact get?_deleteChunk disk h hash

/-- An answer of the table tells what it stores. -/
theorem afterExchange_eq (sha256 : Bytes → String) (disk : Disk) (hash : String) (e : Exchange)
    (h : e.response = (serve sha256 disk e.request).2) :
    afterExchange hash (disk.get? hash) e = (serve sha256 disk e.request).1.get? hash := by
  rw [get?_serve]
  obtain ⟨req, touched, response⟩ := e
  cases req with
  | post k body =>
    simp only [afterExchange, afterRequest, serve] at h ⊢
    rcases postChunk_accepted sha256 disk k body with ⟨hempty, hlen, hsha, hpost⟩ | ⟨hrefused, -, hstatus⟩
    · rw [h, hpost]
      simp [hempty, hlen, hsha]
    · rw [h, if_neg fun hc => hstatus hc.2, if_neg fun hc => hrefused hc.2]
  | get k => rfl
  | delete k => rfl

/-- The table of chunks after the requests. -/
def diskAfter (sha256 : Bytes → String) (disk : Disk) (reqs : List ChunkRequest) : Disk :=
  reqs.foldl (fun disk req => (serve sha256 disk req).1) disk

theorem get?_diskAfter (sha256 : Bytes → String) (hash : String) (disk : Disk) (reqs : List ChunkRequest) :
    (diskAfter sha256 disk reqs).get? hash = reqs.foldl (afterRequest sha256 hash) (disk.get? hash) := by
  induction reqs generalizing disk with
  | nil => rfl
  | cons req rest ih =>
    rw [List.foldl_cons, ← get?_serve]
    exact ih (serve sha256 disk req).1

/-- **A run of the store is one of the table of chunks.** -/
theorem serveAll_refines (haes : w.evp.AesCbc) (hrep : w.Represents fs disk) (steps : List (ChunkRequest × Outcome))
    (hhex : ∀ s ∈ steps, HexDigest s.1.hash) (ho : ∀ s ∈ steps, s.2.Succeeds) :
    ∃ fs' log, w.serveAll fs steps = some (fs', log) ∧
      w.Represents fs' (diskAfter w.sha256 disk (steps.map Prod.fst)) ∧
      ∀ hash, log.foldl (afterExchange hash) (disk.get? hash) =
        (diskAfter w.sha256 disk (steps.map Prod.fst)).get? hash := by
  induction steps generalizing fs disk with
  | nil => exact ⟨fs, [], rfl, hrep, fun _ => rfl⟩
  | cons step rest ih =>
    obtain ⟨req, o⟩ := step
    obtain ⟨e, he, hresult, hrep'⟩ := handleChunk_refines haes hrep (hhex _ List.mem_cons_self) (ho _ List.mem_cons_self)
    obtain ⟨fs', log, hlog, hrep'', hlast⟩ := ih hrep' (fun s hs => hhex s (List.mem_cons_of_mem _ hs))
      (fun s hs => ho s (List.mem_cons_of_mem _ hs))
    refine ⟨fs', ⟨req, e.touched, e.result⟩ :: log, ?_, hrep'', fun hash => ?_⟩
    · rw [WorkerNode.serveAll, he, Option.bind_some, hlog]
      rfl
    · rw [List.foldl_cons, afterExchange_eq w.sha256 disk hash _ hresult]
      exact hlast hash

/-- No `GET` comes while the last body that was stored under its hash is the empty one. -/
def NoEmptyRead (sha256 : Bytes → String) (reqs : List ChunkRequest) : Prop :=
  ∀ i hash, reqs[i]? = some (.get hash) → storedBody sha256 hash (reqs.take i) ≠ some []

/-- The table answers as it should but for the empty chunk. -/
theorem answered_iff {sha256 : Bytes → String} {log : List Exchange} (hlast : ∀ hash, lastStored hash log = disk.get? hash)
    (req : ChunkRequest) :
    Answered sha256 log req (serve sha256 disk req).2 ↔ ∀ hash, req = .get hash → disk.get? hash ≠ some [] := by
  cases req with
  | post hash body =>
    refine iff_of_true (fun hstatus => ?_) fun _ h => by cases h
    rcases postChunk_accepted sha256 disk hash body with ⟨-, -, hsha, -⟩ | ⟨-, -, hrefused⟩
    · exact hsha
    · exact absurd hstatus hrefused
  | get hash =>
    simp only [Answered, hlast, serve, getChunk]
    cases hget : disk.get? hash with
    | none =>
      refine iff_of_true rfl fun _ h => ?_
      cases h
      rw [hget]
      simp
    | some body =>
      cases body with
      | nil => exact iff_of_false (fun h => absurd h.1 (by simp)) fun h => h hash rfl hget
      | cons b bs =>
        refine iff_of_true ⟨rfl, rfl⟩ fun _ h => ?_
        cases h
        rw [hget]
        simp
  | delete hash => exact iff_of_true trivial fun _ h => by cases h

/-- **The round trip of the store**: every answer is as it should be exactly if no chunk is read that was stored empty. -/
theorem store_round_trip_iff (haes : w.evp.AesCbc) (hfresh : w.Fresh fs) {steps : List (ChunkRequest × Outcome)}
    (hhex : ∀ s ∈ steps, HexDigest s.1.hash) (ho : ∀ s ∈ steps, s.2.Succeeds) :
    w.StoreRoundTrip fs steps ↔ NoEmptyRead w.sha256 (steps.map Prod.fst) := by
  have hanswer : ∀ i req o, steps[i]? = some (req, o) → ∃ fs' log e, w.serveAll fs (steps.take i) = some (fs', log) ∧
      w.handleChunk fs' o req = some e ∧ (Answered w.sha256 log req e.result ↔
        ∀ hash, req = .get hash → storedBody w.sha256 hash ((steps.map Prod.fst).take i) ≠ some []) := by
    intro i req o hi
    have hin := List.mem_of_getElem? hi
    obtain ⟨fs', log, hlog, hrep, hlast⟩ := serveAll_refines haes hfresh.represents (steps.take i)
      (fun s hs => hhex s (List.mem_of_mem_take hs)) fun s hs => ho s (List.mem_of_mem_take hs)
    obtain ⟨e, he, hresult, -⟩ := handleChunk_refines haes hrep (hhex _ hin) (ho _ hin)
    refine ⟨fs', log, e, hlog, he, ?_⟩
    rw [hresult, answered_iff hlast, List.map_take]
    refine forall_congr' fun hash => forall_congr' fun _ => ?_
    rw [get?_diskAfter]
    rfl
  constructor
  · rintro ⟨hanswers, -, -⟩ i hash hget
    rw [List.getElem?_map, Option.map_eq_some_iff] at hget
    obtain ⟨⟨req, o⟩, hi, rfl⟩ := hget
    obtain ⟨fs₁, log₁, e₁, hlog₁, he₁, hanswered⟩ := hanswers i _ o hi
    obtain ⟨fs₂, log₂, e₂, hlog₂, he₂, hiff⟩ := hanswer i _ o hi
    obtain ⟨rfl, rfl⟩ := Prod.mk.inj (Option.some.inj (hlog₁.symm.trans hlog₂))
    obtain rfl := Option.some.inj (he₁.symm.trans he₂)
    exact hiff.1 hanswered hash rfl
  · intro hread
    have hmax : maxPayload < 2 ^ 30 := by decide
    refine ⟨fun i req o hi => ?_, fun setup body => encryptBytes_fits haes body,
      fun setup body file hlen hfile => decryptBytes_fits haes (by omega) hfile⟩
    obtain ⟨fs', log, e, hlog, he, hiff⟩ := hanswer i req o hi
    refine ⟨fs', log, e, hlog, he, hiff.2 fun hash hget => hread i hash ?_⟩
    rw [List.getElem?_map, hi, hget]
    rfl

end

/-! ## One node -/

/-- The digest of the empty chunk. The runs hash no others. -/
def emptyHash : String := "e3b0c44298fc1c149afbf4c8996fb92427ae41e4649b934ca495991b7852b855"

/-- A node that hashes two bodies. -/
def sampleNode : WorkerNode where
  evp := sampleEvp
  nodeKey := sampleKey
  sha256 body := if body = [97] then sampleHash else emptyHash
  storageDir := ["srv", "chunks"]

/-- An empty storage directory. -/
def sampleFs : FileSystem Bytes := ⟨Table.empty, [["srv"], ["srv", "chunks"]]⟩

/-- No fault; a directory opens and is too large for a vector. -/
def smooth : Outcome where
  setup := ⟨some sampleIv, true, true⟩
  space := true
  opens := true
  dirFits := false
  written := none
  reads := true
  removes := true

theorem smooth_succeeds : smooth.Succeeds := ⟨rfl, rfl, rfl, rfl, rfl, rfl, rfl, rfl⟩

theorem sampleNode_fresh : sampleNode.Fresh sampleFs where
  dir := by decide +kernel
  empty hash := by
    refine ⟨rfl, ?_⟩
    have hlen : (sampleNode.chunkFile hash).length = 3 := rfl
    rw [Bool.eq_false_iff]
    intro hdir
    rw [FileSystem.isDir, Bool.or_eq_true, List.isEmpty_iff, List.contains_iff_mem] at hdir
    rcases hdir with hdir | hdir
    · rw [hdir] at hlen
      cases hlen
    · have hshort : ∀ dir ∈ sampleFs.dirs, dir.length ≤ 2 := by decide
      have := hshort _ hdir
      omega

/-- Stored, read, deleted, and not there. -/
def storedAndRead : List (ChunkRequest × Outcome) :=
  [(.post sampleHash [97], smooth), (.get sampleHash, smooth), (.delete sampleHash, smooth), (.get sampleHash, smooth)]

theorem store_round_trip_stored : sampleNode.StoreRoundTrip sampleFs storedAndRead := by
  have hhash : HexDigest sampleHash := by decide +kernel
  refine (store_round_trip_iff sampleEvp_aesCbc sampleNode_fresh (fun s hs => ?_) fun s hs => ?_).2 fun i hash hget => ?_
  · simp only [storedAndRead, List.mem_cons, List.not_mem_nil, or_false] at hs
    rcases hs with rfl | rfl | rfl | rfl <;> exact hhash
  · simp only [storedAndRead, List.mem_cons, List.not_mem_nil, or_false] at hs
    rcases hs with rfl | rfl | rfl | rfl <;> exact smooth_succeeds
  · have hcases : i = 0 ∨ i = 1 ∨ i = 2 ∨ i = 3 := by
      have hlt : i < 4 := (List.getElem?_eq_some_iff.1 hget).1
      omega
    rcases hcases with rfl | rfl | rfl | rfl <;> simp [storedAndRead] at hget
    · rw [← hget]
      decide +kernel
    · rw [← hget]
      decide +kernel

/-- The empty chunk, stored and read. -/
def emptyChunk : List (ChunkRequest × Outcome) := [(.post emptyHash [], smooth), (.get emptyHash, smooth)]

/-- **An empty chunk is accepted and not found.** -/
theorem emptyChunk_notFound :
    (sampleNode.serveAll sampleFs emptyChunk).map (fun out => out.2.map fun e => e.response.status) = some [200, 404] ∧
      ¬ sampleNode.StoreRoundTrip sampleFs emptyChunk := by
  refine ⟨by decide +kernel, fun h => ?_⟩
  obtain ⟨fs', log, e, hlog, he, hanswered⟩ := h.answers 1 (.get emptyHash) smooth rfl
  have hrun : (sampleNode.serveAll sampleFs (emptyChunk.take 1)).bind (fun out =>
      (sampleNode.handleChunk out.1 smooth (.get emptyHash)).map fun e => (lastStored emptyHash out.2, e.result.status)) =
        some (some [], 404) := by
    decide +kernel
  rw [hlog, Option.bind_some, he, Option.map_some, Option.some.injEq, Prod.mk.injEq] at hrun
  simp [Answered, hrun.1, hrun.2] at hanswered

end StorageEngine
