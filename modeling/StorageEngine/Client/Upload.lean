import Mathlib.Data.List.Sigma
import StorageEngine.Client.State
import StorageEngine.Cluster.Worker
import StorageEngine.Lib.Extent
import StorageEngine.Metadata.Spec

/-!
# `UploadFile`

One call as a function of the transfer files it finds and of what happens to it: what the file system, the
master and the workers answer, and when the transfer is paused. A transfer that is left early fails, so the
number of pending chunks it took up and the answer of each node give its outcome; the order in which the nodes
answer gives the log.

| here | there |
| --- | --- |
| `computeHashes`                 | `LocalFileSlicer::ComputeHashes` (`LocalFileSlicer.cpp:16-80`) |
| `readChunks`                    | `ReadChunk`, index after index (`:91-104`): a short read fails the stream, `seekg` does not mend it |
| `correlate`                     | the two-pointer loop (`DSEClient.cpp:189-204`) |
| `PostTask`, `uploadTasks`       | the pool's tasks (`ParallelTransferManager.cpp:126-166`), each with `UploadChunkToWorker`'s retries |
| `upload`                        | `Upload` (`:111-179`) |
| `resume`                        | `DSEClient.cpp:110-141` |
| `blueprint`                     | `:146-175` |
| `finish`, `transferAndCommit`   | `:206-256` |
| `uploadFile`                    | `UploadFile` (`:63-326`) |
-/

namespace StorageEngine

open Extent

/-- `CHUNK_SIZE`. -/
def chunkSize : Nat := 1048576

def computeHashes (sha256 : Bytes → String) (content : Bytes) : List String := (pieces chunkSize content).map sha256

/-- `failed` is the `failbit` of the stream. -/
def readChunks (content : Bytes) : Bool → List Nat → List Bytes
  | _, [] => []
  | true, _ :: is => [] :: readChunks content true is
  | false, i :: is =>
    let b := slice content (i * chunkSize) chunkSize
    b :: readChunks content (b.length < chunkSize) is

/-- From index `i` on. A plan is taken where its hash comes next, whether or not the chunk is pending. -/
def correlate : Nat → List String → List Bool → List ChunkRoutingPlan → List (Nat × ChunkRoutingPlan)
  | i, h :: hs, c :: cs, p :: ps =>
    if h = p.hash then (if c then [] else [(i, p)]) ++ correlate (i + 1) hs cs ps
    else correlate (i + 1) hs cs (p :: ps)
  | _, _, _, _ => []

/-! ## `ParallelTransferManager::Upload` -/

structure PostTask where
  node : NodeInfo
  hash : String
  payload : Bytes
deriving DecidableEq

/-- Keyed by the chunk's index and the position of the node. -/
def uploadTasks (content : Bytes) (pending : List (Nat × ChunkRoutingPlan)) : List ((Nat × Nat) × PostTask) :=
  (pending.zip (readChunks content false (pending.map Prod.fst))).flatMap fun e =>
    e.1.2.assignedNodes.zipIdx.map fun n => ((e.1.1, n.2), ⟨n.1, e.1.2.hash, e.2⟩)

/-- What a call of `Upload` meets. -/
structure TransferEvents where
  /-- The pending chunks taken up before the loop ends. -/
  enqueued : Nat
  /-- The node answers 200 within its three attempts. -/
  acks : Nat → Nat → Bool
  order : List (Nat × Nat)
  /-- By batch of the log. -/
  io : Nat → WriteOutcome
  /-- Still `RUNNING` at the end. -/
  running : Bool

/-- What a call of `Upload` did, and returns. -/
structure TransferResult where
  transfers : TransferFiles
  sent : List ((Nat × Nat) × PostTask)
  acked : List ((Nat × Nat) × PostTask)
  success : Bool

/-- The batches of the progress log, one after the other. -/
def appendBatches (t : TransferFiles) (io : Nat → WriteOutcome) (indices : List Int) : TransferFiles :=
  (pieces 64 indices).zipIdx.foldl (fun t b => t.appendCompletedIndices b.1 (io b.2)) t

/-- An index is logged for each node that acknowledges it. -/
def upload (t : TransferFiles) (content : Bytes) (pending : List (Nat × ChunkRoutingPlan)) (ev : TransferEvents) :
    TransferResult :=
  let sent := uploadTasks content (pending.take ev.enqueued)
  let acked := (scan ev.order sent).filter fun e => ev.acks e.1.1 e.1.2
  ⟨appendBatches t ev.io (acked.map fun e => (e.1.1 : Int)), sent, acked,
    decide (pending.length ≤ ev.enqueued) && sent.all (fun e => ev.acks e.1.1 e.1.2) && ev.running⟩

/-! ## `DSEClient::UploadFile` -/

/-- The file as a look at it finds it. -/
structure LocalFile where
  content : Bytes
  modified : Int
deriving DecidableEq

/-- When the file is looked at. -/
inductive Moment where
  | start | hashing | beforeTransfer | transfer | afterTransfer
deriving DecidableEq, Repr

/-- What a call of `UploadFile` meets. -/
structure UploadEvents where
  /-- What `FileExists` returns; `none` where it throws. -/
  found : Option Bool
  seen : Moment → Option LocalFile
  now : Int
  manifestOpens : Bool
  logOpens : Bool
  removeStale : RemoveOutcome
  save : WriteOutcome
  /-- `InitializeUpload`; `none` where it throws. -/
  init : List String → Option (List ChunkRoutingPlan)
  transfer : TransferEvents
  /-- `CommitFile`, of the size and the list. -/
  commit : Int → List String → Bool
  removeDone : RemoveOutcome

/-- How a call of `UploadFile` ends. -/
inductive UploadEnd where
  | returned (ok : Bool)
  | threw
  /-- In the destructor of the pool of `Upload`. -/
  | stuck
deriving DecidableEq, Repr

/-- What a call of `UploadFile` did. -/
structure UploadResult where
  transfers : TransferFiles
  ended : UploadEnd
  /-- The list sent to `InitializeUpload`, and the plans that came back. -/
  initialized : Option (List String)
  missing : List ChunkRoutingPlan
  sent : List ((Nat × Nat) × PostTask)
  acked : List ((Nat × Nat) × PostTask)
  /-- The size and the list sent to `CommitFile`. -/
  committed : Option (Int × List String)

/-- A call that returns `false` at once. -/
def UploadResult.stopped (t : TransferFiles) : UploadResult := ⟨t, .returned false, none, [], [], [], none⟩

/-- Size and time are those the call began with. -/
def unchanged (f : LocalFile) : Option LocalFile → Bool
  | some g => g.content.length == f.content.length && g.modified == f.modified
  | none => false

/-- The manifest to go on with, empty where there is none to resume; `none` where loading throws. -/
def resume (t : TransferFiles) (f : LocalFile) (ev : UploadEvents) : Option (TransferFiles × UploadManifest) :=
  if t.hasActiveUpload then
    (t.loadUploadManifest ev.manifestOpens ev.logOpens).map fun m =>
      if m.totalSize ≠ (f.content.length : Int) ∨ m.tempModifiedTimestamp ≠ f.modified ∨
          82800 < ev.now - m.sessionTimestamp then
        (t.deleteUploadManifest ev.removeStale, .empty)
      else (t, m)
  else some (t, .empty)

section
variable (sha256 : Bytes → String)

/-- An empty list is computed anew; `none` where the file does not open. -/
def blueprint (t : TransferFiles) (m : UploadManifest) (filepath : String) (f : LocalFile) (ev : UploadEvents) :
    Option (TransferFiles × UploadManifest) :=
  if m.chunkHashes.isEmpty then
    (ev.seen .hashing).map fun g =>
      let hashes := computeHashes sha256 g.content
      let m' : UploadManifest :=
        ⟨filepath, f.content.length, f.modified, ev.now, hashes, List.replicate hashes.length false⟩
      (t.saveUploadManifest m' ev.save, m')
  else some (t, m)

/-- From the second look at the file on. -/
def finish (res : UploadResult) (m : UploadManifest) (f : LocalFile) (ev : UploadEvents) : UploadResult :=
  if unchanged f (ev.seen .afterTransfer) then
    let res := { res with committed := some ((f.content.length : Int), m.chunkHashes) }
    if ev.commit f.content.length m.chunkHashes then
      { res with transfers := res.transfers.deleteUploadManifest ev.removeDone, ended := .returned true }
    else res
  else res

/-- `OpenStream` throws where the file does not open, and `Upload` has its pool by then. -/
def transferAndCommit (res : UploadResult) (m : UploadManifest) (f : LocalFile) (ev : UploadEvents) : UploadResult :=
  let pending := correlate 0 m.chunkHashes m.completedChunks res.missing
  if !unchanged f (ev.seen .beforeTransfer) then res
  else if pending.isEmpty then finish res m f ev
  else
    match ev.seen .transfer with
    | none => { res with ended := .stuck }
    | some g =>
      let up := upload res.transfers g.content pending ev.transfer
      let res := { res with transfers := up.transfers, sent := up.sent, acked := up.acked }
      if up.success then finish res m f ev else res

def uploadFile (t : TransferFiles) (filepath : String) (ev : UploadEvents) : UploadResult :=
  match ev.found, ev.seen .start with
  | some false, some f =>
    match resume t f ev with
    | none => { UploadResult.stopped t with ended := .threw }
    | some (t, m) =>
      match blueprint sha256 t m filepath f ev with
      | none => .stopped t
      | some (t, m) =>
        match ev.init m.chunkHashes with
        | none => { UploadResult.stopped t with initialized := some m.chunkHashes }
        | some plans =>
          transferAndCommit { UploadResult.stopped t with initialized := some m.chunkHashes, missing := plans } m f ev
  | _, _ => .stopped t

end

theorem chunkSize_pos : 0 < chunkSize := by decide

/-! ## The pending chunks -/

/-- What is pending has its plan's hash and is not completed. -/
theorem mem_correlate {hs : List String} {i₀ : Nat} {cs : List Bool} {ps : List ChunkRoutingPlan}
    {e : Nat × ChunkRoutingPlan} (h : e ∈ correlate i₀ hs cs ps) :
    ∃ k, e.1 = i₀ + k ∧ hs[k]? = some e.2.hash ∧ cs[k]? = some false ∧ e.2 ∈ ps := by
  induction hs generalizing i₀ cs ps with
  | nil => simp [correlate] at h
  | cons x hs ih =>
    have hnext : ∀ {c : Bool} {cs : List Bool} {ps ps' : List ChunkRoutingPlan}, (∀ p ∈ ps', p ∈ ps) →
        e ∈ correlate (i₀ + 1) hs cs ps' →
        ∃ k, e.1 = i₀ + k ∧ (x :: hs)[k]? = some e.2.hash ∧ (c :: cs)[k]? = some false ∧ e.2 ∈ ps := by
      intro c cs ps ps' hsub he
      obtain ⟨k, hk, hh, hc, hp⟩ := ih he
      exact ⟨k + 1, by omega, hh, hc, hsub _ hp⟩
    match cs, ps, h with
    | c :: cs, p :: ps, h =>
      simp only [correlate] at h
      split at h
      · rename_i hx
        rcases List.mem_append.1 h with h | h
        · cases c with
          | true => simp at h
          | false =>
            obtain rfl := List.mem_singleton.1 h
            exact ⟨0, rfl, by simp [hx], rfl, List.mem_cons_self⟩
        · exact hnext (fun _ hm => List.mem_cons_of_mem _ hm) h
      · exact hnext (fun _ hm => hm) h

/-- The indices ascend. -/
theorem correlate_ascending (hs : List String) (i₀ : Nat) (cs : List Bool) (ps : List ChunkRoutingPlan) :
    ((correlate i₀ hs cs ps).map Prod.fst).Pairwise (· < ·) := by
  induction hs generalizing i₀ cs ps with
  | nil => simp [correlate]
  | cons x hs ih =>
    match cs, ps with
    | [], _ => simp [correlate]
    | _ :: _, [] => simp [correlate]
    | c :: cs, p :: ps =>
      simp only [correlate]
      split
      · cases c with
        | true => exact ih _ _ _
        | false =>
          simp only [Bool.false_eq_true, if_false, List.singleton_append, List.map_cons, List.pairwise_cons]
          refine ⟨fun j hj => ?_, ih _ _ _⟩
          obtain ⟨e, he, rfl⟩ := List.mem_map.1 hj
          obtain ⟨k, hk, -⟩ := mem_correlate he
          omega
      · exact ih _ _ _

/-- **No plan is passed over** where the plans come in the order of the hashes. -/
theorem correlate_complete {hs : List String} (i₀ : Nat) {cs : List Bool} {ps : List ChunkRoutingPlan}
    (hlen : cs.length = hs.length) (hsub : (ps.map ChunkRoutingPlan.hash).Sublist hs) :
    ∀ p ∈ ps, ∃ k, hs[k]? = some p.hash ∧ (cs[k]? = some true ∨ (i₀ + k, p) ∈ correlate i₀ hs cs ps) := by
  induction hs generalizing i₀ cs ps with
  | nil =>
    intro p hp
    rw [List.sublist_nil, List.map_eq_nil_iff] at hsub
    rw [hsub] at hp
    cases hp
  | cons x hs ih =>
    match cs, ps with
    | _, [] => exact fun p hp => by cases hp
    | [], _ :: _ => cases hlen
    | c :: cs, q :: ps =>
      have hlen' : cs.length = hs.length := by simpa using hlen
      intro p hp
      simp only [correlate]
      split
      · rename_i hx
        rcases List.mem_cons.1 hp with rfl | hp
        · refine ⟨0, by simp [hx], ?_⟩
          cases c with
          | true => exact Or.inl rfl
          | false => exact Or.inr (by simp)
        · rw [List.map_cons, hx, List.cons_sublist_cons] at hsub
          obtain ⟨k, hk, hor⟩ := ih (i₀ + 1) hlen' hsub p hp
          refine ⟨k + 1, hk, hor.imp_right fun hm => List.mem_append_right _ ?_⟩
          rwa [Nat.add_assoc, Nat.add_comm 1] at hm
      · rename_i hx
        have hsub' : ((q :: ps).map ChunkRoutingPlan.hash).Sublist hs := by
          cases hsub with
          | cons _ h => exact h
          | cons_cons _ h => exact absurd rfl hx
        obtain ⟨k, hk, hor⟩ := ih (i₀ + 1) hlen' hsub' p hp
        refine ⟨k + 1, hk, hor.imp_right fun hm => ?_⟩
        rwa [Nat.add_assoc, Nat.add_comm 1] at hm

/-! ## The tasks -/

theorem length_readChunks (content : Bytes) (is : List Nat) : ∀ failed, (readChunks content failed is).length = is.length := by
  induction is with
  | nil => intro failed; cases failed <;> rfl
  | cons i is ih =>
    intro failed
    cases failed <;> simp [readChunks, ih]

/-- Ascending indices within the file read its chunks: only the last one can be short. -/
theorem readChunks_ascending {content : Bytes} {is : List Nat} (hasc : is.Pairwise (· < ·))
    (hin : ∀ i ∈ is, i * chunkSize < content.length) :
    readChunks content false is = is.map fun i => slice content (i * chunkSize) chunkSize := by
  induction is with
  | nil => rfl
  | cons i is ih =>
    obtain ⟨hlt, hasc⟩ := List.pairwise_cons.1 hasc
    have htail := ih hasc fun j hj => hin j (List.mem_cons_of_mem _ hj)
    simp only [readChunks, List.map_cons, List.cons.injEq, true_and]
    cases is with
    | nil => cases decide ((slice content (i * chunkSize) chunkSize).length < chunkSize) <;> rfl
    | cons j js =>
      -- another chunk follows, so this one is full
      have hij : (i + 1) * chunkSize ≤ j * chunkSize := Nat.mul_le_mul_right _ (hlt j List.mem_cons_self)
      have hj := hin j (List.mem_cons_of_mem _ List.mem_cons_self)
      have hfull : ¬ (slice content (i * chunkSize) chunkSize).length < chunkSize := by
        rw [Nat.succ_mul] at hij
        rw [length_slice]
        omega
      rw [decide_eq_false hfull]
      exact htail

theorem zip_readChunks {content : Bytes} {pending : List (Nat × ChunkRoutingPlan)}
    (hasc : (pending.map Prod.fst).Pairwise (· < ·)) (hin : ∀ c ∈ pending, c.1 * chunkSize < content.length) :
    pending.zip (readChunks content false (pending.map Prod.fst)) =
      pending.map fun c => (c, slice content (c.1 * chunkSize) chunkSize) := by
  have hlt : ∀ i ∈ pending.map Prod.fst, i * chunkSize < content.length := by
    intro i hi
    obtain ⟨c, hc, rfl⟩ := List.mem_map.1 hi
    exact hin c hc
  rw [readChunks_ascending hasc hlt, List.map_map, Function.comp_def]
  have hzip := List.zip_map' (f := id) (g := fun c : Nat × ChunkRoutingPlan => slice content (c.1 * chunkSize) chunkSize)
    (l := pending)
  rw [List.map_id] at hzip
  exact hzip

theorem mem_uploadTasks {content : Bytes} {pending : List (Nat × ChunkRoutingPlan)} {e : (Nat × Nat) × PostTask}
    (h : e ∈ uploadTasks content pending) : ∃ plan payload,
      ((e.1.1, plan), payload) ∈ pending.zip (readChunks content false (pending.map Prod.fst)) ∧
      plan.assignedNodes[e.1.2]? = some e.2.node ∧ e.2.hash = plan.hash ∧ e.2.payload = payload := by
  obtain ⟨⟨⟨i, plan⟩, payload⟩, hz, he⟩ := List.mem_flatMap.1 h
  obtain ⟨⟨node, k⟩, hn, rfl⟩ := List.mem_map.1 he
  exact ⟨plan, payload, hz, List.mem_zipIdx_iff_getElem?.1 hn, rfl, rfl⟩

/-- Every node of every pending chunk has a task. -/
theorem uploadTasks_complete (content : Bytes) {pending : List (Nat × ChunkRoutingPlan)} {i k : Nat}
    {plan : ChunkRoutingPlan} {node : NodeInfo} (hp : (i, plan) ∈ pending) (hk : plan.assignedNodes[k]? = some node) :
    ∃ payload, ((i, k), ⟨node, plan.hash, payload⟩) ∈ uploadTasks content pending := by
  have hfst : (pending.zip (readChunks content false (pending.map Prod.fst))).map Prod.fst = pending := List.map_fst_zip
    (by rw [length_readChunks, List.length_map])
  rw [← hfst] at hp
  obtain ⟨⟨e, payload⟩, hz, rfl⟩ := List.mem_map.1 hp
  exact ⟨payload, List.mem_flatMap.2 ⟨_, hz, List.mem_map.2 ⟨(node, k), List.mem_zipIdx_iff_getElem?.2 hk, rfl⟩⟩⟩

theorem nodup_uploadTasks (content : Bytes) {pending : List (Nat × ChunkRoutingPlan)}
    (h : (pending.map Prod.fst).Pairwise (· < ·)) : ((uploadTasks content pending).map Prod.fst).Nodup := by
  unfold uploadTasks
  rw [List.map_flatMap, List.nodup_flatMap]
  constructor
  · intro e _
    rw [List.map_map]
    have hnd := List.nodup_zipIdx_map_snd e.1.2.assignedNodes
    refine List.Nodup.of_map Prod.snd ?_
    rwa [List.map_map]
  · have hfst : (pending.zip (readChunks content false (pending.map Prod.fst))).map Prod.fst = pending := List.map_fst_zip
      (by rw [length_readChunks, List.length_map])
    rw [← hfst, List.map_map, List.pairwise_map] at h
    refine h.imp fun {a b} hlt x hxa hxb => ?_
    obtain ⟨y, hy, rfl⟩ := List.mem_map.1 hxa
    obtain ⟨z, hz, hzy⟩ := List.mem_map.1 hxb
    obtain ⟨n, -, rfl⟩ := List.mem_map.1 hy
    obtain ⟨n', -, rfl⟩ := List.mem_map.1 hz
    have hkey : (b.1.1, n'.2) = (a.1.1, n.2) := hzy
    have he : b.1.1 = a.1.1 := (Prod.mk.inj hkey).1
    have hlt' : a.1.1 < b.1.1 := hlt
    omega

/-! ## What a call comes to -/

/-- What became of the pending chunks, of the file, and of the commit. -/
structure TransferOutcome (t : TransferFiles) (m : UploadManifest) (plans : List ChunkRoutingPlan) (f : LocalFile)
    (ev : UploadEvents) (up : TransferResult) (out : UploadResult) : Prop where
  initialized : out.initialized = some m.chunkHashes
  missing : out.missing = plans
  sent : out.sent = up.sent
  acked : out.acked = up.acked
  tried : up = ⟨t, [], [], (correlate 0 m.chunkHashes m.completedChunks plans).isEmpty⟩ ∨
    ∃ g, ev.seen .transfer = some g ∧ up = upload t g.content (correlate 0 m.chunkHashes m.completedChunks plans) ev.transfer
  ended : out.ended ≠ .returned true ∧ out.transfers = up.transfers ∧
      (out.committed = none ∨ up.success = true ∧
        out.committed = some ((f.content.length : Int), m.chunkHashes) ∧ ev.commit f.content.length m.chunkHashes = false) ∨
    out.ended = .returned true ∧ out.transfers = up.transfers.deleteUploadManifest ev.removeDone ∧
      out.committed = some ((f.content.length : Int), m.chunkHashes) ∧
      ev.commit f.content.length m.chunkHashes = true ∧ up.success = true ∧
      unchanged f (ev.seen .beforeTransfer) = true ∧ unchanged f (ev.seen .afterTransfer) = true

theorem transferAndCommit_spec (t : TransferFiles) (m : UploadManifest) (plans : List ChunkRoutingPlan) (f : LocalFile)
    (ev : UploadEvents) : ∃ up, TransferOutcome t m plans f ev up
      (transferAndCommit { UploadResult.stopped t with initialized := some m.chunkHashes, missing := plans } m f ev) := by
  have hfinish : ∀ (up : TransferResult), up.success = true → unchanged f (ev.seen .beforeTransfer) = true →
      (up = ⟨t, [], [], (correlate 0 m.chunkHashes m.completedChunks plans).isEmpty⟩ ∨
        ∃ g, ev.seen .transfer = some g ∧
          up = upload t g.content (correlate 0 m.chunkHashes m.completedChunks plans) ev.transfer) →
      TransferOutcome t m plans f ev up
        (finish ⟨up.transfers, .returned false, some m.chunkHashes, plans, up.sent, up.acked, none⟩ m f ev) := by
    intro up hsuccess hbefore htried
    unfold finish
    split
    · rename_i hafter
      simp only
      split
      · rename_i hcommit
        exact ⟨rfl, rfl, rfl, rfl, htried, Or.inr ⟨rfl, rfl, rfl, hcommit, hsuccess, hbefore, hafter⟩⟩
      · rename_i hcommit
        exact ⟨rfl, rfl, rfl, rfl, htried, Or.inl ⟨by simp, rfl, Or.inr ⟨hsuccess, rfl, by simpa using hcommit⟩⟩⟩
    · exact ⟨rfl, rfl, rfl, rfl, htried, Or.inl ⟨by simp, rfl, Or.inl rfl⟩⟩
  have hposted : ∀ (up : TransferResult), unchanged f (ev.seen .beforeTransfer) = true →
      (∃ g, ev.seen .transfer = some g ∧
        up = upload t g.content (correlate 0 m.chunkHashes m.completedChunks plans) ev.transfer) →
      TransferOutcome t m plans f ev up
        (if up.success then
          finish ⟨up.transfers, .returned false, some m.chunkHashes, plans, up.sent, up.acked, none⟩ m f ev
        else ⟨up.transfers, .returned false, some m.chunkHashes, plans, up.sent, up.acked, none⟩) := by
    intro up hbefore hup
    split
    · rename_i hsuccess
      exact hfinish up hsuccess hbefore (Or.inr hup)
    · exact ⟨rfl, rfl, rfl, rfl, Or.inr hup, Or.inl ⟨by simp, rfl, Or.inl rfl⟩⟩
  unfold transferAndCommit
  simp only [UploadResult.stopped]
  split
  · exact ⟨_, rfl, rfl, rfl, rfl, Or.inl rfl, Or.inl ⟨by simp, rfl, Or.inl rfl⟩⟩
  · rename_i hbefore
    have hbefore' : unchanged f (ev.seen .beforeTransfer) = true := by simpa using hbefore
    split
    · rename_i hempty
      exact ⟨_, hfinish _ hempty hbefore' (Or.inl rfl)⟩
    · split
      · exact ⟨_, rfl, rfl, rfl, rfl, Or.inl rfl, Or.inl ⟨by simp, rfl, Or.inl rfl⟩⟩
      · rename_i g hg
        exact ⟨_, hposted _ hbefore' ⟨g, hg, rfl⟩⟩

/-- How far a call got. -/
inductive UploadPath (sha256 : Bytes → String) (t : TransferFiles) (filepath : String) (ev : UploadEvents) :
    UploadResult → Prop where
  | refused {out : UploadResult}
      (hwhy : ev.found = some false → ∀ f, ev.seen .start = some f → resume t f ev = none)
      (hended : out.ended ≠ .returned true) (hout : out = { UploadResult.stopped t with ended := out.ended }) :
      UploadPath sha256 t filepath ev out
  | unreadable {out : UploadResult} {f : LocalFile} {t₁ : TransferFiles} {m₁ : UploadManifest}
      (hfound : ev.found = some false) (hstart : ev.seen .start = some f) (hresume : resume t f ev = some (t₁, m₁))
      (hblueprint : blueprint sha256 t₁ m₁ filepath f ev = none) (hout : out = .stopped t₁) :
      UploadPath sha256 t filepath ev out
  | uninitialized {out : UploadResult} {f : LocalFile} {t₁ t₂ : TransferFiles} {m₁ m₂ : UploadManifest}
      (hfound : ev.found = some false) (hstart : ev.seen .start = some f) (hresume : resume t f ev = some (t₁, m₁))
      (hblueprint : blueprint sha256 t₁ m₁ filepath f ev = some (t₂, m₂)) (hinit : ev.init m₂.chunkHashes = none)
      (hout : out = { UploadResult.stopped t₂ with initialized := some m₂.chunkHashes }) :
      UploadPath sha256 t filepath ev out
  | transferred {out : UploadResult} {f : LocalFile} {t₁ t₂ : TransferFiles} {m₁ m₂ : UploadManifest}
      {plans : List ChunkRoutingPlan} {up : TransferResult} (hfound : ev.found = some false)
      (hstart : ev.seen .start = some f) (hresume : resume t f ev = some (t₁, m₁))
      (hblueprint : blueprint sha256 t₁ m₁ filepath f ev = some (t₂, m₂)) (hinit : ev.init m₂.chunkHashes = some plans)
      (hout : TransferOutcome t₂ m₂ plans f ev up out) : UploadPath sha256 t filepath ev out

/-- **One call.** -/
theorem uploadFile_path (sha256 : Bytes → String) (t : TransferFiles) (filepath : String) (ev : UploadEvents) :
    UploadPath sha256 t filepath ev (uploadFile sha256 t filepath ev) := by
  unfold uploadFile
  split
  · rename_i f hfound hstart
    split
    · rename_i hresume
      refine .refused (fun _ g hg => ?_) (by simp) rfl
      obtain rfl := Option.some.inj (hstart.symm.trans hg)
      exact hresume
    · rename_i t₁ m₁ hresume
      split
      · rename_i hblueprint
        exact .unreadable hfound hstart hresume hblueprint rfl
      · rename_i t₂ m₂ hblueprint
        split
        · rename_i hinit
          exact .uninitialized hfound hstart hresume hblueprint hinit rfl
        · rename_i plans hinit
          obtain ⟨up, hup⟩ := transferAndCommit_spec t₂ m₂ plans f ev
          exact .transferred hfound hstart hresume hblueprint hinit hup
  · rename_i hother
    exact .refused (fun hfound f hstart => (hother f hfound hstart).elim) (by simp [UploadResult.stopped]) rfl

/-- What there is to go on with: nothing, or the saved manifest with the bits of the log. -/
theorem resume_cases {t t₁ : TransferFiles} {f : LocalFile} {ev : UploadEvents} {m₁ : UploadManifest}
    (h : resume t f ev = some (t₁, m₁)) :
    m₁ = .empty ∧ (t₁ = t ∧ t.manifest = none ∨ t₁ = t.deleteUploadManifest ev.removeStale) ∨
    t₁ = t ∧ t.loadUploadManifest ev.manifestOpens ev.logOpens = some m₁ ∧ m₁.totalSize = f.content.length ∧
      m₁.tempModifiedTimestamp = f.modified ∧ ev.now - m₁.sessionTimestamp ≤ 82800 := by
  unfold resume at h
  split at h
  · obtain ⟨m, hload, he⟩ := Option.map_eq_some_iff.1 h
    split at he
    · obtain ⟨rfl, rfl⟩ := Prod.mk.inj he
      exact Or.inl ⟨rfl, Or.inr rfl⟩
    · rename_i hsame
      obtain ⟨rfl, rfl⟩ := Prod.mk.inj he
      simp only [not_or, not_not, not_lt] at hsame
      exact Or.inr ⟨rfl, hload, hsame.1, hsame.2.1, hsame.2.2⟩
  · rename_i hactive
    obtain ⟨rfl, rfl⟩ := Prod.mk.inj (Option.some.inj h)
    refine Or.inl ⟨rfl, Or.inl ⟨rfl, ?_⟩⟩
    simpa [TransferFiles.hasActiveUpload] using hactive

/-- Where a list comes from: it was loaded, or computed and saved now. -/
theorem blueprint_cases {sha256 : Bytes → String} {t t' : TransferFiles} {m m' : UploadManifest} {filepath : String}
    {f : LocalFile} {ev : UploadEvents} (h : blueprint sha256 t m filepath f ev = some (t', m')) :
    m.chunkHashes ≠ [] ∧ t' = t ∧ m' = m ∨
    ∃ g, m.chunkHashes = [] ∧ ev.seen .hashing = some g ∧ t' = t.saveUploadManifest m' ev.save ∧
      m' = ⟨filepath, f.content.length, f.modified, ev.now, computeHashes sha256 g.content,
        List.replicate (computeHashes sha256 g.content).length false⟩ := by
  unfold blueprint at h
  split at h
  · rename_i hempty
    obtain ⟨g, hg, he⟩ := Option.map_eq_some_iff.1 h
    obtain ⟨rfl, rfl⟩ := Prod.mk.inj he
    exact Or.inr ⟨g, List.isEmpty_iff.1 hempty, hg, rfl, rfl⟩
  · rename_i hne
    obtain ⟨rfl, rfl⟩ := Prod.mk.inj (Option.some.inj h)
    exact Or.inl ⟨fun he => hne (List.isEmpty_iff.2 he), rfl, rfl⟩

/-! ## The transfer files -/

@[simp] theorem manifest_appendCompletedIndices (t : TransferFiles) (indices : List Int) (io : WriteOutcome) :
    (t.appendCompletedIndices indices io).manifest = t.manifest := by
  cases io <;> rfl

/-- The log is written beside the manifest. -/
@[simp] theorem manifest_appendBatches (t : TransferFiles) (io : Nat → WriteOutcome) (indices : List Int) :
    (appendBatches t io indices).manifest = t.manifest := by
  unfold appendBatches
  induction (pieces 64 indices).zipIdx generalizing t with
  | nil => rfl
  | cons b bs ih => rw [List.foldl_cons, ih, manifest_appendCompletedIndices]

theorem TransferOutcome.manifest {t : TransferFiles} {m : UploadManifest} {plans : List ChunkRoutingPlan} {f : LocalFile}
    {ev : UploadEvents} {up : TransferResult} {out : UploadResult} (h : TransferOutcome t m plans f ev up out) :
    out.transfers.manifest = t.manifest ∨ out.transfers.manifest = none := by
  have hup : up.transfers.manifest = t.manifest := by
    rcases h.tried with rfl | ⟨g, -, rfl⟩
    · rfl
    · exact manifest_appendBatches ..
  rcases h.ended with ⟨-, htransfers, -⟩ | ⟨-, htransfers, -⟩
  · rw [htransfers, hup]
    exact Or.inl rfl
  · rw [htransfers]
    simp only [TransferFiles.deleteUploadManifest]
    split
    · exact Or.inr rfl
    · exact Or.inl hup

theorem mem_of_mem_batch {indices : List Int} {b : List Int × Nat} (hb : b ∈ (pieces 64 indices).zipIdx) {i : Int}
    (hi : i ∈ b.1) : i ∈ indices := by
  have hpiece : b.1 ∈ pieces 64 indices := by
    rw [← List.zipIdx_map_fst 0 (pieces 64 indices)]
    exact List.mem_map_of_mem hb
  rw [← flatten_pieces (show 0 < 64 by decide) indices]
  exact List.mem_flatten.2 ⟨b.1, hpiece, hi⟩

/-- Whatever the writes do, the log gets no other index. -/
theorem mem_log_appendBatches {t : TransferFiles} {io : Nat → WriteOutcome} {indices : List Int} {k : Int}
    (h : k ∈ (appendBatches t io indices).log.getD []) : k ∈ t.log.getD [] ∨ k ∈ indices := by
  have hfold : ∀ (bs : List (List Int × Nat)) (t : TransferFiles), (∀ b ∈ bs, ∀ i ∈ b.1, i ∈ indices) →
      k ∈ (bs.foldl (fun t b => t.appendCompletedIndices b.1 (io b.2)) t).log.getD [] → k ∈ t.log.getD [] ∨ k ∈ indices := by
    intro bs
    induction bs with
    | nil => exact fun t _ hk => Or.inl hk
    | cons b bs ih =>
      intro t hbs hk
      rcases ih _ (fun c hc => hbs c (List.mem_cons_of_mem _ hc)) hk with hlog | hin
      · cases hio : io b.2 with
        | done =>
          simp only [hio, TransferFiles.appendCompletedIndices, Option.getD_some, List.mem_append] at hlog
          exact hlog.imp_right fun hnew => hbs b List.mem_cons_self k hnew
        | _ =>
          simp only [hio, TransferFiles.appendCompletedIndices, Option.getD_some] at hlog
          exact Or.inl hlog
      · exact Or.inr hin
  exact hfold _ t (fun b hb i hi => mem_of_mem_batch hb hi) h

/-- Acknowledged are the sent tasks whose node answers. -/
theorem mem_acked {t : TransferFiles} {content : Bytes} {pending : List (Nat × ChunkRoutingPlan)} {ev : TransferEvents}
    (h : (pending.map Prod.fst).Pairwise (· < ·)) {e : (Nat × Nat) × PostTask} :
    e ∈ (upload t content pending ev).acked ↔
      e ∈ (upload t content pending ev).sent ∧ ev.acks e.1.1 e.1.2 = true := by
  have hnd := @nodup_uploadTasks content (pending.take ev.enqueued)
    (by rw [List.map_take]; exact h.sublist (List.take_sublist _ _))
  simp only [upload, List.mem_filter, mem_scan hnd]

theorem piece_of_computeHashes {sha256 : Bytes → String} {content : Bytes} {k : Nat} {hash : String}
    (h : (computeHashes sha256 content)[k]? = some hash) :
    ∃ p, (pieces chunkSize content)[k]? = some p ∧ sha256 p = hash ∧ p = slice content (k * chunkSize) chunkSize := by
  rw [computeHashes, List.getElem?_map] at h
  obtain ⟨p, hp, rfl⟩ := Option.map_eq_some_iff.1 h
  refine ⟨p, hp, rfl, ?_⟩
  rw [getElem?_pieces] at hp
  split at hp
  · exact (Option.some.inj hp).symm
  · cases hp

theorem piece_of_correlate {sha256 : Bytes → String} {hashes : List String} {completed : List Bool}
    {plans : List ChunkRoutingPlan} {content : Bytes} {c : Nat × ChunkRoutingPlan}
    (hhashes : hashes = computeHashes sha256 content) (hc : c ∈ correlate 0 hashes completed plans) :
    c.1 < (pieces chunkSize content).length ∧
      (pieces chunkSize content)[c.1]? = some (slice content (c.1 * chunkSize) chunkSize) := by
  obtain ⟨k, hk, hkh, -, -⟩ := mem_correlate hc
  obtain ⟨p, hp, -, rfl⟩ := piece_of_computeHashes (hhashes ▸ hkh)
  rw [hk, Nat.zero_add]
  exact ⟨(List.getElem?_eq_some_iff.1 hp).1, hp⟩

/-- What is read for a pending chunk is that chunk: indices ascend, so no read before the last one falls short. -/
theorem piece_of_task {sha256 : Bytes → String} {hashes : List String} {completed : List Bool}
    {plans : List ChunkRoutingPlan} {enqueued : Nat} {content : Bytes} {e : (Nat × Nat) × PostTask}
    {plan : ChunkRoutingPlan} {payload : Bytes} (hhashes : hashes = computeHashes sha256 content)
    (hz : ((e.1.1, plan), payload) ∈ ((correlate 0 hashes completed plans).take enqueued).zip
      (readChunks content false (((correlate 0 hashes completed plans).take enqueued).map Prod.fst)))
    (hpayload : e.2.payload = payload) : (pieces chunkSize content)[e.1.1]? = some e.2.payload := by
  have hasc : (((correlate 0 hashes completed plans).take enqueued).map Prod.fst).Pairwise (· < ·) := by
    rw [List.map_take]
    exact (correlate_ascending ..).sublist (List.take_sublist _ _)
  have hin : ∀ c ∈ (correlate 0 hashes completed plans).take enqueued, c.1 < (pieces chunkSize content).length :=
    fun c hc => (piece_of_correlate hhashes (List.mem_of_mem_take hc)).1
  rw [zip_readChunks hasc fun c hc => mul_lt_of_lt_pieces chunkSize_pos (hin c hc)] at hz
  obtain ⟨c, hc, hce⟩ := List.mem_map.1 hz
  have hfirst : c.1 = e.1.1 := by rw [(Prod.mk.inj hce).1]
  rw [← hfirst, (piece_of_correlate hhashes (List.mem_of_mem_take hc)).2]
  exact congrArg some ((Prod.mk.inj hce).2.trans hpayload.symm)

section
variable {t : TransferFiles} {m : UploadManifest} {plans : List ChunkRoutingPlan} {f : LocalFile} {ev : UploadEvents}
  {up : TransferResult} {out : UploadResult}

/-- **A task that was sent** is one of a missing chunk, and the chunk was sent to all its nodes. -/
theorem TransferOutcome.of_sent (h : TransferOutcome t m plans f ev up out) {e : (Nat × Nat) × PostTask} (he : e ∈ out.sent) :
    ∃ plan ∈ plans, m.chunkHashes[e.1.1]? = some plan.hash ∧ plan.assignedNodes[e.1.2]? = some e.2.node ∧
      e.2.hash = plan.hash ∧ ∀ (n : Nat) node, plan.assignedNodes[n]? = some node →
        ∃ payload, ((e.1.1, n), ⟨node, plan.hash, payload⟩) ∈ out.sent := by
  rw [h.sent] at he ⊢
  rcases h.tried with rfl | ⟨g, -, rfl⟩
  · cases he
  · obtain ⟨plan, payload, hz, hnode, hhash, -⟩ := mem_uploadTasks he
    obtain ⟨hin, -⟩ := List.of_mem_zip hz
    obtain ⟨k, hk, hkh, -, hplan⟩ := mem_correlate (List.mem_of_mem_take hin)
    have hke : e.1.1 = k := by simpa using hk
    exact ⟨plan, hplan, by rw [hke]; exact hkh, hnode, hhash, fun n node hn => uploadTasks_complete g.content hin hn⟩

/-- The bytes sent are those of the chunk. -/
theorem TransferOutcome.payload_of_sent {sha256 : Bytes → String} (h : TransferOutcome t m plans f ev up out)
    (hfile : ev.seen .transfer = some f) (hhashes : m.chunkHashes = computeHashes sha256 f.content)
    {e : (Nat × Nat) × PostTask} (he : e ∈ out.sent) : (pieces chunkSize f.content)[e.1.1]? = some e.2.payload := by
  rw [h.sent] at he
  rcases h.tried with rfl | ⟨g, hg, rfl⟩
  · cases he
  · obtain rfl : f = g := Option.some.inj (hfile.symm.trans hg)
    obtain ⟨plan, payload, hz, -, -, hpayload⟩ := mem_uploadTasks he
    exact piece_of_task hhashes hz hpayload

/-- **What is acknowledged** has been sent, to a node that answers. -/
theorem TransferOutcome.mem_acked (h : TransferOutcome t m plans f ev up out) {e : (Nat × Nat) × PostTask} :
    e ∈ out.acked ↔ e ∈ out.sent ∧ ev.transfer.acks e.1.1 e.1.2 = true := by
  rw [h.acked, h.sent]
  rcases h.tried with rfl | ⟨g, -, rfl⟩
  · simp
  · exact StorageEngine.mem_acked (correlate_ascending ..)

/-- **What is logged anew** has been acknowledged. -/
theorem TransferOutcome.of_logged (h : TransferOutcome t m plans f ev up out) {k : Int}
    (hk : k ∈ out.transfers.log.getD []) : k ∈ t.log.getD [] ∨ ∃ e ∈ out.acked, (e.1.1 : Int) = k := by
  have hup : k ∈ up.transfers.log.getD [] → k ∈ t.log.getD [] ∨ ∃ e ∈ out.acked, (e.1.1 : Int) = k := by
    intro hk
    rw [h.acked]
    rcases h.tried with rfl | ⟨g, -, rfl⟩
    · exact Or.inl hk
    · exact (mem_log_appendBatches hk).imp_right List.mem_map.1
  rcases h.ended with ⟨-, htransfers, -⟩ | ⟨-, htransfers, -⟩
  · exact hup (htransfers ▸ hk)
  · rw [htransfers] at hk
    simp only [TransferFiles.deleteUploadManifest] at hk
    split at hk
    · cases hk
    · exact hup hk

/-- **After a transfer that succeeds** every missing chunk was completed before, or all its nodes have acknowledged
it. -/
theorem TransferOutcome.of_success (h : TransferOutcome t m plans f ev up out)
    (hsuccess : up.success = true) (hlen : m.completedChunks.length = m.chunkHashes.length)
    (hsub : (plans.map ChunkRoutingPlan.hash).Sublist m.chunkHashes) {plan : ChunkRoutingPlan} (hplan : plan ∈ plans) :
    ∃ k : Nat, m.chunkHashes[k]? = some plan.hash ∧ (m.completedChunks[k]? = some true ∨
      ∀ node ∈ plan.assignedNodes, ∃ e ∈ out.acked, e.2.node = node ∧ e.2.hash = plan.hash) := by
  obtain ⟨k, hk, hor⟩ := correlate_complete 0 hlen hsub plan hplan
  refine ⟨k, hk, hor.imp_right fun hpending node hnode => ?_⟩
  rw [h.acked]
  rcases h.tried with rfl | ⟨g, -, rfl⟩
  · rw [List.isEmpty_iff.1 hsuccess] at hpending
    cases hpending
  · simp only [upload, Bool.and_eq_true, decide_eq_true_eq, List.all_eq_true] at hsuccess
    obtain ⟨⟨hall, hacks⟩, -⟩ := hsuccess
    obtain ⟨n, hn⟩ := List.mem_iff_getElem?.1 hnode
    rw [List.take_of_length_le hall] at hacks
    obtain ⟨payload, htask⟩ := uploadTasks_complete g.content hpending hn
    refine ⟨_, (StorageEngine.mem_acked (correlate_ascending ..)).2 ⟨?_, hacks _ htask⟩, rfl, rfl⟩
    simpa only [upload, List.take_of_length_le hall] using htask

end

/-- What a call has before it asks the master, for a file that is not modified: the list of the file, and bits that
stand for lines of the log. -/
structure Blueprint (sha256 : Bytes → String) (f : LocalFile) (t t' : TransferFiles) (m : UploadManifest) : Prop where
  hashes : m.chunkHashes = computeHashes sha256 f.content
  bits : m.completedChunks.length = m.chunkHashes.length
  marked : ∀ k : Nat, m.completedChunks[k]? = some true → (k : Int) ∈ t'.log.getD []
  logged : ∀ k ∈ t'.log.getD [], k ∈ t.log.getD []
  saved : ∀ m', t'.manifest = some (some m') → m'.chunkHashes = computeHashes sha256 f.content

theorem deleteUploadManifest_log {t : TransferFiles} {io : RemoveOutcome} {k : Int}
    (h : k ∈ (t.deleteUploadManifest io).log.getD []) : k ∈ t.log.getD [] := by
  simp only [TransferFiles.deleteUploadManifest] at h
  split at h
  · cases h
  · exact h

theorem deleteUploadManifest_manifest {t : TransferFiles} {io : RemoveOutcome} {m : UploadManifest}
    (h : (t.deleteUploadManifest io).manifest = some (some m)) : t.manifest = some (some m) := by
  simp only [TransferFiles.deleteUploadManifest] at h
  split at h
  · cases h
  · exact h

theorem blueprint_spec {sha256 : Bytes → String} {t t₁ t₂ : TransferFiles} {m₁ m₂ : UploadManifest} {filepath : String}
    {f : LocalFile} {ev : UploadEvents} (hsaved : ∀ m, t.manifest = some (some m) → m.chunkHashes = computeHashes sha256 f.content)
    (hfile : ev.seen .hashing = some f) (hresume : resume t f ev = some (t₁, m₁))
    (hblueprint : blueprint sha256 t₁ m₁ filepath f ev = some (t₂, m₂)) : Blueprint sha256 f t t₂ m₂ := by
  rcases blueprint_cases hblueprint with ⟨hne, rfl, rfl⟩ | ⟨g, -, hg, rfl, hm₂⟩
  · rcases resume_cases hresume with ⟨rfl, -⟩ | ⟨rfl, hload, -⟩
    · exact absurd rfl hne
    · obtain ⟨-, m₀, hm₀, rfl⟩ := TransferFiles.loadUploadManifest_eq_some.1 hload
      refine ⟨hsaved m₀ hm₀, TransferFiles.length_markCompleted .., fun k hk => ?_, fun k hk => hk, hsaved⟩
      obtain ⟨-, hk⟩ := (TransferFiles.getElem?_markCompleted ..).1 hk
      split at hk
      · exact hk
      · cases hk
  · obtain rfl : f = g := Option.some.inj (hfile.symm.trans hg)
    have hold : (∀ k ∈ t₁.log.getD [], k ∈ t.log.getD []) ∧
        ∀ m, t₁.manifest = some (some m) → m.chunkHashes = computeHashes sha256 f.content := by
      rcases resume_cases hresume with ⟨-, ⟨rfl, -⟩ | rfl⟩ | ⟨rfl, -⟩
      · exact ⟨fun k hk => hk, hsaved⟩
      · exact ⟨fun k hk => deleteUploadManifest_log hk, fun m hm => hsaved m (deleteUploadManifest_manifest hm)⟩
      · exact ⟨fun k hk => hk, hsaved⟩
    have hlog : (t₁.saveUploadManifest m₂ ev.save).log = t₁.log := by cases ev.save <;> rfl
    refine ⟨by rw [hm₂], by rw [hm₂]; simp, fun k hk => ?_, by rw [hlog]; exact hold.1, fun m hm => ?_⟩
    · rw [hm₂, List.getElem?_replicate] at hk
      split at hk <;> cases hk
    · cases hsave : ev.save with
      | failed =>
        rw [hsave] at hm
        exact hold.2 m hm
      | crashed =>
        rw [hsave] at hm
        cases hm
      | done =>
        rw [hsave] at hm
        obtain rfl := Option.some.inj (Option.some.inj hm)
        rw [hm₂]

end StorageEngine
