import StorageEngine.Cluster.Worker
import StorageEngine.Lib.Extent
import StorageEngine.Metadata.Spec

/-!
# `DownloadToFile`

The leftover file is verified, the missing chunks are fetched by a pool and written at their offsets. The
transfer state leaves `RUNNING` once and for all, so a run is given by the number of its loads that still see
`RUNNING`; the pool by the order in which its tasks write; a replica by what it answers to each request.
Reads and writes of the local file succeed. An exception that leaves the call behind its pool does not come out:
`pool.shutdown()` is not reached, and `~ThreadPool` (`= default`, `httplib.h:1546`) blocks in the destructor of its
condition variable while a thread sleeps on it, and ends the process at the first joinable thread if none does.

| here | there (`ParallelTransferManager.cpp`) |
| --- | --- |
| `ReplicaReply`             | what `httplib` makes of one `GET`: the pieces it hands to the receiver, then the response (`:64-69`) |
| `downloadChunkFromReplica` | `DownloadChunkFromReplica` (`:53-91`), `none` where it throws |
| `routingMap`               | `routing_map` (`:187-191`): a later plan of a hash replaces an earlier one |
| `verifyChunks`             | the loop of the resume (`:220-239`) |
| `enqueueChunks`            | the loop that fills the pool (`:246-286`) |
| `writeChunk`               | one task of the pool (`:269-283`) |
| `downloadToFile`           | `DownloadToFile` (`:182-295`) |
-/

namespace StorageEngine

open Extent

/-- `DownloadChunkMeta` (`models.hpp:29-33`). -/
structure DownloadChunkMeta where
  hash : String
  size : Nat
deriving DecidableEq, Repr

/-- `status` is `none` where there is no response: refused, broken off, timed out, or an exception. -/
structure ReplicaReply where
  pieces : List Bytes
  status : Option Nat
deriving DecidableEq

/-- The receiver copies each piece behind the ones before it, and breaks off at one that does not fit. Buffer and piece
are in memory together, so the sum of their sizes does not wrap. -/
def receive (expectedSize : Nat) (buffer : Bytes) (written : Nat) : List Bytes → Bytes × Nat × Bool
  | [] => (buffer, written, true)
  | p :: ps =>
    if expectedSize < written + p.length then (buffer, written, false)
    else receive expectedSize (writeAt 0 buffer written p) (written + p.length) ps

/-- What the task of a chunk captures (`:269`). -/
structure DownloadTask where
  chunk : DownloadChunkMeta
  chunkOffset : Nat
  nodes : List NodeInfo

/-- The two exceptions that leave the loops (`:90, 260`). -/
inductive DownloadError where
  | missingRoute (hash : String)
  | allReplicasFailed
deriving DecidableEq, Repr

section

variable (sha256 : Bytes → String)

/-- The buffer is reused from one replica to the next. -/
def downloadChunkFromReplica (hash : String) (expectedSize : Nat) : Bytes → List ReplicaReply → Option Bytes
  | _, [] => none
  | buffer, r :: rs =>
    let (buffer', written, accepted) := receive expectedSize buffer 0 r.pieces
    -- a receiver that breaks off leaves no response
    if accepted = false ∨ r.status ≠ some 200 ∨ written ≠ expectedSize then
      downloadChunkFromReplica hash expectedSize buffer' rs
    else if sha256 buffer' ≠ hash then downloadChunkFromReplica hash expectedSize buffer' rs
    else some buffer'

def routingMap (plans : List ChunkRoutingPlan) (hash : String) : Option (List NodeInfo) :=
  (plans.reverse.find? fun p => p.hash == hash).map ChunkRoutingPlan.assignedNodes

/-- Which chunks the file already holds, and the loads that are left. -/
def verifyChunks (file : Bytes) : Nat → Nat → List DownloadChunkMeta → List Bool × Nat
  | loads, _, [] => ([], loads)
  | 0, _, _ :: cs => (false :: cs.map fun _ => false, 0)
  | loads + 1, offset, c :: cs =>
    let (completed, loads') := verifyChunks file loads (offset + c.size) cs
    ((sha256 (slice file offset c.size) == c.hash) :: completed, loads')

/-- The tasks by the index of their chunk, and the loads that are left. -/
def enqueueChunks (routes : String → Option (List NodeInfo)) :
    Nat → Nat → Nat → List (DownloadChunkMeta × Bool) → Except DownloadError (List (Nat × DownloadTask) × Nat)
  | loads, _, _, [] => .ok ([], loads)
  | 0, _, _, _ :: _ => .ok ([], 0)
  | loads + 1, i, currentOffset, (c, true) :: cs => enqueueChunks routes loads (i + 1) (currentOffset + c.size) cs
  | loads + 1, i, currentOffset, (c, false) :: cs =>
    match routes c.hash with
    | none => .error (.missingRoute c.hash)
    | some nodes =>
      (enqueueChunks routes loads (i + 1) (currentOffset + c.size) cs).map fun res =>
        ((i, ⟨c, currentOffset, nodes⟩) :: res.1, res.2)

/-- `answer i k node` is what chunk `i` gets from its `k`-th node. -/
def writeChunk (answer : Nat → Nat → NodeInfo → ReplicaReply) (file : Bytes) (e : Nat × DownloadTask) : Option Bytes :=
  let replies := e.2.nodes.mapIdx (answer e.1)
  (downloadChunkFromReplica sha256 e.2.chunk.hash e.2.chunk.size (List.replicate e.2.chunk.size 0) replies).map fun b =>
    writeAt 0 file e.2.chunkOffset b

/-- A file of another size is allocated anew; one byte at the end makes the hole. -/
def allocate (totalFileSize : Nat) : Bytes :=
  if 0 < totalFileSize then writeAt 0 [] (totalFileSize - 1) [0] else []

/-- The file afterwards, and the answer; `none` where the call does not come back: no route was found, or the exception
of a task was rethrown when its future was read. -/
def downloadToFile (orderedChunks : List DownloadChunkMeta) (plans : List ChunkRoutingPlan) (file : Option Bytes)
    (answer : Nat → Nat → NodeInfo → ReplicaReply) (order : List Nat) (loads : Nat) :
    Option (Bytes × Bool) :=
  let total := (orderedChunks.map DownloadChunkMeta.size).sum
  let (file, completed, loads) := match file.filter fun f => f.length == total with
    | some f =>
      let (completed, loads) := verifyChunks sha256 f loads 0 orderedChunks
      (f, completed, loads)
    | none => (allocate total, orderedChunks.map fun _ => false, loads)
  match enqueueChunks (routingMap plans) loads 0 0 (orderedChunks.zip completed) with
  | .error _ => none
  | .ok (tasks, loads) =>
    ((scan order tasks).foldlM (writeChunk sha256 answer) file).map fun file => (file, decide (0 < loads))

end

/-! ## One chunk -/

theorem receive_spec {expected : Nat} : ∀ {pieces : List Bytes} {buffer buffer' : Bytes} {written written' : Nat}
    {accepted : Bool}, receive expected buffer written pieces = (buffer', written', accepted) →
    buffer.length = expected → buffer'.length = expected
  | [], buffer, buffer', written, written', accepted, h, hlen => by
    simp only [receive, Prod.mk.injEq] at h
    rw [← h.1, hlen]
  | p :: ps, buffer, buffer', written, written', accepted, h, hlen => by
    simp only [receive] at h
    split at h
    · simp only [Prod.mk.injEq] at h
      rw [← h.1, hlen]
    · refine receive_spec h ?_
      rw [length_writeAt, hlen]
      omega

/-- What the receiver has copied when it has not broken off. -/
theorem receive_accepted {expected : Nat} : ∀ {pieces : List Bytes} {buffer buffer' : Bytes} {written written' : Nat},
    receive expected buffer written pieces = (buffer', written', true) → buffer.length = expected → written ≤ expected →
    written' = written + pieces.flatten.length ∧ buffer'.take written' = buffer.take written ++ pieces.flatten
  | [], buffer, buffer', written, written', h, _, _ => by
    simp only [receive, Prod.mk.injEq, and_true] at h
    obtain ⟨rfl, rfl⟩ := h
    simp
  | p :: ps, buffer, buffer', written, written', h, hlen, hle => by
    simp only [receive] at h
    split at h
    · simp at h
    · rename_i hfits
      have hlen' : (writeAt 0 buffer written p).length = expected := by
        rw [length_writeAt]
        omega
      obtain ⟨hw, ht⟩ := receive_accepted h hlen' (by omega)
      rw [ht, take_writeAt 0 (by omega)]
      refine ⟨?_, by simp⟩
      rw [hw, List.flatten_cons, List.length_append]
      omega

/-- What fits is accepted. -/
theorem receive_fits {expected : Nat} : ∀ {pieces : List Bytes} {buffer : Bytes} {written : Nat},
    written + pieces.flatten.length ≤ expected → (receive expected buffer written pieces).2.2 = true
  | [], _, _, _ => rfl
  | p :: ps, _, written, h => by
    rw [List.flatten_cons, List.length_append] at h
    simp only [receive]
    rw [if_neg (by omega)]
    exact receive_fits (by omega)

/-- A reply that fits is received whole. -/
theorem receive_whole {pieces : List Bytes} {buffer buffer' : Bytes} {written : Nat} {accepted : Bool}
    (h : receive buffer.length buffer 0 pieces = (buffer', written, accepted)) :
    accepted = true ∧ written = buffer.length ↔ pieces.flatten.length = buffer.length := by
  constructor
  · rintro ⟨rfl, rfl⟩
    obtain ⟨hw, -⟩ := receive_accepted h rfl (Nat.zero_le _)
    omega
  · intro hlen
    have haccepted : (receive buffer.length buffer 0 pieces).2.2 = true := receive_fits (by omega)
    rw [h] at haccepted
    obtain rfl : accepted = true := haccepted
    obtain ⟨hw, -⟩ := receive_accepted h rfl (Nat.zero_le _)
    exact ⟨rfl, by omega⟩

/-- The buffer is then full, whatever was in it. -/
theorem receive_flatten {pieces : List Bytes} {buffer buffer' : Bytes}
    (h : receive buffer.length buffer 0 pieces = (buffer', buffer.length, true)) : buffer' = pieces.flatten := by
  obtain ⟨-, ht⟩ := receive_accepted h rfl (Nat.zero_le _)
  rwa [List.take_of_length_le (Nat.le_of_eq (receive_spec h rfl)), List.take_zero, List.nil_append] at ht

/-- The `memcpy` calls of one request: where each piece goes. -/
def copies (expectedSize : Nat) (written : Nat) : List Bytes → List (Nat × Bytes)
  | [] => []
  | p :: ps => if expectedSize < written + p.length then [] else (written, p) :: copies expectedSize (written + p.length) ps

theorem receive_copies (expected : Nat) (buffer : Bytes) (written : Nat) (pieces : List Bytes) :
    (receive expected buffer written pieces).1 =
      (copies expected written pieces).foldl (fun buffer c => writeAt 0 buffer c.1 c.2) buffer := by
  induction pieces generalizing buffer written with
  | nil => rfl
  | cons p ps ih =>
    simp only [receive, copies]
    split
    · rfl
    · rw [ih, List.foldl_cons]

theorem copies_fit {expected written : Nat} {pieces : List Bytes} {c : Nat × Bytes} (hc : c ∈ copies expected written pieces) :
    c.1 + c.2.length ≤ expected := by
  induction pieces generalizing written with
  | nil => cases hc
  | cons p ps ih =>
    simp only [copies] at hc
    split at hc
    · cases hc
    · rename_i hfits
      rcases List.mem_cons.1 hc with rfl | hc
      · exact Nat.not_lt.1 hfits
      · exact ih hc

variable {sha256 : Bytes → String}

/-- A reply of status 200 with as many bytes as expected, and the digest. -/
def isWhole (sha256 : Bytes → String) (hash : String) (expectedSize : Nat) (r : ReplicaReply) : Bool :=
  r.status == some 200 && r.pieces.flatten.length == expectedSize && sha256 r.pieces.flatten == hash

theorem isWhole_iff {hash : String} {expected : Nat} {r : ReplicaReply} : isWhole sha256 hash expected r = true ↔
    r.status = some 200 ∧ r.pieces.flatten.length = expected ∧ sha256 r.pieces.flatten = hash := by
  simp [isWhole, and_assoc]

/-- **The chunk is that of the first whole reply**: what other replies have left in the buffer is written over. -/
theorem downloadChunk_eq {hash : String} {expected : Nat} {replies : List ReplicaReply} {buffer : Bytes}
    (hlen : buffer.length = expected) : downloadChunkFromReplica sha256 hash expected buffer replies =
      (replies.find? (isWhole sha256 hash expected)).map fun r => r.pieces.flatten := by
  subst hlen
  generalize he : buffer.length = expected
  induction replies generalizing buffer with
  | nil => rfl
  | cons r rs ih =>
    subst he
    rcases hres : receive buffer.length buffer 0 r.pieces with ⟨buffer', written, accepted⟩
    have hbuf : buffer'.length = buffer.length := receive_spec hres rfl
    have hwhole := receive_whole hres
    simp only [downloadChunkFromReplica, hres]
    split
    · rename_i hrefused
      have hnot : ¬ isWhole sha256 hash buffer.length r = true := by
        intro hr
        obtain ⟨hstatus, hlen, -⟩ := isWhole_iff.1 hr
        obtain ⟨rfl, rfl⟩ := hwhole.2 hlen
        rcases hrefused with hfalse | hother | hshort
        · cases hfalse
        · exact hother hstatus
        · exact hshort rfl
      rw [List.find?_cons_of_neg hnot]
      exact ih hbuf
    · rename_i haccepted
      simp only [not_or, Bool.not_eq_false, not_not] at haccepted
      obtain ⟨rfl, hstatus, rfl⟩ := haccepted
      have hlen := hwhole.1 ⟨rfl, rfl⟩
      obtain rfl := receive_flatten hres
      split
      · rename_i hother
        rw [List.find?_cons_of_neg fun hr => hother (isWhole_iff.1 hr).2.2]
        exact ih hbuf
      · rename_i hsame
        rw [List.find?_cons_of_pos (isWhole_iff.2 ⟨hstatus, hlen, not_not.1 hsame⟩), Option.map_some]

/-- **A chunk that is returned has the expected size and digest**, whatever the replicas did. -/
theorem downloadChunk_spec {hash : String} {expected : Nat} {replies : List ReplicaReply} {buffer b : Bytes}
    (h : downloadChunkFromReplica sha256 hash expected buffer replies = some b) (hlen : buffer.length = expected) :
    b.length = expected ∧ sha256 b = hash := by
  rw [downloadChunk_eq hlen, Option.map_eq_some_iff] at h
  obtain ⟨r, hr, rfl⟩ := h
  exact (isWhole_iff.1 (List.find?_some hr)).2

/-- **Replica failover is complete and sound.** The call returns exactly where some reply is whole, with the bytes of the
first such reply, and no piece is copied past the buffer. -/
theorem failover_exact (sha256 : Bytes → String) (hash : String) (buffer : Bytes) (replies : List ReplicaReply) :
    ((downloadChunkFromReplica sha256 hash buffer.length buffer replies).isSome ↔ ∃ r ∈ replies, r.status = some 200 ∧
      r.pieces.flatten.length = buffer.length ∧ sha256 r.pieces.flatten = hash) ∧
    (∀ b, downloadChunkFromReplica sha256 hash buffer.length buffer replies = some b →
      (replies.find? (isWhole sha256 hash buffer.length)).map (fun r => r.pieces.flatten) = some b) ∧
    ∀ r ∈ replies, (∀ b, (receive buffer.length b 0 r.pieces).1 =
        (copies buffer.length 0 r.pieces).foldl (fun b c => writeAt 0 b c.1 c.2) b) ∧
      ∀ c ∈ copies buffer.length 0 r.pieces, c.1 + c.2.length ≤ buffer.length := by
  rw [downloadChunk_eq rfl]
  refine ⟨?_, fun b hb => hb, fun r _ => ⟨fun b => receive_copies .., fun c hc => copies_fit hc⟩⟩
  rw [Option.isSome_map, List.find?_isSome]
  exact exists_congr fun r => and_congr_right fun _ => isWhole_iff

/-! ## The leftover file -/

theorem verifyChunks_spec {file : Bytes} : ∀ {cs : List DownloadChunkMeta} {loads offset loads' : Nat} {bits : List Bool},
    verifyChunks sha256 file loads offset cs = (bits, loads') →
    bits.length = cs.length ∧ ∀ j c, cs[j]? = some c → bits[j]? = some true →
      sha256 (slice file (offset + Extent.offset (cs.map DownloadChunkMeta.size) j) c.size) = c.hash
  | [], loads, offset, loads', bits, h => by
    simp only [verifyChunks, Prod.mk.injEq] at h
    simp [← h.1]
  | c :: cs, 0, offset, loads', bits, h => by
    simp only [verifyChunks, Prod.mk.injEq] at h
    rw [← h.1]
    refine ⟨by simp, fun j d hd hbit => ?_⟩
    cases j with
    | zero => cases hbit
    | succ j =>
      rw [List.getElem?_cons_succ, List.getElem?_map, Option.map_eq_some_iff] at hbit
      obtain ⟨_, -, he⟩ := hbit
      cases he
  | c :: cs, loads + 1, offset, loads', bits, h => by
    simp only [verifyChunks, Prod.mk.injEq] at h
    obtain ⟨hlen, hall⟩ := verifyChunks_spec (rfl : verifyChunks sha256 file loads (offset + c.size) cs = _)
    rw [← h.1]
    refine ⟨by simp [hlen], fun j d hd hbit => ?_⟩
    cases j with
    | zero =>
      obtain rfl : c = d := Option.some.inj hd
      simpa [Extent.offset] using hbit
    | succ j =>
      have hj := hall j d hd hbit
      rw [← hj]
      simp only [Extent.offset, List.map_cons, List.take_succ_cons, List.sum_cons]
      rw [Nat.add_assoc]

/-- Each turn of the loop takes a load. -/
theorem verifyChunks_loads {file : Bytes} : ∀ {cs : List DownloadChunkMeta} {loads offset : Nat},
    (verifyChunks sha256 file loads offset cs).2 = loads - cs.length
  | [], _, _ => by simp [verifyChunks]
  | _ :: _, 0, _ => by simp [verifyChunks]
  | c :: cs, loads + 1, offset => by
    have htail : (verifyChunks sha256 file loads (offset + c.size) cs).2 = loads - cs.length := verifyChunks_loads
    simp only [verifyChunks, List.length_cons, htail]
    omega

/-- A loop that is not paused marks exactly what is in place. -/
theorem verifyChunks_bits {file : Bytes} : ∀ {cs : List DownloadChunkMeta} {loads offset j : Nat}, cs.length ≤ loads →
    (verifyChunks sha256 file loads offset cs).1[j]? = cs[j]?.map fun c =>
      sha256 (slice file (offset + Extent.offset (cs.map DownloadChunkMeta.size) j) c.size) == c.hash
  | [], _, _, _, _ => by simp [verifyChunks]
  | _ :: _, 0, _, _, h => absurd h (Nat.not_succ_le_zero _)
  | c :: cs, loads + 1, offset, j, h => by
    simp only [verifyChunks]
    cases j with
    | zero => simp [Extent.offset]
    | succ j =>
      rw [List.getElem?_cons_succ, List.getElem?_cons_succ, verifyChunks_bits (Nat.le_of_succ_le_succ h)]
      simp only [Extent.offset, List.map_cons, List.take_succ_cons, List.sum_cons, Nat.add_assoc]

/-! ## The pool -/

/-- The tasks are the chunks that are reached and not completed, each at its offset and with its route. -/
structure Covering (routes : String → Option (List NodeInfo)) (loads : Nat) (cs : List (DownloadChunkMeta × Bool))
    (i offset : Nat) (tasks : List (Nat × DownloadTask)) : Prop where
  nodup : (tasks.map Prod.fst).Nodup
  sound : ∀ e ∈ tasks, ∃ j < loads, e.1 = i + j ∧ cs[j]? = some (e.2.chunk, false) ∧
    e.2.chunkOffset = offset + Extent.offset (cs.map fun c => c.1.size) j ∧ routes e.2.chunk.hash = some e.2.nodes
  complete : ∀ j < loads, ∀ c, cs[j]? = some (c, false) → i + j ∈ tasks.map Prod.fst

section
variable {routes : String → Option (List NodeInfo)} {loads i offset : Nat} {c : DownloadChunkMeta}
  {cs : List (DownloadChunkMeta × Bool)} {tasks : List (Nat × DownloadTask)}

theorem Covering.ge (h : Covering routes loads cs i offset tasks) {k : Nat} (hk : k ∈ tasks.map Prod.fst) : i ≤ k := by
  obtain ⟨e, he, rfl⟩ := List.mem_map.1 hk
  obtain ⟨j, -, hj, -⟩ := h.sound e he
  omega

/-- What the rest of the loop says about a task, seen from the chunk before. -/
theorem Covering.later (h : Covering routes loads cs (i + 1) (offset + c.size) tasks) (completed : Bool)
    {e : Nat × DownloadTask} (he : e ∈ tasks) :
    ∃ j < loads + 1, e.1 = i + j ∧ ((c, completed) :: cs)[j]? = some (e.2.chunk, false) ∧
      e.2.chunkOffset = offset + Extent.offset (((c, completed) :: cs).map fun c => c.1.size) j ∧
      routes e.2.chunk.hash = some e.2.nodes := by
  obtain ⟨j, hlt, hj, hc, ho, hroute⟩ := h.sound e he
  refine ⟨j + 1, by omega, by omega, hc, ?_, hroute⟩
  rw [ho]
  simp only [Extent.offset, List.map_cons, List.take_succ_cons, List.sum_cons]
  rw [Nat.add_assoc]

theorem Covering.complete_later (h : Covering routes loads cs (i + 1) (offset + c.size) tasks) {j : Nat} (hlt : j < loads)
    {d : DownloadChunkMeta} (hd : cs[j]? = some (d, false)) : i + (j + 1) ∈ tasks.map Prod.fst := by
  have hj := h.complete j hlt d hd
  rwa [Nat.add_assoc, Nat.add_comm 1] at hj

/-- A chunk that is completed is skipped. -/
theorem Covering.skip (h : Covering routes loads cs (i + 1) (offset + c.size) tasks) :
    Covering routes (loads + 1) ((c, true) :: cs) i offset tasks := by
  refine ⟨h.nodup, fun e he => h.later true he, fun j hlt d hd => ?_⟩
  cases j with
  | zero => cases hd
  | succ j => exact h.complete_later (by omega) hd

theorem Covering.cons (h : Covering routes loads cs (i + 1) (offset + c.size) tasks) {nodes : List NodeInfo}
    (hroute : routes c.hash = some nodes) :
    Covering routes (loads + 1) ((c, false) :: cs) i offset ((i, ⟨c, offset, nodes⟩) :: tasks) := by
  refine ⟨?_, fun e he => ?_, fun j hlt d hd => ?_⟩
  · rw [List.map_cons, List.nodup_cons]
    refine ⟨fun hm => ?_, h.nodup⟩
    have hge := h.ge hm
    omega
  · rcases List.mem_cons.1 he with rfl | he
    · exact ⟨0, by omega, rfl, rfl, by simp [Extent.offset], hroute⟩
    · exact h.later false he
  · cases j with
    | zero => simp
    | succ j => exact List.mem_cons_of_mem _ (h.complete_later (by omega) hd)

end

/-- **The loop that fills the pool**, where it finds its routes. -/
theorem enqueueChunks_spec {routes : String → Option (List NodeInfo)} :
    ∀ {cs : List (DownloadChunkMeta × Bool)} {loads i offset : Nat} {tasks : List (Nat × DownloadTask)} {loads' : Nat},
    enqueueChunks routes loads i offset cs = .ok (tasks, loads') →
      Covering routes loads cs i offset tasks ∧ loads' = loads - cs.length
  | [], loads, i, offset, tasks, loads', h => by
    simp only [enqueueChunks, Except.ok.injEq, Prod.mk.injEq] at h
    obtain ⟨rfl, rfl⟩ := h
    exact ⟨⟨List.nodup_nil, fun e he => (by cases he), fun j _ c hj => (by cases hj)⟩, rfl⟩
  | c :: cs, 0, i, offset, tasks, loads', h => by
    simp only [enqueueChunks, Except.ok.injEq, Prod.mk.injEq] at h
    obtain ⟨rfl, rfl⟩ := h
    exact ⟨⟨List.nodup_nil, fun e he => (by cases he), fun j hj => absurd hj (Nat.not_lt_zero j)⟩, by simp⟩
  | (c, true) :: cs, loads + 1, i, offset, tasks, loads', h => by
    obtain ⟨hcov, rfl⟩ : Covering routes loads cs (i + 1) (offset + c.size) tasks ∧ _ := enqueueChunks_spec h
    exact ⟨hcov.skip, by rw [List.length_cons, Nat.add_sub_add_right]⟩
  | (c, false) :: cs, loads + 1, i, offset, tasks, loads', h => by
    simp only [enqueueChunks] at h
    split at h
    · cases h
    rename_i nodes hroute
    cases hrest : enqueueChunks routes loads (i + 1) (offset + c.size) cs with
    | error e =>
      rw [hrest] at h
      cases h
    | ok res =>
      obtain ⟨ts, l⟩ := res
      rw [hrest] at h
      simp only [Except.map, Except.ok.injEq, Prod.mk.injEq] at h
      obtain ⟨rfl, rfl⟩ := h
      obtain ⟨hcov, rfl⟩ := enqueueChunks_spec hrest
      exact ⟨hcov.cons hroute, by rw [List.length_cons, Nat.add_sub_add_right]⟩

/-- The loop ends where it finds a route for every chunk it fetches. -/
theorem enqueueChunks_ok_iff {routes : String → Option (List NodeInfo)} :
    ∀ {cs : List (DownloadChunkMeta × Bool)} {loads i offset : Nat},
    (∃ res, enqueueChunks routes loads i offset cs = .ok res) ↔
      ∀ j < loads, ∀ c, cs[j]? = some (c, false) → (routes c.hash).isSome
  | [], loads, i, offset => by simp [enqueueChunks]
  | c :: cs, 0, i, offset => by simp [enqueueChunks]
  | (c, true) :: cs, loads + 1, i, offset => by
    rw [enqueueChunks, enqueueChunks_ok_iff]
    constructor
    · intro h j hj d hd
      cases j with
      | zero => cases hd
      | succ j => exact h j (Nat.lt_of_succ_lt_succ hj) d hd
    · exact fun h j hj d hd => h (j + 1) (Nat.succ_lt_succ hj) d hd
  | (c, false) :: cs, loads + 1, i, offset => by
    have hrest : (∃ res, enqueueChunks routes loads (i + 1) (offset + c.size) cs = .ok res) ↔
        ∀ j < loads, ∀ c, cs[j]? = some (c, false) → (routes c.hash).isSome := enqueueChunks_ok_iff
    simp only [enqueueChunks]
    cases hroute : routes c.hash with
    | none =>
      refine iff_of_false (by simp) fun h => ?_
      have hfirst := h 0 (Nat.succ_pos _) c rfl
      rw [hroute] at hfirst
      cases hfirst
    | some nodes =>
      have hmap : ∀ {x : Except DownloadError (List (Nat × DownloadTask) × Nat)},
          (∃ res, x.map (fun res => ((i, (⟨c, offset, nodes⟩ : DownloadTask)) :: res.1, res.2)) = .ok res) ↔
            ∃ res, x = .ok res := by
        intro x
        cases x <;> simp [Except.map]
      simp only
      rw [hmap, hrest]
      constructor
      · intro h j hj d hd
        cases j with
        | zero =>
          cases hd
          rw [hroute]
          rfl
        | succ j => exact h j (Nat.lt_of_succ_lt_succ hj) d hd
      · exact fun h j hj d hd => h (j + 1) (Nat.succ_lt_succ hj) d hd

variable {answer : Nat → Nat → NodeInfo → ReplicaReply}

/-- The chunk's extent of the file has the chunk's digest. -/
def ChunkInPlace (sha256 : Bytes → String) (chunks : List DownloadChunkMeta) (file : Bytes) (i : Nat) : Prop :=
  ∀ c, chunks[i]? = some c →
    sha256 (slice file (Extent.offset (chunks.map DownloadChunkMeta.size) i) c.size) = c.hash

/-- The chunk's extent of the file is `good` for it. -/
def InPlace (good : Nat → DownloadChunkMeta → Bytes → Prop) (chunks : List DownloadChunkMeta) (file : Bytes) (i : Nat) : Prop :=
  ∀ c, chunks[i]? = some c → good i c (slice file (Extent.offset (chunks.map DownloadChunkMeta.size) i) c.size)

/-- What a task writes. -/
def fetchChunk (sha256 : Bytes → String) (answer : Nat → Nat → NodeInfo → ReplicaReply) (e : Nat × DownloadTask) :
    Option Bytes :=
  downloadChunkFromReplica sha256 e.2.chunk.hash e.2.chunk.size (List.replicate e.2.chunk.size 0)
    (e.2.nodes.mapIdx (answer e.1))

variable {good : Nat → DownloadChunkMeta → Bytes → Prop}

/-- **One task** puts its chunk in place and leaves all other extents alone. -/
theorem writeChunk_spec {chunks : List DownloadChunkMeta} {file file' : Bytes} {e : Nat × DownloadTask}
    (h : writeChunk sha256 answer file e = some file') (hlen : file.length = (chunks.map DownloadChunkMeta.size).sum)
    (hchunk : chunks[e.1]? = some e.2.chunk)
    (hoff : e.2.chunkOffset = Extent.offset (chunks.map DownloadChunkMeta.size) e.1)
    (hgood : ∀ b, fetchChunk sha256 answer e = some b → good e.1 e.2.chunk b) :
    file'.length = file.length ∧ InPlace good chunks file' e.1 ∧
      ∀ j, j ≠ e.1 → InPlace good chunks file j → InPlace good chunks file' j := by
  have hsize : ∀ {j : Nat} {c : DownloadChunkMeta}, chunks[j]? = some c →
      (chunks.map DownloadChunkMeta.size)[j]? = some c.size := fun hj => by rw [List.getElem?_map, hj]; rfl
  obtain ⟨b, hb, rfl⟩ := Option.map_eq_some_iff.1 h
  obtain ⟨hblen, -⟩ := downloadChunk_spec hb List.length_replicate
  have hwithin := offset_add_le (hsize hchunk)
  rw [hoff]
  refine ⟨?_, fun c hc => ?_, fun j hj hplace c hc => ?_⟩
  · rw [length_writeAt, hblen]
    omega
  · obtain rfl : e.2.chunk = c := Option.some.inj (hchunk.symm.trans hc)
    have hread := slice_writeAt_self 0 file (Extent.offset (chunks.map DownloadChunkMeta.size) e.1) b
    rw [hblen] at hread
    rw [hread]
    exact hgood b hb
  · rw [slice_writeAt_disjoint 0 (by rw [hlen]; exact offset_add_le (hsize hc))]
    · exact hplace c hc
    · rw [hblen]
      exact offset_disjoint (hsize hc) (hsize hchunk) hj

/-- **The pool**, in any order. -/
theorem writeChunks_spec {chunks : List DownloadChunkMeta} : ∀ {tasks : List (Nat × DownloadTask)} {file file' : Bytes},
    tasks.foldlM (writeChunk sha256 answer) file = some file' →
    file.length = (chunks.map DownloadChunkMeta.size).sum → (tasks.map Prod.fst).Nodup →
    (∀ e ∈ tasks, chunks[e.1]? = some e.2.chunk ∧
      e.2.chunkOffset = Extent.offset (chunks.map DownloadChunkMeta.size) e.1) →
    (∀ e ∈ tasks, ∀ b, fetchChunk sha256 answer e = some b → good e.1 e.2.chunk b) →
    file'.length = file.length ∧ ∀ j, j ∈ tasks.map Prod.fst ∨ InPlace good chunks file j →
      InPlace good chunks file' j
  | [], file, file', h, _, _, _, _ => by
    rw [List.foldlM_nil] at h
    obtain rfl : file = file' := Option.some.inj h
    exact ⟨rfl, fun j hj => hj.resolve_left (by simp)⟩
  | e :: es, file, file', h, hlen, hnd, hall, hgood => by
    rw [List.foldlM_cons] at h
    obtain ⟨mid, hmid, h⟩ := Option.bind_eq_some_iff.1 h
    obtain ⟨hchunk, hoff⟩ := hall e List.mem_cons_self
    obtain ⟨hmidlen, hself, hothers⟩ := writeChunk_spec hmid hlen hchunk hoff (hgood e List.mem_cons_self)
    rw [List.map_cons, List.nodup_cons] at hnd
    obtain ⟨hlen', hplace⟩ := writeChunks_spec h (hmidlen.trans hlen) hnd.2
      (fun d hd => hall d (List.mem_cons_of_mem _ hd)) fun d hd => hgood d (List.mem_cons_of_mem _ hd)
    refine ⟨hlen'.trans hmidlen, fun j hj => hplace j ?_⟩
    rw [List.map_cons, List.mem_cons] at hj
    by_cases hje : j = e.1
    · exact Or.inr (hje ▸ hself)
    · rcases hj with (hj | hj) | hj
      · exact absurd hj hje
      · exact Or.inl hj
      · exact Or.inr (hothers j hje hj)

theorem length_allocate (total : Nat) : (allocate total).length = total := by
  unfold allocate
  split
  · rw [length_writeAt]
    simp
    omega
  · simp
    omega

theorem offset_map_zip (chunks : List DownloadChunkMeta) {bits : List Bool} (hlen : bits.length = chunks.length) :
    (chunks.zip bits).map (fun c => c.1.size) = chunks.map DownloadChunkMeta.size := by
  have h := congrArg (List.map DownloadChunkMeta.size) (show (chunks.zip bits).map Prod.fst = chunks from List.map_fst_zip (by omega))
  rwa [List.map_map] at h

/-- What is left after verification or allocation, pool and all. -/
theorem fetch_spec {chunks : List DownloadChunkMeta} {bits : List Bool} {routes : String → Option (List NodeInfo)}
    {loads loads' : Nat} {file file' : Bytes} {tasks : List (Nat × DownloadTask)} {order : List Nat}
    (hbits : bits.length = chunks.length) (hlen : file.length = (chunks.map DownloadChunkMeta.size).sum)
    (hdone : ∀ j, bits[j]? = some true → InPlace good chunks file j)
    (henq : enqueueChunks routes loads 0 0 (chunks.zip bits) = .ok (tasks, loads')) (hpos : 0 < loads')
    (hgood : ∀ e ∈ tasks, ∀ b, fetchChunk sha256 answer e = some b → good e.1 e.2.chunk b)
    (hwrite : (scan order tasks).foldlM (writeChunk sha256 answer) file = some file') :
    file'.length = file.length ∧ ∀ j, InPlace good chunks file' j := by
  obtain ⟨hcov, hloads⟩ := enqueueChunks_spec henq
  have hzip : ∀ {j c b}, (chunks.zip bits)[j]? = some (c, b) ↔ chunks[j]? = some c ∧ bits[j]? = some b := fun {j c b} => by
    rw [List.getElem?_zip_eq_some]
  have hkeys : ∀ j, j ∈ (scan order tasks).map Prod.fst ↔ j ∈ tasks.map Prod.fst := fun j =>
    ((scan_perm hcov.nodup order).map Prod.fst).mem_iff
  have hnd : ((scan order tasks).map Prod.fst).Nodup :=
    ((scan_perm hcov.nodup order).map Prod.fst).nodup_iff.2 hcov.nodup
  have htasks : ∀ e ∈ scan order tasks, chunks[e.1]? = some e.2.chunk ∧
      e.2.chunkOffset = Extent.offset (chunks.map DownloadChunkMeta.size) e.1 := by
    intro e he
    obtain ⟨j, -, hj, hc, ho, -⟩ := hcov.sound e ((mem_scan hcov.nodup order).1 he)
    rw [Nat.zero_add] at hj ho
    rw [offset_map_zip chunks hbits] at ho
    rw [hj]
    exact ⟨(hzip.1 hc).1, ho⟩
  obtain ⟨hlen', hplace⟩ := writeChunks_spec hwrite hlen hnd htasks
    fun e he => hgood e ((mem_scan hcov.nodup order).1 he)
  refine ⟨hlen', fun j c hc => ?_⟩
  have hj : j < chunks.length := (List.getElem?_eq_some_iff.1 hc).1
  have hbit : bits[j]? = some bits[j] := List.getElem?_eq_getElem (hbits ▸ hj)
  refine hplace j ?_ c hc
  cases hb : bits[j] with
  | true => exact Or.inr (hdone j (hb ▸ hbit))
  | false =>
    left
    have hreached : j < loads := by
      rw [List.length_zip, hbits, Nat.min_self] at hloads
      omega
    have hmem := hcov.complete j hreached c (hzip.2 ⟨hc, hb ▸ hbit⟩)
    rw [Nat.zero_add] at hmem
    exact (hkeys j).2 hmem

/-- **Download integrity.** Whatever the replicas answer and whatever file was there: a download that returns
`true` leaves a file of the right length whose every extent has the digest of its chunk. -/
theorem download_integrity {sha256 : Bytes → String} {orderedChunks : List DownloadChunkMeta}
    {plans : List ChunkRoutingPlan} {file : Option Bytes} {answer : Nat → Nat → NodeInfo → ReplicaReply}
    {order : List Nat} {loads : Nat} {file' : Bytes}
    (h : downloadToFile sha256 orderedChunks plans file answer order loads = some (file', true)) :
    file'.length = (orderedChunks.map DownloadChunkMeta.size).sum ∧
      ∀ i, ChunkInPlace sha256 orderedChunks file' i := by
  unfold downloadToFile at h
  simp only at h
  split at h
  · cases h
  rename_i tasks loads' henq
  obtain ⟨out, hwrite, hout⟩ := Option.map_eq_some_iff.1 h
  simp only [Prod.mk.injEq, decide_eq_true_eq] at hout
  obtain ⟨rfl, hpos⟩ := hout
  have hgood : ∀ e ∈ tasks, ∀ b, fetchChunk sha256 answer e = some b → sha256 b = e.2.chunk.hash :=
    fun e _ b hb => (downloadChunk_spec hb List.length_replicate).2
  cases hold : file.filter fun f => f.length == (orderedChunks.map DownloadChunkMeta.size).sum with
  | some f =>
    rw [hold] at henq hwrite
    have hlen : f.length = (orderedChunks.map DownloadChunkMeta.size).sum := by
      simpa using (Option.filter_eq_some_iff.1 hold).2
    obtain ⟨hbits, hdone⟩ := verifyChunks_spec (rfl : verifyChunks sha256 f loads 0 orderedChunks = _)
    have hmarked : ∀ j, (verifyChunks sha256 f loads 0 orderedChunks).1[j]? = some true →
        InPlace (fun _ c b => sha256 b = c.hash) orderedChunks f j := fun j hj c hc => by simpa using hdone j c hc hj
    obtain ⟨hlen', hplace⟩ := fetch_spec hbits hlen hmarked henq hpos hgood hwrite
    exact ⟨hlen'.trans hlen, hplace⟩
  | none =>
    rw [hold] at henq hwrite
    have hlen := length_allocate (orderedChunks.map DownloadChunkMeta.size).sum
    have hnone : ∀ j, (orderedChunks.map fun _ => false)[j]? = some true →
        InPlace (fun _ c b => sha256 b = c.hash) orderedChunks
          (allocate (orderedChunks.map DownloadChunkMeta.size).sum) j := by
      intro j hj
      rw [List.getElem?_map, Option.map_eq_some_iff] at hj
      obtain ⟨_, -, he⟩ := hj
      cases he
    obtain ⟨hlen', hplace⟩ := fetch_spec (List.length_map _) hlen hnone henq hpos hgood hwrite
    exact ⟨hlen'.trans hlen, hplace⟩

/-- Two copies of one chunk, the second lost from the leftover; the first replica is wrong, the second right. -/
theorem download_integrity_failover :
    downloadToFile sampleSha256 [⟨sampleHash, 1⟩, ⟨sampleHash, 1⟩]
      [⟨sampleHash, [⟨"localhost", 9081⟩, ⟨"localhost", 9082⟩]⟩] (some [97, 0])
      (fun _ k _ => ⟨[[if k = 0 then 98 else 97]], some 200⟩) [] 5 = some ([97, 97], true) ∧
    ∀ i, ChunkInPlace sampleSha256 [⟨sampleHash, 1⟩, ⟨sampleHash, 1⟩] [97, 97] i := by
  have h : downloadToFile sampleSha256 [⟨sampleHash, 1⟩, ⟨sampleHash, 1⟩]
      [⟨sampleHash, [⟨"localhost", 9081⟩, ⟨"localhost", 9082⟩]⟩] (some [97, 0])
      (fun _ k _ => ⟨[[if k = 0 then 98 else 97]], some 200⟩) [] 5 = some ([97, 97], true) := by decide +kernel
  exact ⟨h, (download_integrity h).2⟩

end StorageEngine
