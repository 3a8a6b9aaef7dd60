import StorageEngine.Client.Download
import StorageEngine.Client.Upload

/-!
# `DownloadFile`

A plan names hashes and nodes; the sizes of the chunks are derived again from the size of the file. Where every
chunk has a replica that answers with its bytes, and no other bytes of its digest are about, the call returns
`true` and the output is the file (`downloadFile_returns`), whatever is left of an earlier download.

| here | there (`DSEClient.cpp`) |
| --- | --- |
| `orderedChunks` | the loop over the plans (`:347-364`) |
| `downloadFile`  | `DownloadFile` (`:326-412`), with the output file afterwards |
-/

namespace StorageEngine

open Extent

def orderedChunks : Int → List ChunkRoutingPlan → List DownloadChunkMeta
  | _, [] => []
  | bytesRemaining, p :: ps =>
    if (chunkSize : Int) ≤ bytesRemaining then ⟨p.hash, chunkSize⟩ :: orderedChunks (bytesRemaining - chunkSize) ps
    -- the cast to `size_t`
    else ⟨p.hash, (bytesRemaining % 2 ^ 64).toNat⟩ :: orderedChunks 0 ps

/-- How a call of `DownloadFile` ends. -/
inductive DownloadEnd where
  | returned (ok : Bool)
  | threw
  /-- The call does not come back. -/
  | stuck
deriving DecidableEq, Repr

/-- `plan` is `none` where `GetDownloadPlan` throws; `leftover` is the file `<output>.dse_download`. -/
def downloadFile (sha256 : Bytes → String) (plan : Option FileDownloadManifest) (output leftover : Option Bytes)
    (answer : Nat → Nat → NodeInfo → ReplicaReply) (order : List Nat) (loads : Nat) : DownloadEnd × Option Bytes :=
  match plan with
  | none => (.returned false, output)
  | some m =>
    match downloadToFile sha256 (orderedChunks m.fileSize m.plans) m.plans leftover answer order loads with
    | some (file, true) => (.returned true, some file)
    | some (_, false) => (.returned false, output)
    | none => (.stuck, output)

/-! ## A chunk with a replica that answers -/

variable {sha256 : Bytes → String}

/-- **One good replica is enough**, if none answers with other bytes of the digest. -/
theorem downloadChunk_returns {hash : String} {b : Bytes} (hsha : sha256 b = hash) {replies : List ReplicaReply}
    {buffer : Bytes} (hlen : buffer.length = b.length)
    (hhonest : ∀ r ∈ replies, r.status = some 200 → sha256 r.pieces.flatten = hash → r.pieces.flatten = b)
    (hone : ∃ r ∈ replies, r.status = some 200 ∧ r.pieces.flatten = b) :
    downloadChunkFromReplica sha256 hash b.length buffer replies = some b := by
  obtain ⟨q, hq, hstatus, hflat⟩ := hone
  have hsome : (replies.find? (isWhole sha256 hash b.length)).isSome := by
    refine List.find?_isSome.2 ⟨q, hq, isWhole_iff.2 ⟨hstatus, ?_, ?_⟩⟩
    · rw [hflat]
    · rw [hflat, hsha]
  obtain ⟨r, hr⟩ := Option.isSome_iff_exists.1 hsome
  obtain ⟨hstatus', -, hsha'⟩ := isWhole_iff.1 (List.find?_some hr)
  rw [downloadChunk_eq hlen, hr, Option.map_some, hhonest r (List.mem_of_find?_eq_some hr) hstatus' hsha']

/-! ## A transfer that is not paused -/

variable {answer : Nat → Nat → NodeInfo → ReplicaReply} {good : Nat → DownloadChunkMeta → Bytes → Prop}

/-- The pool ends when every task fetches something. -/
theorem writeChunks_returns : ∀ {tasks : List (Nat × DownloadTask)} (file : Bytes),
    (∀ e ∈ tasks, ∃ b, fetchChunk sha256 answer e = some b) →
    ∃ file', tasks.foldlM (writeChunk sha256 answer) file = some file'
  | [], file, _ => ⟨file, rfl⟩
  | e :: es, file, h => by
    obtain ⟨b, hb⟩ := h e List.mem_cons_self
    have hwrite : writeChunk sha256 answer file e = some (writeAt 0 file e.2.chunkOffset b) := by
      unfold writeChunk
      exact Option.map_eq_some_iff.2 ⟨b, hb, rfl⟩
    obtain ⟨file', hfile'⟩ := writeChunks_returns (writeAt 0 file e.2.chunkOffset b) fun d hd =>
      h d (List.mem_cons_of_mem _ hd)
    exact ⟨file', by rw [List.foldlM_cons, hwrite]; exact hfile'⟩

/-- From the start file on: what is marked is in place, the rest is fetched. -/
theorem pool_returns {chunks : List DownloadChunkMeta} {plans : List ChunkRoutingPlan} {bits : List Bool} {file : Bytes}
    {loads : Nat} (order : List Nat) (hbits : bits.length = chunks.length)
    (hlen : file.length = (chunks.map DownloadChunkMeta.size).sum)
    (hdone : ∀ j, bits[j]? = some true → InPlace good chunks file j)
    (hroutes : ∀ c ∈ chunks, (routingMap plans c.hash).isSome)
    (hfetch : ∀ i c nodes, chunks[i]? = some c → routingMap plans c.hash = some nodes →
      ∃ b, fetchChunk sha256 answer (i, ⟨c, 0, nodes⟩) = some b ∧ good i c b)
    (hloads : chunks.length < loads) :
    ∃ tasks loads' file', enqueueChunks (routingMap plans) loads 0 0 (chunks.zip bits) = .ok (tasks, loads') ∧ 0 < loads' ∧
      (scan order tasks).foldlM (writeChunk sha256 answer) file = some file' ∧
      file'.length = file.length ∧ ∀ j, InPlace good chunks file' j := by
  have hzip : (chunks.zip bits).length = chunks.length := by rw [List.length_zip, hbits, Nat.min_self]
  obtain ⟨⟨tasks, loads'⟩, henq⟩ : ∃ res, enqueueChunks (routingMap plans) loads 0 0 (chunks.zip bits) = .ok res :=
    enqueueChunks_ok_iff.2 fun j _ c hc => hroutes c (List.of_mem_zip (List.mem_of_getElem? hc)).1
  obtain ⟨hcov, hrest⟩ := enqueueChunks_spec henq
  have hpos : 0 < loads' := by omega
  have hfetched : ∀ e ∈ tasks, ∃ b, fetchChunk sha256 answer e = some b ∧ good e.1 e.2.chunk b := by
    intro e he
    obtain ⟨j, -, hj, hc, -, hroute⟩ := hcov.sound e he
    rw [Nat.zero_add] at hj
    exact hfetch e.1 e.2.chunk e.2.nodes (hj ▸ (List.getElem?_zip_eq_some.1 hc).1) hroute
  obtain ⟨file', hwrite⟩ := writeChunks_returns file fun e (he : e ∈ scan order tasks) => by
    obtain ⟨b, hb, -⟩ := hfetched e ((mem_scan hcov.nodup order).1 he)
    exact ⟨b, hb⟩
  refine ⟨tasks, loads', file', henq, hpos, hwrite, fetch_spec hbits hlen hdone henq hpos (fun e he b hb => ?_) hwrite⟩
  obtain ⟨b', hb', hgood⟩ := hfetched e he
  obtain rfl : b' = b := Option.some.inj (hb'.symm.trans hb)
  exact hgood

/-- **A transfer that is not paused returns `true`** where every chunk can be fetched. -/
theorem downloadToFile_returns {chunks : List DownloadChunkMeta} {plans : List ChunkRoutingPlan} {leftover : Option Bytes}
    {loads : Nat} (order : List Nat) (hroutes : ∀ c ∈ chunks, (routingMap plans c.hash).isSome)
    (hfetch : ∀ i c nodes, chunks[i]? = some c → routingMap plans c.hash = some nodes →
      ∃ b, fetchChunk sha256 answer (i, ⟨c, 0, nodes⟩) = some b ∧ good i c b)
    (hleft : ∀ f ∈ leftover, f.length = (chunks.map DownloadChunkMeta.size).sum → ∀ i,
      ChunkInPlace sha256 chunks f i → InPlace good chunks f i)
    (hloads : 2 * chunks.length < loads) :
    ∃ file', downloadToFile sha256 chunks plans leftover answer order loads = some (file', true) ∧
      file'.length = (chunks.map DownloadChunkMeta.size).sum ∧ ∀ i, InPlace good chunks file' i := by
  unfold downloadToFile
  simp only
  cases hold : leftover.filter fun f => f.length == (chunks.map DownloadChunkMeta.size).sum with
  | some f =>
    obtain ⟨hf, hlen'⟩ := Option.filter_eq_some_iff.1 hold
    have hlen : f.length = (chunks.map DownloadChunkMeta.size).sum := by simpa using hlen'
    obtain ⟨hbits, hdone⟩ := verifyChunks_spec (rfl : verifyChunks sha256 f loads 0 chunks = _)
    have hrest : (verifyChunks sha256 f loads 0 chunks).2 = loads - chunks.length := verifyChunks_loads
    obtain ⟨tasks, loads', file', henq, hpos, hwrite, hfile', hplace⟩ := pool_returns order hbits hlen
      (fun j hj => hleft f hf hlen j fun c hc => by simpa using hdone j c hc hj) hroutes hfetch
      (show chunks.length < (verifyChunks sha256 f loads 0 chunks).2 by omega)
    refine ⟨file', ?_, hfile'.trans hlen, hplace⟩
    simp only [henq, hwrite, hpos, decide_true, Option.map_some]
  | none =>
    have hlen := length_allocate (chunks.map DownloadChunkMeta.size).sum
    have hnone : ∀ j, (chunks.map fun _ => false)[j]? = some true →
        InPlace good chunks (allocate (chunks.map DownloadChunkMeta.size).sum) j := by
      intro j hj
      obtain ⟨_, -, he⟩ := Option.map_eq_some_iff.1 ((List.getElem?_map ..).symm.trans hj)
      cases he
    obtain ⟨tasks, loads', file', henq, hpos, hwrite, hfile', hplace⟩ := pool_returns order (List.length_map _) hlen hnone
      hroutes hfetch (show chunks.length < loads by omega)
    refine ⟨file', ?_, hfile'.trans hlen, hplace⟩
    simp only [henq, hwrite, hpos, decide_true, Option.map_some]

/-! ## The file comes back -/

theorem getElem?_orderedChunks (n : Nat) (plans : List ChunkRoutingPlan) (i : Nat) :
    (orderedChunks n plans)[i]? = plans[i]?.map fun p =>
      ⟨p.hash, if chunkSize ≤ n - i * chunkSize then chunkSize else n - i * chunkSize⟩ := by
  induction plans generalizing n i with
  | nil => simp [orderedChunks]
  | cons p ps ih =>
    simp only [orderedChunks]
    split
    · rename_i hle
      have hle' : chunkSize ≤ n := by exact_mod_cast hle
      have hcast : (n : Int) - chunkSize = ((n - chunkSize : Nat) : Int) := by omega
      cases i with
      | zero => simp [hle']
      | succ i =>
        have hsub : n - (i * chunkSize + chunkSize) = n - chunkSize - i * chunkSize := by omega
        rw [List.getElem?_cons_succ, List.getElem?_cons_succ, hcast, ih, Nat.succ_mul, hsub]
    · rename_i hlt
      have hlt' : n < chunkSize := by
        rw [not_le] at hlt
        exact_mod_cast hlt
      cases i with
      | zero =>
        have hmod : ((n : Int) % 2 ^ 64).toNat = n := by
          unfold chunkSize at hlt'
          omega
        rw [hmod]
        simp [hlt'.not_ge]
      | succ i =>
        have hsub : n - (i * chunkSize + chunkSize) = 0 - i * chunkSize := by omega
        rw [List.getElem?_cons_succ, List.getElem?_cons_succ, Nat.succ_mul, hsub]
        exact ih 0 i

/-- The chunks of a file as they were hashed. -/
def fileChunks (sha256 : Bytes → String) (content : Bytes) : List DownloadChunkMeta :=
  (pieces chunkSize content).map fun p => ⟨sha256 p, p.length⟩

theorem getElem?_fileChunks {content : Bytes} {i : Nat} {c : DownloadChunkMeta} :
    (fileChunks sha256 content)[i]? = some c ↔
      ∃ p, (pieces chunkSize content)[i]? = some p ∧ c = ⟨sha256 p, p.length⟩ := by
  rw [fileChunks, List.getElem?_map, Option.map_eq_some_iff]
  simp only [eq_comm]

theorem sizes_fileChunks (content : Bytes) :
    (fileChunks sha256 content).map DownloadChunkMeta.size = (pieces chunkSize content).map List.length := by
  rw [fileChunks, List.map_map]
  rfl

/-- The sizes that are derived again are those of the chunks that were hashed. -/
theorem orderedChunks_pieces {content : Bytes} {plans : List ChunkRoutingPlan}
    (hplans : plans.map ChunkRoutingPlan.hash = computeHashes sha256 content) :
    orderedChunks content.length plans = fileChunks sha256 content := by
  refine List.ext_getElem? fun i => ?_
  have hhash := congrArg (·[i]?) hplans
  simp only [computeHashes, List.getElem?_map] at hhash
  rw [getElem?_orderedChunks, fileChunks, List.getElem?_map]
  cases hp : (pieces chunkSize content)[i]? with
  | none =>
    rw [hp, Option.map_none, Option.map_eq_none_iff] at hhash
    rw [hhash]
    rfl
  | some p =>
    rw [hp, Option.map_some] at hhash
    obtain ⟨plan, hplan, he⟩ := Option.map_eq_some_iff.1 hhash
    obtain ⟨hlen, -⟩ := length_of_mem_pieces chunkSize_pos hp
    rw [hplan, Option.map_some, Option.map_some, he, hlen]

theorem routingMap_isSome {plans : List ChunkRoutingPlan} {hash : String} (h : hash ∈ plans.map ChunkRoutingPlan.hash) :
    (routingMap plans hash).isSome := by
  obtain ⟨plan, hplan, he⟩ := List.mem_map.1 h
  rw [routingMap, Option.isSome_map, List.find?_isSome]
  exact ⟨plan, List.mem_reverse.2 hplan, by simp [he]⟩

/-- **The file comes back** where every chunk has a replica that answers with it, and neither a replica nor the
leftover has other bytes of the digest of a chunk. -/
theorem downloadFile_returns {content : Bytes} {plans : List ChunkRoutingPlan} {output leftover : Option Bytes} {loads : Nat}
    (order : List Nat) (hplans : plans.map ChunkRoutingPlan.hash = computeHashes sha256 content)
    (hreplies : ∀ i p nodes, (pieces chunkSize content)[i]? = some p → routingMap plans (sha256 p) = some nodes →
      (∀ r ∈ nodes.mapIdx (answer i), r.status = some 200 → sha256 r.pieces.flatten = sha256 p → r.pieces.flatten = p) ∧
        ∃ r ∈ nodes.mapIdx (answer i), r.status = some 200 ∧ r.pieces.flatten = p)
    (hleft : ∀ f ∈ leftover, ∀ q ∈ pieces chunkSize f, ∀ p ∈ pieces chunkSize content, sha256 q = sha256 p → q = p)
    (hloads : 2 * (pieces chunkSize content).length < loads) :
    downloadFile sha256 (some ⟨content.length, plans⟩) output leftover answer order loads = (.returned true, some content) := by
  have htotal : ((pieces chunkSize content).map List.length).sum = content.length := by
    rw [← List.length_flatten, flatten_pieces chunkSize_pos]
  have hreturns : ∃ file, downloadToFile sha256 (fileChunks sha256 content) plans leftover answer order loads =
      some (file, true) ∧ file.length = ((fileChunks sha256 content).map DownloadChunkMeta.size).sum ∧
      ∀ i, InPlace (fun i _ b => (pieces chunkSize content)[i]? = some b) (fileChunks sha256 content) file i := by
    refine downloadToFile_returns order ?_ ?_ ?_ (by rwa [fileChunks, List.length_map])
    · intro c hc
      obtain ⟨p, hp, rfl⟩ := List.mem_map.1 hc
      exact routingMap_isSome (hplans ▸ List.mem_map.2 ⟨p, hp, rfl⟩)
    · intro i c nodes hc hnodes
      obtain ⟨p, hp, rfl⟩ := getElem?_fileChunks.1 hc
      obtain ⟨hhonest, hone⟩ := hreplies i p nodes hp hnodes
      exact ⟨p, downloadChunk_returns rfl List.length_replicate hhonest hone, hp⟩
    · intro f hf hflen i hin c hc
      obtain ⟨p, hp, rfl⟩ := getElem?_fileChunks.1 hc
      have hdigest := hin _ hc
      rw [sizes_fileChunks] at hflen hdigest ⊢
      have hq := slice_of_pieces chunkSize_pos (hflen.trans htotal) hp
      rw [hleft f hf _ (List.mem_of_getElem? hq) p (List.mem_of_getElem? hp) hdigest]
      exact hp
  obtain ⟨file, hfile, hlen, hplace⟩ := hreturns
  rw [sizes_fileChunks] at hlen
  have hcontent : file = content := by
    rw [eq_flatten_of_slices hlen fun i p hp => ?_, flatten_pieces chunkSize_pos]
    have hslice := hplace i _ (getElem?_fileChunks.2 ⟨p, hp, rfl⟩)
    rw [sizes_fileChunks] at hslice
    exact Option.some.inj (hslice.symm.trans hp)
  simp only [downloadFile, orderedChunks_pieces hplans, hfile, hcontent]

end StorageEngine
