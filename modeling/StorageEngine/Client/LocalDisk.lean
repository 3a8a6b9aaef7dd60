import StorageEngine.Client.DownloadFile

/-!
# A download on a disk that fails

`DownloadToFile` checks that its streams open and nothing else: a read or a write that fails leaves
`shared_file` in its failed state, in which every later `seekg`, `seekp`, `read` and `write` does nothing, and
the tasks keep their promises all the same.

| here | there (`ParallelTransferManager.cpp`) |
| --- | --- |
| `LocalDisk`        | what the operations on the temporary file come to |
| `readAt`           | `seekg` and `read` into a fresh buffer (`:228-230`) |
| `verifyChunksOn`   | the loop of the resume (`:220-239`) |
| `writeChunkOn`     | one task of the pool (`:269-283`) |
| `downloadToFileOn` | `DownloadToFile` (`:182-295`) |
| `downloadFileOn`   | `DSEClient::DownloadFile` (`DSEClient.cpp:326-437`) |

A task or a route that fails leaves the call behind its pool, and it neither returns nor throws (`comesBack_iff`).
`failed` stands for `failbit` and `badbit`; `eofbit` is only ever set together with `failbit`. A write includes the
flush of its buffer, and one behind the largest position of a file is among those that fail. Sums of sizes are
natural numbers: `orderedChunks_total` shows that those of `DownloadFile` stay below `2^64`.
-/

namespace StorageEngine

open Extent

structure LocalDisk where
  /-- `init_file` opens. -/
  allocates : Bool
  /-- The byte at the end is written. -/
  reserves : Bool
  /-- `shared_file` opens. -/
  opens : Bool
  /-- The verification read of a chunk: one that fails moves so many bytes before, but not all. -/
  read : Nat → Option Nat
  /-- The write of a chunk. -/
  write : Nat → Option Nat
  /-- The rename at the end. -/
  renames : Bool

/-- No operation fails. -/
def LocalDisk.sound : LocalDisk where
  allocates := true
  reserves := true
  opens := true
  read _ := none
  write _ := none
  renames := true

/-- `PTRDIFF_MAX`: the largest `std::vector<char>`, and the largest position a stream can seek to. -/
def ptrdiffMax : Nat := 2 ^ 63 - 1

/-- What leaves `DownloadToFile` as an exception, or would. -/
inductive TransferError where
  | download (e : DownloadError)
  | cannotAllocate
  | cannotOpen
  /-- `std::length_error`. -/
  | vectorTooLong
deriving DecidableEq, Repr

/-- The bytes of a transfer of `data` that are moved. -/
def moved (fault : Option Nat) (data : Bytes) : Bytes :=
  match fault with
  | none => data
  | some n => data.take (min n (data.length - 1))

/-- A buffer begins as zeros; on a failed stream it stays so. -/
def readAt (file : Bytes) (offset size : Nat) (fault : Option Nat) (failed : Bool) : Bytes × Bool :=
  let copied := if failed then [] else moved fault (slice file offset size)
  (copied ++ List.replicate (size - copied.length) 0, failed || fault.isSome || decide (copied.length < size))

section

variable (sha256 : Bytes → String) (disk : LocalDisk)

/-- Which chunks are marked, the loads that are left and the state of the stream. -/
def verifyChunksOn (file : Bytes) : Nat → Nat → Nat → Bool → List DownloadChunkMeta →
    Except TransferError (List Bool × Nat × Bool)
  | loads, _, _, failed, [] => .ok ([], loads, failed)
  | 0, _, _, failed, _ :: cs => .ok (false :: cs.map fun _ => false, 0, failed)
  | loads + 1, i, offset, failed, c :: cs =>
    if ptrdiffMax < c.size then .error .vectorTooLong
    else
      let (buffer, failed) := readAt file offset c.size (disk.read i) failed
      (verifyChunksOn file loads (i + 1) (offset + c.size) failed cs).map fun rest =>
        ((sha256 buffer == c.hash) :: rest.1, rest.2)

/-- An empty write does not move the end of the file. -/
def putAt (file : Bytes) (offset : Nat) (data : Bytes) : Bytes :=
  if data.isEmpty then file else writeAt 0 file offset data

/-- The file and the state of the stream go from task to task; the promise is kept whatever the write does. -/
def writeChunkOn (answer : Nat → Nat → NodeInfo → ReplicaReply) (st : Bytes × Bool) (e : Nat × DownloadTask) :
    Except TransferError (Bytes × Bool) :=
  if ptrdiffMax < e.2.chunk.size then .error .vectorTooLong
  else
    match fetchChunk sha256 answer e with
    | none => .error (.download .allReplicasFailed)
    | some b =>
      if st.2 then .ok st
      else .ok (putAt st.1 e.2.chunkOffset (moved (disk.write e.1) b), (disk.write e.1).isSome)

/-- The file a download starts from, the chunks that are marked in it, the loads left and the stream. -/
def startOn (orderedChunks : List DownloadChunkMeta) (leftover : Option Bytes) (loads : Nat) :
    Except TransferError (Bytes × List Bool × Nat × Bool) :=
  let total := (orderedChunks.map DownloadChunkMeta.size).sum
  match leftover.filter fun f => f.length == total with
  | some f =>
    if disk.opens then (verifyChunksOn sha256 disk f loads 0 0 false orderedChunks).map fun res => (f, res)
    else .error .cannotOpen
  | none =>
    if !disk.allocates then .error .cannotAllocate
    else if !disk.opens then .error .cannotOpen
    else
      let f := if disk.reserves && decide (total ≤ ptrdiffMax + 1) then allocate total else []
      .ok (f, orderedChunks.map fun _ => false, loads, false)

/-- What is returned or thrown; `none` where the call does not come back. Only the exceptions before the pool come out. -/
def downloadToFileOn (orderedChunks : List DownloadChunkMeta) (plans : List ChunkRoutingPlan) (leftover : Option Bytes)
    (answer : Nat → Nat → NodeInfo → ReplicaReply) (order : List Nat) (loads : Nat) :
    Option (Except TransferError (Bytes × Bool)) :=
  match startOn sha256 disk orderedChunks leftover loads with
  | .error e => some (.error e)
  | .ok (file, completed, loads, failed) =>
    match enqueueChunks (routingMap plans) loads 0 0 (orderedChunks.zip completed) with
    | .error _ => none
    | .ok (tasks, loads) =>
      match (scan order tasks).foldlM (writeChunkOn sha256 disk answer) (file, failed) with
      | .error _ => none
      | .ok (file, _) => some (.ok (file, decide (0 < loads)))

/-- With the output file afterwards; it is the rename that throws. -/
def downloadFileOn (plan : Option FileDownloadManifest) (output leftover : Option Bytes)
    (answer : Nat → Nat → NodeInfo → ReplicaReply) (order : List Nat) (loads : Nat) : DownloadEnd × Option Bytes :=
  match plan with
  | none => (.returned false, output)
  | some m =>
    match downloadToFileOn sha256 disk (orderedChunks m.fileSize m.plans) m.plans leftover answer order loads with
    | some (.ok (file, true)) => if disk.renames then (.returned true, some file) else (.threw, output)
    | some (.ok (_, false)) | some (.error _) => (.returned false, output)
    | none => (.stuck, output)

end

variable {sha256 : Bytes → String} {disk : LocalDisk}

/-! ## Without faults -/

/-- The chunk's bytes are in the file, all of them, with its digest. -/
def ChunkPresent (sha256 : Bytes → String) (chunks : List DownloadChunkMeta) (file : Bytes) (i : Nat) : Prop :=
  ∀ c, chunks[i]? = some c →
    (slice file (Extent.offset (chunks.map DownloadChunkMeta.size) i) c.size).length = c.size ∧
    sha256 (slice file (Extent.offset (chunks.map DownloadChunkMeta.size) i) c.size) = c.hash

/-- No read and no write of the first `n` chunks fails. -/
def FaultlessUpTo (disk : LocalDisk) (n : Nat) : Prop := ∀ i < n, disk.read i = none ∧ disk.write i = none

theorem length_putAt (file : Bytes) (offset : Nat) (data : Bytes) :
    (putAt file offset data).length = if data = [] then file.length else max file.length (offset + data.length) := by
  unfold putAt
  by_cases hd : data = []
  · simp [hd]
  · simp [hd, length_writeAt]

theorem slice_putAt_self (file : Bytes) (offset : Nat) (data : Bytes) :
    slice (putAt file offset data) offset data.length = data := by
  unfold putAt
  by_cases hd : data = []
  · simp [hd, slice]
  · rw [if_neg (by simpa using hd), slice_writeAt_self]

/-- An extent that is there stays what it was, unless it is written over. -/
theorem slice_putAt_disjoint {file : Bytes} {offset : Nat} {data : Bytes} {offset' len : Nat}
    (hin : (slice file offset' len).length = len) (h : offset' + len ≤ offset ∨ offset + data.length ≤ offset') :
    slice (putAt file offset data) offset' len = slice file offset' len := by
  unfold putAt
  by_cases hd : data = []
  · simp [hd]
  · rw [if_neg (by simpa using hd)]
    by_cases hlen : len = 0
    · simp [hlen, slice]
    · rw [length_slice] at hin
      exact slice_writeAt_disjoint 0 (by omega) h

/-- A read that does not fail returns the extent. -/
theorem readAt_whole {file : Bytes} {offset size : Nat} (hin : offset + size ≤ file.length) :
    readAt file offset size none false = (slice file offset size, false) := by
  have hlen : (slice file offset size).length = size := by
    rw [length_slice]
    omega
  unfold readAt
  simp only [moved, Bool.false_eq_true, if_false, hlen, Nat.sub_self, List.replicate_zero, List.append_nil,
    Nat.lt_irrefl, decide_false, Bool.or_false, Option.isSome_none]

/-- **The verification without faults** is that of a file that can be read, where the buffers can be had. -/
theorem verifyChunksOn_eq {file : Bytes} : ∀ {cs : List DownloadChunkMeta} {loads i offset : Nat},
    (∀ j < cs.length, disk.read (i + j) = none) → offset + (cs.map DownloadChunkMeta.size).sum ≤ file.length →
    verifyChunksOn sha256 disk file loads i offset false cs =
      if ∀ c ∈ cs.take loads, c.size ≤ ptrdiffMax then
        .ok ((verifyChunks sha256 file loads offset cs).1, (verifyChunks sha256 file loads offset cs).2, false)
      else .error .vectorTooLong
  | [], loads, i, offset, _, _ => by simp [verifyChunksOn, verifyChunks]
  | c :: cs, 0, i, offset, _, _ => by simp [verifyChunksOn, verifyChunks]
  | c :: cs, loads + 1, i, offset, hreads, hlen => by
    rw [List.map_cons, List.sum_cons] at hlen
    have hread : disk.read i = none := hreads 0 (by simp)
    have htail : ∀ j < cs.length, disk.read (i + 1 + j) = none := by
      intro j hj
      rw [show i + 1 + j = i + (j + 1) from by omega]
      exact hreads (j + 1) (by simpa using hj)
    have hrest : verifyChunksOn sha256 disk file loads (i + 1) (offset + c.size) false cs = _ :=
      verifyChunksOn_eq htail (by omega)
    simp only [verifyChunksOn, verifyChunks, hread, readAt_whole (show offset + c.size ≤ file.length by omega), hrest,
      List.take_succ_cons, List.forall_mem_cons]
    by_cases hsize : c.size ≤ ptrdiffMax
    · rw [if_neg (Nat.not_lt.2 hsize)]
      by_cases hsizes : ∀ d ∈ cs.take loads, d.size ≤ ptrdiffMax
      · rw [if_pos hsizes, if_pos ⟨hsize, hsizes⟩]
        rfl
      · rw [if_neg hsizes, if_neg fun h => hsizes h.2]
        rfl
    · rw [if_pos (Nat.lt_of_not_le hsize), if_neg fun h => hsize h.1]

theorem verifyChunksOn_spec {file : Bytes} {cs : List DownloadChunkMeta} {loads i offset loads' : Nat} {bits : List Bool}
    {failed : Bool} (h : verifyChunksOn sha256 disk file loads i offset false cs = .ok (bits, loads', failed))
    (hreads : ∀ j < cs.length, disk.read (i + j) = none)
    (hlen : offset + (cs.map DownloadChunkMeta.size).sum ≤ file.length) :
    failed = false ∧ (bits, loads') = verifyChunks sha256 file loads offset cs := by
  rw [verifyChunksOn_eq hreads hlen] at h
  split at h
  · simp only [Except.ok.injEq, Prod.mk.injEq] at h
    obtain ⟨rfl, rfl, rfl⟩ := h
    exact ⟨rfl, rfl⟩
  · cases h

/-- Every chunk that is verified has a size a buffer can have. -/
theorem verifyChunksOn_sizes {file : Bytes} : ∀ {cs : List DownloadChunkMeta} {loads i offset loads' : Nat}
    {bits : List Bool} {failed failed' : Bool},
    verifyChunksOn sha256 disk file loads i offset failed cs = .ok (bits, loads', failed') →
    bits.length = cs.length ∧ (0 < loads' → ∀ c ∈ cs, c.size ≤ ptrdiffMax)
  | [], loads, i, offset, loads', bits, failed, failed', h => by
    simp only [verifyChunksOn, Except.ok.injEq, Prod.mk.injEq] at h
    obtain ⟨rfl, -, -⟩ := h
    exact ⟨rfl, fun _ c hc => by cases hc⟩
  | c :: cs, 0, i, offset, loads', bits, failed, failed', h => by
    simp only [verifyChunksOn, Except.ok.injEq, Prod.mk.injEq] at h
    obtain ⟨rfl, rfl, -⟩ := h
    exact ⟨by simp, fun hpos => absurd hpos (Nat.lt_irrefl 0)⟩
  | c :: cs, loads + 1, i, offset, loads', bits, failed, failed', h => by
    simp only [verifyChunksOn] at h
    split at h
    · cases h
    · rename_i hsize
      cases hrest : verifyChunksOn sha256 disk file loads (i + 1) (offset + c.size)
          (readAt file offset c.size (disk.read i) failed).2 cs with
      | error e =>
        rw [hrest] at h
        cases h
      | ok rest =>
        obtain ⟨bits', loads'', failed''⟩ := rest
        rw [hrest] at h
        simp only [Except.map, Except.ok.injEq, Prod.mk.injEq] at h
        obtain ⟨rfl, rfl, rfl⟩ := h
        obtain ⟨hlen, hsizes⟩ := verifyChunksOn_sizes hrest
        refine ⟨by simp [hlen], fun hpos d hd => ?_⟩
        rcases List.mem_cons.1 hd with rfl | hd
        · omega
        · exact hsizes hpos d hd

/-! ### The pool -/

variable {answer : Nat → Nat → NodeInfo → ReplicaReply}

/-- **One task** whose write does not fail puts its chunk in place and leaves all that was in place. -/
theorem writeChunkOn_spec {chunks : List DownloadChunkMeta} {st st' : Bytes × Bool} {e : Nat × DownloadTask}
    (h : writeChunkOn sha256 disk answer st e = .ok st') (hst : st.2 = false) (hwrite : disk.write e.1 = none)
    (hchunk : chunks[e.1]? = some e.2.chunk)
    (hoff : e.2.chunkOffset = Extent.offset (chunks.map DownloadChunkMeta.size) e.1) :
    st'.2 = false ∧ ChunkPresent sha256 chunks st'.1 e.1 ∧
      (∀ j, j ≠ e.1 → ChunkPresent sha256 chunks st.1 j → ChunkPresent sha256 chunks st'.1 j) ∧
      (st.1.length = (chunks.map DownloadChunkMeta.size).sum → st'.1.length = st.1.length) := by
  have hsize : ∀ {j : Nat} {c : DownloadChunkMeta}, chunks[j]? = some c →
      (chunks.map DownloadChunkMeta.size)[j]? = some c.size := fun hj => by rw [List.getElem?_map, hj]; rfl
  unfold writeChunkOn at h
  split at h
  · cases h
  · cases hb : fetchChunk sha256 answer e with
    | none =>
      rw [hb] at h
      cases h
    | some b =>
      obtain ⟨hblen, hbsha⟩ := downloadChunk_spec hb List.length_replicate
      simp only [hb, hst, Bool.false_eq_true, if_false, hwrite, moved, Option.isSome_none, Except.ok.injEq] at h
      subst h
      rw [hoff]
      refine ⟨rfl, fun c hc => ?_, fun j hj hplace c hc => ?_, fun hlen => ?_⟩
      · obtain rfl : e.2.chunk = c := Option.some.inj (hchunk.symm.trans hc)
        have hself := slice_putAt_self st.1 (Extent.offset (chunks.map DownloadChunkMeta.size) e.1) b
        rw [hblen] at hself
        simp only [hself]
        exact ⟨hblen, hbsha⟩
      · obtain ⟨hthere, hsha⟩ := hplace c hc
        have hapart := offset_disjoint (hsize hc) (hsize hchunk) hj
        rw [← hblen] at hapart
        have hsame := slice_putAt_disjoint hthere hapart
        simp only [hsame]
        exact ⟨hthere, hsha⟩
      · have hwithin := offset_add_le (hsize hchunk)
        simp only [length_putAt, hblen]
        split <;> omega

theorem bind_ok {ε α β : Type} {x : Except ε α} {f : α → Except ε β} {b : β} (h : (x >>= f) = .ok b) :
    ∃ a, x = .ok a ∧ f a = .ok b := by
  cases x with
  | error e => cases h
  | ok a => exact ⟨a, rfl, h⟩

/-- **The pool**, in any order. -/
theorem writeChunksOn_spec {chunks : List DownloadChunkMeta} : ∀ {tasks : List (Nat × DownloadTask)} {st st' : Bytes × Bool},
    tasks.foldlM (writeChunkOn sha256 disk answer) st = .ok st' → st.2 = false →
    (∀ e ∈ tasks, disk.write e.1 = none ∧ chunks[e.1]? = some e.2.chunk ∧
      e.2.chunkOffset = Extent.offset (chunks.map DownloadChunkMeta.size) e.1) →
    (tasks.map Prod.fst).Nodup →
    (∀ j, j ∈ tasks.map Prod.fst ∨ ChunkPresent sha256 chunks st.1 j → ChunkPresent sha256 chunks st'.1 j) ∧
      (st.1.length = (chunks.map DownloadChunkMeta.size).sum → st'.1.length = st.1.length)
  | [], st, st', h, _, _, _ => by
    obtain rfl : st = st' := Except.ok.inj h
    exact ⟨fun j hj => hj.resolve_left (by simp), fun _ => rfl⟩
  | e :: es, st, st', h, hst, hall, hnd => by
    rw [List.foldlM_cons] at h
    obtain ⟨mid, hmid, h⟩ := bind_ok h
    obtain ⟨hwrite, hchunk, hoff⟩ := hall e List.mem_cons_self
    obtain ⟨hok, hself, hothers, hlen⟩ := writeChunkOn_spec hmid hst hwrite hchunk hoff
    rw [List.map_cons, List.nodup_cons] at hnd
    obtain ⟨hplace, hlen'⟩ := writeChunksOn_spec h hok (fun d hd => hall d (List.mem_cons_of_mem _ hd)) hnd.2
    refine ⟨fun j hj => hplace j ?_, fun hsum => ?_⟩
    · rw [List.map_cons, List.mem_cons] at hj
      by_cases hje : j = e.1
      · exact Or.inr (hje ▸ hself)
      · rcases hj with (hj | hj) | hj
        · exact absurd hj hje
        · exact Or.inl hj
        · exact Or.inr (hothers j hje hj)
    · have hmidlen := hlen hsum
      rw [hlen' (hmidlen.trans hsum), hmidlen]

/-- Whatever the writes do, a pool that ends has had a buffer for every task. -/
theorem writeChunksOn_sizes : ∀ {tasks : List (Nat × DownloadTask)} {st st' : Bytes × Bool},
    tasks.foldlM (writeChunkOn sha256 disk answer) st = .ok st' → ∀ e ∈ tasks, e.2.chunk.size ≤ ptrdiffMax
  | [], _, _, _, _, he => by cases he
  | d :: ds, st, st', h, e, he => by
    rw [List.foldlM_cons] at h
    obtain ⟨mid, hmid, h⟩ := bind_ok h
    rcases List.mem_cons.1 he with rfl | he
    · unfold writeChunkOn at hmid
      split at hmid
      · cases hmid
      · omega
    · exact writeChunksOn_sizes h e he

/-! ### The call -/

/-- The parts of a call that returns `true`. -/
theorem downloadToFileOn_true {chunks : List DownloadChunkMeta} {plans : List ChunkRoutingPlan} {leftover : Option Bytes}
    {order : List Nat} {loads : Nat} {file' : Bytes}
    (h : downloadToFileOn sha256 disk chunks plans leftover answer order loads = some (.ok (file', true))) :
    ∃ start bits failed tasks left left' failed', startOn sha256 disk chunks leftover loads = .ok (start, bits, left, failed) ∧
      enqueueChunks (routingMap plans) left 0 0 (chunks.zip bits) = .ok (tasks, left') ∧ 0 < left' ∧
      (scan order tasks).foldlM (writeChunkOn sha256 disk answer) (start, failed) = .ok (file', failed') := by
  unfold downloadToFileOn at h
  split at h
  · cases h
  · rename_i start bits left failed hstart
    split at h
    · cases h
    · rename_i tasks left' henq
      split at h
      · cases h
      · rename_i out failed' hwrite
        simp only [Option.some.injEq, Except.ok.injEq, Prod.mk.injEq, decide_eq_true_eq] at h
        obtain ⟨rfl, hpos⟩ := h
        exact ⟨start, bits, failed, tasks, left, left', failed', hstart, henq, hpos, hwrite⟩

/-- The file a faultless download starts from: what is marked is in place. -/
theorem startOn_spec {chunks : List DownloadChunkMeta} {leftover : Option Bytes} {loads : Nat} {start : Bytes}
    {bits : List Bool} {left : Nat} {failed : Bool}
    (h : startOn sha256 disk chunks leftover loads = .ok (start, bits, left, failed))
    (hreads : ∀ i < chunks.length, disk.read i = none) :
    failed = false ∧ bits.length = chunks.length ∧
      (∀ j, bits[j]? = some true → ChunkPresent sha256 chunks start j) ∧
      (disk.reserves = true → (chunks.map DownloadChunkMeta.size).sum ≤ ptrdiffMax + 1 →
        start.length = (chunks.map DownloadChunkMeta.size).sum) := by
  have hsize : ∀ {j : Nat} {c : DownloadChunkMeta}, chunks[j]? = some c →
      (chunks.map DownloadChunkMeta.size)[j]? = some c.size := fun hj => by rw [List.getElem?_map, hj]; rfl
  unfold startOn at h
  simp only at h
  split at h
  · rename_i f hold
    have hlen : f.length = (chunks.map DownloadChunkMeta.size).sum := by
      simpa using (Option.filter_eq_some_iff.1 hold).2
    split at h
    · cases hres : verifyChunksOn sha256 disk f loads 0 0 false chunks with
      | error e =>
        rw [hres] at h
        cases h
      | ok res =>
        obtain ⟨bits', left', failed'⟩ := res
        rw [hres] at h
        simp only [Except.map, Except.ok.injEq, Prod.mk.injEq] at h
        obtain ⟨rfl, rfl, rfl, rfl⟩ := h
        obtain ⟨hok, hverify⟩ := verifyChunksOn_spec hres (fun j hj => by rw [Nat.zero_add]; exact hreads j hj) (by omega)
        obtain ⟨hbits, hdone⟩ := verifyChunks_spec hverify.symm
        refine ⟨hok, hbits, fun j hj c hc => ⟨?_, ?_⟩, fun _ _ => hlen⟩
        · have hwithin := offset_add_le (hsize hc)
          rw [length_slice]
          omega
        · have hsha := hdone j c hc hj
          rwa [Nat.zero_add] at hsha
    · cases h
  · split at h
    · cases h
    · split at h
      · cases h
      · simp only [Except.ok.injEq, Prod.mk.injEq] at h
        obtain ⟨rfl, rfl, rfl, rfl⟩ := h
        refine ⟨rfl, by simp, fun j hj => ?_, fun hres htotal => ?_⟩
        · obtain ⟨_, -, he⟩ := Option.map_eq_some_iff.1 ((List.getElem?_map ..).symm.trans hj)
          cases he
        · rw [hres, Bool.true_and, if_pos (by simpa using htotal), length_allocate]

/-- The tasks of a call: each chunk that is not marked, at its offset. -/
theorem tasks_spec {chunks : List DownloadChunkMeta} {bits : List Bool} {routes : String → Option (List NodeInfo)}
    {left left' : Nat} {tasks : List (Nat × DownloadTask)} (order : List Nat) (hbits : bits.length = chunks.length)
    (henq : enqueueChunks routes left 0 0 (chunks.zip bits) = .ok (tasks, left')) (hpos : 0 < left') :
    ((scan order tasks).map Prod.fst).Nodup ∧
    (∀ e ∈ scan order tasks, chunks[e.1]? = some e.2.chunk ∧
      e.2.chunkOffset = Extent.offset (chunks.map DownloadChunkMeta.size) e.1) ∧
    ∀ j c, chunks[j]? = some c → bits[j]? = some true ∨ j ∈ (scan order tasks).map Prod.fst := by
  obtain ⟨hcov, hleft⟩ := enqueueChunks_spec henq
  have hkeys := (scan_perm hcov.nodup order).map Prod.fst
  refine ⟨hkeys.nodup_iff.2 hcov.nodup, fun e he => ?_, fun j c hc => ?_⟩
  · obtain ⟨j, -, hj, hcj, ho, -⟩ := hcov.sound e ((mem_scan hcov.nodup order).1 he)
    rw [Nat.zero_add] at hj ho
    rw [offset_map_zip chunks hbits] at ho
    rw [hj]
    exact ⟨(List.getElem?_zip_eq_some.1 hcj).1, ho⟩
  · have hj : j < chunks.length := (List.getElem?_eq_some_iff.1 hc).1
    have hbit : bits[j]? = some bits[j] := List.getElem?_eq_getElem (hbits ▸ hj)
    cases hb : bits[j] with
    | true => exact .inl (hb ▸ hbit)
    | false =>
      have hreached : j < left := by
        rw [List.length_zip, hbits, Nat.min_self] at hleft
        omega
      have hmem := hcov.complete j hreached c (List.getElem?_zip_eq_some.2 ⟨hc, hb ▸ hbit⟩)
      rw [Nat.zero_add] at hmem
      exact .inr (hkeys.mem_iff.2 hmem)

/-- **Without a fault on the shared stream** a download that returns `true` has all its chunks in place; the write
that reserves the space may fail, it only decides the length. -/
theorem downloadToFileOn_present {chunks : List DownloadChunkMeta} {plans : List ChunkRoutingPlan} {leftover : Option Bytes}
    {order : List Nat} {loads : Nat} {file' : Bytes}
    (h : downloadToFileOn sha256 disk chunks plans leftover answer order loads = some (.ok (file', true)))
    (hfaults : FaultlessUpTo disk chunks.length) :
    (∀ i, ChunkPresent sha256 chunks file' i) ∧
      (disk.reserves = true → (chunks.map DownloadChunkMeta.size).sum ≤ ptrdiffMax + 1 →
        file'.length = (chunks.map DownloadChunkMeta.size).sum) := by
  obtain ⟨start, bits, failed, tasks, left, left', failed', hstart, henq, hpos, hwrite⟩ := downloadToFileOn_true h
  obtain ⟨rfl, hbits, hdone, hlen⟩ := startOn_spec hstart fun i hi => (hfaults i hi).1
  obtain ⟨hnd, htasks, hcovered⟩ := tasks_spec order hbits henq hpos
  have hall : ∀ e ∈ scan order tasks, disk.write e.1 = none ∧ chunks[e.1]? = some e.2.chunk ∧
      e.2.chunkOffset = Extent.offset (chunks.map DownloadChunkMeta.size) e.1 := by
    intro e he
    obtain ⟨hchunk, hoff⟩ := htasks e he
    exact ⟨(hfaults e.1 (List.getElem?_eq_some_iff.1 hchunk).1).2, hchunk, hoff⟩
  obtain ⟨hplace, hsame⟩ := writeChunksOn_spec hwrite rfl hall hnd
  refine ⟨fun i c hc => ?_, fun hres htotal => ?_⟩
  · rcases hcovered i c hc with hbit | hmem
    · exact hplace i (.inr (hdone i hbit)) c hc
    · exact hplace i (.inl hmem) c hc
  · have hstartlen := hlen hres htotal
    exact (hsame hstartlen).trans hstartlen

/-- Within a file an empty write changes nothing, so the two ways of writing agree. -/
theorem putAt_eq {file : Bytes} {offset : Nat} {data : Bytes} (h : offset ≤ file.length) :
    putAt file offset data = writeAt 0 file offset data := by
  unfold putAt
  cases data with
  | nil => simp [writeAt, Nat.sub_eq_zero_of_le h]
  | cons b bs => rfl

theorem writeChunksOn_sound {chunks : List DownloadChunkMeta} : ∀ {tasks : List (Nat × DownloadTask)} {file file' : Bytes}
    {failed' : Bool}, tasks.foldlM (writeChunkOn sha256 .sound answer) (file, false) = .ok (file', failed') →
    file.length = (chunks.map DownloadChunkMeta.size).sum →
    (∀ e ∈ tasks, chunks[e.1]? = some e.2.chunk ∧
      e.2.chunkOffset = Extent.offset (chunks.map DownloadChunkMeta.size) e.1) →
    tasks.foldlM (writeChunk sha256 answer) file = some file'
  | [], file, file', failed', h, _, _ => by
    cases h
    rfl
  | e :: es, file, file', failed', h, hlen, hall => by
    rw [List.foldlM_cons] at h ⊢
    obtain ⟨mid, hmid, h⟩ := bind_ok h
    obtain ⟨hchunk, hoff⟩ := hall e List.mem_cons_self
    obtain ⟨hok, -, -, hkeep⟩ := writeChunkOn_spec hmid rfl rfl hchunk hoff
    have hmidlen := (hkeep hlen).trans hlen
    have hwrite : writeChunk sha256 answer file e = some mid.1 := by
      have hwithin : e.2.chunkOffset ≤ file.length := by
        rw [hoff, hlen]
        exact offset_le_sum _ _
      unfold writeChunkOn at hmid
      split at hmid
      · cases hmid
      · cases hb : fetchChunk sha256 answer e with
        | none =>
          rw [hb] at hmid
          cases hmid
        | some b =>
          simp only [hb, LocalDisk.sound, moved, Bool.false_eq_true, if_false, Except.ok.injEq] at hmid
          subst hmid
          exact Option.map_eq_some_iff.2 ⟨b, hb, (putAt_eq hwithin).symm⟩
    rw [hwrite]
    have hmideq : mid = (mid.1, false) := Prod.ext rfl hok
    rw [hmideq] at h
    exact writeChunksOn_sound h hmidlen fun d hd => hall d (List.mem_cons_of_mem _ hd)

/-- **On a sound disk** a download that returns `true` is one of `downloadToFile`. -/
theorem downloadToFileOn_sound {chunks : List DownloadChunkMeta} {plans : List ChunkRoutingPlan} {leftover : Option Bytes}
    {order : List Nat} {loads : Nat} {file' : Bytes}
    (h : downloadToFileOn sha256 .sound chunks plans leftover answer order loads = some (.ok (file', true)))
    (htotal : (chunks.map DownloadChunkMeta.size).sum ≤ ptrdiffMax + 1) :
    downloadToFile sha256 chunks plans leftover answer order loads = some (file', true) := by
  obtain ⟨start, bits, failed, tasks, left, left', failed', hstart, henq, hpos, hwrite⟩ := downloadToFileOn_true h
  obtain ⟨rfl, hbits, -, hlen⟩ := startOn_spec hstart fun _ _ => rfl
  obtain ⟨-, htasks, -⟩ := tasks_spec order hbits henq hpos
  have hpool := writeChunksOn_sound hwrite (hlen rfl htotal) htasks
  unfold downloadToFile
  unfold startOn at hstart
  simp only at hstart ⊢
  cases hold : leftover.filter fun f => f.length == (chunks.map DownloadChunkMeta.size).sum with
  | some f =>
    simp only [hold] at hstart ⊢
    have hfile : f.length = (chunks.map DownloadChunkMeta.size).sum := by
      simpa using (Option.filter_eq_some_iff.1 hold).2
    rw [if_pos (show LocalDisk.sound.opens = true from rfl)] at hstart
    cases hres : verifyChunksOn sha256 .sound f loads 0 0 false chunks with
    | error e =>
      rw [hres] at hstart
      cases hstart
    | ok res =>
      obtain ⟨bits', left'', failed''⟩ := res
      rw [hres] at hstart
      simp only [Except.map, Except.ok.injEq, Prod.mk.injEq] at hstart
      obtain ⟨rfl, rfl, rfl, rfl⟩ := hstart
      obtain ⟨-, hverify⟩ := verifyChunksOn_spec hres (fun _ _ => rfl) (by omega)
      simp only [← hverify, henq, hpool, hpos, decide_true, Option.map_some]
  | none =>
    simp only [hold] at hstart ⊢
    simp only [LocalDisk.sound, Bool.not_true, Bool.false_eq_true, if_false, Bool.true_and, htotal, decide_true, if_true,
      Except.ok.injEq, Prod.mk.injEq] at hstart
    obtain ⟨rfl, rfl, rfl, -⟩ := hstart
    simp only [henq, hpool, hpos, decide_true, Option.map_some]

/-- A download that returns `true` has had a buffer for every chunk. -/
theorem downloadToFileOn_sizes {chunks : List DownloadChunkMeta} {plans : List ChunkRoutingPlan} {leftover : Option Bytes}
    {order : List Nat} {loads : Nat} {file' : Bytes}
    (h : downloadToFileOn sha256 disk chunks plans leftover answer order loads = some (.ok (file', true))) :
    ∀ c ∈ chunks, c.size ≤ ptrdiffMax := by
  obtain ⟨start, bits, failed, tasks, left, left', failed', hstart, henq, hpos, hwrite⟩ := downloadToFileOn_true h
  have hleft : 0 < left := by
    by_contra hzero
    obtain rfl : left = 0 := by omega
    have hnone : left' = 0 := by
      cases hzip : chunks.zip bits <;> rw [hzip] at henq <;>
        simp only [enqueueChunks, Except.ok.injEq, Prod.mk.injEq] at henq <;> exact henq.2.symm
    omega
  unfold startOn at hstart
  simp only at hstart
  split at hstart
  · split at hstart
    · rename_i f _ _
      cases hres : verifyChunksOn sha256 disk f loads 0 0 false chunks with
      | error e =>
        rw [hres] at hstart
        cases hstart
      | ok res =>
        obtain ⟨bits', left'', failed''⟩ := res
        rw [hres] at hstart
        simp only [Except.map, Except.ok.injEq, Prod.mk.injEq] at hstart
        obtain ⟨rfl, rfl, rfl, rfl⟩ := hstart
        exact (verifyChunksOn_sizes hres).2 hleft
    · cases hstart
  · split at hstart
    · cases hstart
    · split at hstart
      · cases hstart
      · simp only [Except.ok.injEq, Prod.mk.injEq] at hstart
        obtain ⟨rfl, rfl, rfl, rfl⟩ := hstart
        obtain ⟨-, htasks, hcovered⟩ := tasks_spec order (List.length_map _) henq hpos
        intro c hc
        obtain ⟨j, hj⟩ := List.mem_iff_getElem?.1 hc
        have hmem := (hcovered j c hj).resolve_left fun hbit => by
          obtain ⟨_, -, he⟩ := Option.map_eq_some_iff.1 ((List.getElem?_map ..).symm.trans hbit)
          cases he
        obtain ⟨e, he, rfl⟩ := List.mem_map.1 hmem
        have hsize := writeChunksOn_sizes hwrite e he
        rwa [show e.2.chunk = c from Option.some.inj ((htasks e he).1.symm.trans hj)] at hsize

/-! ## A call that comes back -/

/-- What a call of `DownloadToFile` is given, and what it meets. -/
structure DownloadCall where
  orderedChunks : List DownloadChunkMeta
  plans : List ChunkRoutingPlan
  leftover : Option Bytes
  answer : Nat → Nat → NodeInfo → ReplicaReply
  order : List Nat
  loads : Nat

/-- A route, a size that a vector can have, and a replica that answers with the chunk. -/
def Fetchable (sha256 : Bytes → String) (plans : List ChunkRoutingPlan) (answer : Nat → Nat → NodeInfo → ReplicaReply)
    (i : Nat) (c : DownloadChunkMeta) : Prop :=
  c.size ≤ ptrdiffMax ∧ ∃ nodes, routingMap plans c.hash = some nodes ∧ ∃ r ∈ nodes.mapIdx (answer i),
    r.status = some 200 ∧ r.pieces.flatten.length = c.size ∧ sha256 r.pieces.flatten = c.hash

namespace DownloadCall

section
variable (sha256 : Bytes → String) (disk : LocalDisk) (call : DownloadCall)

/-- How the call ends; `none` where it does not. -/
def endOn : Option (Except TransferError (Bytes × Bool)) :=
  downloadToFileOn sha256 disk call.orderedChunks call.plans call.leftover call.answer call.order call.loads

/-- The file of an `is_resume`. -/
def resumed : Option Bytes :=
  call.leftover.filter fun f => f.length == (call.orderedChunks.map DownloadChunkMeta.size).sum

/-- The streams open, and what is verified fits into a vector. -/
def ReachesPool : Prop :=
  disk.opens = true ∧ ((∃ f, call.resumed = some f ∧ ∀ c ∈ call.orderedChunks.take call.loads, c.size ≤ ptrdiffMax) ∨
    call.resumed = none ∧ disk.allocates = true)

/-- The chunk is reached before the transfer is paused, and the leftover does not have it. -/
def Fetches (i : Nat) : Prop :=
  (∃ f, call.resumed = some f ∧ i + call.orderedChunks.length < call.loads ∧ ¬ ChunkInPlace sha256 call.orderedChunks f i) ∨
    call.resumed = none ∧ i < call.loads

/-- Every chunk that the call fetches can be had. -/
def FetchesAll : Prop :=
  call.ReachesPool disk → ∀ i c, call.orderedChunks[i]? = some c → call.Fetches sha256 i →
    Fetchable sha256 call.plans call.answer i c

/-- What is asked of a call: it returns or throws, and with `true` all chunks are there. -/
structure ReportsTruly : Prop where
  comesBack : call.endOn sha256 disk ≠ none
  present : ∀ file, call.endOn sha256 disk = some (.ok (file, true)) → ∀ i, ChunkPresent sha256 call.orderedChunks file i

end

end DownloadCall

theorem fetchChunk_isSome {e : Nat × DownloadTask} : (fetchChunk sha256 answer e).isSome ↔
    ∃ r ∈ e.2.nodes.mapIdx (answer e.1), r.status = some 200 ∧ r.pieces.flatten.length = e.2.chunk.size ∧
      sha256 r.pieces.flatten = e.2.chunk.hash := by
  rw [fetchChunk, downloadChunk_eq List.length_replicate, Option.isSome_map, List.find?_isSome]
  exact exists_congr fun r => and_congr_right fun _ => isWhole_iff

/-- The pool ends where every task has its chunk, whatever the writes do. -/
theorem writeChunksOn_ok_iff : ∀ {tasks : List (Nat × DownloadTask)} (st : Bytes × Bool),
    (∃ st', tasks.foldlM (writeChunkOn sha256 disk answer) st = .ok st') ↔
      ∀ e ∈ tasks, e.2.chunk.size ≤ ptrdiffMax ∧ (fetchChunk sha256 answer e).isSome
  | [], st => by simp [pure, Except.pure]
  | e :: es, st => by
    have hfirst : (∃ mid, writeChunkOn sha256 disk answer st e = .ok mid) ↔
        e.2.chunk.size ≤ ptrdiffMax ∧ (fetchChunk sha256 answer e).isSome := by
      unfold writeChunkOn
      split
      · rename_i hlong
        simp [Nat.not_le.2 hlong]
      · rename_i hsize
        cases fetchChunk sha256 answer e with
        | none => simp
        | some b =>
          rw [and_iff_right (Nat.not_lt.1 hsize)]
          simp only [Option.isSome_some, iff_true]
          split
          · exact ⟨_, rfl⟩
          · exact ⟨_, rfl⟩
    rw [List.forall_mem_cons, ← hfirst, List.foldlM_cons]
    constructor
    · rintro ⟨st', h⟩
      obtain ⟨mid, hmid, hrest⟩ := bind_ok h
      exact ⟨⟨mid, hmid⟩, (writeChunksOn_ok_iff mid).1 ⟨st', hrest⟩⟩
    · rintro ⟨⟨mid, hmid⟩, hrest⟩
      obtain ⟨st', hst'⟩ := (writeChunksOn_ok_iff mid).2 hrest
      exact ⟨st', by rw [hmid]; exact hst'⟩

variable (disk) in
/-- **The pool is shut down** exactly where every chunk that is reached and not marked is fetchable. -/
theorem pool_ends_iff {chunks : List DownloadChunkMeta} {plans : List ChunkRoutingPlan} {bits : List Bool} {left : Nat}
    (st : Bytes × Bool) (order : List Nat) :
    (∃ tasks left' st', enqueueChunks (routingMap plans) left 0 0 (chunks.zip bits) = .ok (tasks, left') ∧
        (scan order tasks).foldlM (writeChunkOn sha256 disk answer) st = .ok st') ↔
      ∀ i c, chunks[i]? = some c → i < left ∧ bits[i]? = some false → Fetchable sha256 plans answer i c := by
  constructor
  · rintro ⟨tasks, left', st', henq, hpool⟩ i c hc ⟨hreached, hbit⟩
    obtain ⟨hcov, -⟩ := enqueueChunks_spec henq
    have hmem := hcov.complete i hreached c (List.getElem?_zip_eq_some.2 ⟨hc, hbit⟩)
    rw [Nat.zero_add] at hmem
    obtain ⟨e, he, rfl⟩ := List.mem_map.1 hmem
    obtain ⟨j, -, hj, hchunk, -, hroute⟩ := hcov.sound e he
    rw [Nat.zero_add] at hj
    obtain rfl : c = e.2.chunk := Option.some.inj (hc.symm.trans (hj ▸ (List.getElem?_zip_eq_some.1 hchunk).1))
    obtain ⟨hsize, hfetch⟩ := (writeChunksOn_ok_iff st).1 ⟨st', hpool⟩ e ((mem_scan hcov.nodup order).2 he)
    exact ⟨hsize, e.2.nodes, hroute, fetchChunk_isSome.1 hfetch⟩
  · intro hall
    obtain ⟨⟨tasks, left'⟩, henq⟩ : ∃ res, enqueueChunks (routingMap plans) left 0 0 (chunks.zip bits) = .ok res := by
      refine enqueueChunks_ok_iff.2 fun j hj c hc => ?_
      obtain ⟨hchunk, hbit⟩ := List.getElem?_zip_eq_some.1 hc
      obtain ⟨-, nodes, hroute, -⟩ := hall j c hchunk ⟨hj, hbit⟩
      rw [hroute]
      rfl
    obtain ⟨hcov, -⟩ := enqueueChunks_spec henq
    obtain ⟨st', hpool⟩ : ∃ st', (scan order tasks).foldlM (writeChunkOn sha256 disk answer) st = .ok st' := by
      refine (writeChunksOn_ok_iff st).2 fun e he => ?_
      obtain ⟨j, hreached, hj, hchunk, -, hroute⟩ := hcov.sound e ((mem_scan hcov.nodup order).1 he)
      rw [Nat.zero_add] at hj
      obtain ⟨hc, hbit⟩ := List.getElem?_zip_eq_some.1 hchunk
      obtain ⟨hsize, nodes, hnodes, hgood⟩ := hall j e.2.chunk hc ⟨hreached, hbit⟩
      obtain rfl : e.2.nodes = nodes := Option.some.inj (hroute.symm.trans hnodes)
      exact ⟨hsize, fetchChunk_isSome.2 (hj ▸ hgood)⟩
    exact ⟨tasks, left', st', henq, hpool⟩

namespace DownloadCall

variable {call : DownloadCall}

theorem startOn_resumed {f : Bytes} (h : call.resumed = some f) :
    startOn sha256 disk call.orderedChunks call.leftover call.loads =
      if disk.opens then (verifyChunksOn sha256 disk f call.loads 0 0 false call.orderedChunks).map fun res => (f, res)
      else .error .cannotOpen := by
  unfold resumed at h
  simp only [startOn, h]

variable (sha256) in
theorem startOn_fresh (h : call.resumed = none) (hopens : disk.opens = true) (hallocates : disk.allocates = true) :
    ∃ start, startOn sha256 disk call.orderedChunks call.leftover call.loads =
      .ok (start, call.orderedChunks.map fun _ => false, call.loads, false) := by
  unfold resumed at h
  simp only [startOn, h, hopens, hallocates, Bool.not_true, Bool.false_eq_true, if_false]
  exact ⟨_, rfl⟩

variable (sha256) in
/-- A call that does not get as far as its pool throws. -/
theorem startOn_error (hreads : ∀ i < call.orderedChunks.length, disk.read i = none) (h : ¬ call.ReachesPool disk) :
    ∃ e, startOn sha256 disk call.orderedChunks call.leftover call.loads = .error e := by
  cases hf : call.resumed with
  | some f =>
    rw [startOn_resumed hf]
    by_cases hopens : disk.opens = true
    · have hlen : f.length = (call.orderedChunks.map DownloadChunkMeta.size).sum := by
        simpa using (Option.filter_eq_some_iff.1 hf).2
      have hlong : ¬ ∀ c ∈ call.orderedChunks.take call.loads, c.size ≤ ptrdiffMax :=
        fun hsizes => h ⟨hopens, .inl ⟨f, hf, hsizes⟩⟩
      rw [if_pos hopens, verifyChunksOn_eq (fun j hj => by rw [Nat.zero_add]; exact hreads j hj) (by omega), if_neg hlong]
      exact ⟨_, rfl⟩
    · rw [if_neg hopens]
      exact ⟨_, rfl⟩
  | none =>
    have hfilter := hf
    unfold resumed at hfilter
    simp only [startOn, hfilter]
    split
    · exact ⟨_, rfl⟩
    · rename_i hallocates
      split
      · exact ⟨_, rfl⟩
      · rename_i hopens
        simp only [Bool.not_eq_true', Bool.not_eq_false] at hallocates hopens
        exact absurd ⟨hopens, .inr ⟨hf, hallocates⟩⟩ h

variable (sha256) in
/-- The chunks that are reached and not marked are those the call fetches. -/
theorem startOn_ok (hreads : ∀ i < call.orderedChunks.length, disk.read i = none) (h : call.ReachesPool disk) :
    ∃ start bits left, startOn sha256 disk call.orderedChunks call.leftover call.loads = .ok (start, bits, left, false) ∧
      call.loads ≤ left + call.orderedChunks.length ∧
      ∀ i c, call.orderedChunks[i]? = some c → (i < left ∧ bits[i]? = some false ↔ call.Fetches sha256 i) := by
  obtain ⟨hopens, ⟨f, hf, hsizes⟩ | ⟨hf, hallocates⟩⟩ := h
  · have hlen : f.length = (call.orderedChunks.map DownloadChunkMeta.size).sum := by
      simpa using (Option.filter_eq_some_iff.1 hf).2
    refine ⟨f, (verifyChunks sha256 f call.loads 0 call.orderedChunks).1, call.loads - call.orderedChunks.length, ?_,
      by omega, ?_⟩
    · rw [startOn_resumed hf, if_pos hopens,
        verifyChunksOn_eq (fun j hj => by rw [Nat.zero_add]; exact hreads j hj) (by omega), if_pos hsizes, verifyChunks_loads]
      rfl
    · intro i c hc
      have hplace : ChunkInPlace sha256 call.orderedChunks f i ↔
          sha256 (slice f (Extent.offset (call.orderedChunks.map DownloadChunkMeta.size) i) c.size) = c.hash := by
        simp [ChunkInPlace, hc]
      have hfetches : call.Fetches sha256 i ↔
          i + call.orderedChunks.length < call.loads ∧ ¬ ChunkInPlace sha256 call.orderedChunks f i := by
        simp [Fetches, hf]
      rw [hfetches, hplace]
      by_cases hreached : i + call.orderedChunks.length < call.loads
      · rw [verifyChunks_bits (by omega), hc, Nat.zero_add]
        simp only [Option.map_some, Option.some.injEq, beq_eq_false_iff_ne, ne_eq]
        exact and_congr_left fun _ => by omega
      · exact iff_of_false (fun h => hreached (by omega)) fun h => hreached h.1
  · obtain ⟨start, hstart⟩ := startOn_fresh sha256 hf hopens hallocates
    refine ⟨start, _, _, hstart, by omega, fun i c hc => ?_⟩
    have hbit : (call.orderedChunks.map fun _ => false)[i]? = some false := by
      rw [List.getElem?_map, hc]
      rfl
    rw [hbit]
    simp [Fetches, hf]

/-- **A call comes back** exactly where every chunk it fetches can be had. -/
theorem comesBack_iff (hreads : ∀ i < call.orderedChunks.length, disk.read i = none) :
    call.endOn sha256 disk ≠ none ↔ call.FetchesAll sha256 disk := by
  unfold endOn FetchesAll downloadToFileOn
  by_cases hpool : call.ReachesPool disk
  · obtain ⟨start, bits, left, hstart, -, hfetches⟩ := startOn_ok sha256 hreads hpool
    have hends : (∃ tasks left' st',
          enqueueChunks (routingMap call.plans) left 0 0 (call.orderedChunks.zip bits) = .ok (tasks, left') ∧
            (scan call.order tasks).foldlM (writeChunkOn sha256 disk call.answer) (start, false) = .ok st') ↔
        ∀ i c, call.orderedChunks[i]? = some c → i < left ∧ bits[i]? = some false →
          Fetchable sha256 call.plans call.answer i c := pool_ends_iff disk (start, false) call.order
    have hwanted : (∀ i c, call.orderedChunks[i]? = some c → i < left ∧ bits[i]? = some false →
        Fetchable sha256 call.plans call.answer i c) ↔ ∀ i c, call.orderedChunks[i]? = some c → call.Fetches sha256 i →
          Fetchable sha256 call.plans call.answer i c :=
      forall_congr' fun i => forall_congr' fun c => forall_congr' fun hc => by rw [hfetches i c hc]
    rw [forall_prop_of_true hpool, ← hwanted, ← hends, hstart]
    simp only
    constructor
    · intro h
      split at h
      · exact absurd rfl h
      · rename_i tasks left' henq
        split at h
        · exact absurd rfl h
        · rename_i file failed hrun
          exact ⟨tasks, left', (file, failed), henq, hrun⟩
    · rintro ⟨tasks, left', st', henq, hrun⟩
      simp only [henq, hrun]
      exact Option.some_ne_none _
  · obtain ⟨e, he⟩ := startOn_error sha256 hreads hpool
    rw [he]
    exact iff_of_true (Option.some_ne_none _) fun h => absurd h hpool

/-- **A call that is not paused returns `true`** where it reaches its pool and all it fetches can be had. -/
theorem returns_true (hreads : ∀ i < call.orderedChunks.length, disk.read i = none) (hpool : call.ReachesPool disk)
    (hall : call.FetchesAll sha256 disk) (hloads : 2 * call.orderedChunks.length < call.loads) :
    ∃ file, call.endOn sha256 disk = some (.ok (file, true)) := by
  obtain ⟨start, bits, left, hstart, hleft, hfetches⟩ := startOn_ok sha256 hreads hpool
  obtain ⟨tasks, left', st', henq, hrun⟩ := (pool_ends_iff disk (start, false) call.order).2
    fun i c hc hwanted => hall hpool i c hc ((hfetches i c hc).1 hwanted)
  obtain ⟨-, hrest⟩ := enqueueChunks_spec henq
  have hzip : (call.orderedChunks.zip bits).length ≤ call.orderedChunks.length := by
    rw [List.length_zip]
    exact Nat.min_le_left _ _
  have hpos : 0 < left' := by omega
  refine ⟨st'.1, ?_⟩
  simp only [endOn, downloadToFileOn, hstart, henq, hrun, hpos, decide_true]

theorem reportsTruly_iff (hfaults : FaultlessUpTo disk call.orderedChunks.length) :
    call.ReportsTruly sha256 disk ↔ call.FetchesAll sha256 disk := by
  rw [← comesBack_iff fun i hi => (hfaults i hi).1]
  exact ⟨fun h => h.comesBack, fun h => ⟨h, fun file hfile => (downloadToFileOn_present hfile hfaults).1⟩⟩

end DownloadCall

end StorageEngine
