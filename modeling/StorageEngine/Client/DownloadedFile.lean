import StorageEngine.Client.LocalDisk

/-!
# What a download leaves

Two promises of `DownloadFile` about the file it leaves, over every disk. On a sound disk, one that returns `true` has the size the
master gave, exactly where the plans cover it (`downloaded_size_iff`); it has all its chunks exactly where no read and no
write of a chunk fails behind its back (`local_failures_iff`).
-/

namespace StorageEngine

open Extent

variable {sha256 : Bytes → String} {disk : LocalDisk} {answer : Nat → Nat → NodeInfo → ReplicaReply}

/-! ## The sizes of `DownloadFile` -/

/-- The plans cover the file, and a file without plans is empty. -/
def PlansCover (m : FileDownloadManifest) : Prop :=
  m.fileSize ≤ m.plans.length * chunkSize ∧ (m.plans = [] → 0 ≤ m.fileSize)

instance (m : FileDownloadManifest) : Decidable (PlansCover m) :=
  inferInstanceAs (Decidable (_ ∧ (_ → _)))

theorem orderedChunks_zero (plans : List ChunkRoutingPlan) :
    ((orderedChunks 0 plans).map DownloadChunkMeta.size).sum = 0 := by
  induction plans with
  | nil => rfl
  | cons p ps ih =>
    simp only [orderedChunks]
    rw [if_neg (by decide)]
    simpa using ih

/-- **The sum of the sizes.** Of a size that is not negative it is what the plans can hold of it. -/
theorem orderedChunks_sum (n : Nat) (plans : List ChunkRoutingPlan) (hn : n < 2 ^ 63) :
    ((orderedChunks n plans).map DownloadChunkMeta.size).sum = min n (plans.length * chunkSize) := by
  induction plans generalizing n with
  | nil => simp [orderedChunks]
  | cons p ps ih =>
    simp only [orderedChunks]
    rw [List.length_cons, Nat.succ_mul]
    split
    · rename_i hle
      have hle' : chunkSize ≤ n := by exact_mod_cast hle
      have hcast : (n : Int) - chunkSize = ((n - chunkSize : Nat) : Int) := by omega
      rw [List.map_cons, List.sum_cons, hcast, ih _ (by omega)]
      show chunkSize + min (n - chunkSize) (ps.length * chunkSize) = _
      omega
    · rename_i hlt
      have hlt' : n < chunkSize := by
        rw [not_le] at hlt
        exact_mod_cast hlt
      have hmod : ((n : Int) % 2 ^ 64).toNat = n := by omega
      rw [List.map_cons, List.sum_cons, orderedChunks_zero, hmod]
      show n + 0 = _
      omega

/-- A negative size becomes the size of the first chunk, with `2^64` added; the others are empty. -/
theorem orderedChunks_negative {fileSize : Int} (hneg : fileSize < 0) (hlo : -2 ^ 63 ≤ fileSize) (p : ChunkRoutingPlan)
    (ps : List ChunkRoutingPlan) :
    orderedChunks fileSize (p :: ps) = ⟨p.hash, (fileSize + 2 ^ 64).toNat⟩ :: orderedChunks 0 ps := by
  simp only [orderedChunks]
  rw [if_neg (by unfold chunkSize; omega), show fileSize % 2 ^ 64 = fileSize + 2 ^ 64 from by omega]

/-- No sum of sizes wraps. -/
theorem orderedChunks_total {fileSize : Int} (hlo : -2 ^ 63 ≤ fileSize) (hhi : fileSize < 2 ^ 63)
    (plans : List ChunkRoutingPlan) : ((orderedChunks fileSize plans).map DownloadChunkMeta.size).sum < 2 ^ 64 := by
  by_cases hneg : fileSize < 0
  · cases plans with
    | nil => simp [orderedChunks]
    | cons p ps =>
      rw [orderedChunks_negative hneg hlo, List.map_cons, List.sum_cons, orderedChunks_zero]
      simp only
      omega
  · obtain ⟨n, rfl⟩ := Int.eq_ofNat_of_zero_le (Int.not_lt.1 hneg)
    rw [orderedChunks_sum n plans (by omega)]
    omega

theorem orderedChunks_le (n : Nat) (plans : List ChunkRoutingPlan) (hn : n < 2 ^ 63) :
    ∀ c ∈ orderedChunks n plans, c.size ≤ chunkSize := by
  induction plans generalizing n with
  | nil => simp [orderedChunks]
  | cons p ps ih =>
    simp only [orderedChunks]
    split
    · rename_i hle
      have hle' : chunkSize ≤ n := by exact_mod_cast hle
      have hcast : (n : Int) - chunkSize = ((n - chunkSize : Nat) : Int) := by omega
      intro c hc
      rcases List.mem_cons.1 hc with rfl | hc
      · exact Nat.le_refl _
      · rw [hcast] at hc
        exact ih _ (by omega) c hc
    · rename_i hlt
      have hlt' : n < chunkSize := by
        rw [not_le] at hlt
        exact_mod_cast hlt
      have hmod : ((n : Int) % 2 ^ 64).toNat = n := by omega
      intro c hc
      rcases List.mem_cons.1 hc with rfl | hc
      · show ((n : Int) % 2 ^ 64).toNat ≤ chunkSize
        omega
      · exact ih 0 (by decide) c hc

theorem downloadFileOn_true {m : FileDownloadManifest} {output leftover : Option Bytes} {order : List Nat} {loads : Nat}
    {file : Option Bytes} (h : downloadFileOn sha256 disk (some m) output leftover answer order loads = (.returned true, file)) :
    ∃ f, file = some f ∧
      downloadToFileOn sha256 disk (orderedChunks m.fileSize m.plans) m.plans leftover answer order loads = some (.ok (f, true)) := by
  unfold downloadFileOn at h
  split at h
  · cases h
  · rename_i m' hm
    cases hm
    split at h
    · rename_i f hres
      split at h
      · cases h
        exact ⟨f, rfl, hres⟩
      · cases h
    · cases h
    · cases h
    · cases h

theorem downloadFileOn_returned {m : FileDownloadManifest} {output leftover : Option Bytes} {order : List Nat} {loads : Nat}
    {f : Bytes}
    (h : downloadToFileOn sha256 disk (orderedChunks m.fileSize m.plans) m.plans leftover answer order loads = some (.ok (f, true)))
    (hrenames : disk.renames = true) :
    downloadFileOn sha256 disk (some m) output leftover answer order loads = (.returned true, some f) := by
  simp only [downloadFileOn, h, hrenames, if_true]

/-- **The length of a download.** On a disk without faults a call that returns `true` has written the size of the
manifest exactly when the plans cover it. A negative size comes through only without plans, so no size of a chunk
has wrapped, and no sum of sizes does. -/
theorem downloaded_size_iff {m : FileDownloadManifest} {output leftover : Option Bytes} {order : List Nat} {loads : Nat}
    {file : Bytes} (hlo : -2 ^ 63 ≤ m.fileSize) (hhi : m.fileSize < 2 ^ 63)
    (h : downloadFileOn sha256 .sound (some m) output leftover answer order loads = (.returned true, some file)) :
    ((file.length : Int) = m.fileSize ↔ PlansCover m) ∧
      (∀ c ∈ orderedChunks m.fileSize m.plans, c.size ≤ chunkSize) ∧
      ((orderedChunks m.fileSize m.plans).map DownloadChunkMeta.size).sum < 2 ^ 64 := by
  obtain ⟨f, hf, hres⟩ := downloadFileOn_true h
  obtain rfl := Option.some.inj hf
  have hsizes := downloadToFileOn_sizes hres
  obtain ⟨-, hlen⟩ := downloadToFileOn_present hres fun i _ => ⟨rfl, rfl⟩
  by_cases hneg : m.fileSize < 0
  · have hplans : m.plans = [] := by
      cases hp : m.plans with
      | nil => rfl
      | cons p ps =>
        rw [hp, orderedChunks_negative hneg hlo] at hsizes
        have hfirst : (m.fileSize + 2 ^ 64).toNat ≤ ptrdiffMax := hsizes _ List.mem_cons_self
        unfold ptrdiffMax at hfirst
        omega
    refine ⟨iff_of_false (by omega) fun hcover => ?_, ?_, orderedChunks_total hlo hhi _⟩
    · have hpos := hcover.2 hplans
      omega
    · rw [hplans]
      simp [orderedChunks]
  · obtain ⟨n, hn⟩ := Int.eq_ofNat_of_zero_le (Int.not_lt.1 hneg)
    have hn63 : n < 2 ^ 63 := by omega
    have hsum : ((orderedChunks m.fileSize m.plans).map DownloadChunkMeta.size).sum = min n (m.plans.length * chunkSize) := by
      rw [hn]
      exact orderedChunks_sum n m.plans hn63
    have htotal := hlen rfl (by rw [hsum]; unfold ptrdiffMax; omega)
    rw [hsum] at htotal
    refine ⟨?_, ?_, orderedChunks_total hlo hhi _⟩
    · have hcover : PlansCover m ↔ n ≤ m.plans.length * chunkSize := by
        unfold PlansCover
        rw [hn]
        constructor
        · rintro ⟨hle, -⟩
          exact_mod_cast hle
        · intro hle
          exact ⟨by exact_mod_cast hle, fun _ => by omega⟩
      rw [hcover, htotal, hn]
      omega
    · rw [hn]
      exact orderedChunks_le n m.plans hn63

/-- Two chunks of zeros and one byte. -/
def threeChunks : FileDownloadManifest :=
  ⟨2097153, [⟨"", [⟨"localhost", 9081⟩]⟩, ⟨"", [⟨"localhost", 9081⟩]⟩, ⟨sampleHash, [⟨"localhost", 9081⟩]⟩]⟩

/-- Every replica sends the chunk whole: zeros, and the byte of the tail. -/
def threeReplies (i : Nat) (_ : Nat) (_ : NodeInfo) : ReplicaReply :=
  ⟨[if i < 2 then List.replicate chunkSize 0 else [97]], some 200⟩

theorem sampleSha256_zeros {n : Nat} (hn : n ≠ 1) : sampleSha256 (List.replicate n 0) = "" := by
  have hother : List.replicate n (0 : UInt8) ≠ [97] := fun h => by
    have hlen := congrArg List.length h
    rw [List.length_replicate] at hlen
    exact hn hlen
  rw [sampleSha256, if_neg hother]

/-- Every chunk of it can be had. -/
theorem fetchable_threeChunks {i : Nat} {c : DownloadChunkMeta}
    (hc : (orderedChunks threeChunks.fileSize threeChunks.plans)[i]? = some c) :
    Fetchable sampleSha256 threeChunks.plans threeReplies i c := by
  have hchunks : orderedChunks threeChunks.fileSize threeChunks.plans =
      [⟨"", chunkSize⟩, ⟨"", chunkSize⟩, ⟨sampleHash, 1⟩] := by decide +kernel
  have hroutes : routingMap threeChunks.plans "" = some [⟨"localhost", 9081⟩] ∧
      routingMap threeChunks.plans sampleHash = some [⟨"localhost", 9081⟩] := by decide +kernel
  have hzeros : ∀ i < 2, Fetchable sampleSha256 threeChunks.plans threeReplies i ⟨"", chunkSize⟩ := by
    intro i hi
    refine ⟨by decide +kernel, _, hroutes.1, threeReplies i 0 ⟨"localhost", 9081⟩, by simp, rfl, ?_⟩
    rw [threeReplies, if_pos hi, List.flatten_singleton]
    exact ⟨List.length_replicate, sampleSha256_zeros (by decide +kernel)⟩
  have hlast : Fetchable sampleSha256 threeChunks.plans threeReplies 2 ⟨sampleHash, 1⟩ := by
    refine ⟨by decide +kernel, _, hroutes.2, threeReplies 2 0 ⟨"localhost", 9081⟩, by simp, rfl, ?_⟩
    rw [threeReplies, if_neg (Nat.lt_irrefl 2), List.flatten_singleton]
    exact ⟨rfl, by decide +kernel⟩
  rw [hchunks] at hc
  rcases i with _ | _ | _ | i
  · obtain rfl := Option.some.inj hc
    exact hzeros 0 (by decide)
  · obtain rfl := Option.some.inj hc
    exact hzeros 1 (by decide)
  · obtain rfl := Option.some.inj hc
    exact hlast
  · cases hc

theorem downloaded_size_threeChunks : ∃ file,
    downloadFileOn sampleSha256 .sound (some threeChunks) none none threeReplies [2, 0] 7 = (.returned true, some file) ∧
      (file.length : Int) = 2097153 := by
  obtain ⟨file, hfile⟩ : ∃ file, DownloadCall.endOn sampleSha256 .sound
      ⟨orderedChunks threeChunks.fileSize threeChunks.plans, threeChunks.plans, none, threeReplies, [2, 0], 7⟩ =
        some (.ok (file, true)) :=
    DownloadCall.returns_true (fun _ _ => rfl) ⟨rfl, Or.inr ⟨rfl, rfl⟩⟩ (fun _ i c hc _ => fetchable_threeChunks hc)
      (by decide +kernel)
  have h : downloadFileOn sampleSha256 .sound (some threeChunks) none none threeReplies [2, 0] 7 =
      (.returned true, some file) := downloadFileOn_returned hfile rfl
  exact ⟨file, h, (downloaded_size_iff (by decide) (by decide) h).1.2 (by decide +kernel)⟩

/-- The master has dropped the plan of the only chunk. -/
theorem droppedPlan_truncates : ¬ ∀ (sha256 : Bytes → String) (m : FileDownloadManifest) (output leftover : Option Bytes)
    (answer : Nat → Nat → NodeInfo → ReplicaReply) (order : List Nat) (loads : Nat) (file : Bytes),
    -2 ^ 63 ≤ m.fileSize → m.fileSize < 2 ^ 63 →
      downloadFileOn sha256 .sound (some m) output leftover answer order loads = (.returned true, some file) →
        (file.length : Int) = m.fileSize := by
  intro hall
  have h := hall sampleSha256 ⟨5, []⟩ none none (fun _ _ _ => ⟨[], none⟩) [] 1 [] (by decide) (by decide) (by decide +kernel)
  cases h

/-! ## A disk that fails -/

/-- Downloads on this disk: one that returns `true` has all its chunks in the file. -/
def KeepsChunks (sha256 : Bytes → String) (disk : LocalDisk) : Prop :=
  ∀ chunks plans leftover answer order loads file,
    downloadToFileOn sha256 disk chunks plans leftover answer order loads = some (.ok (file, true)) →
      ∀ i, ChunkPresent sha256 chunks file i

/-- No read and no write of a chunk fails. -/
def Faultless (disk : LocalDisk) : Prop := ∀ i, disk.read i = none ∧ disk.write i = none

/-- The digest tells some byte from zero. -/
def SeesByte (sha256 : Bytes → String) : Prop := ∃ x, sha256 [x] ≠ sha256 [0]

/-- `k` empty chunks and one of a byte. -/
def faultyChunks (sha256 : Bytes → String) (k : Nat) (x : UInt8) : List DownloadChunkMeta :=
  List.replicate k ⟨sha256 [], 0⟩ ++ [⟨sha256 [x], 1⟩]

theorem verifyChunksOn_empty {file : Bytes} {loads offset : Nat} {cs : List DownloadChunkMeta} (k : Nat) : ∀ (i : Nat),
    (∀ j < k, disk.read (i + j) = none) →
    verifyChunksOn sha256 disk file (k + loads) i offset false (List.replicate k ⟨sha256 [], 0⟩ ++ cs) =
      (verifyChunksOn sha256 disk file loads (i + k) offset false cs).map fun rest =>
        (List.replicate k true ++ rest.1, rest.2) := by
  induction k with
  | zero =>
    intro i _
    rw [Nat.zero_add, List.replicate_zero, List.nil_append, Nat.add_zero]
    cases verifyChunksOn sha256 disk file loads i offset false cs <;> rfl
  | succ k ih =>
    intro i hreads
    have hread : readAt file offset 0 (disk.read i) false = ([], false) := by
      rw [show disk.read i = none from hreads 0 (by omega)]
      simp [readAt, moved, slice]
    have htail : ∀ j < k, disk.read (i + 1 + j) = none := by
      intro j hj
      rw [show i + 1 + j = i + (j + 1) from by omega]
      exact hreads (j + 1) (by omega)
    rw [List.replicate_succ, List.cons_append, show k + 1 + loads = k + loads + 1 from by omega]
    simp only [verifyChunksOn, hread, Nat.add_zero, ih (i + 1) htail, Nat.not_lt_zero, if_false, beq_self_eq_true]
    rw [show i + 1 + k = i + (k + 1) from by omega]
    cases verifyChunksOn sha256 disk file loads (i + (k + 1)) offset false cs <;> rfl

theorem enqueueChunks_marked {routes : String → Option (List NodeInfo)} {loads offset : Nat} {hash : String}
    {cs : List (DownloadChunkMeta × Bool)} (k : Nat) : ∀ (i : Nat),
    enqueueChunks routes (k + loads) i offset (List.replicate k (⟨hash, 0⟩, true) ++ cs) =
      enqueueChunks routes loads (i + k) offset cs := by
  induction k with
  | zero =>
    intro i
    rw [Nat.zero_add]
    rfl
  | succ k ih =>
    intro i
    rw [List.replicate_succ, List.cons_append, show k + 1 + loads = k + loads + 1 from by omega]
    simp only [enqueueChunks, Nat.add_zero, ih]
    rw [show i + 1 + k = i + (k + 1) from by omega]

theorem fetchChunk_whole {data : Bytes} {i : Nat} {node : NodeInfo} :
    fetchChunk sha256 (fun _ _ _ => ⟨[data], some 200⟩) (i, ⟨⟨sha256 data, data.length⟩, 0, [node]⟩) = some data := by
  unfold fetchChunk
  rw [downloadChunk_eq List.length_replicate]
  have hwhole : isWhole sha256 (sha256 data) data.length ⟨[data], some 200⟩ = true := isWhole_iff.2 (by simp)
  simp [hwhole]

/-- Of a single byte a write that fails moves nothing, and on a failed stream there is no write. -/
theorem writeChunkOn_faulty {k : Nat} {x : UInt8} {file : Bytes} {node : NodeInfo} {failed : Bool}
    (hfault : failed = true ∨ (disk.write k).isSome = true) :
    writeChunkOn sha256 disk (fun _ _ _ => ⟨[[x]], some 200⟩) (file, failed) (k, ⟨⟨sha256 [x], 1⟩, 0, [node]⟩) =
      .ok (file, true) := by
  have hfetch : fetchChunk sha256 (fun _ _ _ => ⟨[[x]], some 200⟩) (k, ⟨⟨sha256 [x], 1⟩, 0, [node]⟩) = some [x] :=
    fetchChunk_whole
  unfold writeChunkOn
  rw [if_neg (by show ¬ ptrdiffMax < 1; decide), hfetch]
  cases failed with
  | true => rfl
  | false =>
    obtain ⟨n, hn⟩ := Option.isSome_iff_exists.1 (hfault.resolve_left Bool.false_ne_true)
    simp [hn, moved, putAt]

/-- The first fault of the disk meets a chunk that is missing: the call returns `true` and leaves it so. -/
theorem downloadToFileOn_faulty {k : Nat} {x : UInt8} (hopens : disk.opens = true)
    (hfirst : ∀ j < k, disk.read j = none) (hfault : (disk.read k).isSome = true ∨ (disk.write k).isSome = true)
    (hsha : sha256 [x] ≠ sha256 [0]) :
    downloadToFileOn sha256 disk (faultyChunks sha256 k x) [⟨sha256 [x], [⟨"localhost", 9081⟩]⟩] (some [0])
      (fun _ _ _ => ⟨[[x]], some 200⟩) [] (k + (k + 3)) = some (.ok ([0], true)) := by
  have hsum : ((faultyChunks sha256 k x).map DownloadChunkMeta.size).sum = 1 := by simp [faultyChunks]
  have hlast : verifyChunksOn sha256 disk [0] (k + 3) k 0 false [⟨sha256 [x], 1⟩] =
      .ok ([false], k + 2, (disk.read k).isSome) := by
    have hbuffer : readAt [0] 0 1 (disk.read k) false = ([0], (disk.read k).isSome) := by
      cases hr : disk.read k <;> simp [readAt, moved, slice]
    simp only [verifyChunksOn, hbuffer, beq_eq_false_iff_ne.2 (Ne.symm hsha)]
    rw [if_neg (by show ¬ ptrdiffMax < 1; decide)]
    rfl
  have hverify : verifyChunksOn sha256 disk [0] (k + (k + 3)) 0 0 false (faultyChunks sha256 k x) =
      .ok (List.replicate k true ++ [false], k + 2, (disk.read k).isSome) := by
    unfold faultyChunks
    rw [verifyChunksOn_empty k 0 (fun j hj => by rw [Nat.zero_add]; exact hfirst j hj), Nat.zero_add, hlast]
    rfl
  have hstart : startOn sha256 disk (faultyChunks sha256 k x) (some [0]) (k + (k + 3)) =
      .ok ([0], List.replicate k true ++ [false], k + 2, (disk.read k).isSome) := by
    unfold startOn
    simp only [hsum]
    rw [show (some [0] : Option Bytes).filter (fun f => f.length == 1) = some [0] from rfl]
    simp only [hopens, if_true, hverify]
    rfl
  have hzip : (faultyChunks sha256 k x).zip (List.replicate k true ++ [false]) =
      List.replicate k (⟨sha256 [], 0⟩, true) ++ [(⟨sha256 [x], 1⟩, false)] := by
    unfold faultyChunks
    rw [List.zip_append (by simp), List.zip_replicate']
    rfl
  have hroute : routingMap [⟨sha256 [x], [⟨"localhost", 9081⟩]⟩] (sha256 [x]) = some [⟨"localhost", 9081⟩] := by
    simp [routingMap]
  have henq : enqueueChunks (routingMap [⟨sha256 [x], [⟨"localhost", 9081⟩]⟩]) (k + 2) 0 0
      ((faultyChunks sha256 k x).zip (List.replicate k true ++ [false])) =
      .ok ([(k, ⟨⟨sha256 [x], 1⟩, 0, [⟨"localhost", 9081⟩]⟩)], 1) := by
    rw [hzip, enqueueChunks_marked k 0, Nat.zero_add]
    simp only [enqueueChunks, hroute]
    rfl
  unfold downloadToFileOn
  rw [hstart]
  simp only [henq]
  have hscan : scan [] [(k, (⟨⟨sha256 [x], 1⟩, 0, [⟨"localhost", 9081⟩]⟩ : DownloadTask))] =
      [(k, ⟨⟨sha256 [x], 1⟩, 0, [⟨"localhost", 9081⟩]⟩)] := by simp [scan]
  rw [hscan, List.foldlM_cons, writeChunkOn_faulty hfault]
  rfl

/-- A stream that does not open is an exception before the pool. -/
theorem startOn_closed (sha256 : Bytes → String) (chunks : List DownloadChunkMeta) (leftover : Option Bytes) (loads : Nat)
    (h : disk.opens = false) :
    ∃ e, startOn sha256 disk chunks leftover loads = .error e := by
  unfold startOn
  simp only [h]
  split
  · exact ⟨_, rfl⟩
  · split
    · exact ⟨_, rfl⟩
    · exact ⟨_, rfl⟩

theorem downloadToFileOn_closed {chunks : List DownloadChunkMeta} {plans : List ChunkRoutingPlan} {leftover : Option Bytes}
    {order : List Nat} {loads : Nat} (h : disk.opens = false) :
    ∃ e, downloadToFileOn sha256 disk chunks plans leftover answer order loads = some (.error e) := by
  obtain ⟨e, he⟩ := startOn_closed sha256 chunks leftover loads h
  exact ⟨e, by simp only [downloadToFileOn, he]⟩

/-- **On a disk with a fault** some call returns `true` without its chunks, although all it fetches can be had. -/
theorem exists_faulty (hsha : SeesByte sha256) (hopens : disk.opens = true) (hfaulty : ¬ Faultless disk) :
    ∃ (call : DownloadCall) (file : Bytes), call.FetchesAll sha256 disk ∧ call.endOn sha256 disk = some (.ok (file, true)) ∧
      ¬ ∀ i, ChunkPresent sha256 call.orderedChunks file i := by
  have hex : ∃ k, ¬ (disk.read k = none ∧ disk.write k = none) := by simpa [Faultless] using hfaulty
  -- the first fault: the chunks before it are marked
  obtain ⟨k, hk, hleast⟩ : ∃ k, ¬ (disk.read k = none ∧ disk.write k = none) ∧
      ∀ j < k, disk.read j = none ∧ disk.write j = none := by
    classical
    exact ⟨Nat.find hex, Nat.find_spec hex, fun j hj => not_not.1 (Nat.find_min hex hj)⟩
  have hfault : (disk.read k).isSome = true ∨ (disk.write k).isSome = true := by
    rw [not_and_or] at hk
    simpa [Option.isSome_iff_ne_none] using hk
  obtain ⟨x, hx⟩ := hsha
  have hoff : Extent.offset ((faultyChunks sha256 k x).map DownloadChunkMeta.size) k = 0 := by
    simp [faultyChunks, Extent.offset]
  refine ⟨⟨faultyChunks sha256 k x, [⟨sha256 [x], [⟨"localhost", 9081⟩]⟩], some [0], fun _ _ _ => ⟨[[x]], some 200⟩, [],
    k + (k + 3)⟩, [0], fun _ i c hc hfetches => ?_, downloadToFileOn_faulty hopens (fun j hj => (hleast j hj).1) hfault hx,
    fun hplace => ?_⟩
  · rcases lt_or_ge i k with hik | hik
    · -- an empty chunk is in place
      obtain ⟨f, -, -, hmissing⟩ | ⟨hnone, -⟩ := hfetches
      · refine absurd (fun d hd => ?_) hmissing
        obtain rfl : c = d := Option.some.inj (hc.symm.trans hd)
        have hempty : c = ⟨sha256 [], 0⟩ := by
          rw [faultyChunks, List.getElem?_append_left (by simpa using hik), List.getElem?_replicate_of_lt hik] at hc
          exact (Option.some.inj hc).symm
        rw [hempty]
        simp [slice]
      · simp [DownloadCall.resumed, faultyChunks] at hnone
    · have hlast : c = ⟨sha256 [x], 1⟩ := by
        rw [faultyChunks, List.getElem?_append_right (by simpa using hik), List.length_replicate] at hc
        have hmem := List.mem_of_getElem? hc
        simpa using hmem
      rw [hlast]
      refine ⟨Nat.le_of_ble_eq_true rfl, [⟨"localhost", 9081⟩], by simp [routingMap], ?_⟩
      simp
  · have hlast := hplace k ⟨sha256 [x], 1⟩ (by simp [faultyChunks])
    rw [hoff] at hlast
    exact hx hlast.2.symm

theorem keepsChunks_iff (hsha : SeesByte sha256) :
    KeepsChunks sha256 disk ↔ (disk.opens = true → Faultless disk) := by
  constructor
  · intro hkeeps hopens
    by_contra hfaulty
    obtain ⟨call, file, -, hrun, hlost⟩ := exists_faulty hsha hopens hfaulty
    exact hlost (hkeeps _ _ _ _ _ _ _ hrun)
  · intro hdisk chunks plans leftover answer order loads file h
    cases hopens : disk.opens with
    | false =>
      obtain ⟨e, he⟩ : ∃ e, downloadToFileOn sha256 disk chunks plans leftover answer order loads = some (.error e) :=
        downloadToFileOn_closed hopens
      rw [he] at h
      cases h
    | true => exact (downloadToFileOn_present h fun i _ => hdisk hopens i).1

/-- Every call on the disk. -/
theorem reportsTruly_all_iff (hsha : SeesByte sha256) :
    (∀ call : DownloadCall, call.ReportsTruly sha256 disk ↔ call.FetchesAll sha256 disk) ↔
      (disk.opens = true → Faultless disk) := by
  constructor
  · intro hall hopens
    by_contra hfaulty
    obtain ⟨call, file, hfetches, hrun, hlost⟩ := exists_faulty hsha hopens hfaulty
    exact hlost (((hall call).2 hfetches).present file hrun)
  · intro hdisk call
    cases hopens : disk.opens with
    | false =>
      have hclosed : ∃ e, call.endOn sha256 disk = some (.error e) := downloadToFileOn_closed hopens
      obtain ⟨e, he⟩ := hclosed
      refine iff_of_true ⟨?_, fun file hfile => ?_⟩ fun hpool => ?_
      · rw [he]
        exact Option.some_ne_none _
      · rw [he] at hfile
        cases hfile
      · rw [hpool.1] at hopens
        cases hopens
    | true => exact call.reportsTruly_iff fun i _ => hdisk hopens i

/-- The disk is full when the only chunk is written. -/
def fullDisk : LocalDisk := { LocalDisk.sound with write := fun _ => some 0 }

end StorageEngine
