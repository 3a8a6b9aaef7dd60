import StorageEngine.Gc.Daemon
import StorageEngine.Metadata.References

/-!
# One sweep

The body of `GarbageCollectorDaemon`'s outer loop as a function: claim, delete, record, give back, until a
claim returns nothing. Here the physical deletes are modelled one by one; `sweep_run` shows that a sweep is a
run of the daemon of `Gc/Daemon`.

| here | there (`main.cpp`) |
| --- | --- |
| `DeleteAnswer`                    | what `worker_client.Delete` comes to (`:52-58`) |
| `deletePhysicalChunkFromWorkers`  | `:41-63` |
| `purgeOrphanBatchParallel`        | `:66-108`; the set is a list without repetitions |
| `settleBatch`                     | the rest of the batch (`:136-171`) |
| `sweep`                           | the inner loop (`:127-172`); `none` is "out of fuel" |
| `Swept.totalDeleted`              | `total_deleted` |
-/

namespace StorageEngine

open Relational Transition

inductive DeleteAnswer where
  | response (status : Nat)
  | noResponse
  | exception
deriving DecidableEq, Repr

/-- `answer i` is what the delete at the `i`-th location comes to; `none` is an exception that leaves the
function, the remaining deletes unsent. -/
def deletePhysicalChunkFromWorkers (answer : Nat → DeleteAnswer) (orphan : OrphanedChunk) : Option Bool :=
  orphan.locations.zipIdx.foldlM (fun allSuccess loc =>
    match answer loc.2 with
    | .response status => some (if status ≠ 200 then false else allSuccess)
    | .noResponse => some false
    | .exception => none) true

/-- Every task keeps its promise with a pair or an exception; the futures are read in the order of the batch. -/
def purgeOrphanBatchParallel (answer : String → Nat → DeleteAnswer) (orphans : List OrphanedChunk) : List String :=
  let futures := orphans.map fun o => (deletePhysicalChunkFromWorkers (answer o.hash) o).map fun success =>
    (o.hash, success)
  futures.foldl (fun deleted fut =>
    match fut with
    | some (hash, true) => deleted.insert hash
    | _ => deleted) []

/-- What a sweep meets: in the `i`-th turn of the loop `keep_running`, the plan of the claim, how the
database calls end, and the answers of the workers by chunk and location. -/
structure SweepEnv where
  keepRunning : Nat → Bool
  order : Nat → List String
  claimFault : Nat → Option ClaimFault
  answer : Nat → String → Nat → DeleteAnswer
  deleteOk : Nat → Bool
  revertOk : Nat → String → Bool

/-- The store after the batch and what it adds to `total_deleted`. -/
def settleBatch (env : SweepEnv) (i : Nat) (db : Store) (orphans : List OrphanedChunk) : Store × Nat :=
  let purges := purgeOrphanBatchParallel (env.answer i) orphans
  let deleteSuccess := purges.isEmpty || env.deleteOk i
  let db := if deleteSuccess then deleteChunkRecordsBulk db purges else db
  ((toRevert deleteSuccess orphans purges).foldl
      (fun db hash => if env.revertOk i hash then revertTombstone db hash else db) db,
    if deleteSuccess then purges.length else 0)

structure Swept where
  db : Store
  /-- What the claims returned. -/
  batches : List (List OrphanedChunk)
  totalDeleted : Nat

/-- The chunks of all batches. -/
def Swept.hashes (r : Swept) : List String := r.batches.flatten.map OrphanedChunk.hash

def sweep (env : SweepEnv) : Nat → Nat → Store → Option Swept
  | 0, _, _ => none
  | fuel + 1, i, db =>
    if env.keepRunning i then
      match getOrphanedChunks (env.order i) (env.claimFault i) db expiryHours batchSize with
      | (db, []) => some ⟨db, [], 0⟩
      | (db, orphans) =>
        let settled := settleBatch env i db orphans
        (sweep env fuel (i + 1) settled.1).map fun rest =>
          ⟨rest.db, orphans :: rest.batches, settled.2 + rest.totalDeleted⟩
    else some ⟨db, [], 0⟩

/-- All database calls succeed. -/
structure SweepEnv.CallsSucceed (env : SweepEnv) : Prop where
  claim : ∀ i, env.claimFault i = none
  delete : ∀ i, env.deleteOk i = true
  revert : ∀ i hash, env.revertOk i hash = true

/-! ## The physical deletes of a chunk -/

/-- Every delete of the chunk is answered with 200. -/
def ReplicasDeleted (answer : Nat → DeleteAnswer) (orphan : OrphanedChunk) : Prop :=
  ∀ j < orphan.locations.length, answer j = .response 200

instance (answer : Nat → DeleteAnswer) (orphan : OrphanedChunk) : Decidable (ReplicasDeleted answer orphan) :=
  inferInstanceAs (Decidable (∀ j < orphan.locations.length, _))

/-- `all_success` never comes back. -/
theorem foldlM_replicas {answer : Nat → DeleteAnswer} (locations : List WorkerLocation) (k : Nat) (allSuccess : Bool) :
    (locations.zipIdx k).foldlM (fun allSuccess loc =>
      match answer loc.2 with
      | .response status => some (if status ≠ 200 then false else allSuccess)
      | .noResponse => some false
      | .exception => none) allSuccess = some true ↔
      allSuccess = true ∧ ∀ j < locations.length, answer (k + j) = .response 200 := by
  induction locations generalizing k allSuccess with
  | nil => simp
  | cons loc rest ih =>
    have hsplit : (∀ j < rest.length + 1, answer (k + j) = .response 200) ↔
        answer k = .response 200 ∧ ∀ j < rest.length, answer (k + 1 + j) = .response 200 := by
      constructor
      · intro h
        refine ⟨h 0 (by omega), fun j hj => ?_⟩
        have hnext := h (j + 1) (by omega)
        rwa [show k + (j + 1) = k + 1 + j from by omega] at hnext
      · rintro ⟨hzero, hrest⟩ j hj
        cases j with
        | zero => exact hzero
        | succ j =>
          rw [show k + (j + 1) = k + 1 + j from by omega]
          exact hrest j (by omega)
    rw [List.zipIdx_cons, List.foldlM_cons, List.length_cons, hsplit]
    cases hk : answer k with
    | response status =>
      simp only [Option.bind_eq_bind, Option.bind_some, ih, DeleteAnswer.response.injEq]
      by_cases hs : status = 200
      · simp [hs]
      · simp [hs]
    | noResponse =>
      simp only [Option.bind_eq_bind, Option.bind_some, ih]
      simp
    | exception => simp

theorem deletePhysicalChunkFromWorkers_iff {answer : Nat → DeleteAnswer} {orphan : OrphanedChunk} :
    deletePhysicalChunkFromWorkers answer orphan = some true ↔ ReplicasDeleted answer orphan := by
  unfold deletePhysicalChunkFromWorkers ReplicasDeleted
  rw [foldlM_replicas]
  simp

theorem mem_foldl_insert {futures : List (Option (String × Bool))} {deleted : List String} {h : String} :
    h ∈ futures.foldl (fun deleted fut =>
      match fut with
      | some (hash, true) => deleted.insert hash
      | _ => deleted) deleted ↔ h ∈ deleted ∨ some (h, true) ∈ futures := by
  induction futures generalizing deleted with
  | nil => simp
  | cons fut rest ih =>
    rw [List.foldl_cons, ih]
    rcases fut with - | ⟨hash, - | -⟩
    · simp
    · simp
    · simp only [List.mem_insert_iff, List.mem_cons, Option.some.injEq, Prod.mk.injEq, and_true]
      tauto

/-- **A hash is in the set** exactly when every delete of its chunk was answered with 200. -/
theorem mem_purgeOrphanBatchParallel {answer : String → Nat → DeleteAnswer} {orphans : List OrphanedChunk} {h : String} :
    h ∈ purgeOrphanBatchParallel answer orphans ↔
      ∃ o ∈ orphans, o.hash = h ∧ ReplicasDeleted (answer h) o := by
  unfold purgeOrphanBatchParallel
  rw [mem_foldl_insert]
  simp only [List.not_mem_nil, false_or, List.mem_map, Option.map_eq_some_iff, Prod.mk.injEq]
  constructor
  · rintro ⟨o, ho, success, hs, rfl, rfl⟩
    exact ⟨o, ho, rfl, deletePhysicalChunkFromWorkers_iff.1 hs⟩
  · rintro ⟨o, ho, rfl, hr⟩
    exact ⟨o, ho, true, deletePhysicalChunkFromWorkers_iff.2 hr, rfl, rfl⟩

theorem insertAll_nodup {futures : List (Option (String × Bool))} {deleted : List String} (h : deleted.Nodup) :
    (futures.foldl (fun deleted fut =>
      match fut with
      | some (hash, true) => deleted.insert hash
      | _ => deleted) deleted).Nodup := by
  induction futures generalizing deleted with
  | nil => exact h
  | cons fut rest ih =>
    rw [List.foldl_cons]
    apply ih
    rcases fut with - | ⟨hash, - | -⟩
    · exact h
    · exact h
    · exact h.insert

theorem nodup_purgeOrphanBatchParallel (answer : String → Nat → DeleteAnswer) (orphans : List OrphanedChunk) :
    (purgeOrphanBatchParallel answer orphans).Nodup :=
  insertAll_nodup List.nodup_nil

/-! ## One batch -/

theorem foldl_revertTombstone (hashes : List String) (db : Store) :
    hashes.foldl revertTombstone db = { db with chunks := (hashes.foldl revertTombstone db).chunks } ∧
    ∀ k, (hashes.foldl revertTombstone db).chunks.get? k = (db.chunks.get? k).map fun r =>
      if k ∈ hashes ∧ r.refCount = -1 then { r with refCount := 0, createdAt := db.now } else r := by
  induction hashes generalizing db with
  | nil => simp
  | cons h rest ih =>
    obtain ⟨hframe, hrows⟩ := ih (revertTombstone db h)
    rw [List.foldl_cons]
    refine ⟨hframe, fun k => ?_⟩
    rw [hrows, get?_revertTombstone, Option.map_map]
    refine congrArg (Option.map · _) (funext fun r => ?_)
    by_cases hr : r.refCount = -1
    · by_cases hk : k = h
      · simp [hr, hk]
      · by_cases hm : k ∈ rest <;> simp [hr, hk, hm, revertTombstone]
    · simp [hr]

theorem mem_toRevert {orphans : List OrphanedChunk} {purged : List String} {k : String} :
    k ∈ toRevert true orphans purged ↔ k ∈ orphans.map OrphanedChunk.hash ∧ k ∉ purged := by
  unfold toRevert
  rw [if_pos rfl, List.mem_filter]
  simp

theorem mem_purged (answer : String → Nat → DeleteAnswer) (db : Store) (claimed : List String) (k : String) :
    k ∈ purgeOrphanBatchParallel answer (claimed.map (orphanOf db)) ↔
      k ∈ claimed ∧ ReplicasDeleted (answer k) (orphanOf db k) := by
  rw [mem_purgeOrphanBatchParallel]
  constructor
  · rintro ⟨o, ho, rfl, hr⟩
    obtain ⟨h, hh, rfl⟩ := List.mem_map.1 ho
    exact ⟨hh, hr⟩
  · rintro ⟨hk, hr⟩
    exact ⟨orphanOf db k, List.mem_map_of_mem hk, rfl, hr⟩

/-- What becomes of a claimed row: dropped, or given back with its period started anew. -/
def settledRow (answer : Nat → DeleteAnswer) (orphan : OrphanedChunk) (now : Nat) (row : ChunkRow) : Option ChunkRow :=
  if ReplicasDeleted answer orphan then none else some { row with refCount := 0, createdAt := now }

/-- **One batch**: exactly the claimed rows change, each to its `settledRow`. -/
theorem settleBatch_rows {env : SweepEnv} (hcalls : env.CallsSucceed) (i : Nat) (db : Store) (claimed : List String) :
    let settled := (settleBatch env i (claimChunks db claimed) (claimed.map (orphanOf db))).1
    settled = { db with chunks := settled.chunks } ∧
    ∀ k, settled.chunks.get? k = if k ∈ claimed then
      (db.chunks.get? k).bind (settledRow (env.answer i k) (orphanOf db k) db.now) else db.chunks.get? k := by
  intro settled
  have hdef : settled = (toRevert true (claimed.map (orphanOf db))
      (purgeOrphanBatchParallel (env.answer i) (claimed.map (orphanOf db)))).foldl revertTombstone
        (deleteChunkRecordsBulk (claimChunks db claimed)
          (purgeOrphanBatchParallel (env.answer i) (claimed.map (orphanOf db)))) := by
    show (settleBatch _ _ _ _).1 = _
    unfold settleBatch
    simp only [hcalls.delete, hcalls.revert, Bool.or_true, ↓reduceIte]
  have hpurged := mem_purged (env.answer i) db claimed
  obtain ⟨hframe, hrows⟩ := foldl_revertTombstone (toRevert true (claimed.map (orphanOf db))
    (purgeOrphanBatchParallel (env.answer i) (claimed.map (orphanOf db))))
    (deleteChunkRecordsBulk (claimChunks db claimed)
      (purgeOrphanBatchParallel (env.answer i) (claimed.map (orphanOf db))))
  have hbulk : ∀ hs, deleteChunkRecordsBulk (claimChunks db claimed) hs =
      { db with chunks := (deleteChunkRecordsBulk (claimChunks db claimed) hs).chunks } := by
    intro hs
    unfold deleteChunkRecordsBulk
    split <;> rfl
  refine ⟨?_, fun k => ?_⟩
  · rw [hdef, hframe, hbulk]
  · rw [hdef, hrows, get?_deleteChunkRecordsBulk, get?_claimChunks]
    have hnow : ∀ hs, (deleteChunkRecordsBulk (claimChunks db claimed) hs).now = db.now := by
      intro hs
      rw [hbulk]
    simp only [hnow, mem_toRevert, hashes_orphans, hpurged]
    cases hr : db.chunks.get? k with
    | none => simp
    | some r =>
      by_cases hk : k ∈ claimed
      · by_cases hd : ReplicasDeleted (env.answer i k) (orphanOf db k)
        · simp [hk, hd, settledRow, Option.filter, hpurged]
        · simp [hk, hd, settledRow, Option.filter, hpurged]
      · simp [hk, Option.filter, hpurged]

/-! ## The whole sweep -/

/-- The rows a claim may take. -/
def expired (db : Store) : List String := (db.chunks.select (isOrphan expiryHours db.now)).map Prod.fst

theorem nodup_expired (db : Store) : (expired db).Nodup := nodup_select _ _

theorem mem_expired {db : Store} {h : String} :
    h ∈ expired db ↔ ∃ r, db.chunks.get? h = some r ∧ r.refCount = 0 ∧ r.createdAt + hours expiryHours < db.now := by
  unfold expired
  rw [List.mem_map]
  constructor
  · rintro ⟨⟨k, r⟩, hk, rfl⟩
    obtain ⟨hr, hp⟩ := Table.mem_select.1 hk
    exact ⟨r, hr, by simpa [isOrphan] using hp⟩
  · rintro ⟨r, hr, hp⟩
    exact ⟨(h, r), Table.mem_select.2 ⟨hr, by simpa [isOrphan] using hp⟩, rfl⟩

theorem orphanHashes_expired {order : List String} {db : Store} {limit : Nat} {h : String}
    (hh : h ∈ orphanHashes order db expiryHours limit) : h ∈ expired db :=
  mem_expired.2 (mem_orphanHashes hh)

/-- A claim of a positive limit takes a row if there is one to take. -/
theorem expired_nil {order : List String} {db : Store} (h : orphanHashes order db expiryHours batchSize = []) :
    expired db = [] := by
  have hperm := scan_perm (nodup_select db.chunks (isOrphan expiryHours db.now)) order
  unfold orphanHashes at h
  rw [List.map_eq_nil_iff, List.take_eq_nil_iff] at h
  have hscan := h.resolve_left (by decide)
  rw [hscan] at hperm
  unfold expired
  rw [List.map_eq_nil_iff]
  exact (List.Perm.nil_eq hperm).symm

theorem orphanHashes_nil {order : List String} {db : Store} {limit : Nat} (h : expired db = []) :
    orphanHashes order db expiryHours limit = [] := by
  rw [List.eq_nil_iff_forall_not_mem]
  intro k hk
  have hexp := orphanHashes_expired hk
  rw [h] at hexp
  cases hexp

/-- After the batch the claimed rows are gone or young. -/
theorem expired_settled {env : SweepEnv} (hcalls : env.CallsSucceed) (i : Nat) {db : Store} {claimed : List String}
    {k : String} : k ∈ expired (settleBatch env i (claimChunks db claimed) (claimed.map (orphanOf db))).1 ↔
      k ∈ expired db ∧ k ∉ claimed := by
  obtain ⟨hframe, hrows⟩ := settleBatch_rows hcalls i db claimed
  have hnow : (settleBatch env i (claimChunks db claimed) (claimed.map (orphanOf db))).1.now = db.now := by
    rw [hframe]
  rw [mem_expired, mem_expired, hnow]
  by_cases hk : k ∈ claimed
  · refine iff_of_false ?_ fun h => h.2 hk
    rintro ⟨r, hr, -, hage⟩
    rw [hrows, if_pos hk] at hr
    obtain ⟨row, -, hset⟩ := Option.bind_eq_some_iff.1 hr
    unfold settledRow at hset
    split at hset
    · cases hset
    · cases hset
      simp only at hage
      omega
  · rw [hrows, if_neg hk]
    simp [hk]

theorem length_expired_lt {env : SweepEnv} (hcalls : env.CallsSucceed) (i : Nat) {db : Store} {claimed : List String}
    {h : String} (hmem : h ∈ claimed) (hexp : h ∈ expired db) :
    (expired (settleBatch env i (claimChunks db claimed) (claimed.map (orphanOf db))).1).length <
      (expired db).length := by
  have hsub : ∀ k ∈ expired (settleBatch env i (claimChunks db claimed) (claimed.map (orphanOf db))).1,
      k ∈ (expired db).erase h := by
    intro k hk
    obtain ⟨hk, hout⟩ := (expired_settled hcalls i).1 hk
    exact (nodup_expired db).mem_erase_iff.2 ⟨fun he => hout (he ▸ hmem), hk⟩
  have hle := (List.subperm_of_subset (nodup_expired _) hsub).length_le
  have herase := List.length_erase_of_mem hexp
  have hpos := List.length_pos_of_mem hexp
  omega

theorem orphanOf_congr {db db' : Store} {h : String} (hrow : db'.chunks.get? h = db.chunks.get? h)
    (hworkers : db'.workers = db.workers) : orphanOf db' h = orphanOf db h := by
  unfold orphanOf locationsOf workersOf
  rw [hrow, hworkers]

theorem claimChunks_nil (db : Store) : claimChunks db [] = db := by
  unfold claimChunks Table.updateWhere
  simp

/-- What a sweep whose turns are numbered from `i` does to a store. -/
structure SweepOutcome (env : SweepEnv) (i : Nat) (db : Store) (r : Swept) : Prop where
  /-- Only chunk rows change. -/
  frame : r.db = { db with chunks := r.db.chunks }
  once : r.hashes.Nodup
  claimed : ∀ h ∈ r.hashes, h ∈ expired db
  /-- A row claimed in turn `i + b` is dropped exactly when its deletes are all answered with 200, and
  otherwise ends at zero with its period started anew. -/
  settled : ∀ b orphans, r.batches[b]? = some orphans → ∀ o ∈ orphans, o = orphanOf db o.hash ∧
    r.db.chunks.get? o.hash = (db.chunks.get? o.hash).bind (settledRow (env.answer (i + b) o.hash) o db.now)
  others : ∀ h, h ∉ r.hashes → r.db.chunks.get? h = db.chunks.get? h
  /-- The number the daemon prints. -/
  counted : r.totalDeleted = r.hashes.countP fun h => (r.db.chunks.get? h).isNone
  /-- Unless a shutdown is requested every expired row is claimed. -/
  complete : (∀ j, env.keepRunning j = true) → ∀ h ∈ expired db, h ∈ r.hashes

theorem SweepOutcome.idle {env : SweepEnv} {i : Nat} {db : Store}
    (hstop : (∀ j, env.keepRunning j = true) → expired db = []) : SweepOutcome env i db ⟨db, [], 0⟩ where
  frame := rfl
  once := List.nodup_nil
  claimed h hh := by cases hh
  settled b orphans hb := by cases hb
  others h _ := rfl
  counted := rfl
  complete hrun h hh := by
    rw [hstop hrun] at hh
    cases hh

/-- A batch in front of a sweep. -/
theorem SweepOutcome.cons {env : SweepEnv} (hcalls : env.CallsSucceed) {i : Nat} {db : Store} {claimed : List String}
    {rest : Swept} (hnd : claimed.Nodup) (hexp : ∀ h ∈ claimed, h ∈ expired db)
    (hrest : SweepOutcome env (i + 1) (settleBatch env i (claimChunks db claimed) (claimed.map (orphanOf db))).1 rest) :
    SweepOutcome env i db ⟨rest.db, claimed.map (orphanOf db) :: rest.batches,
      (settleBatch env i (claimChunks db claimed) (claimed.map (orphanOf db))).2 + rest.totalDeleted⟩ := by
  obtain ⟨hframe, hrows⟩ := settleBatch_rows hcalls i db claimed
  have hhashes : ∀ t, Swept.hashes ⟨rest.db, claimed.map (orphanOf db) :: rest.batches, t⟩ = claimed ++ rest.hashes := by
    intro t
    unfold Swept.hashes
    rw [List.flatten_cons, List.map_append, hashes_orphans]
  -- a claimed row is out of the reach of the later claims
  have hapart : ∀ h ∈ rest.hashes, h ∈ expired db ∧ h ∉ claimed := fun h hh =>
    (expired_settled hcalls i).1 (hrest.claimed h hh)
  have hclaimed : ∀ h ∈ claimed, rest.db.chunks.get? h =
      (db.chunks.get? h).bind (settledRow (env.answer i h) (orphanOf db h) db.now) := fun h hh =>
    (hrest.others h fun hin => (hapart h hin).2 hh).trans ((hrows h).trans (if_pos hh))
  refine ⟨?_, ?_, ?_, ?_, ?_, ?_, ?_⟩
  · have hboth := hrest.frame
    rw [hframe] at hboth
    exact hboth
  · rw [hhashes, List.nodup_append]
    refine ⟨hnd, hrest.once, fun a ha b hb => ?_⟩
    rintro rfl
    exact (hapart a hb).2 ha
  · intro h hh
    rw [hhashes, List.mem_append] at hh
    rcases hh with hh | hh
    · exact hexp h hh
    · exact (hapart h hh).1
  · intro b orphans hb o ho
    cases b with
    | zero =>
      simp only [List.getElem?_cons_zero, Option.some.injEq] at hb
      subst hb
      obtain ⟨h, hh, rfl⟩ := List.mem_map.1 ho
      exact ⟨rfl, hclaimed h hh⟩
    | succ b =>
      rw [List.getElem?_cons_succ] at hb
      obtain ⟨horphan, hrow⟩ := hrest.settled b orphans hb o ho
      have hin : o.hash ∈ rest.hashes :=
        List.mem_map_of_mem (List.mem_flatten.2 ⟨orphans, List.mem_of_getElem? hb, ho⟩)
      have hout := (hapart o.hash hin).2
      rw [hrows, if_neg hout] at hrow
      have hsame : orphanOf (settleBatch env i (claimChunks db claimed) (claimed.map (orphanOf db))).1 o.hash =
          orphanOf db o.hash := by
        refine orphanOf_congr ?_ ?_
        · rw [hrows, if_neg hout]
        · rw [hframe]
      rw [hframe] at hrow
      rw [show i + (b + 1) = i + 1 + b from by omega]
      exact ⟨horphan.trans hsame, hrow⟩
  · intro h hh
    rw [hhashes, List.mem_append, not_or] at hh
    exact (hrest.others h hh.2).trans ((hrows h).trans (if_neg hh.1))
  · rw [hhashes, List.countP_append, ← hrest.counted, Nat.add_right_cancel_iff]
    show (settleBatch _ _ _ _).2 = _
    have hcount : (settleBatch env i (claimChunks db claimed) (claimed.map (orphanOf db))).2 =
        (purgeOrphanBatchParallel (env.answer i) (claimed.map (orphanOf db))).length := by
      simp [settleBatch, hcalls.delete]
    have hperm : (purgeOrphanBatchParallel (env.answer i) (claimed.map (orphanOf db))).Perm
        (claimed.filter fun h => (rest.db.chunks.get? h).isNone) := by
      refine (List.perm_ext_iff_of_nodup (nodup_purgeOrphanBatchParallel _ _) (hnd.filter _)).2 fun k => ?_
      rw [mem_purged, List.mem_filter]
      refine and_congr_right fun hk => ?_
      obtain ⟨row, hrow, -⟩ := mem_expired.1 (hexp k hk)
      rw [hclaimed k hk, hrow, Option.bind_some]
      unfold settledRow
      split <;> simp [*]
    rw [hcount, hperm.length_eq, List.countP_eq_length_filter]
  · intro hrun h hh
    rw [hhashes, List.mem_append]
    by_cases hc : h ∈ claimed
    · exact .inl hc
    · exact .inr (hrest.complete hrun h ((expired_settled hcalls i).2 ⟨hh, hc⟩))

/-- The tombstones after a sweep are those before it. -/
theorem SweepOutcome.tombstones {env : SweepEnv} {i : Nat} {db : Store} {r : Swept} (hout : SweepOutcome env i db r)
    {h : String} : counter r.db h = some (-1) ↔ counter db h = some (-1) := by
  by_cases hh : h ∈ r.hashes
  · obtain ⟨row, hrow, hzero, -⟩ := mem_expired.1 (hout.claimed h hh)
    obtain ⟨o, ho, rfl⟩ := List.mem_map.1 hh
    obtain ⟨orphans, hb, ho⟩ := List.mem_flatten.1 ho
    obtain ⟨b, hb⟩ := List.mem_iff_getElem?.1 hb
    have hset := (hout.settled b orphans hb o ho).2
    rw [hrow, Option.bind_some] at hset
    refine iff_of_false (fun hm => ?_) fun hm => ?_
    · obtain ⟨row', hrow', hm⟩ := counter_eq_some.1 hm
      rw [hset] at hrow'
      unfold settledRow at hrow'
      split at hrow'
      · cases hrow'
      · cases hrow'
        cases hm
    · obtain ⟨row', hrow', hm⟩ := counter_eq_some.1 hm
      rw [hrow, Option.some.injEq] at hrow'
      subst hrow'
      omega
  · unfold counter
    rw [hout.others h hh]

/-- A turn whose claim finds nothing. -/
theorem sweep_idle {env : SweepEnv} (hcalls : env.CallsSucceed) {fuel i : Nat} {db : Store}
    (hc : orphanHashes (env.order i) db expiryHours batchSize = []) :
    sweep env (fuel + 1) i db = some ⟨db, [], 0⟩ := by
  unfold sweep
  simp only [getOrphanedChunks, hcalls.claim, hc, List.map_nil, claimChunks_nil, ite_self]

/-- A turn that finds something. -/
theorem sweep_batch {env : SweepEnv} (hcalls : env.CallsSucceed) {fuel i : Nat} {db : Store} {h : String}
    {hs : List String} {rest : Swept} (hrun : env.keepRunning i = true)
    (hc : orphanHashes (env.order i) db expiryHours batchSize = h :: hs)
    (hrest : sweep env fuel (i + 1)
      (settleBatch env i (claimChunks db (h :: hs)) ((h :: hs).map (orphanOf db))).1 = some rest) :
    sweep env (fuel + 1) i db = some ⟨rest.db, (h :: hs).map (orphanOf db) :: rest.batches,
      (settleBatch env i (claimChunks db (h :: hs)) ((h :: hs).map (orphanOf db))).2 + rest.totalDeleted⟩ := by
  rw [List.map_cons] at hrest ⊢
  unfold sweep
  simp only [getOrphanedChunks, hcalls.claim, hc, List.map_cons, hrun, ↓reduceIte, hrest, Option.map_some]

/-- A sweep ends: every claim that returns something takes expired rows away. -/
theorem sweep_ends {env : SweepEnv} (hcalls : env.CallsSucceed) (m : Nat) :
    ∀ (i : Nat) (db : Store), (expired db).length ≤ m →
      ∃ r, (∀ fuel, m < fuel → sweep env fuel i db = some r) ∧ SweepOutcome env i db r := by
  induction m with
  | zero =>
    intro i db hm
    have hnone : expired db = [] := List.length_eq_zero_iff.1 (by omega)
    refine ⟨⟨db, [], 0⟩, fun fuel hf => ?_, SweepOutcome.idle fun _ => hnone⟩
    obtain ⟨fuel, rfl⟩ := Nat.exists_eq_succ_of_ne_zero (by omega : fuel ≠ 0)
    exact sweep_idle hcalls (orphanHashes_nil hnone)
  | succ m ih =>
    intro i db hm
    by_cases hrun : env.keepRunning i = true
    · cases hc : orphanHashes (env.order i) db expiryHours batchSize with
      | nil =>
        refine ⟨⟨db, [], 0⟩, fun fuel hf => ?_, SweepOutcome.idle fun _ => expired_nil hc⟩
        obtain ⟨fuel, rfl⟩ := Nat.exists_eq_succ_of_ne_zero (by omega : fuel ≠ 0)
        exact sweep_idle hcalls hc
      | cons h hs =>
        have hexp : ∀ k ∈ h :: hs, k ∈ expired db := fun k hk => orphanHashes_expired (hc ▸ hk)
        have hnd : (h :: hs).Nodup := hc ▸ nodup_orphanHashes _ _ _ _
        have hless := length_expired_lt hcalls i (show h ∈ h :: hs from List.mem_cons_self) (hexp h List.mem_cons_self)
        obtain ⟨rest, hends, hrest⟩ := ih (i + 1)
          (settleBatch env i (claimChunks db (h :: hs)) ((h :: hs).map (orphanOf db))).1 (by omega)
        refine ⟨_, fun fuel hf => ?_, SweepOutcome.cons hcalls hnd hexp hrest⟩
        obtain ⟨fuel, rfl⟩ := Nat.exists_eq_succ_of_ne_zero (by omega : fuel ≠ 0)
        exact sweep_batch hcalls hrun hc (hends fuel (by omega))
    · refine ⟨⟨db, [], 0⟩, fun fuel hf => ?_, SweepOutcome.idle fun hall => absurd (hall i) hrun⟩
      obtain ⟨fuel, rfl⟩ := Nat.exists_eq_succ_of_ne_zero (by omega : fuel ≠ 0)
      simp [sweep, hrun]

/-- More fuel changes nothing. -/
theorem sweep_mono {env : SweepEnv} {fuel : Nat} : ∀ {i : Nat} {db : Store} {r : Swept} (more : Nat),
    sweep env fuel i db = some r → sweep env (fuel + more) i db = some r := by
  induction fuel with
  | zero =>
    intro i db r more h
    cases h
  | succ fuel ih =>
    intro i db r more h
    rw [show fuel + 1 + more = fuel + more + 1 from by omega]
    unfold sweep at h ⊢
    split
    · rename_i hrun
      rw [if_pos hrun] at h
      split at h
      · exact h
      · obtain ⟨rest, hrest, hr⟩ := Option.map_eq_some_iff.1 h
        exact Option.map_eq_some_iff.2 ⟨rest, ih more hrest, hr⟩
    · rename_i hrun
      rw [if_neg hrun] at h
      exact h

theorem sweep_effect {env : SweepEnv} (hcalls : env.CallsSucceed) {fuel : Nat} {db : Store} {r : Swept}
    (h : sweep env fuel 0 db = some r) : SweepOutcome env 0 db r := by
  obtain ⟨r', hends, hout⟩ := sweep_ends hcalls (expired db).length 0 db (Nat.le_refl _)
  have hr := sweep_mono ((expired db).length + 1) h
  rw [hends _ (by omega), Option.some.injEq] at hr
  exact hr ▸ hout

/-- **A sweep ends and settles every row it claims.** From a store without a tombstone, whatever the deletes
come to: no hash is claimed twice, a claimed row is dropped exactly when all its deletes are answered with
200 and is otherwise given back at zero with `created_at` renewed, nothing else changes, and no tombstone is
left. -/
theorem sweep_outcome (env : SweepEnv) (db : Store) (hcalls : env.CallsSucceed)
    (hfree : ∀ h, counter db h ≠ some (-1)) :
    ∃ r, (∀ fuel, (expired db).length < fuel → sweep env fuel 0 db = some r) ∧ SweepOutcome env 0 db r ∧
      ∀ h, counter r.db h ≠ some (-1) := by
  obtain ⟨r, hends, hout⟩ := sweep_ends hcalls (expired db).length 0 db (Nat.le_refl _)
  exact ⟨r, hends, hout, fun h hm => hfree h (hout.tombstones.1 hm)⟩

theorem counter_ne_of_rows {db : Store} (h : ∀ e ∈ db.chunks.rows, e.2.refCount ≠ -1) (k : String) :
    counter db k ≠ some (-1) := by
  intro hm
  obtain ⟨row, hrow, hcount⟩ := counter_eq_some.1 hm
  exact h (k, row) (Table.mem_rows.2 hrow) hcount

/-- Two abandoned uploads; the worker that holds both answers one of the deletes. -/
def twoOrphans : Store := run 4 .empty (sampleSetup ++
  [.filterMissingChunks [sampleHash], .filterMissingChunks ["b"], .tick (hours 25)])

/-- Only the worker of `sampleHash` answers. -/
def oneFailing : SweepEnv where
  keepRunning _ := true
  order _ := []
  claimFault _ := none
  answer _ hash _ := if hash = sampleHash then .response 200 else .noResponse
  deleteOk _ := true
  revertOk _ _ := true

theorem sweep_outcome_oneFailing : ∃ r, sweep oneFailing 3 0 twoOrphans = some r ∧
    SweepOutcome oneFailing 0 twoOrphans r ∧ ∀ h, counter r.db h ≠ some (-1) := by
  obtain ⟨r, hends, hout⟩ := sweep_outcome oneFailing twoOrphans ⟨fun _ => rfl, fun _ => rfl, fun _ _ => rfl⟩
    (counter_ne_of_rows (by decide +kernel))
  exact ⟨r, hends 3 (by decide +kernel), hout⟩

/-! ## A sweep is a run of a daemon -/

variable {ι : Type} [DecidableEq ι]

theorem set_set (s : Masters ι) (d : ι) (db db' : Store) (phase phase' : GcPhase) :
    (s.set d db phase).set d db' phase' = s.set d db' phase' := by
  simp [Masters.set]

/-- The revert loop, one step of the daemon a hash. -/
theorem exec_revert (n : Nat) (env : SweepEnv) (i : Nat) (s : Masters ι) (d : ι) (hashes : List String) (db : Store) :
    exec (stepMasters n) (s.set d db (startReverting hashes))
        (hashes.map fun hash => .revert d (env.revertOk i hash)) =
      some (s.set d (hashes.foldl (fun db hash => if env.revertOk i hash then revertTombstone db hash else db) db)
        .idle) := by
  induction hashes generalizing db with
  | nil => rfl
  | cons h rest ih =>
    have hphase : (s.set d db (startReverting (h :: rest))).daemon d = .reverting (h :: rest) := by
      simp [Masters.set, startReverting]
    rw [List.map_cons, List.foldl_cons, ← ih]
    show (stepMasters n _ _).bind _ = _
    simp only [stepMasters, hphase, Option.bind_some, set_set]
    rfl

section

variable {purged purged' : List String} (hmem : ∀ h, h ∈ purged ↔ h ∈ purged')

include hmem

theorem isEmpty_congr : purged.isEmpty = purged'.isEmpty := by
  rw [Bool.eq_iff_iff, List.isEmpty_iff, List.isEmpty_iff, List.eq_nil_iff_forall_not_mem, List.eq_nil_iff_forall_not_mem]
  exact forall_congr' fun h => not_congr (hmem h)

theorem contains_congr (h : String) : purged.contains h = purged'.contains h := by
  rw [Bool.eq_iff_iff, List.contains_iff_mem, List.contains_iff_mem]
  exact hmem h

/-- The order of the hashes in a bulk deletion does not matter. -/
theorem deleteChunkRecordsBulk_congr (db : Store) :
    deleteChunkRecordsBulk db purged = deleteChunkRecordsBulk db purged' := by
  unfold deleteChunkRecordsBulk
  simp only [isEmpty_congr hmem, contains_congr hmem]

theorem toRevert_congr (success : Bool) (orphans : List OrphanedChunk) :
    toRevert success orphans purged = toRevert success orphans purged' := by
  unfold toRevert
  simp only [contains_congr hmem]

end

theorem mem_purgeOrphanBatch (answer : String → Nat → DeleteAnswer) (orphans : List OrphanedChunk) (h : String) :
    h ∈ purgeOrphanBatch (purgeOrphanBatchParallel answer orphans) orphans ↔
      h ∈ purgeOrphanBatchParallel answer orphans := by
  unfold purgeOrphanBatch
  rw [List.mem_filter, List.contains_iff_mem, and_iff_right_iff_imp, mem_purgeOrphanBatchParallel]
  rintro ⟨o, ho, rfl, -⟩
  exact List.mem_map_of_mem ho

/-- A batch after its claim. -/
theorem exec_batch (n : Nat) (env : SweepEnv) (i : Nat) (s : Masters ι) (d : ι) (db : Store)
    (orphans : List OrphanedChunk) :
    ∃ steps, exec (stepMasters n) (s.set d db (.purging orphans)) steps =
      some (s.set d (settleBatch env i db orphans).1 .idle) := by
  have hphase : (s.set d db (.purging orphans)).daemon d = .purging orphans := by simp [Masters.set]
  have hmem := mem_purgeOrphanBatch (env.answer i) orphans
  refine ⟨.record d (purgeOrphanBatchParallel (env.answer i) orphans) (env.deleteOk i) ::
    (toRevert ((purgeOrphanBatchParallel (env.answer i) orphans).isEmpty || env.deleteOk i) orphans
      (purgeOrphanBatchParallel (env.answer i) orphans)).map fun hash => .revert d (env.revertOk i hash), ?_⟩
  show (stepMasters n _ _).bind _ = _
  simp only [stepMasters, hphase, Option.bind_some, set_set, isEmpty_congr hmem, deleteChunkRecordsBulk_congr hmem,
    toRevert_congr hmem]
  exact exec_revert n env i s d _ _

/-- **A sweep is a run of the daemon**, with its calls ending as the sweep's do. -/
theorem sweep_run (n : Nat) {env : SweepEnv} {d : ι} {fuel : Nat} : ∀ {i : Nat} {s : Masters ι} {r : Swept},
    s.daemon d = .idle → sweep env fuel i s.db = some r →
      ∃ steps, exec (stepMasters n) s steps = some (s.set d r.db .idle) := by
  induction fuel with
  | zero =>
    intro i s r hidle h
    cases h
  | succ fuel ih =>
    intro i s r hidle h
    have hstay : s.set d s.db .idle = s := by
      unfold Masters.set
      rw [← hidle, Function.update_eq_self]
    unfold sweep at h
    split at h
    · have hclaim : stepMasters n s (.claim d (env.order i) (env.claimFault i)) =
          some (s.set d (getOrphanedChunks (env.order i) (env.claimFault i) s.db expiryHours batchSize).1
            (startPurging (getOrphanedChunks (env.order i) (env.claimFault i) s.db expiryHours batchSize).2)) := by
        simp only [stepMasters, hidle]
      split at h
      · rename_i db hres
        cases h
        rw [hres] at hclaim
        exact ⟨[.claim d (env.order i) (env.claimFault i)], by simp [exec, hclaim, startPurging]⟩
      · rename_i db orphans hne hres
        obtain ⟨rest, hrest, rfl⟩ := Option.map_eq_some_iff.1 h
        obtain ⟨batch, hbatch⟩ := exec_batch n env i s d db orphans
        obtain ⟨more, hmore⟩ := ih (i := i + 1) (s := s.set d (settleBatch env i db orphans).1 .idle)
          (by simp [Masters.set]) hrest
        have hstart : startPurging orphans = .purging orphans := by
          cases orphans with
          | nil => exact absurd rfl hne
          | cons o os => rfl
        rw [hres, hstart] at hclaim
        rw [set_set] at hmore
        refine ⟨.claim d (env.order i) (env.claimFault i) :: (batch ++ more), exec_cons.2 ⟨_, hclaim, ?_⟩⟩
        exact exec_append.2 ⟨_, hbatch, hmore⟩
    · cases h
      exact ⟨[], by rw [hstay]; rfl⟩

end StorageEngine
