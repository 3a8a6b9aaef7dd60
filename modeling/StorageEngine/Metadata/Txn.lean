import StorageEngine.Lib.Transition
import StorageEngine.Metadata.Spec

/-!
# Runs of transactions

`Txn` is one call of the repository, with the query plan it met and the point it failed at; `tick` is
time passing. A failed call leaves the store as it was, so a transaction always has a store after it
and a run is a list of `Txn`. `StoreStep` says once what a transaction can have done to the `files` and
`chunks` tables; every invariant is a case analysis on it.
-/

namespace StorageEngine

open Relational Transition

inductive Txn where
  | createUser (email passwordHash salt : String)
  | registerWorker (internalHost : String) (internalPort : Int) (advertisedHost : String) (advertisedPort : Int)
      (freeSpace : Int)
  | filterMissingChunks (hashes : List String)
  | commitFile (userId : Int) (filename : String) (fileSize : Int) (chunkHashes : List String)
  | deleteFile (order : List Int) (userId : Int) (filename : String)
  | getOrphanedChunks (order : List String) (fault : Option ClaimFault) (expiryHours limit : Nat)
  | deleteChunkRecordsBulk (hashes : List String)
  | revertTombstone (hash : String)
  | addCluster (order : List Nat) (clusterName : String) (activeNodeIds : List Int)
  | replaceCluster (clusterId : Int) (newWorkerIds : List Int)
  | tick (d : Nat)
deriving DecidableEq, Repr

/-- The calls only a daemon makes. -/
def Txn.collects : Txn → Bool
  | .getOrphanedChunks .. | .deleteChunkRecordsBulk _ | .revertTombstone _ => true
  | _ => false

/-- The calls that move a count by one. -/
def Txn.counts : Txn → Bool
  | .commitFile .. | .deleteFile .. => true
  | _ => false

/-- The store after a call: what it committed, or the store before it. -/
def committed (db : Store) (res : Except RepoError Store) : Store :=
  match res with
  | .ok db' => db'
  | .error _ => db

/-- The store after the transaction; one that fails leaves it as it was. -/
def Txn.apply (n : Nat) (db : Store) : Txn → Store
  | .createUser e p s => (StorageEngine.createUser db e p s).1
  | .registerWorker ih ip ah ap free => committed db (StorageEngine.registerWorker db ih ip ah ap free)
  | .filterMissingChunks hs => committed db ((StorageEngine.filterMissingChunks n db hs).map Prod.fst)
  | .commitFile u f s hs => committed db (StorageEngine.commitFile db u f s hs)
  | .deleteFile order u f => (StorageEngine.deleteFile order db u f).1
  | .getOrphanedChunks order fault expiry limit => (StorageEngine.getOrphanedChunks order fault db expiry limit).1
  | .deleteChunkRecordsBulk hs => StorageEngine.deleteChunkRecordsBulk db hs
  | .revertTombstone h => StorageEngine.revertTombstone db h
  | .addCluster order name ids => committed db (StorageEngine.addCluster n order db name ids)
  | .replaceCluster id ids => committed db (StorageEngine.replaceCluster db id ids)
  | .tick d => { db with now := db.now + d }

/-- Every transaction can come. -/
def stepTxn (n : Nat) (db : Store) (t : Txn) : Option Store := some (t.apply n db)

/-- The store after the transactions, in order. -/
def run (n : Nat) (db : Store) (txns : List Txn) : Store := txns.foldl (Txn.apply n) db

theorem exec_stepTxn (n : Nat) (db : Store) (txns : List Txn) : exec (stepTxn n) db txns = some (run n db txns) := by
  induction txns generalizing db with
  | nil => rfl
  | cons t ts ih => simp only [exec, stepTxn, Option.bind_some, ih]; rfl

/-- What every transaction keeps holds after a run. -/
theorem run_inv {n : Nat} {P : Store → Prop} (hstep : ∀ db (t : Txn), P db → P (t.apply n db)) (txns : List Txn)
    {db : Store} (h : P db) : P (run n db txns) := by
  induction txns generalizing db with
  | nil => exact h
  | cons t ts ih => exact ih (hstep db t h)

theorem run_append (n : Nat) (db : Store) (ts us : List Txn) : run n db (ts ++ us) = run n (run n db ts) us :=
  List.foldl_append

/-! ## What one transaction can do -/

/-- Neither `files` nor `chunks` changes, no worker row goes or changes its internal address: an
administrative call, or one that failed. -/
structure Quiet (db db' : Store) : Prop where
  files : db'.files = db.files
  fileSeq : db'.fileSeq = db.fileSeq
  chunks : db'.chunks = db.chunks
  workers : ∀ id w, db.workers.get? id = some w →
    ∃ w', db'.workers.get? id = some w' ∧ w'.internalHost = w.internalHost ∧ w'.internalPort = w.internalPort
  now : db.now ≤ db'.now

theorem Quiet.refl (db : Store) : Quiet db db := ⟨rfl, rfl, rfl, fun _ w h => ⟨w, h, rfl, rfl⟩, Nat.le_refl _⟩

inductive StoreStep (n : Nat) (db : Store) : Txn → Store → Prop where
  | quiet {t : Txn} {db' : Store} (h : Quiet db db') : StoreStep n db t db'
  | filter {hashes : List String} {db' : Store} {plans : List ChunkRoutingPlan}
      (h : filterMissingChunks n db hashes = .ok (db', plans)) : StoreStep n db (.filterMissingChunks hashes) db'
  | commit {u : Int} {f : String} {s : Int} {hashes : List String} {db' : Store}
      (h : CommitEffect db u f s hashes db') : StoreStep n db (.commitFile u f s hashes) db'
  | delete {order : List Int} {u : Int} {f : String} {first : FileRow} {db' : Store}
      (hfirst : (fileRows order db u f).head? = some first) (h : DeleteEffect db u f first db') :
      StoreStep n db (.deleteFile order u f) db'
  | claim {order : List String} {expiry limit : Nat} :
      StoreStep n db (.getOrphanedChunks order none expiry limit)
        (claimChunks db (orphanHashes order db expiry limit))
  | purge {hashes : List String} :
      StoreStep n db (.deleteChunkRecordsBulk hashes) (StorageEngine.deleteChunkRecordsBulk db hashes)
  | revert {hash : String} : StoreStep n db (.revertTombstone hash) (StorageEngine.revertTombstone db hash)

theorem registerWorker_quiet {db db' : Store} {ih ah : String} {ip ap free : Int}
    (h : registerWorker db ih ip ah ap free = .ok db') : Quiet db db' := by
  unfold registerWorker at h
  split at h
  · simp only at h
    split at h
    · split at h
      · rename_i ws hws
        cases h
        refine ⟨rfl, rfl, rfl, fun id w hid => ⟨w, ?_, rfl, rfl⟩, Nat.le_refl _⟩
        obtain ⟨hnone, rfl⟩ := Table.insert?_eq_some.1 hws
        have hne : id ≠ db.workerSeq := fun he => by rw [he, hnone] at hid; cases hid
        rw [Table.get?_insertNew, if_neg hne]
        exact hid
      · cases h
    · cases h
      refine ⟨rfl, rfl, rfl, fun id w hid => ?_, Nat.le_refl _⟩
      simp only [Table.get?_updateWhere, hid, Option.map_some]
      split <;> exact ⟨_, rfl, rfl, rfl⟩
  · cases h

theorem createUser_quiet (db : Store) (e p s : String) : Quiet db (createUser db e p s).1 := by
  unfold createUser
  split
  · split
    · split <;> exact ⟨rfl, rfl, rfl, fun _ w h => ⟨w, h, rfl, rfl⟩, Nat.le_refl _⟩
    · exact .refl db
  · exact .refl db

theorem addCluster_quiet {n : Nat} {order : List Nat} {db db' : Store} {name : String} {ids : List Int}
    (h : addCluster n order db name ids = .ok db') : Quiet db db' := by
  unfold addCluster at h
  split at h
  · cases h
  · split at h
    · cases h
    · split at h
      · cases h
      · split at h
        · cases h
        · cases h; exact ⟨rfl, rfl, rfl, fun _ w h => ⟨w, h, rfl, rfl⟩, Nat.le_refl _⟩

theorem replaceCluster_quiet {db db' : Store} {id : Int} {ids : List Int} (h : replaceCluster db id ids = .ok db') :
    Quiet db db' := by
  unfold replaceCluster at h
  split at h
  · cases h
  · split at h
    · cases h
    · cases h
      refine ⟨rfl, rfl, rfl, fun id w hid => ?_, Nat.le_refl _⟩
      simp only [Table.get?_updateWhere, hid, Option.map_some]
      split <;> exact ⟨_, rfl, rfl, rfl⟩

theorem StoreStep.refl (n : Nat) (db : Store) (t : Txn) : StoreStep n db t db := .quiet (.refl db)

/-- **Every transaction is one of the cases of `StoreStep`.** -/
theorem Txn.storeStep (n : Nat) (db : Store) (t : Txn) : StoreStep n db t (t.apply n db) := by
  cases t with
  | createUser e p s => exact .quiet (createUser_quiet db e p s)
  | registerWorker ih ip ah ap free =>
    simp only [Txn.apply, committed]
    split
    · rename_i db' h; exact .quiet (registerWorker_quiet h)
    · exact .refl n db _
  | filterMissingChunks hs =>
    simp only [Txn.apply]
    cases h : StorageEngine.filterMissingChunks n db hs with
    | error e => exact .refl n db _
    | ok res => exact .filter h
  | commitFile u f s hs =>
    simp only [Txn.apply]
    cases h : StorageEngine.commitFile db u f s hs with
    | error e => exact .refl n db _
    | ok db' => exact .commit (commitFile_ok.1 h)
  | deleteFile order u f =>
    simp only [Txn.apply]
    rcases deleteFile_cases order db u f with ⟨-, h⟩ | ⟨first, db', hfirst, h, heff⟩
    · rw [h]; exact .refl n db _
    · rw [h]; exact .delete hfirst heff
  | getOrphanedChunks order fault expiry limit =>
    cases fault with
    | none => exact .claim
    | some fault => cases fault <;> exact .refl n db _
  | deleteChunkRecordsBulk hs => exact .purge
  | revertTombstone h => exact .revert
  | addCluster order name ids =>
    simp only [Txn.apply, committed]
    split
    · rename_i db' h; exact .quiet (addCluster_quiet h)
    · exact .refl n db _
  | replaceCluster id ids =>
    simp only [Txn.apply, committed]
    split
    · rename_i db' h; exact .quiet (replaceCluster_quiet h)
    · exact .refl n db _
  | tick d => exact .quiet ⟨rfl, rfl, rfl, fun _ w h => ⟨w, h, rfl, rfl⟩, Nat.le_add_right _ _⟩

namespace StoreStep

variable {n : Nat} {db db' : Store} {t : Txn}

theorem now_le (h : StoreStep n db t db') : db.now ≤ db'.now := by
  cases h with
  | quiet h => exact h.now
  | filter h => exact Nat.le_of_eq (filterMissingChunks_effect h).now.symm
  | commit h => exact Nat.le_of_eq h.now.symm
  | delete _ h => exact Nat.le_of_eq h.now.symm
  | claim => exact Nat.le_refl _
  | purge => unfold deleteChunkRecordsBulk; split <;> exact Nat.le_refl _
  | revert => exact Nat.le_refl _

theorem fileSeq_le (h : StoreStep n db t db') : db.fileSeq ≤ db'.fileSeq := by
  cases h with
  | quiet h => exact Int.le_of_eq h.fileSeq.symm
  | filter h => rw [(filterMissingChunks_effect h).frame]
  | commit h => obtain ⟨-, -, arr, name, -, -, rfl⟩ := h; exact Int.le_add_one (Int.le_refl _)
  | delete _ h => rw [h.effect]
  | claim => exact Int.le_refl _
  | purge => unfold deleteChunkRecordsBulk; split <;> exact Int.le_refl _
  | revert => exact Int.le_refl _

theorem files_other (h : StoreStep n db t db') (hc : t.counts = false) : db'.files = db.files := by
  cases h with
  | quiet h => exact h.files
  | filter h => exact (filterMissingChunks_effect h).files
  | commit _ => cases hc
  | delete _ _ => cases hc
  | claim => rfl
  | purge => unfold deleteChunkRecordsBulk; split <;> rfl
  | revert => rfl

/-- A `files` row is never changed, and an id once drawn is never given to another row. -/
theorem files_stable (h : StoreStep n db t db') {id : Int} {r : FileRow} (hid : id < db.fileSeq)
    (hr : db'.files.get? id = some r) : db.files.get? id = some r := by
  cases h with
  | quiet h => rw [h.files] at hr; exact hr
  | filter h => rw [(filterMissingChunks_effect h).files] at hr; exact hr
  | commit h =>
    obtain ⟨-, -, arr, name, -, -, rfl⟩ := h
    have hne : id ≠ db.fileSeq := by omega
    simpa [hne] using hr
  | delete _ h =>
    rw [h.get?_files, Option.filter_eq_some_iff] at hr
    exact hr.1
  | claim => exact hr
  | purge => unfold deleteChunkRecordsBulk at hr; split at hr <;> exact hr
  | revert => exact hr

/-- Every row has an id that was drawn. -/
theorem files_drawn (h : StoreStep n db t db') (hdrawn : ∀ id r, db.files.get? id = some r → id < db.fileSeq) {id : Int}
    {r : FileRow} (hr : db'.files.get? id = some r) : id < db'.fileSeq := by
  by_cases hid : id < db.fileSeq
  · exact Int.lt_of_lt_of_le hid h.fileSeq_le
  · have hnew : db.files.get? id = none := by
      cases hold : db.files.get? id with
      | none => rfl
      | some r₀ => exact absurd (hdrawn id r₀ hold) hid
    cases h with
    | quiet h => rw [h.files, hnew] at hr; cases hr
    | filter h => rw [(filterMissingChunks_effect h).files, hnew] at hr; cases hr
    | commit h =>
      obtain ⟨-, -, arr, name, -, -, rfl⟩ := h
      simp only [Table.get?_insertNew, hnew] at hr
      split at hr
      · rename_i he
        rw [he]
        exact Int.lt_succ _
      · cases hr
    | delete _ h =>
      rw [h.get?_files, Option.filter_eq_some_iff, hnew] at hr
      cases hr.1
    | claim => exact absurd (hdrawn id r hr) hid
    | purge => unfold deleteChunkRecordsBulk at hr; split at hr <;> exact absurd (hdrawn id r hr) hid
    | revert => exact absurd (hdrawn id r hr) hid

end StoreStep

/-- The next id is free. -/
theorem run_fileSeq_fresh (n : Nat) (txns : List Txn) : (run n .empty txns).files.get? (run n .empty txns).fileSeq = none := by
  have hdrawn : ∀ id r, (run n .empty txns).files.get? id = some r → id < (run n .empty txns).fileSeq :=
    run_inv (P := fun db => ∀ id r, db.files.get? id = some r → id < db.fileSeq)
      (fun db t h id r hr => (t.storeStep n db).files_drawn h hr) txns fun id r hr => by cases hr
  cases hnext : (run n .empty txns).files.get? (run n .empty txns).fileSeq with
  | none => rfl
  | some r => exact absurd (hdrawn _ r hnext) (Int.lt_irrefl _)

/-- The same over a run: what is found under an id drawn before it was there before it. -/
theorem run_files_stable (n : Nat) (txns : List Txn) {db : Store} {id : Int} {r : FileRow} (hid : id < db.fileSeq)
    (hr : (run n db txns).files.get? id = some r) : db.files.get? id = some r := by
  induction txns generalizing db with
  | nil => exact hr
  | cons t ts ih =>
    have hstep := t.storeStep n db
    exact hstep.files_stable hid (ih (Int.lt_of_lt_of_le hid hstep.fileSeq_le) hr)

end StorageEngine
