import Mathlib.Logic.Function.Basic
import StorageEngine.Metadata.Txn

/-!
# The garbage collector daemons

Every master process runs one daemon. A sweep is a loop of batches: claim up to `batchSize` orphans,
delete their replicas, drop the rows of those that went, give the others back one by one. The daemon's
place in the batch is its `GcPhase`; between two steps of one daemon everybody else may take theirs.

| here | there (`main.cpp`) |
| --- | --- |
| `purgeOrphanBatch` | the set `PurgeOrphanBatchParallel` returns (`:66-108`); which tasks returned `true` is the label's |
| `toRevert`         | the hashes the two revert loops visit (`:152-171`) |
| `claim`, `record`, `revert` | `GetOrphanedChunks` (`:129`), `DeleteChunkRecordsBulk` (`:139-150`), `RevertTombstone` (`:157`, `:168`) |
| `crash`            | the process ends; a new daemon starts with a claim |
-/

namespace StorageEngine

open Relational

/-- `expiry_hours` (`main.cpp:114`). -/
def expiryHours : Nat := 24

def batchSize : Nat := 100

inductive GcPhase where
  | idle
  /-- The claim is committed, the physical deletes run. -/
  | purging (orphans : List OrphanedChunk)
  /-- The rest of a revert loop. -/
  | reverting (hashes : List String)
deriving DecidableEq, Repr

/-- The hashes a daemon has claimed and not yet resolved. -/
def GcPhase.outstanding : GcPhase → List String
  | .idle => []
  | .purging orphans => orphans.map OrphanedChunk.hash
  | .reverting hashes => hashes

/-- The hashes of the batch whose tasks returned `true`. -/
def purgeOrphanBatch (deleted : List String) (orphans : List OrphanedChunk) : List String :=
  (orphans.map OrphanedChunk.hash).filter (deleted.contains ·)

def toRevert (deleteSuccess : Bool) (orphans : List OrphanedChunk) (purged : List String) : List String :=
  if deleteSuccess then (orphans.map OrphanedChunk.hash).filter fun h => !purged.contains h
  else orphans.map OrphanedChunk.hash

/-- An empty batch ends the sweep. -/
def startPurging : List OrphanedChunk → GcPhase
  | [] => .idle
  | o :: rest => .purging (o :: rest)

@[simp] theorem outstanding_startPurging (orphans : List OrphanedChunk) :
    (startPurging orphans).outstanding = orphans.map OrphanedChunk.hash := by
  cases orphans <;> rfl

/-- After the last revert the daemon claims again. -/
def startReverting : List String → GcPhase
  | [] => .idle
  | h :: rest => .reverting (h :: rest)

@[simp] theorem outstanding_startReverting (hashes : List String) : (startReverting hashes).outstanding = hashes := by
  cases hashes <;> rfl

/-- One database and the collectors of its masters. -/
structure Masters (ι : Type) where
  db : Store
  daemon : ι → GcPhase

/-- An empty database, no batch. -/
def Masters.init (ι : Type) : Masters ι := ⟨.empty, fun _ => .idle⟩

/-- One transaction. -/
inductive MasterStep (ι : Type) where
  /-- A transaction of a request handler, or time passing. -/
  | client (t : Txn)
  | claim (d : ι) (order : List String) (fault : Option ClaimFault)
  /-- The futures are in; `ok` tells whether the bulk deletion succeeds. -/
  | record (d : ι) (deleted : List String) (ok : Bool)
  | revert (d : ι) (ok : Bool)
  | crash (d : ι)
deriving DecidableEq

variable {ι : Type} [DecidableEq ι]

/-- The database and one collector change. -/
def Masters.set (s : Masters ι) (d : ι) (db : Store) (phase : GcPhase) : Masters ι :=
  ⟨db, Function.update s.daemon d phase⟩

/-- `none` where the collector is not there. -/
def stepMasters (n : Nat) (s : Masters ι) : MasterStep ι → Option (Masters ι)
  | .client t => if t.collects then none else some { s with db := t.apply n s.db }
  | .claim d order fault =>
    match s.daemon d with
    | .idle =>
      let (db, orphans) := getOrphanedChunks order fault s.db expiryHours batchSize
      some (s.set d db (startPurging orphans))
    | _ => none
  | .record d deleted ok =>
    match s.daemon d with
    | .purging orphans =>
      let purged := purgeOrphanBatch deleted orphans
      -- with nothing purged the call is not made and counts as a success
      let success := purged.isEmpty || ok
      some (s.set d (if success then deleteChunkRecordsBulk s.db purged else s.db)
        (startReverting (toRevert success orphans purged)))
    | _ => none
  | .revert d ok =>
    match s.daemon d with
    | .reverting (h :: rest) => some (s.set d (if ok then revertTombstone s.db h else s.db) (startReverting rest))
    | _ => none
  | .crash d => some (s.set d s.db .idle)

/-- No daemon crashes and no call of a daemon meets a database error. -/
def FaultFree : MasterStep ι → Prop
  | .client _ => True
  | .claim _ _ fault => fault = none
  | .record _ _ ok | .revert _ ok => ok = true
  | .crash _ => False

instance (a : MasterStep ι) : Decidable (FaultFree a) := by
  cases a <;> unfold FaultFree <;> infer_instance

/-! ## What one step can do -/

/-- The steps of a fault-free run, in terms of the store and the hashes each daemon holds. -/
inductive DaemonStep (n : Nat) (s : Masters ι) : MasterStep ι → Masters ι → Prop where
  | client {t : Txn} (ht : t.collects = false) : DaemonStep n s (.client t) { s with db := t.apply n s.db }
  | claim {d : ι} {order : List String} {phase : GcPhase} (hidle : (s.daemon d).outstanding = [])
      (hphase : phase.outstanding = orphanHashes order s.db expiryHours batchSize) :
      DaemonStep n s (.claim d order none)
        (s.set d (claimChunks s.db (orphanHashes order s.db expiryHours batchSize)) phase)
  | record {d : ι} {deleted purged : List String} {phase : GcPhase} (hsub : ∀ h ∈ purged, h ∈ (s.daemon d).outstanding)
      (hdel : ∀ h ∈ purged, h ∈ deleted)
      (hphase : phase.outstanding = (s.daemon d).outstanding.filter fun h => !purged.contains h) :
      DaemonStep n s (.record d deleted true) (s.set d (deleteChunkRecordsBulk s.db purged) phase)
  | revert {d : ι} {h : String} {phase : GcPhase} (hphase : (s.daemon d).outstanding = h :: phase.outstanding) :
      DaemonStep n s (.revert d true) (s.set d (revertTombstone s.db h) phase)

theorem hashes_orphans (db : Store) (hashes : List String) :
    (hashes.map (orphanOf db)).map OrphanedChunk.hash = hashes := by
  rw [List.map_map]
  exact List.map_id hashes

/-- **Every fault-free step is one of the four.** -/
theorem stepMasters_cases {n : Nat} {s t : Masters ι} {a : MasterStep ι} (h : stepMasters n s a = some t)
    (hf : FaultFree a) : DaemonStep n s a t := by
  cases a with
  | client x =>
    simp only [stepMasters] at h
    split at h
    · cases h
    · rename_i hc
      cases h
      exact .client (by simpa using hc)
  | claim d order fault =>
    obtain rfl : fault = none := hf
    simp only [stepMasters] at h
    split at h
    · rename_i hd
      simp only [getOrphanedChunks, Option.some.injEq] at h
      subst h
      refine .claim (by rw [hd]; rfl) ?_
      rw [outstanding_startPurging]
      exact hashes_orphans _ _
    · cases h
  | record d deleted ok =>
    obtain rfl : ok = true := hf
    simp only [stepMasters] at h
    split at h
    · rename_i orphans hd
      simp only [Bool.or_true, ↓reduceIte, Option.some.injEq] at h
      subst h
      refine .record (fun k hk => ?_) (fun k hk => ?_) ?_
      · rw [hd]; exact (List.mem_filter.1 hk).1
      · simpa using (List.mem_filter.1 hk).2
      · rw [hd, outstanding_startReverting]; rfl
    · cases h
  | revert d ok =>
    obtain rfl : ok = true := hf
    simp only [stepMasters] at h
    split at h
    · rename_i k rest hd
      simp only [↓reduceIte, Option.some.injEq] at h
      subst h
      refine .revert ?_
      rw [hd, outstanding_startReverting]
      rfl
    · cases h
  | crash d => exact absurd hf id

/-- The rows a claim that fails hands to its daemon all the same. -/
def strayOrphans (db : Store) : MasterStep ι → List OrphanedChunk
  | .claim _ order (some fault) => (getOrphanedChunks order (some fault) db expiryHours batchSize).2
  | _ => []

/-- **A failing call or a crash** leaves the store as it was and the daemon with no more than it held,
unless a failing claim returns rows. -/
theorem stepMasters_faulty {n : Nat} {s t : Masters ι} {a : MasterStep ι} (h : stepMasters n s a = some t)
    (hf : ¬ FaultFree a) (hret : strayOrphans s.db a = []) :
    ∃ d phase, t = s.set d s.db phase ∧ phase.outstanding.Sublist (s.daemon d).outstanding := by
  cases a with
  | client x => exact absurd trivial hf
  | claim d order fault =>
    cases fault with
    | none => exact absurd rfl hf
    | some fault =>
      simp only [stepMasters] at h
      split at h
      · rename_i hd
        simp only [strayOrphans] at hret
        simp only [hret, Option.some.injEq] at h
        have hdb : (getOrphanedChunks order (some fault) s.db expiryHours batchSize).1 = s.db := by cases fault <;> rfl
        rw [hdb] at h
        exact ⟨d, _, h.symm, List.nil_sublist _⟩
      · cases h
  | record d deleted ok =>
    obtain rfl : ok = false := by simpa [FaultFree] using hf
    simp only [stepMasters] at h
    split at h
    · rename_i orphans hd
      simp only [Bool.or_false, Option.some.injEq] at h
      cases hp : (purgeOrphanBatch deleted orphans).isEmpty with
      | true =>
        rw [hp, if_pos rfl] at h
        have hdb : deleteChunkRecordsBulk s.db (purgeOrphanBatch deleted orphans) = s.db := if_pos hp
        rw [hdb] at h
        refine ⟨d, _, h.symm, ?_⟩
        rw [hd, outstanding_startReverting]
        exact List.filter_sublist
      | false =>
        rw [hp, if_neg (by simp)] at h
        refine ⟨d, _, h.symm, ?_⟩
        rw [hd, outstanding_startReverting]
        exact List.Sublist.refl _
    · cases h
  | revert d ok =>
    obtain rfl : ok = false := by simpa [FaultFree] using hf
    simp only [stepMasters] at h
    split at h
    · rename_i k rest hd
      simp only [Bool.false_eq_true, ↓reduceIte, Option.some.injEq] at h
      refine ⟨d, _, h.symm, ?_⟩
      rw [hd, outstanding_startReverting]
      exact List.sublist_cons_self k rest
    · cases h
  | crash d =>
    simp only [stepMasters, Option.some.injEq] at h
    exact ⟨d, _, h.symm, List.nil_sublist _⟩

end StorageEngine
