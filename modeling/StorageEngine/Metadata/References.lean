import StorageEngine.Metadata.Txn

/-!
# Counters cover references

`Counted`: a referenced hash has a row whose `ref_count` is at least its references, over every run of
transactions from the empty database. It is what keeps the collector away from live data
(`live_chunks_kept`), and every transaction keeps it but one: `CommitFile` stores its list whether or not
the increments hit a row, so the reference of an uncounted commit is later released at the expense of
somebody else's.
-/

namespace StorageEngine

open Relational Transition RefCount

/-- Every referenced hash has a row whose count is at least its references. -/
def Counted (db : Store) : Prop := ∀ h, Covers (references db h) (counter db h)

/-- A `CommitFile` that succeeds stores the hashes it was given, and each of them has an untombstoned row. -/
def CommitCounted (db : Store) : Txn → Prop
  | .commitFile u f s hashes => (commitFile db u f s hashes).isOk →
      ReadsBack hashes ∧ ∀ h ∈ hashes, ∃ r ∈ db.chunks.get? h, 0 ≤ r.refCount
  | _ => True

instance (db : Store) : (t : Txn) → Decidable (CommitCounted db t)
  | .commitFile u f s hashes => inferInstanceAs (Decidable ((commitFile db u f s hashes).isOk → _ ∧ _))
  | .createUser .. | .registerWorker .. | .filterMissingChunks _ | .deleteFile .. | .getOrphanedChunks .. |
  .deleteChunkRecordsBulk _ | .revertTombstone _ | .addCluster .. | .replaceCluster .. | .tick _ => .isTrue trivial

theorem counted_empty : Counted .empty := fun _ => covers_zero _

theorem counter_eq_some {db : Store} {h : String} {n : Int} :
    counter db h = some n ↔ ∃ r, db.chunks.get? h = some r ∧ r.refCount = n := by
  simp [counter]

/-! ## What each call does to a counter -/

theorem FilterEffect.references {db db' : Store} (h : FilterEffect db db') (k : String) :
    references db' k = StorageEngine.references db k := by
  unfold StorageEngine.references
  rw [h.files]

/-- The counters a successful `FilterMissingChunks` leaves: those there were, and new ones at zero. -/
theorem FilterEffect.counter {db db' : Store} (h : FilterEffect db db') (k : String) :
    StorageEngine.counter db' k = StorageEngine.counter db k ∨
      (StorageEngine.counter db k = none ∧ StorageEngine.counter db' k = some 0) := by
  unfold StorageEngine.counter
  cases hk : db.chunks.get? k with
  | some r =>
    obtain ⟨t, ht, -⟩ := h.kept k r hk
    left
    rw [ht]
    rfl
  | none =>
    cases hk' : db'.chunks.get? k with
    | none => left; rfl
    | some r =>
      have hz := (h.fresh k r hk hk').1
      right
      exact ⟨rfl, congrArg some hz⟩

theorem counter_claimChunks (db : Store) (claimed : List String) (k : String) :
    counter (claimChunks db claimed) k = if k ∈ claimed then (counter db k).map fun _ => -1 else counter db k := by
  unfold counter
  rw [get?_claimChunks, Option.map_map]
  by_cases hk : k ∈ claimed
  · rw [if_pos hk, Option.map_map]
    refine congrArg (Option.map · _) (funext fun r => ?_)
    simp only [Function.comp_apply, hk, ↓reduceIte]
  · rw [if_neg hk]
    refine congrArg (Option.map · _) (funext fun r => ?_)
    simp only [Function.comp_apply, hk, ↓reduceIte]

theorem counter_orphan {order : List String} {db : Store} {expiryHours limit : Nat} {h : String}
    (hm : h ∈ orphanHashes order db expiryHours limit) : counter db h = some 0 := by
  obtain ⟨r, hr, hz, -⟩ := mem_orphanHashes hm
  exact counter_eq_some.2 ⟨r, hr, hz⟩

theorem counter_deleteChunkRecordsBulk (db : Store) (hashes : List String) (k : String) :
    counter (deleteChunkRecordsBulk db hashes) k =
      if counter db k = some (-1) ∧ k ∈ hashes then none else counter db k := by
  unfold counter
  rw [get?_deleteChunkRecordsBulk]
  cases hr : db.chunks.get? k with
  | none => simp
  | some r =>
    by_cases hm : r.refCount = -1 <;> by_cases hk : k ∈ hashes <;> simp [Option.filter, hm, hk]

theorem counter_revertTombstone (db : Store) (hash k : String) :
    counter (revertTombstone db hash) k = if counter db k = some (-1) ∧ k = hash then some 0 else counter db k := by
  unfold counter
  rw [get?_revertTombstone]
  cases hr : db.chunks.get? k with
  | none => simp
  | some r =>
    by_cases hm : r.refCount = -1 <;> by_cases hk : k = hash <;> simp [hm, hk]

/-- The remaining transactions leave the counters as they are, or start new ones at zero. -/
theorem StoreStep.counter_other {n : Nat} {db db' : Store} {t : Txn} (h : StoreStep n db t db')
    (hc : t.counts = false) (hg : t.collects = false) (k : String) :
    counter db' k = counter db k ∨ (counter db k = none ∧ counter db' k = some 0) := by
  cases h with
  | quiet h => left; unfold counter; rw [h.chunks]
  | filter h => exact (filterMissingChunks_effect h).counter k
  | commit _ => cases hc
  | delete _ _ => cases hc
  | claim => cases hg
  | purge => cases hg
  | revert => cases hg

/-! ## The invariant -/

/-- A counter that is not above zero has nothing to cover, whatever becomes of it. -/
theorem Counted.of_le_zero {db : Store} {k : String} {m : Int} (h : Counted db) (hc : counter db k = some m)
    (hm : m ≤ 0) (c : Option Int) : Covers (references db k) c := by
  have hk := h k
  rw [hc] at hk
  rw [hk.refs_eq_zero hm]
  exact covers_zero c

/-- **One transaction keeps `Counted`**, provided a commit is counted. -/
theorem StoreStep.counted {n : Nat} {db db' : Store} {t : Txn} (h : StoreStep n db t db')
    (hc : CommitCounted db t) (hi : Counted db) : Counted db' := by
  intro k
  have hk := hi k
  cases h with
  | quiet h =>
    have hr : references db' k = references db k := by unfold references; rw [h.files]
    have hn : counter db' k = counter db k := by unfold counter; rw [h.chunks]
    rw [hr, hn]
    exact hk
  | filter h =>
    have heff := filterMissingChunks_effect h
    rw [heff.references]
    rcases heff.counter k with hn | ⟨hnone, -⟩
    · rw [hn]; exact hk
    · rw [hnone] at hk
      have hz : references db k = 0 := by
        by_contra hne
        obtain ⟨m, hm, -⟩ := hk (Nat.pos_of_ne_zero hne)
        cases hm
      rw [hz]
      exact covers_zero _
  | @commit u f s hashes _ h =>
    obtain ⟨hrb, hrows⟩ := hc h.isOk
    rw [h.references hrb, h.counter]
    by_cases hm : k ∈ hashes
    · obtain ⟨r, hr, hpos⟩ := hrows k hm
      have hn : counter db k = some r.refCount := counter_eq_some.2 ⟨r, hr, rfl⟩
      rw [hn] at hk ⊢
      exact hk.acquire hpos _
    · have hz := List.count_eq_zero.2 hm
      rw [hz]
      cases hn : counter db k with
      | none => rw [hn] at hk; exact hk
      | some m => rw [hn] at hk; simpa using hk
  | @delete order u f first db' hfirst h =>
    have hsplit := h.references k
    have hle := h.count_first_le k
    rw [h.counter]
    cases hn : counter db k with
    | none =>
      rw [hn] at hk
      intro hpos
      obtain ⟨m, hm, -⟩ := hk (by omega)
      cases hm
    | some m =>
      rw [hn] at hk
      by_cases hm : some k ∈ first.chunks
      · have hone := List.count_pos_iff.2 hm
        have hrel : Covers (references db' k) (some (m - (1 : Nat))) := hk.release (by omega)
        simpa [hm] using hrel
      · have hrel : Covers (references db' k) (some (m - (0 : Nat))) := hk.release (by omega)
        simpa [hm] using hrel
  | claim =>
    show Covers (references db k) _
    rw [counter_claimChunks]
    split
    · rename_i hm; exact hi.of_le_zero (counter_orphan hm) (Int.le_refl 0) _
    · exact hk
  | @purge hashes =>
    have hr : references (deleteChunkRecordsBulk db hashes) k = references db k := by
      unfold references deleteChunkRecordsBulk; split <;> rfl
    rw [hr, counter_deleteChunkRecordsBulk]
    split
    · rename_i hm; exact hi.of_le_zero hm.1 (by decide) _
    · exact hk
  | revert =>
    show Covers (references db k) _
    rw [counter_revertTombstone]
    split
    · rename_i hm; exact hi.of_le_zero hm.1 (by decide) _
    · exact hk

/-- The run lemma. -/
theorem run_counted {n : Nat} {txns : List Txn} {db : Store} (hc : EachStep (stepTxn n) CommitCounted db txns)
    (hi : Counted db) : Counted (run n db txns) := by
  refine EachStep.inv (fun s a t hs hca hst => ?_) hc hi (exec_stepTxn n db txns)
  simp only [stepTxn, Option.some.injEq] at hst
  subst hst
  exact (a.storeStep n s).counted hca hs

/-- Whenever in the run a `CommitFile` has listed a hash with an untombstoned row, then while the `files`
row it inserted (under the id it drew) is there, the hash has a row and the row is no tombstone. -/
def LiveChunksKept (n : Nat) (txns : List Txn) : Prop :=
  ∀ pre u f s hashes post, pre ++ .commitFile u f s hashes :: post <+: txns →
    let db := run n .empty pre
    let db' := run n .empty (pre ++ .commitFile u f s hashes :: post)
    (commitFile db u f s hashes).isOk →
    ∀ h ∈ hashes, ∀ r, db.chunks.get? h = some r → 0 ≤ r.refCount →
      (db'.files.get? db.fileSeq).isSome → ∃ r', db'.chunks.get? h = some r' ∧ r'.refCount ≠ -1

/-- **The collector never takes a live chunk**, in a run whose commits are all counted. -/
theorem live_chunks_kept (n : Nat) (txns : List Txn) (hc : EachStep (stepTxn n) CommitCounted .empty txns) :
    LiveChunksKept n txns := by
  intro pre u f s hashes post hpre db db' hok h hm r hr hpos hfile
  obtain ⟨rest, rfl⟩ := hpre
  have hc' := (EachStep.append.1 hc).1
  have hcnt : Counted db' := run_counted hc' counted_empty
  obtain ⟨hca, -⟩ := (EachStep.append.1 hc').2 db (exec_stepTxn n _ _) _ rfl
  obtain ⟨hrb, -⟩ := hca hok
  -- the file row is the one the commit inserted, so it still refers to the hash
  cases hdb : commitFile db u f s hashes with
  | error e => rw [hdb] at hok; cases hok
  | ok db₁ =>
    have heff := commitFile_ok.1 hdb
    have hrun : db' = run n db₁ post := by
      show run n .empty _ = _
      rw [run_append]
      show run n (committed db (commitFile db u f s hashes)) post = _
      rw [hdb]
      rfl
    obtain ⟨name, -, hfiles⟩ := heff.files hrb
    obtain ⟨row, hrow⟩ := Option.isSome_iff_exists.1 hfile
    have hseq : db.fileSeq < db₁.fileSeq := by
      obtain ⟨-, -, arr, name, -, -, rfl⟩ := heff
      exact Int.lt_succ _
    have hrow₁ := run_files_stable n post hseq (hrun ▸ hrow)
    rw [hfiles, Table.get?_insertNew, if_pos rfl, heff.fresh, Option.getD_none, Option.some.injEq] at hrow₁
    have hrefs : 0 < references db' h :=
      references_pos.2 ⟨_, row, hrow, by rw [← hrow₁]; exact List.mem_map_of_mem hm⟩
    obtain ⟨m, hm', hmpos⟩ := (hcnt h).pos hrefs
    obtain ⟨r', hr', rfl⟩ := counter_eq_some.1 hm'
    exact ⟨r', hr', by omega⟩

/-- The digest of the chunk `a`, and the set-up the fixed runs below share: two users, one worker, one cluster. -/
def sampleHash : String := "ca978112ca1bbdcafac231b39a23dc4da786eff8147c4e72b9807785afee48bb"

/-- Two users, a worker, and a cluster of it. -/
def sampleSetup : List Txn :=
  [.createUser "ann@dse" "pw" "salt", .createUser "bob@dse" "pw" "salt",
   .registerWorker "worker1" 9080 "localhost" 9081 1000, .addCluster [] "alpha" [1]]

/-- User 1 commits a hash that has no row and user 2 uploads and commits it; deleting the first file
releases the reference of the second. -/
def uncountedCommit : List Txn := sampleSetup ++
  [.commitFile 1 "a" 0 [sampleHash], .filterMissingChunks [sampleHash], .commitFile 2 "b" 0 [sampleHash],
   .deleteFile [] 1 "a", .tick (hours 25), .getOrphanedChunks [] none 24 100]

theorem uncountedCommit_claims_live : ¬ LiveChunksKept 4 uncountedCommit := by
  intro h
  have hcommit : (commitFile (run 4 .empty (uncountedCommit.take 6)) 2 "b" 0 [sampleHash]).isOk ∧
      (run 4 .empty (uncountedCommit.take 6)).chunks.get? sampleHash = some ⟨[1], 0, 0⟩ := by decide +kernel
  have hend : ((run 4 .empty uncountedCommit).files.get? (run 4 .empty (uncountedCommit.take 6)).fileSeq).isSome ∧
      (run 4 .empty uncountedCommit).chunks.get? sampleHash = some ⟨[1], -1, 0⟩ := by decide +kernel
  obtain ⟨r', hr', hne⟩ := h (uncountedCommit.take 6) 2 "b" 0 [sampleHash] (uncountedCommit.drop 7)
    (List.prefix_refl _) hcommit.1 sampleHash (by simp) ⟨[1], 0, 0⟩ hcommit.2 (by decide) hend.1
  have hclaimed : some r' = some ⟨[1], -1, 0⟩ := hr'.symm.trans hend.2
  rw [Option.some.injEq] at hclaimed
  exact hne (hclaimed ▸ rfl)

/-- Two users share a chunk and one of them deletes his file. -/
def sharedChunk : List Txn := sampleSetup ++
  [.filterMissingChunks [sampleHash], .commitFile 1 "a" 0 [sampleHash], .commitFile 2 "b" 0 [sampleHash],
   .deleteFile [] 1 "a", .tick (hours 25), .getOrphanedChunks [] none 24 100]

theorem sharedChunk_kept : EachStep (stepTxn 4) CommitCounted .empty sharedChunk ∧ LiveChunksKept 4 sharedChunk :=
  ⟨by decide +kernel, live_chunks_kept 4 sharedChunk (by decide +kernel)⟩

end StorageEngine
