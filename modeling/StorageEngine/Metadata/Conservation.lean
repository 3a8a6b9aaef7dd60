import StorageEngine.Metadata.References

/-!
# Counters equal references

`Conserved`: without the collector, the count of every row is exactly the number of references.
`CommitFile` adds one for every occurrence in its list. `DeleteFile` takes one for every distinct hash of
the one row it reads, and drops all rows of the name. So a deletion keeps the law exactly when the rows
of the name refer to nothing twice and to nothing beyond the row that is read (`deleteFile_conserved`).
-/

namespace StorageEngine

open Relational Transition RefCount

/-- The count of every row is the number of references to its hash. -/
def Conserved (db : Store) : Prop := ∀ h, Exact (references db h) (counter db h)

/-- Every referenced hash has a row. -/
def Registered (db : Store) : Prop := ∀ h, 0 < references db h → (counter db h).isSome

/-- Everything but the collector's calls, every committed hash having an untombstoned row. -/
def UploadTxn (db : Store) : Txn → Prop
  | .commitFile u f s hashes => (commitFile db u f s hashes).isOk → ∀ h ∈ hashes, ∃ r ∈ db.chunks.get? h, r.refCount ≠ -1
  | .getOrphanedChunks .. | .deleteChunkRecordsBulk _ | .revertTombstone _ => False
  | _ => True

/-- A `CommitFile` that succeeds stores the hashes it was given. -/
def StoresAsGiven (db : Store) : Txn → Prop
  | .commitFile u f s hashes => (commitFile db u f s hashes).isOk → ReadsBack hashes
  | _ => True

/-- The hashes in the rows of a name, with repetitions. -/
def nameHashes (db : Store) (userId : Int) (filename : String) : List String :=
  (db.files.select (isFile userId filename)).flatMap fun e => e.2.chunks.filterMap id

/-- A `DeleteFile` that finds the row `first` finds no hash twice in the rows of the name, and none
outside `first`. -/
def ReleasesOnce (db : Store) : Txn → Prop
  | .deleteFile order u f => ∀ first ∈ (fileRows order db u f).head?,
      (nameHashes db u f).Nodup ∧ ∀ h ∈ nameHashes db u f, some h ∈ first.chunks
  | _ => True

instance (db : Store) : (t : Txn) → Decidable (UploadTxn db t)
  | .commitFile u f s hashes => inferInstanceAs (Decidable ((commitFile db u f s hashes).isOk → ∀ h ∈ hashes, _))
  | .getOrphanedChunks .. | .deleteChunkRecordsBulk _ | .revertTombstone _ => .isFalse id
  | .createUser .. | .registerWorker .. | .filterMissingChunks _ | .deleteFile .. | .addCluster .. |
  .replaceCluster .. | .tick _ => .isTrue trivial

instance (db : Store) : (t : Txn) → Decidable (StoresAsGiven db t)
  | .commitFile u f s hashes => inferInstanceAs (Decidable ((commitFile db u f s hashes).isOk → _))
  | .createUser .. | .registerWorker .. | .filterMissingChunks _ | .deleteFile .. | .getOrphanedChunks .. |
  .deleteChunkRecordsBulk _ | .revertTombstone _ | .addCluster .. | .replaceCluster .. | .tick _ => .isTrue trivial

instance (db : Store) : (t : Txn) → Decidable (ReleasesOnce db t)
  | .deleteFile order u f => inferInstanceAs (Decidable (∀ first ∈ (fileRows order db u f).head?, _ ∧ _))
  | .createUser .. | .registerWorker .. | .filterMissingChunks _ | .commitFile .. | .getOrphanedChunks .. |
  .deleteChunkRecordsBulk _ | .revertTombstone _ | .addCluster .. | .replaceCluster .. | .tick _ => .isTrue trivial

theorem conserved_empty : Conserved .empty := by
  intro h n hn
  cases hn

theorem count_filterMap_id (l : List (Option String)) (k : String) : (l.filterMap id).count k = l.count (some k) := by
  induction l with
  | nil => rfl
  | cons x xs ih =>
    cases x with
    | none => simpa using ih
    | some y => rw [List.filterMap_cons_some (rfl : id (some y) = some y), List.count_cons, List.count_cons, ih]; simp

theorem count_nameHashes (db : Store) (u : Int) (f k : String) :
    (nameHashes db u f).count k = nameReferences db u f k := by
  unfold nameHashes nameReferences
  induction db.files.select (isFile u f) with
  | nil => rfl
  | cons e es ih => rw [List.flatMap_cons, List.count_append, ih, count_filterMap_id, List.map_cons, refs_cons]

/-! ## Deletion -/

/-- In numbers: the rows of the name refer once to what is decremented, and to nothing else. -/
theorem DeleteEffect.releasesOnce_iff {db db' : Store} {u : Int} {f : String} {first : FileRow}
    (h : DeleteEffect db u f first db') :
    ((nameHashes db u f).Nodup ∧ ∀ k ∈ nameHashes db u f, some k ∈ first.chunks) ↔
      ∀ k, nameReferences db u f k = if some k ∈ first.chunks then 1 else 0 := by
  constructor
  · rintro ⟨hnd, hsub⟩ k
    have hle := List.nodup_iff_count_le_one.1 hnd k
    rw [count_nameHashes] at hle
    split
    · rename_i hk
      have hfirst := h.count_first_le k
      have hpos := List.count_pos_iff.2 hk
      omega
    · rename_i hk
      have hout : k ∉ nameHashes db u f := fun hm => hk (hsub k hm)
      rw [← count_nameHashes]
      exact List.count_eq_zero.2 hout
  · intro hall
    refine ⟨List.nodup_iff_count_le_one.2 fun k => ?_, fun k hk => ?_⟩
    · rw [count_nameHashes, hall]
      split <;> omega
    · have hpos := List.count_pos_iff.2 hk
      rw [count_nameHashes, hall] at hpos
      by_contra hne
      rw [if_neg hne] at hpos
      omega

/-- **A deletion keeps the law exactly when it releases every reference once.** -/
theorem deleteEffect_conserved {db db' : Store} {u : Int} {f : String} {first : FileRow}
    (h : DeleteEffect db u f first db') (hreg : Registered db) (hi : Conserved db) :
    Conserved db' ↔ ∀ k, nameReferences db u f k = if some k ∈ first.chunks then 1 else 0 := by
  refine forall_congr' fun k => ?_
  have hsplit : nameReferences db u f k + references db' k = references db k := h.references k
  have hle := h.count_first_le k
  have hk := hi k
  have hc := h.counter k
  cases hn : counter db k with
  | none =>
    have hz : references db k = 0 := by
      by_contra hne
      have hs := hreg k (Nat.pos_of_ne_zero hne)
      rw [hn] at hs
      cases hs
    have hnot : ¬ some k ∈ first.chunks := fun hm => by
      have hpos := List.count_pos_iff.2 hm
      omega
    rw [hc, hn, if_neg hnot]
    simp only [Exact, Option.map_none, reduceCtorEq, false_implies, implies_true, true_iff]
    omega
  | some m =>
    have hm : m = references db k := hk m hn
    rw [hc, hn]
    simp only [Exact, Option.map_some, Option.some.injEq, forall_eq']
    by_cases hmem : some k ∈ first.chunks <;> simp only [hmem, ↓reduceIte] <;> omega

/-! ## The other transactions -/

theorem StoreStep.registered {n : Nat} {db db' : Store} {t : Txn} (h : StoreStep n db t db')
    (hu : UploadTxn db t) (hg : StoresAsGiven db t) (hi : Registered db) : Registered db' := by
  intro k hk
  cases h with
  | quiet h =>
    have hr : references db' k = references db k := by unfold references; rw [h.files]
    have hc : counter db' k = counter db k := by unfold counter; rw [h.chunks]
    rw [hc]
    exact hi k (hr ▸ hk)
  | filter h =>
    have heff := filterMissingChunks_effect h
    rw [heff.references] at hk
    have hs := hi k hk
    rcases heff.counter k with hn | ⟨hnone, -⟩
    · rw [hn]; exact hs
    · rw [hnone] at hs; cases hs
  | @commit u f s hashes _ h =>
    rw [h.references (hg h.isOk)] at hk
    rw [h.counter, Option.isSome_map]
    by_cases hm : k ∈ hashes
    · obtain ⟨r, hr, -⟩ := hu h.isOk k hm
      unfold counter
      rw [hr]
      rfl
    · rw [List.count_eq_zero.2 hm] at hk
      exact hi k hk
  | delete hfirst h =>
    have hsplit := h.references k
    rw [h.counter, Option.isSome_map]
    exact hi k (by omega)
  | claim => exact absurd hu id
  | purge => exact absurd hu id
  | revert => exact absurd hu id

theorem StoreStep.conserved {n : Nat} {db db' : Store} {t : Txn} (h : StoreStep n db t db')
    (hu : UploadTxn db t) (hg : StoresAsGiven db t) (hd : ∀ order u f, t ≠ .deleteFile order u f)
    (hreg : Registered db) (hi : Conserved db) : Conserved db' := by
  intro k m hm
  cases h with
  | quiet h =>
    have hr : references db' k = references db k := by unfold references; rw [h.files]
    have hc : counter db' k = counter db k := by unfold counter; rw [h.chunks]
    rw [hr]
    exact hi k m (hc ▸ hm)
  | filter h =>
    have heff := filterMissingChunks_effect h
    rw [heff.references]
    rcases heff.counter k with hn | ⟨hnone, hzero⟩
    · exact hi k m (hn ▸ hm)
    · -- a hash that had no row has no references
      have hz : references db k = 0 := by
        by_contra hne
        have hs := hreg k (Nat.pos_of_ne_zero hne)
        rw [hnone] at hs
        cases hs
      rw [hzero, Option.some.injEq] at hm
      rw [hz, ← hm]
      rfl
  | commit h =>
    rw [h.references (hg h.isOk)]
    rw [h.counter, Option.map_eq_some_iff] at hm
    obtain ⟨c, hc, rfl⟩ := hm
    have hk := hi k c hc
    omega
  | delete hfirst h => exact absurd rfl (hd _ _ _)
  | claim => exact absurd hu id
  | purge => exact absurd hu id
  | revert => exact absurd hu id

/-- **One transaction** keeps the law exactly when it meets `ReleasesOnce`. -/
theorem conserved_step (n : Nat) {db : Store} {t : Txn} (hu : UploadTxn db t) (hg : StoresAsGiven db t)
    (hreg : Registered db) (hi : Conserved db) : Conserved (t.apply n db) ↔ ReleasesOnce db t := by
  have hstep := t.storeStep n db
  by_cases hd : ∃ order u f, t = .deleteFile order u f
  · obtain ⟨order, u, f, rfl⟩ := hd
    simp only [Txn.apply, ReleasesOnce]
    rcases deleteFile_cases order db u f with ⟨hnone, h⟩ | ⟨first, db', hfirst, h, heff⟩
    · rw [h]
      refine iff_of_true hi fun first hfirst => ?_
      obtain ⟨id, hid, hname⟩ := mem_fileRows.1 (List.mem_of_mem_head? hfirst)
      exact absurd hname (hnone id first hid)
    · rw [h, hfirst]
      simp only [Option.mem_some_iff, forall_eq']
      rw [deleteEffect_conserved heff hreg hi, heff.releasesOnce_iff]
  · have hne : ∀ order u f, t ≠ .deleteFile order u f := fun order u f he => hd ⟨order, u, f, he⟩
    refine iff_of_true (hstep.conserved hu hg hne hreg hi) ?_
    cases t <;> first | trivial | exact absurd rfl (hne _ _ _)

/-! ## Runs -/

/-- **Conservation.** In a run without collection whose commits list hashes with untombstoned rows and
are stored as given, the counts equal the references in every state exactly when every deletion
releases every reference once. -/
theorem conserved_iff (n : Nat) (txns : List Txn) (hu : EachStep (stepTxn n) UploadTxn .empty txns)
    (hg : EachStep (stepTxn n) StoresAsGiven .empty txns) :
    Always (stepTxn n) Conserved .empty txns ↔ EachStep (stepTxn n) ReleasesOnce .empty txns := by
  have hreg : Registered .empty := fun k hk => absurd hk (Nat.lt_irrefl 0)
  refine always_iff_eachStep (A := fun db t => UploadTxn db t ∧ StoresAsGiven db t) (J := Registered) ?_ ?_
    (hu.and hg) hreg conserved_empty
  · rintro db t db' hj ⟨hut, hgt⟩ ht
    simp only [stepTxn, Option.some.injEq] at ht
    exact ht ▸ (t.storeStep n db).registered hut hgt hj
  · rintro db t db' hj hp ⟨hut, hgt⟩ ht
    simp only [stepTxn, Option.some.injEq] at ht
    exact ht ▸ conserved_step n hut hgt hj hp

/-- Two users share a chunk; the first deletes and uploads again. -/
def sharedUpload : List Txn := sampleSetup ++
  [.filterMissingChunks [sampleHash], .commitFile 1 "a" 0 [sampleHash], .commitFile 2 "b" 0 [sampleHash],
   .deleteFile [] 1 "a", .commitFile 1 "a" 0 [sampleHash]]

theorem sharedUpload_conserved : Always (stepTxn 4) Conserved .empty sharedUpload :=
  (conserved_iff 4 sharedUpload (by decide +kernel) (by decide +kernel)).2 (by decide +kernel)

/-- A file of two equal chunks: both are counted, the deletion takes one. -/
def repeatedChunk : List Txn := sampleSetup ++
  [.filterMissingChunks [sampleHash], .commitFile 1 "a" 2097152 [sampleHash, sampleHash], .deleteFile [] 1 "a"]

theorem repeatedChunk_leaks : EachStep (stepTxn 4) UploadTxn .empty repeatedChunk ∧
    ¬ Always (stepTxn 4) Conserved .empty repeatedChunk := by
  refine ⟨by decide +kernel, fun h => ?_⟩
  have hend := always_iff_prefix.1 h _ _ (List.prefix_refl _) (exec_stepTxn 4 _ _)
  have hfacts : counter (run 4 .empty repeatedChunk) sampleHash = some 1 ∧
      references (run 4 .empty repeatedChunk) sampleHash = 0 := by decide +kernel
  have heq := hend sampleHash 1 hfacts.1
  rw [hfacts.2] at heq
  omega

end StorageEngine
