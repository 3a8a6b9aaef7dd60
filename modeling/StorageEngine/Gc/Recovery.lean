import StorageEngine.Gc.Sweep
import StorageEngine.Gc.Tombstones

/-!
# Abandoned tombstones

That a chunk is being collected is written in the store, whose batch it is only in a daemon's memory. A
daemon that stops, or a revert that fails, leaves the row at `-1`, and `GetOrphanedChunks` takes rows at `0`
only: no later sweep sees it, and `FilterMissingChunks` refuses the content from then on.
-/

namespace StorageEngine

open Relational Transition

variable {ι : Type} [DecidableEq ι]

/-- No shutdown is requested, the database calls succeed and every worker answers 200. -/
structure SweepEnv.Healthy (env : SweepEnv) : Prop where
  runs : ∀ i, env.keepRunning i = true
  calls : env.CallsSucceed
  deletes : ∀ i hash j, env.answer i hash j = .response 200

/-- A complete sweep leaves no tombstone but those of batches that are still under way. -/
def RecoversTombstones (s : Masters ι) : Prop :=
  ∀ env fuel r, env.Healthy → sweep env fuel 0 s.db = some r →
    ∀ h, counter r.db h = some (-1) → ∃ d, h ∈ (s.daemon d).outstanding

/-- Every tombstone is some daemon's. -/
def TombstonesHeld (s : Masters ι) : Prop := ∀ h, counter s.db h = some (-1) → ∃ d, h ∈ (s.daemon d).outstanding

/-- The step leaves no tombstone without a daemon: nobody stops while it alone holds one, no revert of one
fails, and the handlers bring no count to `-1`. -/
def ResolvesTombstones (s : Masters ι) : MasterStep ι → Prop
  | .crash d => ∀ h ∈ (s.daemon d).outstanding, counter s.db h = some (-1) → ∃ e, e ≠ d ∧ h ∈ (s.daemon e).outstanding
  | .revert d ok => ok = false → ∀ h rest, s.daemon d = .reverting (h :: rest) → counter s.db h = some (-1) →
      h ∈ rest ∨ ∃ e, e ≠ d ∧ h ∈ (s.daemon e).outstanding
  | .client (.commitFile u f size hashes) => (commitFile s.db u f size hashes).isOk →
      ∀ h ∈ hashes, counter s.db h = some (-1 - (hashes.count h : Int)) → ∃ d, h ∈ (s.daemon d).outstanding
  | .client (.deleteFile order u f) => ∀ first ∈ (fileRows order s.db u f).head?,
      ∀ h, some h ∈ first.chunks → counter s.db h = some 0 → ∃ d, h ∈ (s.daemon d).outstanding
  | _ => True

/-! ## A sweep recovers nothing -/

/-- Every worker answers, nothing fails. -/
def allAnswered : SweepEnv where
  keepRunning _ := true
  order _ := []
  claimFault _ := none
  answer _ _ _ := .response 200
  deleteOk _ := true
  revertOk _ _ := true

theorem healthy_allAnswered : allAnswered.Healthy where
  runs _ := rfl
  calls := ⟨fun _ => rfl, fun _ => rfl, fun _ _ => rfl⟩
  deletes _ _ _ := rfl

omit [DecidableEq ι] in
theorem recoversTombstones_iff {s : Masters ι} : RecoversTombstones s ↔ TombstonesHeld s := by
  constructor
  · intro hrec h hm
    obtain ⟨r, hends, hout⟩ := sweep_ends healthy_allAnswered.calls (expired s.db).length 0 s.db (Nat.le_refl _)
    exact hrec allAnswered _ r healthy_allAnswered (hends _ (Nat.lt_succ_self _)) h (hout.tombstones.2 hm)
  · intro hheld env fuel r henv hr h hm
    exact hheld h ((sweep_effect henv.calls hr).tombstones.1 hm)

/-! ## Which steps lose a tombstone -/

omit [DecidableEq ι] in
theorem held_client {s : Masters ι} {db : Store} (hheld : TombstonesHeld s) :
    TombstonesHeld { s with db := db } ↔
      ∀ h, counter db h = some (-1) → counter s.db h ≠ some (-1) → ∃ d, h ∈ (s.daemon d).outstanding := by
  constructor
  · intro hall h hm _
    exact hall h hm
  · intro hnew h hm
    by_cases hold : counter s.db h = some (-1)
    · exact hheld h hold
    · exact hnew h hm hold

omit [DecidableEq ι] in
theorem held_commit {s : Masters ι} {u : Int} {f : String} {size : Int} {hashes : List String} {db : Store}
    (hheld : TombstonesHeld s) (h : CommitEffect s.db u f size hashes db) :
    TombstonesHeld { s with db := db } ↔
      ∀ k ∈ hashes, counter s.db k = some (-1 - (hashes.count k : Int)) → ∃ d, k ∈ (s.daemon d).outstanding := by
  rw [held_client hheld]
  refine forall_congr' fun k => ?_
  rw [h.counter]
  constructor
  · intro hnew hk hm
    have hcount := List.count_pos_iff.2 hk
    refine hnew ?_ ?_
    · rw [hm, Option.map_some, Option.some.injEq]
      omega
    · rw [hm, ne_eq, Option.some.injEq]
      omega
  · intro hold hm hne
    obtain ⟨m, hmk, hsum⟩ := Option.map_eq_some_iff.1 hm
    by_cases hk : k ∈ hashes
    · exact hold hk (by rw [hmk, Option.some.injEq]; omega)
    · rw [List.count_eq_zero.2 hk] at hsum
      exact absurd (by rw [hmk, Option.some.injEq]; omega) hne

omit [DecidableEq ι] in
theorem held_delete {s : Masters ι} {u : Int} {f : String} {first : FileRow} {db : Store}
    (hheld : TombstonesHeld s) (h : DeleteEffect s.db u f first db) :
    TombstonesHeld { s with db := db } ↔
      ∀ k, some k ∈ first.chunks → counter s.db k = some 0 → ∃ d, k ∈ (s.daemon d).outstanding := by
  rw [held_client hheld]
  refine forall_congr' fun k => ?_
  rw [h.counter]
  by_cases hk : some k ∈ first.chunks
  · simp only [hk, ↓reduceIte, forall_const]
    constructor
    · intro hnew hm
      exact hnew (by rw [hm]; rfl) (by rw [hm]; simp)
    · intro hold hm _
      obtain ⟨m, hmk, hsum⟩ := Option.map_eq_some_iff.1 hm
      exact hold (by rw [hmk, Option.some.injEq]; omega)
  · simp only [hk, ↓reduceIte, false_implies, iff_true]
    intro hm hne
    rw [Option.map_id'] at hm
    exact absurd hm hne

omit [DecidableEq ι] in
theorem held_handler (n : Nat) {s : Masters ι} {t : Txn} (ht : t.collects = false) (hheld : TombstonesHeld s) :
    TombstonesHeld { s with db := t.apply n s.db } ↔ ResolvesTombstones s (.client t) := by
  by_cases hc : t.counts = true
  · cases t with
    | commitFile u f size hashes =>
      simp only [Txn.apply, ResolvesTombstones]
      cases hok : StorageEngine.commitFile s.db u f size hashes with
      | error e => exact iff_of_true hheld fun h => by cases h
      | ok db =>
        have heff := held_commit hheld (commitFile_ok.1 hok)
        exact heff.trans ⟨fun h _ => h, fun h => h rfl⟩
    | deleteFile order u f =>
      simp only [Txn.apply, ResolvesTombstones]
      rcases deleteFile_cases order s.db u f with ⟨hnone, h⟩ | ⟨first, db, hfirst, h, heff⟩
      · rw [h]
        refine iff_of_true hheld fun first hfirst => ?_
        obtain ⟨id, hid, hname⟩ := mem_fileRows.1 (List.mem_of_mem_head? hfirst)
        exact absurd hname (hnone id first hid)
      · rw [h, hfirst]
        simp only [Option.mem_some_iff, forall_eq']
        exact held_delete hheld heff
    | _ => cases hc
  · have hsafe : ResolvesTombstones s (.client t) := by cases t <;> trivial
    refine iff_of_true ((held_client hheld).2 fun k hm hne => ?_) hsafe
    rcases (t.storeStep n s.db).counter_other (by simpa using hc) ht k with he | ⟨-, hzero⟩
    · exact absurd (he ▸ hm) hne
    · rw [hzero] at hm
      cases hm

/-- A daemon takes over or lets go; a tombstone it no longer holds has to be another's. -/
theorem held_set {s : Masters ι} {d : ι} {db : Store} {phase : GcPhase} :
    TombstonesHeld (s.set d db phase) ↔ ∀ h, counter db h = some (-1) →
      h ∈ phase.outstanding ∨ ∃ e, e ≠ d ∧ h ∈ (s.daemon e).outstanding := by
  refine forall_congr' fun h => imp_congr_right fun _ => ?_
  constructor
  · rintro ⟨e, he⟩
    rw [outstanding_set] at he
    split at he
    · exact .inl he
    · rename_i hne
      exact .inr ⟨e, hne, he⟩
  · rintro (hd | ⟨e, hne, he⟩)
    · exact ⟨d, by rw [outstanding_set, if_pos rfl]; exact hd⟩
    · exact ⟨e, by rw [outstanding_set, if_neg hne]; exact he⟩

/-- Whoever held the chunk before the step of `d`. -/
theorem held_split {s : Masters ι} {h : String} (d : ι) (hh : ∃ e, h ∈ (s.daemon e).outstanding) :
    h ∈ (s.daemon d).outstanding ∨ ∃ e, e ≠ d ∧ h ∈ (s.daemon e).outstanding := by
  obtain ⟨e, he⟩ := hh
  by_cases hd : e = d
  · exact .inl (hd ▸ he)
  · exact .inr ⟨e, hd, he⟩

/-- A claim holds what it marks, if it commits; otherwise it marks nothing. -/
theorem held_claim {s : Masters ι} {d : ι} (order : List String) (fault : Option ClaimFault)
    (hidle : s.daemon d = .idle) (hheld : TombstonesHeld s) :
    TombstonesHeld (s.set d (getOrphanedChunks order fault s.db expiryHours batchSize).1
      (startPurging (getOrphanedChunks order fault s.db expiryHours batchSize).2)) := by
  have hothers : ∀ h, counter s.db h = some (-1) → ∃ e, e ≠ d ∧ h ∈ (s.daemon e).outstanding := by
    intro h hm
    refine (held_split d (hheld h hm)).resolve_left ?_
    rw [hidle]
    exact List.not_mem_nil
  rw [held_set]
  intro h hm
  rcases fault with - | - | row | -
  · by_cases hh : h ∈ orphanHashes order s.db expiryHours batchSize
    · refine .inl ?_
      rw [outstanding_startPurging]
      show h ∈ ((orphanHashes order s.db expiryHours batchSize).map (orphanOf s.db)).map OrphanedChunk.hash
      rw [hashes_orphans]
      exact hh
    · have hsame : counter s.db h = some (-1) := by
        have hclaim := counter_claimChunks s.db (orphanHashes order s.db expiryHours batchSize) h
        rw [if_neg hh] at hclaim
        exact hclaim ▸ hm
      exact .inr (hothers h hsame)
  · exact .inr (hothers h hm)
  · exact .inr (hothers h hm)
  · exact .inr (hothers h hm)

/-- Of the hashes of a batch those that are not dropped are reverted, if the deletion fails all of them. -/
theorem held_record {s : Masters ι} {d : ι} {orphans : List OrphanedChunk} (deleted : List String) (success : Bool)
    (hd : s.daemon d = .purging orphans) (hheld : TombstonesHeld s) :
    TombstonesHeld (s.set d
      (if success then deleteChunkRecordsBulk s.db (purgeOrphanBatch deleted orphans) else s.db)
      (startReverting (toRevert success orphans (purgeOrphanBatch deleted orphans)))) := by
  have hmine : (s.daemon d).outstanding = orphans.map OrphanedChunk.hash := by rw [hd]; rfl
  rw [held_set]
  intro h hm
  rw [outstanding_startReverting]
  cases success with
  | false =>
    have hbefore := held_split d (hheld h hm)
    rw [hmine] at hbefore
    exact hbefore
  | true =>
    rw [if_pos rfl, counter_deleteChunkRecordsBulk] at hm
    split at hm
    · cases hm
    · rename_i hkept
      have hout : h ∉ purgeOrphanBatch deleted orphans := fun hin => hkept ⟨hm, hin⟩
      have hbefore := held_split d (hheld h hm)
      rw [hmine] at hbefore
      exact hbefore.imp_left fun hin => mem_toRevert.2 ⟨hin, hout⟩

theorem held_revert {s : Masters ι} {d : ι} {h : String} {rest : List String} (ok : Bool)
    (hd : s.daemon d = .reverting (h :: rest)) (hheld : TombstonesHeld s) :
    TombstonesHeld (s.set d (if ok then revertTombstone s.db h else s.db) (startReverting rest)) ↔
      ResolvesTombstones s (.revert d ok) := by
  have hmine : (s.daemon d).outstanding = h :: rest := by rw [hd]; rfl
  rw [held_set, outstanding_startReverting]
  cases ok with
  | true =>
    refine iff_of_true (fun k hm => ?_) (fun hok => by cases hok)
    rw [if_pos rfl, counter_revertTombstone] at hm
    split at hm
    · cases hm
    · rename_i hkept
      have hne : k ≠ h := fun he => hkept ⟨hm, he⟩
      have hbefore := held_split d (hheld k hm)
      rw [hmine, List.mem_cons] at hbefore
      exact hbefore.imp_left fun hin => hin.resolve_left hne
  | false =>
    rw [if_neg Bool.false_ne_true]
    constructor
    · intro hall _ k rest' hk hm
      rw [hd, GcPhase.reverting.injEq, List.cons.injEq] at hk
      obtain ⟨rfl, rfl⟩ := hk
      exact hall h hm
    · intro hres k hm
      have hbefore := held_split d (hheld k hm)
      rw [hmine, List.mem_cons] at hbefore
      rcases hbefore with (rfl | hin) | hother
      · exact hres rfl k rest hd hm
      · exact .inl hin
      · exact .inr hother

/-- **One step.** -/
theorem held_step {n : Nat} {s t : Masters ι} {a : MasterStep ι} (h : stepMasters n s a = some t)
    (hheld : TombstonesHeld s) : TombstonesHeld t ↔ ResolvesTombstones s a := by
  cases a with
  | client x =>
    simp only [stepMasters] at h
    split at h
    · cases h
    · rename_i hx
      cases h
      exact held_handler n (by simpa using hx) hheld
  | claim d order fault =>
    simp only [stepMasters] at h
    split at h
    · rename_i hidle
      cases h
      exact iff_of_true (held_claim order fault hidle hheld) trivial
    · cases h
  | record d deleted ok =>
    simp only [stepMasters] at h
    split at h
    · rename_i orphans hd
      cases h
      exact iff_of_true (held_record deleted _ hd hheld) trivial
    · cases h
  | revert d ok =>
    simp only [stepMasters] at h
    split at h
    · rename_i k rest hd
      cases h
      exact held_revert ok hd hheld
    · cases h
  | crash d =>
    cases h
    rw [held_set]
    constructor
    · intro hall k _ hm
      exact (hall k hm).resolve_left List.not_mem_nil
    · intro hres k hm
      exact .inr ((held_split d (hheld k hm)).elim (fun hin => hres k hin hm) id)

/-- **Abandoned tombstones stay.** In a run a complete sweep would at any time leave no tombstone behind, but
those of the batches under way, exactly when every step resolves its tombstones; in such a run, once no batch
is under way, a complete sweep ends and leaves none at all. -/
theorem tombstones_recovered_iff (n : Nat) (steps : List (MasterStep ι)) :
    (Always (stepMasters n) RecoversTombstones (Masters.init ι) steps ↔
      EachStep (stepMasters n) ResolvesTombstones (Masters.init ι) steps) ∧
    (EachStep (stepMasters n) ResolvesTombstones (Masters.init ι) steps →
      ∀ s, exec (stepMasters n) (Masters.init ι) steps = some s → (∀ d, s.daemon d = .idle) → ∀ env, env.Healthy →
        ∃ fuel r, sweep env fuel 0 s.db = some r ∧ ∀ h, counter r.db h ≠ some (-1)) := by
  have hinit : TombstonesHeld (Masters.init ι) := fun h hm => by cases hm
  constructor
  · refine always_iff_eachStep (J := fun _ => True) (fun _ _ _ _ _ _ => trivial) (fun s a t _ hp _ ht => ?_)
      (eachStep_true steps _) trivial (recoversTombstones_iff.2 hinit)
    rw [recoversTombstones_iff]
    exact held_step ht (recoversTombstones_iff.1 hp)
  · intro hres s hs hidle env henv
    have hheld : TombstonesHeld s := EachStep.inv (fun s a t hi hc ht => (held_step ht hi).2 hc) hres hinit hs
    obtain ⟨r, hends, hout⟩ := sweep_ends henv.calls (expired s.db).length 0 s.db (Nat.le_refl _)
    refine ⟨_, r, hends _ (Nat.lt_succ_self _), fun h hm => ?_⟩
    obtain ⟨d, hd⟩ := hheld h (hout.tombstones.1 hm)
    rw [hidle d] at hd
    cases hd

/-- The master stops while the deletes of a claimed chunk run; two days later the next master's sweep passes
the row by. -/
def stoppedBatch : List (MasterStep Unit) := sampleSetup.map .client ++
  [.client (.filterMissingChunks [sampleHash]), .client (.tick (hours 48)), .claim () [] none, .crash (),
   .client (.tick (hours 48))]

theorem stoppedBatch_tombstoned : ¬ ∀ (steps : List (MasterStep Unit)) (s : Masters Unit),
    exec (stepMasters 4) (Masters.init Unit) steps = some s → (∀ d, s.daemon d = .idle) →
      ∀ env fuel r, env.Healthy → sweep env fuel 0 s.db = some r → ∀ h, counter r.db h ≠ some (-1) := by
  intro hall
  have hend : (exec (stepMasters 4) (Masters.init Unit) stoppedBatch).any (fun s => s.daemon () == .idle &&
      (sweep allAnswered 1 0 s.db).any fun r => counter r.db sampleHash == some (-1)) = true := by decide +kernel
  obtain ⟨s, hs, he⟩ := (Option.any_eq_true ..).1 hend
  rw [Bool.and_eq_true, beq_iff_eq] at he
  obtain ⟨r, hr, hm⟩ := (Option.any_eq_true ..).1 he.2
  exact hall stoppedBatch s hs (fun _ => he.1) allAnswered 1 r healthy_allAnswered hr sampleHash (by simpa using hm)

end StorageEngine
