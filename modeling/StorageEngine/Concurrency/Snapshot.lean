import StorageEngine.Metadata.ReadBack
import StorageEngine.Metadata.StoredArray

/-!
# The two statements of `GetDownloadPlan`

Under READ COMMITTED each statement sees what is committed when it starts, so commits and deletions may lie
between the one that reads the size and the one that reads the chunks.

| here | there (`PostgresRepository.hpp`) |
| --- | --- |
| `getDownloadPlanAcross` | `GetDownloadPlan` with the store of its first `SELECT` (`:292-302`) and that of its second (`:305-324`) |
| `Committed`             | the arguments of a `CommitFile` that succeeded, under the name it stores |
-/

namespace StorageEngine

open Relational Transition

def getDownloadPlanAcross (order order' : List Int) (db db' : Store) (userId : Int) (filename : String) :
    Except RepoError FileDownloadManifest :=
  match fileRows order db userId filename with
  | [] => .error .fileNotFound
  | first :: _ =>
    let joined := (fileRows order' db' userId filename).flatMap (unnestJoin db')
    let sorted := joined.insertionSort fun a b => a.1 ≤ b.1
    .ok ⟨first.size, sorted.map fun e => parseNodePlan e.2.1 e.2.2⟩

/-- With nothing in between it is the one call. -/
theorem getDownloadPlanAcross_self (order order' : List Int) (db : Store) (userId : Int) (filename : String) :
    getDownloadPlanAcross order order' db db userId filename = getDownloadPlan order order' db userId filename := rfl

/-! ## Commits and deletions -/

structure Committed where
  userId : Int
  filename : String
  fileSize : Int
  chunkHashes : List String
deriving DecidableEq, Repr

/-- The store, and every commit it comes from. -/
structure Ledger where
  db : Store
  history : List Committed

/-- A commit that succeeds is noted. -/
def noteCommit (s : Ledger) : Txn → List Committed
  | .commitFile u f size hashes =>
    match commitFile s.db u f size hashes, varchar 255 f with
    | .ok _, some name => ⟨u, name, size, hashes⟩ :: s.history
    | _, _ => s.history
  | _ => s.history

/-- A `CommitFile` or a `DeleteFile`. -/
def stepLedger (n : Nat) (s : Ledger) (t : Txn) : Option Ledger :=
  if t.counts then some ⟨t.apply n s.db, noteCommit s t⟩ else none

/-- The row is what the commit stores. -/
def Committed.Stores (c : Committed) (r : FileRow) : Prop :=
  c.userId = r.userId ∧ c.filename = r.filename ∧ c.fileSize = r.size ∧
    textArrayIn (arrayLiteral c.chunkHashes) = some r.chunks

instance (c : Committed) (r : FileRow) : Decidable (c.Stores r) := inferInstanceAs (Decidable (_ ∧ _))

/-- Every `files` row was written by one of the commits. -/
def Ledger.Recorded (s : Ledger) : Prop :=
  ∀ id r, s.db.files.get? id = some r → ∃ c ∈ s.history, c.Stores r

/-- The transaction neither deletes the name nor commits it. -/
def LeavesName (u : Int) (f : String) (s : Ledger) : Txn → Prop
  | .commitFile u' f' size hashes => (commitFile s.db u' f' size hashes).isOk → ¬ (u' = u ∧ varchar 255 f' = some f)
  | .deleteFile _ u' f' => ¬ (u' = u ∧ f' = f)
  | _ => True

instance (u : Int) (f : String) (s : Ledger) : (t : Txn) → Decidable (LeavesName u f s t)
  | .commitFile u' f' size hashes => inferInstanceAs (Decidable ((commitFile s.db u' f' size hashes).isOk → ¬ _))
  | .deleteFile _ u' f' => inferInstanceAs (Decidable (¬ (u' = u ∧ f' = f)))
  | .createUser .. | .registerWorker .. | .filterMissingChunks _ | .getOrphanedChunks .. |
  .deleteChunkRecordsBulk _ | .revertTombstone _ | .addCluster .. | .replaceCluster .. | .tick _ => .isTrue trivial

/-- What the second statement finds of the name is what the first one found. -/
structure NameKept (u : Int) (f : String) (s s' : Ledger) : Prop where
  rows : ∀ id r, r.userId = u → r.filename = f → (s'.db.files.get? id = some r ↔ s.db.files.get? id = some r)
  chunks : ∀ k, (s'.db.chunks.get? k).isSome = (s.db.chunks.get? k).isSome
  history : ∀ c ∈ s.history, c ∈ s'.history

theorem NameKept.refl (u : Int) (f : String) (s : Ledger) : NameKept u f s s :=
  ⟨fun _ _ _ _ => Iff.rfl, fun _ => rfl, fun _ h => h⟩

theorem NameKept.trans {u : Int} {f : String} {s₁ s₂ s₃ : Ledger} (h : NameKept u f s₁ s₂) (g : NameKept u f s₂ s₃) :
    NameKept u f s₁ s₃ where
  rows id r hu hf := (g.rows id r hu hf).trans (h.rows id r hu hf)
  chunks k := (g.chunks k).trans (h.chunks k)
  history c hc := g.history c (h.history c hc)

theorem mem_noteCommit {s : Ledger} {t : Txn} {c : Committed} (hc : c ∈ s.history) : c ∈ noteCommit s t := by
  unfold noteCommit
  split
  · split
    · exact List.mem_cons_of_mem _ hc
    · exact hc
  · exact hc

/-- **One transaction** of other names. -/
theorem LeavesName.kept {n : Nat} {u : Int} {f : String} {s s' : Ledger} {t : Txn} (hc : LeavesName u f s t)
    (h : stepLedger n s t = some s') : NameKept u f s s' := by
  unfold stepLedger at h
  split at h
  · rename_i hcount
    cases h
    refine ⟨?_, ?_, fun c hmem => mem_noteCommit hmem⟩
    · intro id r hu hf
      cases t with
      | commitFile u' f' size hashes =>
        simp only [Txn.apply]
        cases hok : StorageEngine.commitFile s.db u' f' size hashes with
        | error e => exact Iff.rfl
        | ok db' =>
          have heff := commitFile_ok.1 hok
          have hother := hc heff.isOk
          obtain ⟨-, hfresh, arr, name, -, hname, rfl⟩ := heff
          simp only [committed, Table.get?_insertNew]
          split
          · rename_i hid
            subst hid
            refine iff_of_false (fun hr => ?_) (by simp [hfresh])
            rw [hfresh, Option.getD_none, Option.some.injEq] at hr
            subst hr
            obtain rfl : name = f := hf
            exact hother ⟨hu, hname⟩
          · exact Iff.rfl
      | deleteFile order u' f' =>
        simp only [Txn.apply]
        rcases deleteFile_cases order s.db u' f' with ⟨-, h⟩ | ⟨first, db', -, h, heff⟩
        · rw [h]
        · rw [h, heff.get?_files, Option.filter_eq_some_iff]
          refine and_iff_left_of_imp fun _ => ?_
          simp only [Bool.not_eq_true', Bool.eq_false_iff, ne_eq, isFile_iff]
          rintro ⟨hu', hf'⟩
          exact hc ⟨hu'.symm.trans hu, hf'.symm.trans hf⟩
      | _ => cases hcount
    · intro k
      cases t with
      | commitFile u' f' size hashes =>
        simp only [Txn.apply]
        cases hok : StorageEngine.commitFile s.db u' f' size hashes with
        | error e => rfl
        | ok db' => simp only [committed, (commitFile_ok.1 hok).get?_chunks, Option.isSome_map]
      | deleteFile order u' f' =>
        simp only [Txn.apply]
        rcases deleteFile_cases order s.db u' f' with ⟨-, h⟩ | ⟨first, db', -, h, heff⟩
        · rw [h]
        · rw [h, heff.get?_chunks, Option.isSome_map]
      | _ => cases hcount
  · cases h

theorem nameKept_run {n : Nat} {u : Int} {f : String} {txns : List Txn} {s s' : Ledger}
    (hc : EachStep (stepLedger n) (LeavesName u f) s txns) (h : exec (stepLedger n) s txns = some s') :
    NameKept u f s s' :=
  EachStep.inv (fun _ _ _ hi hcs hst => hi.trans (hcs.kept hst)) hc (.refl u f s) h

/-! ## The answer -/

/-- The name has a row at the first statement: a commit of the row was a list of bare words, every hash of the row
has a `chunks` row, and until the second statement the name is neither deleted nor committed. -/
structure SnapshotKept (n : Nat) (u : Int) (f : String) (s : Ledger) (between : List Txn) : Prop where
  bare : ∀ e ∈ s.db.files.select (isFile u f), ∃ c ∈ s.history, c.Stores e.2 ∧ ∀ h ∈ c.chunkHashes, BareWord h
  known : ∀ e ∈ s.db.files.select (isFile u f), ∀ x ∈ e.2.chunks, ∀ h ∈ x, (s.db.chunks.get? h).isSome
  left : EachStep (stepLedger n) (LeavesName u f) s between

/-- Not found, or the size and the list of one commit. -/
def OneCommit (u : Int) (f : String) (s : Ledger) (res : Except RepoError FileDownloadManifest) : Prop :=
  res = .error .fileNotFound ∨ ∃ m, res = .ok m ∧ ⟨u, f, m.fileSize, m.plans.map ChunkRoutingPlan.hash⟩ ∈ s.history

/-- **The download plan is one consistent snapshot** if the name, where the first statement finds it, is left
alone until the second. -/
theorem plan_snapshot (n : Nat) (u : Int) (f : String) {s s' : Ledger} {between : List Txn}
    (hone : (s.db.files.select (isFile u f)).length ≤ 1)
    (hkept : s.db.files.select (isFile u f) ≠ [] → SnapshotKept n u f s between)
    (hrun : exec (stepLedger n) s between = some s') (order order' : List Int) :
    OneCommit u f s' (getDownloadPlanAcross order order' s.db s'.db u f) := by
  unfold getDownloadPlanAcross
  cases hfr : fileRows order s.db u f with
  | nil => exact Or.inl rfl
  | cons first rest =>
    refine Or.inr ⟨_, rfl, ?_⟩
    obtain ⟨id₀, hrow, hu, hf⟩ := mem_fileRows.1 (show first ∈ fileRows order s.db u f by rw [hfr]; simp)
    have hsel : (id₀, first) ∈ s.db.files.select (isFile u f) := Table.mem_select.2 ⟨hrow, isFile_iff.2 ⟨hu, hf⟩⟩
    obtain ⟨hbare, hknown, hleft⟩ := hkept (List.ne_nil_of_mem hsel)
    have hname := nameKept_run hleft hrun
    -- the row is the only one of the name, and holds the list of its commit
    obtain ⟨c, hc, ⟨hcu, hcf, hcs, harr⟩, hwords⟩ := hbare _ hsel
    have hread : first.chunks = c.chunkHashes.map some := by
      have hback := readsBack_iff.2 hwords
      rw [ReadsBack, harr] at hback
      exact Option.some.inj hback
    have honefile : OneFile s'.db u f first.size c.chunkHashes := by
      have hfirst : first = ⟨u, f, first.size, c.chunkHashes.map some⟩ := by
        rw [← hread, ← hu, ← hf]
      refine ⟨id₀, (hname.rows _ _ rfl rfl).2 (hfirst ▸ hrow), fun id r hr hru hrf => ?_⟩
      have hr' := (hname.rows id r hru hrf).1 hr
      have hmem : (id, r) ∈ s.db.files.select (isFile u f) := Table.mem_select.2 ⟨hr', isFile_iff.2 ⟨hru, hrf⟩⟩
      obtain ⟨e, he⟩ : ∃ e, s.db.files.select (isFile u f) = [e] :=
        List.length_eq_one_iff.1 (Nat.le_antisymm hone (List.length_pos_of_mem hsel))
      rw [he, List.mem_singleton] at hmem hsel
      obtain ⟨rfl, rfl⟩ := Prod.mk.inj (hmem.trans hsel.symm)
      exact ⟨rfl, fun hne => absurd rfl hne⟩
    have hrows : ∀ h ∈ c.chunkHashes, (s'.db.chunks.get? h).isSome := by
      intro h hh
      rw [hname.chunks]
      exact hknown _ hsel (some h) (by rw [hread]; exact List.mem_map_of_mem hh) h rfl
    simp only [honefile.joined order', List.Pairwise.insertionSort_eq (unnestJoin_sorted s'.db _)]
    rw [List.map_map]
    have hlist := unnestJoin_hashes hrows u f first.size
    refine hname.history _ ?_
    have hhash : (unnestJoin s'.db ⟨u, f, first.size, c.chunkHashes.map some⟩).map
        (ChunkRoutingPlan.hash ∘ fun e => parseNodePlan e.2.1 e.2.2) = c.chunkHashes := hlist
    rw [hhash, ← hcs, ← hu, ← hf, ← hcu, ← hcf]
    exact hc

/-- User 1 has one file; the ledger lists its commit. -/
def oneFileLedger : Ledger where
  db := run 4 .empty (sampleSetup ++ [.filterMissingChunks [sampleHash], .commitFile 1 "a" 10 [sampleHash]])
  history := [⟨1, "a", 10, [sampleHash]⟩]

theorem oneFileLedger_recorded : oneFileLedger.Recorded := by
  have hfiles : oneFileLedger.db.files.rows = [(1, ⟨1, "a", 10, [some sampleHash]⟩)] := by decide +kernel
  intro id r hr
  rw [← Table.mem_rows, hfiles, List.mem_singleton, Prod.mk.injEq] at hr
  obtain ⟨-, rfl⟩ := hr
  exact ⟨_, List.mem_singleton.2 rfl, rfl, rfl, rfl, by decide +kernel⟩

/-- Another user's commit and deletion lie between the two statements. -/
theorem plan_snapshot_otherUser : ∃ s', exec (stepLedger 4) oneFileLedger
      [.commitFile 2 "a" 20 [sampleHash, sampleHash], .deleteFile [] 2 "a"] = some s' ∧
    OneCommit 1 "a" s' (getDownloadPlanAcross [] [] oneFileLedger.db s'.db 1 "a") := by
  cases hrun : exec (stepLedger 4) oneFileLedger
      [.commitFile 2 "a" 20 [sampleHash, sampleHash], .deleteFile [] 2 "a"] with
  | none => cases hrun
  | some s' =>
    refine ⟨s', rfl, plan_snapshot 4 1 "a" (by decide +kernel) (fun _ => ?_) hrun [] []⟩
    exact ⟨by decide +kernel, by decide +kernel, by decide +kernel⟩

/-- The file is deleted between the two statements: the answer is its size with no chunk. -/
theorem deletedBetween_torn : ¬ ∀ (s s' : Ledger) (between : List Txn) (order order' : List Int), s.Recorded →
    (∀ u f, (s.db.files.select (isFile u f)).length ≤ 1) → exec (stepLedger 4) s between = some s' →
    OneCommit 1 "a" s' (getDownloadPlanAcross order order' s.db s'.db 1 "a") := by
  intro hall
  have hone : ∀ u f, (oneFileLedger.db.files.select (isFile u f)).length ≤ 1 := fun u f =>
    le_trans (List.length_filter_le _ _) (by decide +kernel)
  have hfacts : (exec (stepLedger 4) oneFileLedger [.deleteFile [] 1 "a"]).any (fun s' =>
      s'.history == [⟨1, "a", 10, [sampleHash]⟩] &&
        (getDownloadPlanAcross [] [] oneFileLedger.db s'.db 1 "a").toOption == some ⟨10, []⟩) = true := by
    decide +kernel
  obtain ⟨s', hrun, he⟩ := (Option.any_eq_true ..).1 hfacts
  rw [Bool.and_eq_true, beq_iff_eq, beq_iff_eq] at he
  rcases hall _ s' _ [] [] oneFileLedger_recorded hone hrun with hnone | ⟨m, hm, hmem⟩
  · rw [hnone] at he
    cases he.2
  · rw [hm] at he
    obtain rfl : m = ⟨10, []⟩ := Option.some.inj he.2
    rw [he.1] at hmem
    exact absurd hmem (by decide)

end StorageEngine
