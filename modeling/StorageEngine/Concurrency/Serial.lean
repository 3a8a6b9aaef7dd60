import StorageEngine.Concurrency.Statements
import StorageEngine.Metadata.Spec

/-!
# A session that runs alone

The statement-level calls refine the one-transaction calls of `Repository.lean`: where nobody else holds a
lock and no statement of others comes in between, a session ends with the store and the answer of the
atomic call (`delete_alone`, `filter_alone`, `claim_alone`).
-/

namespace StorageEngine

open Relational ReadCommitted Transition

variable {ι : Type} [DecidableEq ι] [Fintype ι]

/-- Session `i` gets from one configuration to the other by itself. -/
def RunsTo (n : Nat) (i : ι) (c c' : Sessions ι) : Prop :=
  ∃ k, exec (sessions n).step c (List.replicate k (.stmt i)) = some c'

theorem RunsTo.refl (n : Nat) (i : ι) (c : Sessions ι) : RunsTo n i c c := ⟨0, rfl⟩

theorem RunsTo.step {n : Nat} {i : ι} {c c' c'' : Sessions ι} (h : (sessions n).step c (.stmt i) = some c')
    (hr : RunsTo n i c' c'') : RunsTo n i c c'' := by
  obtain ⟨k, hk⟩ := hr
  exact ⟨k + 1, by rw [List.replicate_succ]; exact exec_cons.2 ⟨c', h, hk⟩⟩

/-- Session `i` is at `pos` with its writes, and the others are as in `c` and lock nothing. -/
def at_ (c : Sessions ι) (i : ι) (pos : Position) (ws : List RowWrite) : Sessions ι :=
  { c with txn := Function.update c.txn i (.active pos ws) }

/-- The session has come to an end with this store. -/
def ended (c : Sessions ι) (i : ι) (db : Store) (r : Result) : Sessions ι := ⟨db, Function.update c.txn i (.done r)⟩

/-- Nobody but `i` holds a lock. -/
def Unlocked (n : Nat) (c : Sessions ι) (i : ι) : Prop := ∀ k, (sessions n).lockedFor c i k = false

theorem lockedFor_at {n : Nat} {c : Sessions ι} {i : ι} (hu : Unlocked n c i) (pos : Position) (ws : List RowWrite) :
    (sessions n).lockedFor (at_ c i pos ws) i = fun _ => false := by
  funext k
  have hk := hu k
  simp only [System.lockedFor, decide_eq_false_iff_not, not_exists, not_and] at hk ⊢
  intro j hj
  rw [show (at_ c i pos ws).txn j = c.txn j from Function.update_of_ne hj _ _]
  exact hk j hj

section
variable {n : Nat} {c : Sessions ι} {i : ι} {pos : Position} {ws : List RowWrite} {db : Store}

theorem alone_go (hu : Unlocked n c i) {new : List RowWrite} {next : Position} (hview : (sessions n).view ws c.committed = db)
    (h : statement n pos db (fun _ => false) = .go new next) :
    (sessions n).step (at_ c i pos ws) (.stmt i) = some (at_ c i next (ws ++ new)) := by
  subst hview
  have hl := lockedFor_at hu pos ws
  have h' : (sessions n).stmt pos ((sessions n).view ws c.committed) ((sessions n).lockedFor (at_ c i pos ws) i) =
      .go new next := by rw [hl]; exact h
  simp only [System.step, at_, Function.update_self] at h' ⊢
  rw [h']
  simp only [Function.update_idem]

theorem alone_commit (hu : Unlocked n c i) {r : Result} (hview : (sessions n).view ws c.committed = db)
    (h : statement n pos db (fun _ => false) = .commit r) :
    (sessions n).step (at_ c i pos ws) (.stmt i) = some (ended c i db r) := by
  subst hview
  have hl := lockedFor_at hu pos ws
  have h' : (sessions n).stmt pos ((sessions n).view ws c.committed) ((sessions n).lockedFor (at_ c i pos ws) i) =
      .commit r := by rw [hl]; exact h
  simp only [System.step, at_, Function.update_self] at h' ⊢
  rw [h']
  simp only [Function.update_idem, ended]

theorem alone_abort (hu : Unlocked n c i) {r : Result} (hview : (sessions n).view ws c.committed = db)
    (h : statement n pos db (fun _ => false) = .abort r) :
    (sessions n).step (at_ c i pos ws) (.stmt i) = some (ended c i c.committed r) := by
  subst hview
  have hl := lockedFor_at hu pos ws
  have h' : (sessions n).stmt pos ((sessions n).view ws c.committed) ((sessions n).lockedFor (at_ c i pos ws) i) =
      .abort r := by rw [hl]; exact h
  simp only [System.step, at_, Function.update_self] at h' ⊢
  rw [h']
  simp only [Function.update_idem, ended]

end

theorem lockRows_free (w : RowWrite) (next : Position) : lockRows (fun _ => false) w next = .go [w] next := by
  have hany : w.rows.any (fun _ => false) = false := by simp
  unfold lockRows
  rw [hany]
  rfl

/-- **`DeleteFile` alone** is the atomic `deleteFile`. -/
theorem delete_alone (n : Nat) (c : Sessions ι) (i : ι) (hu : Unlocked n c i) (order : List Int) (u : Int) (f : String) :
    RunsTo n i (at_ c i (.deleteSelect order u f) [])
      (ended c i (deleteFile order c.committed u f).1 (.deleted (deleteFile order c.committed u f).2)) := by
  unfold deleteFile
  cases hrows : fileRows order c.committed u f with
  | nil =>
    have hselect : statement n (.deleteSelect order u f) c.committed (fun _ => false) = .abort (.deleted false) := by
      simp only [statement, hrows]
    exact .step (alone_abort hu rfl hselect) (.refl n i _)
  | cons first rest =>
    have hselect : statement n (.deleteSelect order u f) c.committed (fun _ => false) =
        .go [] (.deleteUpdate u f first.chunks) := by
      simp only [statement, hrows]
    let hit := (c.committed.chunks.select fun h _ => first.chunks.contains (some h)).map Prod.fst
    let ids := (c.committed.files.select (isFile u f)).map Prod.fst
    have hupdate : statement n (.deleteUpdate u f first.chunks) c.committed (fun _ => false) =
        .go [.decrement hit] (.deleteRows u f) := lockRows_free _ _
    have hdelete : statement n (.deleteRows u f) ((sessions n).view [.decrement hit] c.committed) (fun _ => false) =
        .go [.removeFiles ids] .deleteCommit := lockRows_free _ _
    -- the rows hit by key are the rows hit by condition
    have heffect : (sessions n).view [.decrement hit, .removeFiles ids] c.committed =
        { c.committed with
          chunks := c.committed.chunks.updateWhere (fun h _ => first.chunks.contains (some h)) fun r =>
            { r with refCount := r.refCount - 1 }
          files := c.committed.files.deleteWhere (isFile u f) } := by
      have hchunks := Table.updateWhere_congr (t := c.committed.chunks) (p := fun h _ => hit.contains h)
        (q := fun h _ => first.chunks.contains (some h)) (fun r => { r with refCount := r.refCount - 1 }) fun e he => by
          have hk := Table.mem_selected_keys (p := fun h _ => first.chunks.contains (some h)) he
          rw [Bool.eq_iff_iff, List.contains_iff_mem]
          exact hk
      have hfiles := Table.deleteWhere_congr (t := c.committed.files) (p := fun id _ => ids.contains id)
        (q := isFile u f) fun e he => by
          have hk := Table.mem_selected_keys (p := isFile u f) he
          rw [Bool.eq_iff_iff, List.contains_iff_mem]
          exact hk
      rw [← hchunks, ← hfiles]
      rfl
    refine .step (alone_go hu rfl hselect) (.step (alone_go hu rfl hupdate) (.step (alone_go hu rfl hdelete) ?_))
    exact .step (alone_commit hu heffect rfl) (.refl n i _)

/-- **`GetOrphanedChunks` alone** is the atomic claim. -/
theorem claim_alone (n : Nat) (c : Sessions ι) (i : ι) (hu : Unlocked n c i) (order : List String) (expiry limit : Nat) :
    RunsTo n i (at_ c i (.claimUpdate order expiry limit) [])
      (ended c i (getOrphanedChunks order none c.committed expiry limit).1
        (.orphans (getOrphanedChunks order none c.committed expiry limit).2)) := by
  have hupdate : statement n (.claimUpdate order expiry limit) c.committed (fun _ => false) =
      .go [.claim (orphanHashes order c.committed expiry limit)]
        (.claimCommit ((orphanHashes order c.committed expiry limit).map (orphanOf c.committed))) := by
    simp [statement, orphanHashes]
  exact .step (alone_go hu rfl hupdate) (.step (alone_commit hu rfl rfl) (.refl n i _))

/-- One turn of the `FilterMissingChunks` loop. -/
theorem filter_turn_alone {n : Nat} {c : Sessions ι} {i : ι} (hu : Unlocked n c i) {began : Option Nat} {db : Store}
    {hash : String} {rest : List String} {acc : List ChunkRoutingPlan} {ws : List RowWrite}
    (hview : (sessions n).view ws c.committed = db) (hnow : began.getD db.now = db.now) {c' : Sessions ι} :
    (∀ e, filterMissingOne n db hash = .error e → RunsTo n i (ended c i c.committed (.raised e)) c') →
    (∀ db' plan ws', filterMissingOne n db hash = .ok (db', plan) → (sessions n).view ws' c.committed = db' →
      RunsTo n i (at_ c i (.filterSelect (some db.now) rest (acc ++ plan.toList)) ws') c') →
    RunsTo n i (at_ c i (.filterSelect began (hash :: rest) acc) ws) c' := by
  intro herr hok
  have hselect : statement n (.filterSelect began (hash :: rest) acc) db (fun _ => false) =
      filterTurn db.now db hash rest acc := by
    show filterTurn (began.getD db.now) db hash rest acc = _
    rw [hnow]
  unfold filterMissingOne at herr hok
  unfold filterTurn at hselect
  cases hrow : db.chunks.get? hash with
  | none =>
    simp only [hrow] at hselect herr hok
    have hroute : statement n (.filterRoute db.now hash rest acc) db (fun _ => false) =
        routeTurn n db.now db hash rest acc := rfl
    refine .step (alone_go hu hview hselect) ?_
    rw [List.append_nil]
    unfold routeTurn at hroute
    cases hcl : (db.shardMap.get? (calculateBucketId hash n)).bind db.clusters.get? with
    | none =>
      simp only [hcl] at hroute herr
      exact .step (alone_abort hu hview hroute) (herr _ rfl)
    | some cluster =>
      simp only [hcl] at hroute herr hok
      cases hns : nodeData db cluster.activeNodes with
      | none =>
        simp only [hns] at hroute herr
        exact .step (alone_abort hu hview hroute) (herr _ rfl)
      | some ns =>
        simp only [hns] at hroute herr hok
        have hinsert : statement n (.filterInsert db.now hash cluster.activeNodes ns rest acc) db (fun _ => false) =
            insertTurn db.now db (fun _ => false) hash cluster.activeNodes ns rest acc := rfl
        refine .step (alone_go hu hview hroute) ?_
        rw [List.append_nil]
        unfold insertTurn at hinsert
        cases hkey : varchar 64 hash with
        | none =>
          simp only [hkey] at hinsert herr
          exact .step (alone_abort hu hview hinsert) (herr _ rfl)
        | some key =>
          simp only [hkey, Bool.false_eq_true, ↓reduceIte] at hinsert hok
          cases hold : db.chunks.get? key with
          | some r =>
            simp only [hold, Option.isSome_some, ↓reduceIte] at hinsert
            refine .step (alone_go hu hview hinsert) (hok _ _ _ rfl ?_)
            rw [List.append_nil, Table.insertNew_of_some hold, hview]
          | none =>
            simp only [hold, Option.isSome_none, Bool.false_eq_true, ↓reduceIte] at hinsert
            refine .step (alone_go hu hview hinsert) (hok _ _ _ rfl ?_)
            rw [view_append, hview]
            rfl
  | some row =>
    simp only [hrow] at hselect herr hok
    by_cases hlock : row.refCount = -1
    · simp only [hlock, ↓reduceIte] at hselect herr
      exact .step (alone_abort hu hview hselect) (herr _ rfl)
    · simp only [hlock, ↓reduceIte] at hselect herr hok
      have hrefresh : statement n (.filterRefresh db.now hash row.refCount (nodeData db row.nodes) rest acc) db
          (fun _ => false) = refreshTurn db.now db (fun _ => false) hash row.refCount (nodeData db row.nodes) rest acc := rfl
      have hwrite : (sessions n).view (ws ++ [.refresh hash db.now]) c.committed =
          { db with chunks := refreshChunk db.now db.chunks hash } := by
        rw [view_append, hview]
        rfl
      refine .step (alone_go hu hview hselect) ?_
      rw [List.append_nil]
      simp only [refreshTurn, hrow, Option.isSome_some, ↓reduceIte, lockRows_free] at hrefresh
      by_cases hz : row.refCount = 0
      · rw [if_pos hz] at hrefresh
        simp only [if_pos hz] at herr hok
        cases hns : nodeData db row.nodes with
        | none =>
          rw [hns] at hrefresh
          simp only [hns] at herr
          exact .step (alone_abort hu hview hrefresh) (herr _ rfl)
        | some ns =>
          rw [hns] at hrefresh
          simp only [hns] at hok
          exact .step (alone_go hu hview hrefresh) (hok _ _ _ rfl hwrite)
      · rw [if_neg hz] at hrefresh
        simp only [if_neg hz] at hok
        refine .step (alone_go hu hview hrefresh) ?_
        have hdone := hok _ none _ rfl hwrite
        simpa using hdone

/-- **`FilterMissingChunks` alone** is the atomic call: its store and plans, or its error and no change. -/
theorem filter_alone (n : Nat) (c : Sessions ι) (i : ι) (hu : Unlocked n c i) (hashes : List String) :
    RunsTo n i (at_ c i (.filterSelect none hashes []) [])
      (match filterMissingChunks n c.committed hashes with
        | .ok (db, plans) => ended c i db (.plans plans)
        | .error e => ended c i c.committed (.raised e)) := by
  -- the loop from any turn on
  have hloop : ∀ (todo : List String) (began : Option Nat) (db : Store) (acc : List ChunkRoutingPlan)
      (ws : List RowWrite), (sessions n).view ws c.committed = db → began.getD db.now = db.now →
      RunsTo n i (at_ c i (.filterSelect began todo acc) ws)
        (match filterMissingChunks n db todo with
          | .ok (db', plans) => ended c i db' (.plans (acc ++ plans))
          | .error e => ended c i c.committed (.raised e)) := by
    intro todo
    induction todo with
    | nil =>
      intro began db acc ws hview _
      simp only [filterMissingChunks, List.append_nil]
      exact .step (alone_commit hu hview rfl) (.refl n i _)
    | cons hash rest ih =>
      intro began db acc ws hview hnow
      refine filter_turn_alone hu hview hnow (fun e he => ?_) fun db' plan ws' hone hview' => ?_
      · simp only [filterMissingChunks, he]
        exact .refl n i _
      · have heff := (filterMissingOne_spec hone).1
        have htail := ih (some db.now) db' (acc ++ plan.toList) ws' hview' heff.now.symm
        simp only [filterMissingChunks, hone]
        cases hrest : filterMissingChunks n db' rest with
        | error e =>
          simp only [hrest] at htail ⊢
          exact htail
        | ok res =>
          simp only [hrest, List.append_assoc] at htail ⊢
          exact htail
  exact hloop hashes none c.committed [] [] rfl rfl

end StorageEngine
