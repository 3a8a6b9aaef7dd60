import StorageEngine.Concurrency.Statements
import StorageEngine.Metadata.References

/-!
# Upload-init against the collector's claim

Any number of `FilterMissingChunks` and `GetOrphanedChunks` sessions over an arbitrary store. The lock check
of an upload-init is a plain `SELECT`; its `UPDATE` of `created_at` (or its `INSERT`) does not look at the
count again. So a claim that is committed behind that `SELECT` goes unnoticed, and the init reports success
with a tombstone in its list. Where no claim is committed on a hash that an open init has read, the inits
that succeed leave every hash of their list with a row that is no tombstone (`inits_unlocked`).
-/

namespace StorageEngine

open Relational ReadCommitted Transition

/-- The two calls. -/
inductive Call where
  | filter (hashes : List String)
  | claim (order : List String) (expiryHours limit : Nat)
deriving DecidableEq

/-- Before the first statement of the call. -/
def Call.begin : Call → Position
  | .filter hashes => .filterSelect none hashes []
  | .claim order expiry limit => .claimUpdate order expiry limit

variable {ι : Type}

/-- All calls at their first statement. -/
def callsFrom (db : Store) (calls : ι → Call) : Sessions ι := ⟨db, fun i => .active (calls i).begin []⟩

/-- The sessions after the moves. -/
def callsRun [DecidableEq ι] [Fintype ι] (n : Nat) (db : Store) (calls : ι → Call) (moves : List (Move ι Nat)) :
    Option (Sessions ι) :=
  exec (sessions n).step (callsFrom db calls) moves

/-- What is left of its list once an init has read the hash it is at. -/
def todoOf : Position → Option (List String)
  | .filterSelect _ todo _ => some todo
  | .filterRoute _ _ rest _ | .filterInsert _ _ _ _ rest _ | .filterRefresh _ _ _ _ rest _ => some rest
  | _ => none

/-- The hashes of its list that an open init has read. -/
def readOf (hashes : List String) : Progress RowWrite Position Result → List String
  | .active pos _ => ((todoOf pos).map fun todo => hashes.take (hashes.length - todo.length)).getD []
  | .done _ => []

/-- What a transaction has set to -1. -/
def claimedHashes : List RowWrite → List String
  | [] => []
  | .claim hashes :: ws => hashes ++ claimedHashes ws
  | _ :: ws => claimedHashes ws

/-- The session is no open init that has read one of the hashes. -/
def Unread (claimed : List String) (call : Call) (t : Progress RowWrite Position Result) : Prop :=
  match call with
  | .filter hashes => ∀ h ∈ readOf hashes t, h ∉ claimed
  | .claim .. => True

instance (claimed : List String) (call : Call) (t : Progress RowWrite Position Result) :
    Decidable (Unread claimed call t) := by
  cases call <;> unfold Unread <;> infer_instance

/-- The hashes whose claim the session commits next. -/
def claimAtCommit : Progress RowWrite Position Result → List String
  | .active (.claimCommit _) writes => claimedHashes writes
  | _ => []

/-- A claim that is committed claims no hash that an open init has read. -/
def NoClaimBehind (calls : ι → Call) (c : Sessions ι) : Move ι Nat → Prop
  | .stmt j => ∀ i, Unread (claimAtCommit (c.txn j)) (calls i) (c.txn i)
  | .env _ => True

instance [Fintype ι] (calls : ι → Call) (c : Sessions ι) : (m : Move ι Nat) → Decidable (NoClaimBehind calls c m)
  | .stmt j => inferInstanceAs (Decidable (∀ i, Unread (claimAtCommit (c.txn j)) (calls i) (c.txn i)))
  | .env _ => .isTrue trivial

/-- At the commit of an init every hash of its list has a row that is no tombstone. -/
def InitsUnlocked [DecidableEq ι] [Fintype ι] (n : Nat) (db : Store) (calls : ι → Call) (moves : List (Move ι Nat)) : Prop :=
  ∀ (pre : List (Move ι Nat)) (i : ι) (c : Sessions ι) (hashes : List String) (plans : List ChunkRoutingPlan),
    pre ++ [.stmt i] <+: moves →
    callsRun n db calls (pre ++ [.stmt i]) = some c →
    calls i = .filter hashes → c.txn i = .done (.plans plans) →
    ∀ h ∈ hashes, ∃ r ∈ c.committed.chunks.get? h, r.refCount ≠ -1

/-! ## The writes of an init -/

/-- A refreshed `created_at` or a new row at zero. -/
def RowWrite.ofInit : RowWrite → Prop
  | .refresh _ _ => True
  | .insertChunk _ row => row.refCount = 0
  | _ => False

/-- The `chunks` rows that a transaction has added. -/
def inserted : List RowWrite → List String
  | [] => []
  | .insertChunk hash _ :: ws => hash :: inserted ws
  | _ :: ws => inserted ws

theorem inserted_append (ws vs : List RowWrite) : inserted (ws ++ vs) = inserted ws ++ inserted vs := by
  induction ws with
  | nil => rfl
  | cons w ws ih => cases w <;> simp only [List.cons_append, inserted, ih]

theorem counter_effect {w : RowWrite} (hw : w.ofInit) (db : Store) (h : String) :
    counter (w.effect db) h = if counter db h = none ∧ h ∈ inserted [w] then some 0 else counter db h := by
  cases w with
  | refresh hash now =>
    rw [if_neg (by simp [inserted])]
    unfold counter
    simp only [RowWrite.effect, get?_refreshChunk, Option.map_map]
    refine congrArg (Option.map · _) (funext fun r => ?_)
    by_cases hh : h = hash <;> simp only [Function.comp_apply, hh, ↓reduceIte]
  | insertChunk hash row =>
    have hz : row.refCount = 0 := hw
    unfold counter
    simp only [RowWrite.effect, Table.get?_insertNew, inserted, List.mem_singleton, Option.map_eq_none_iff]
    by_cases hh : h = hash
    · subst hh
      cases hr : db.chunks.get? h with
      | none => simp [hz]
      | some r => simp
    · simp [hh]
  | decrement hashes => cases hw
  | removeFiles ids => cases hw
  | claim hashes => cases hw

/-- An init's view: the committed counts, and zero at the rows it has inserted. -/
theorem counter_view {n : Nat} : ∀ {ws : List RowWrite}, (∀ w ∈ ws, w.ofInit) → ∀ (db : Store) (h : String),
    counter ((sessions n).view ws db) h = if counter db h = none ∧ h ∈ inserted ws then some 0 else counter db h
  | [], _, db, h => by simp [inserted]
  | w :: ws, hw, db, h => by
    show counter ((sessions n).view ws (w.effect db)) h = _
    have hmem : h ∈ inserted (w :: ws) ↔ h ∈ inserted [w] ∨ h ∈ inserted ws := by
      rw [show inserted (w :: ws) = inserted [w] ++ inserted ws from inserted_append [w] ws, List.mem_append]
    rw [counter_view (fun v hv => hw v (List.mem_cons_of_mem _ hv)), counter_effect (hw w List.mem_cons_self)]
    by_cases hn : counter db h = none <;> by_cases h1 : h ∈ inserted [w] <;> by_cases h2 : h ∈ inserted ws <;>
      simp [hmem, hn, h1, h2]

/-! ## Where an init stands -/

/-- A hash the init has dealt with: no committed tombstone, and a row in the init's view. -/
def Safe (db : Store) (ws : List RowWrite) (h : String) : Prop :=
  counter db h ≠ some (-1) ∧ ((counter db h).isSome ∨ h ∈ inserted ws)

theorem Safe.append {db : Store} {ws : List RowWrite} {h : String} (hs : Safe db ws h) (vs : List RowWrite) :
    Safe db (ws ++ vs) h :=
  ⟨hs.1, hs.2.imp_right fun hm => by rw [inserted_append]; exact List.mem_append_left _ hm⟩

/-- The turn of a hash the `SELECT` has read. -/
inductive Turn (db : Store) (ws : List RowWrite) (hash : String) (rest : List String) : Position → Prop where
  | route (began : Nat) (plans : List ChunkRoutingPlan) : Turn db ws hash rest (.filterRoute began hash rest plans)
  | insert (began : Nat) (activeNodes : List Int) (nodes : List NodeInfo) (plans : List ChunkRoutingPlan) :
      Turn db ws hash rest (.filterInsert began hash activeNodes nodes rest plans)
  | refresh (began : Nat) (refCount : Int) (nodes : Option (List NodeInfo)) (plans : List ChunkRoutingPlan)
      (hrow : (counter db hash).isSome ∨ hash ∈ inserted ws) :
      Turn db ws hash rest (.filterRefresh began hash refCount nodes rest plans)

/-- How far `FilterMissingChunks` is, and what it knows of the hashes it has read. -/
inductive InitStage (db : Store) (hashes : List String) : Progress RowWrite Position Result → Prop where
  | select {began : Option Nat} {read todo : List String} {plans : List ChunkRoutingPlan} {ws : List RowWrite}
      (hsplit : hashes = read ++ todo) (hw : ∀ w ∈ ws, w.ofInit) (hread : ∀ h ∈ read, Safe db ws h) :
      InitStage db hashes (.active (.filterSelect began todo plans) ws)
  | turn {pos : Position} {hash : String} {read rest : List String} {ws : List RowWrite}
      (hsplit : hashes = read ++ hash :: rest) (hw : ∀ w ∈ ws, w.ofInit) (hread : ∀ h ∈ read, Safe db ws h)
      (hcur : counter db hash ≠ some (-1)) (hturn : Turn db ws hash rest pos) : InitStage db hashes (.active pos ws)
  | done (r : Result) : InitStage db hashes (.done r)

/-- What the view shows of a hash without a committed tombstone. -/
theorem counter_view_some {n : Nat} {ws : List RowWrite} (hw : ∀ w ∈ ws, w.ofInit) {db : Store} {h : String}
    (hs : (counter ((sessions n).view ws db) h).isSome) : (counter db h).isSome ∨ h ∈ inserted ws := by
  rw [counter_view hw] at hs
  split at hs
  · rename_i hc; exact Or.inr hc.2
  · exact Or.inl hs

/-- After a hash's turn it is among those dealt with. -/
theorem InitStage.advance {db : Store} {hashes : List String} {hash : String} {read rest : List String}
    {ws new : List RowWrite} {began : Option Nat} {plans : List ChunkRoutingPlan} (hsplit : hashes = read ++ hash :: rest)
    (hw : ∀ w ∈ ws, w.ofInit) (hnew : ∀ w ∈ new, w.ofInit) (hread : ∀ h ∈ read, Safe db ws h)
    (hcur : Safe db (ws ++ new) hash) : InitStage db hashes (.active (.filterSelect began rest plans) (ws ++ new)) := by
  have hsplit' : hashes = (read ++ [hash]) ++ rest := by simpa using hsplit
  refine .select hsplit' ?_ ?_
  · intro w hm
    rcases List.mem_append.1 hm with hm | hm
    · exact hw w hm
    · exact hnew w hm
  · intro h hm
    rcases List.mem_append.1 hm with hm | hm
    · exact (hread h hm).append new
    · rw [List.mem_singleton] at hm
      exact hm ▸ hcur

/-- **One statement of an init.** -/
theorem init_statement {n : Nat} {db : Store} {hashes : List String} {pos : Position} {ws : List RowWrite}
    (hst : InitStage db hashes (.active pos ws)) (hfit : ∀ h ∈ hashes, h.length ≤ 64) (locked : RowKey → Bool) :
    (∀ w ∈ ws, w.ofInit) ∧
    match statement n pos ((sessions n).view ws db) locked with
    | .wait => True
    | .go new next => InitStage db hashes (.active next (ws ++ new))
    | .commit _ => ∀ h ∈ hashes, Safe db ws h
    | .abort r => ∀ plans, r ≠ .plans plans := by
  cases hst with
  | @select began read todo plans _ hsplit hw hread =>
    refine ⟨hw, ?_⟩
    cases todo with
    | nil =>
      rw [List.append_nil] at hsplit
      exact hsplit ▸ hread
    | cons hash rest =>
      simp only [statement, filterTurn]
      cases hrow : ((sessions n).view ws db).chunks.get? hash with
      | none =>
        have hview : counter ((sessions n).view ws db) hash = none := by unfold counter; rw [hrow]; rfl
        refine .turn hsplit (by simpa using hw) (by simpa using hread) ?_ (.route _ _)
        intro htomb
        rw [counter_view hw, htomb] at hview
        simp at hview
      | some row =>
        have hview : counter ((sessions n).view ws db) hash = some row.refCount := counter_eq_some.2 ⟨row, hrow, rfl⟩
        by_cases hlock : row.refCount = -1
        · simp [hlock]
        · simp only [hlock, ↓reduceIte]
          refine .turn hsplit (by simpa using hw) (by simpa using hread) ?_ (.refresh _ _ _ _ ?_)
          · intro htomb
            rw [counter_view hw, htomb] at hview
            simp only [reduceCtorEq, false_and, ↓reduceIte, Option.some.injEq] at hview
            exact hlock hview.symm
          · rw [List.append_nil]
            exact counter_view_some hw (by rw [hview]; rfl)
  | @turn _ hash read rest _ hsplit hw hread hcur hturn =>
    refine ⟨hw, ?_⟩
    have hlen : hash.length ≤ 64 := hfit hash (by rw [hsplit]; simp)
    cases hturn with
    | route began plans =>
      simp only [statement, routeTurn]
      split
      · trivial
      · rename_i new next hgo
        split at hgo
        · cases hgo
        · split at hgo
          · cases hgo
          · cases hgo
            exact .turn hsplit (by simpa using hw) (by simpa using hread) hcur (.insert _ _ _ _)
      · rename_i r hgo
        split at hgo
        · cases hgo
        · split at hgo <;> cases hgo
      · rename_i r hgo
        split at hgo
        · cases hgo; simp
        · split at hgo
          · cases hgo; simp
          · cases hgo
    | insert began activeNodes nodes plans =>
      simp only [statement, insertTurn, varchar_of_le hlen]
      by_cases hl : locked (.chunk hash) = true
      · simp [hl]
      · simp only [hl, Bool.false_eq_true, ↓reduceIte]
        by_cases hrow : (((sessions n).view ws db).chunks.get? hash).isSome = true
        · simp only [hrow, ↓reduceIte]
          refine .advance hsplit hw (by simp) hread ⟨hcur, ?_⟩
          rw [List.append_nil]
          exact counter_view_some hw (by unfold counter; rw [Option.isSome_map]; exact hrow)
        · simp only [hrow, Bool.false_eq_true, ↓reduceIte]
          refine .advance hsplit hw (by simp [RowWrite.ofInit]) hread ⟨hcur, Or.inr ?_⟩
          rw [inserted_append]
          simp [inserted]
    | refresh began refCount nodes plans hrow =>
      have hstage : ∀ plans new, (∀ w ∈ new, w.ofInit) →
          InitStage db hashes (.active (.filterSelect (some began) rest plans) (ws ++ new)) := fun plans new hnew =>
        .advance hsplit hw hnew hread (Safe.append ⟨hcur, hrow⟩ new)
      have hupdate : ∀ plans, match (if (((sessions n).view ws db).chunks.get? hash).isSome then
            lockRows locked (.refresh hash began) (.filterSelect (some began) rest plans)
          else Reply.go [] (.filterSelect (some began) rest plans) : Answer) with
          | .wait => True
          | .go new next => InitStage db hashes (.active next (ws ++ new))
          | .commit _ => ∀ h ∈ hashes, Safe db ws h
          | .abort r => ∀ plans, r ≠ .plans plans := by
        intro plans
        by_cases hsome : (((sessions n).view ws db).chunks.get? hash).isSome = true
        · simp only [hsome, ↓reduceIte, lockRows]
          by_cases hl : (RowWrite.refresh hash began).rows.any locked = true
          · simp [hl]
          · simp only [hl, Bool.false_eq_true, ↓reduceIte]
            exact hstage plans _ (by simp [RowWrite.ofInit])
        · simp only [hsome, Bool.false_eq_true, ↓reduceIte]
          exact hstage plans [] (by simp)
      simp only [statement, refreshTurn]
      by_cases hz : refCount = 0
      · simp only [hz, ↓reduceIte]
        cases nodes with
        | none => simp
        | some ns => exact hupdate _
      · simp only [hz, ↓reduceIte]
        exact hupdate _

/-! ## All sessions -/

/-- The claimer's stages. -/
inductive ClaimStage : Progress RowWrite Position Result → Prop where
  | update (order : List String) (expiry limit : Nat) : ClaimStage (.active (.claimUpdate order expiry limit) [])
  | commit (orphans : List OrphanedChunk) (hashes : List String) :
      ClaimStage (.active (.claimCommit orphans) [.claim hashes])
  | done (r : Result) : ClaimStage (.done r)

/-- The stage of a call, whichever it is. -/
def CallStage (db : Store) (call : Call) (t : Progress RowWrite Position Result) : Prop :=
  match call with
  | .filter hashes => InitStage db hashes t
  | .claim .. => ClaimStage t

/-- Every session is at a stage of its call. -/
def ClaimInv (calls : ι → Call) (c : Sessions ι) : Prop := ∀ i, CallStage c.committed (calls i) (c.txn i)

theorem claimInv_init (db : Store) (calls : ι → Call) : ClaimInv calls (callsFrom db calls) := by
  intro i
  show CallStage db (calls i) (.active (calls i).begin [])
  cases calls i with
  | filter hashes => exact .select (List.nil_append hashes).symm (by simp) (by simp)
  | claim order expiry limit => exact .update order expiry limit

/-- The committed counts of the read hashes do not become `-1`, and no row goes. -/
structure Calm (read : List String) (db db' : Store) : Prop where
  read : ∀ h ∈ read, counter db h ≠ some (-1) → counter db' h ≠ some (-1)
  rows : ∀ h, (counter db h).isSome → (counter db' h).isSome

theorem Calm.refl (read : List String) {db db' : Store} (h : db'.chunks = db.chunks) : Calm read db db' := by
  have hc : counter db' = counter db := by funext k; unfold counter; rw [h]
  exact ⟨fun k _ hk => hc ▸ hk, fun k hk => hc ▸ hk⟩

theorem Safe.calm {read : List String} {db db' : Store} {ws : List RowWrite} {h : String} (hs : Safe db ws h)
    (hc : Calm read db db') (hm : h ∈ read) : Safe db' ws h :=
  ⟨hc.read h hm hs.1, hs.2.imp_left (hc.rows h)⟩

theorem take_split {read rest : List String} : (read ++ rest).take ((read ++ rest).length - rest.length) = read := by
  rw [List.length_append, Nat.add_sub_cancel, List.take_left]

/-- A stage survives a change of the committed state that is calm on what has been read. -/
theorem InitStage.calm {db db' : Store} {hashes : List String} {t : Progress RowWrite Position Result}
    (hst : InitStage db hashes t) (hc : Calm (readOf hashes t) db db') : InitStage db' hashes t := by
  cases hst with
  | @select began read todo plans ws hsplit hw hread =>
    have hr : readOf hashes (.active (.filterSelect began todo plans) ws) = read := by
      rw [hsplit]; exact take_split
    rw [hr] at hc
    exact .select hsplit hw fun h hm => (hread h hm).calm hc hm
  | @turn pos hash read rest ws hsplit hw hread hcur hturn =>
    have hr : readOf hashes (.active pos ws) = read ++ [hash] := by
      have hsplit' : hashes = (read ++ [hash]) ++ rest := by simpa using hsplit
      cases hturn <;> rw [hsplit'] <;> exact take_split
    rw [hr] at hc
    have hcur' := hc.read hash (by simp) hcur
    refine .turn hsplit hw (fun h hm => (hread h hm).calm hc (by simp [hm])) hcur' ?_
    cases hturn with
    | route began plans => exact .route _ _
    | insert began activeNodes nodes plans => exact .insert _ _ _ _
    | refresh began refCount nodes plans hrow => exact .refresh _ _ _ _ (hrow.imp_left (hc.rows hash))
  | done r => exact .done r

/-- The commit of an init leaves the committed counts as they are, or starts new ones at zero. -/
theorem calm_view {n : Nat} {ws : List RowWrite} (hw : ∀ w ∈ ws, w.ofInit) (read : List String) (db : Store) :
    Calm read db ((sessions n).view ws db) := by
  refine ⟨fun h _ hne => ?_, fun h hs => ?_⟩
  · rw [counter_view hw]
    split
    · simp
    · exact hne
  · rw [counter_view hw]
    split
    · rfl
    · exact hs

theorem calm_claim {read hashes : List String} (hdisj : ∀ h ∈ read, h ∉ hashes) (db : Store) :
    Calm read db (claimChunks db hashes) := by
  refine ⟨fun h hm hne => ?_, fun h hs => ?_⟩
  · rw [counter_claimChunks, if_neg (hdisj h hm)]
    exact hne
  · rw [counter_claimChunks]
    split
    · rw [Option.isSome_map]; exact hs
    · exact hs

/-- One session moves on, the committed state changes calmly for the others. -/
theorem ClaimInv.update [DecidableEq ι] {calls : ι → Call} {c : Sessions ι} {i : ι} {db : Store}
    {t : Progress RowWrite Position Result} (hi : ClaimInv calls c) (ht : CallStage db (calls i) t)
    (hcalm : ∀ j hashes, calls j = .filter hashes → Calm (readOf hashes (c.txn j)) c.committed db) :
    ClaimInv calls ⟨db, Function.update c.txn i t⟩ := by
  intro j
  simp only [Function.update_apply]
  split
  · rename_i hj
    subst hj
    exact ht
  · have hst := hi j
    have hcj := hcalm j
    unfold CallStage at hst ⊢
    cases hcall : calls j with
    | filter hashes =>
      rw [hcall] at hst
      exact hst.calm (hcj hashes hcall)
    | claim order expiry limit =>
      rw [hcall] at hst
      exact hst

variable [DecidableEq ι] [Fintype ι]

theorem ClaimInv.move {n : Nat} {calls : ι → Call} {c c' : Sessions ι} {m : Move ι Nat} (hi : ClaimInv calls c)
    (hfit : ∀ i hashes, calls i = .filter hashes → ∀ h ∈ hashes, h.length ≤ 64) (hb : NoClaimBehind calls c m)
    (h : (sessions n).step c m = some c') : ClaimInv calls c' := by
  rcases step_cases h with ⟨d, rfl, rfl⟩ | ⟨i, pos, ws, rfl, ht, hor⟩
  · intro i
    have hst := hi i
    unfold CallStage at hst ⊢
    cases hcall : calls i with
    | filter hashes =>
      rw [hcall] at hst
      exact hst.calm (Calm.refl _ rfl)
    | claim order expiry limit =>
      rw [hcall] at hst
      exact hst
  · have hst := hi i
    rw [ht] at hst
    have hsame : ∀ j hashes, calls j = .filter hashes → Calm (readOf hashes (c.txn j)) c.committed c.committed :=
      fun _ _ _ => Calm.refl _ rfl
    cases hcall : calls i with
    | filter hashes =>
      rw [hcall] at hst
      obtain ⟨hw, hstmt⟩ := init_statement (n := n) hst (hfit i hashes hcall) ((sessions n).lockedFor c i)
      rcases hor with ⟨new, next, hgo, rfl⟩ | ⟨r, hgo, rfl⟩ | ⟨r, hgo, rfl⟩
      · rw [show statement n pos _ _ = _ from hgo] at hstmt
        exact hi.update (by rw [hcall]; exact hstmt) hsame
      · exact hi.update (by rw [hcall]; exact .done r) fun _ _ _ => calm_view hw _ _
      · exact hi.update (by rw [hcall]; exact .done r) hsame
    | claim order expiry limit =>
      rw [hcall] at hst
      generalize hprog : (Progress.active pos ws : Progress RowWrite Position Result) = t at hst
      cases hst with
      | update order' expiry' limit' =>
        cases hprog
        rcases hor with ⟨new, next, hgo, rfl⟩ | ⟨r, hgo, rfl⟩ | ⟨r, hgo, rfl⟩
        · simp only [sessions, statement, Reply.go.injEq] at hgo
          obtain ⟨rfl, rfl⟩ := hgo
          exact hi.update (by rw [hcall]; exact .commit _ _) hsame
        · cases hgo
        · cases hgo
      | commit orphans hashes =>
        cases hprog
        rcases hor with ⟨new, next, hgo, rfl⟩ | ⟨r, hgo, rfl⟩ | ⟨r, hgo, rfl⟩
        · cases hgo
        · refine hi.update (by rw [hcall]; exact .done r) fun j hs hj => ?_
          simp only [NoClaimBehind, ht, claimAtCommit, claimedHashes, List.append_nil] at hb
          have hbj := hb j
          rw [hj] at hbj
          exact calm_claim hbj c.committed
        · cases hgo
      | done r => cases hprog

/-- **Upload-init against claims.** If every listed hash fits its column and no claim is committed on a hash
that an open init has read, then at the commit of every init its hashes have rows that are no tombstones. -/
theorem inits_unlocked (n : Nat) (db : Store) (calls : ι → Call) (moves : List (Move ι Nat))
    (hfit : ∀ i hashes, calls i = .filter hashes → ∀ h ∈ hashes, h.length ≤ 64)
    (hb : EachStep (sessions n).step (NoClaimBehind calls) (callsFrom db calls) moves) :
    InitsUnlocked n db calls moves := by
  rintro pre i c hashes plans ⟨rest, rfl⟩ hrun hcall hdone h hm
  obtain ⟨c₀, hpre, hlast⟩ := exec_append.1 (show exec (sessions n).step (callsFrom db calls) (pre ++ [.stmt i]) = some c from hrun)
  have hpre' : EachStep (sessions n).step (NoClaimBehind calls) (callsFrom db calls) pre :=
    (EachStep.append.1 (EachStep.append.1 hb).1).1
  have hi : ClaimInv calls c₀ := by
    refine EachStep.inv (fun s a t hs hc hst => hs.move hfit hc hst) hpre' (claimInv_init db calls) hpre
  obtain ⟨c₁, hstep, hc₁⟩ := exec_cons.1 hlast
  obtain rfl : c₁ = c := Option.some.inj hc₁
  rcases step_cases hstep with ⟨d, hd, -⟩ | ⟨j, pos, ws, hj, ht, hor⟩
  · cases hd
  obtain rfl : i = j := by cases hj; rfl
  have hst := hi i
  rw [ht, hcall] at hst
  obtain ⟨hw, hstmt⟩ := init_statement (n := n) hst (hfit i hashes hcall) ((sessions n).lockedFor c₀ i)
  rcases hor with ⟨new, next, hgo, rfl⟩ | ⟨r, hgo, rfl⟩ | ⟨r, hgo, rfl⟩
  · simp at hdone
  · rw [show statement n pos _ _ = _ from hgo] at hstmt
    obtain ⟨hne, hrow⟩ := hstmt h hm
    have hview : ∃ m, counter ((sessions n).view ws c₀.committed) h = some m ∧ m ≠ -1 := by
      rw [counter_view hw]
      cases hcount : counter c₀.committed h with
      | none =>
        rw [hcount] at hrow
        exact ⟨0, if_pos ⟨rfl, hrow.resolve_left (by simp)⟩, by decide⟩
      | some m => exact ⟨m, if_neg (by simp), fun he => hne (he ▸ hcount)⟩
    obtain ⟨m, hm', hmne⟩ := hview
    obtain ⟨r', hr', rfl⟩ := counter_eq_some.1 hm'
    exact ⟨r', hr', hmne⟩
  · rw [show statement n pos _ _ = _ from hgo] at hstmt
    simp only [Function.update_self, Progress.done.injEq] at hdone
    exact absurd hdone (hstmt plans)

/-- A chunk nobody refers to, older than a day. -/
def staleChunk : Store :=
  { Store.empty with
    workers := (Table.empty).put 1 ⟨"worker1", 9080, "localhost", 9081, 1000, .active, 0⟩
    chunks := (Table.empty).put sampleHash ⟨[1], 0, 0⟩
    now := hours 25 }

/-- An init, and a claim beside it (`true`). -/
def initAndClaim : Bool → Call := fun i => if i then .claim [] 24 100 else .filter [sampleHash]

/-- The init reads, the claim runs and commits, the init refreshes and commits. -/
def claimBehindRead : List (Move Bool Nat) :=
  [.stmt false, .stmt true, .stmt true, .stmt false, .stmt false]

/-- The init succeeds over a tombstone. -/
theorem claimBehindRead_locked : ¬ InitsUnlocked 4 staleChunk initAndClaim claimBehindRead := by
  intro h
  have hfacts : ((callsRun 4 staleChunk initAndClaim claimBehindRead).map fun c =>
      (c.txn false, (c.committed.chunks.get? sampleHash).map ChunkRow.refCount)) =
      some (.done (.plans [⟨sampleHash, [⟨"localhost", 9081⟩]⟩]), some (-1)) := by decide +kernel
  obtain ⟨c, hc, he⟩ := Option.map_eq_some_iff.1 hfacts
  rw [Prod.mk.injEq] at he
  obtain ⟨r, hr, hne⟩ := h (claimBehindRead.take 4) false c [sampleHash] _ (List.prefix_refl _) hc rfl he.1 sampleHash (by simp)
  have hcount := he.2
  rw [Option.mem_def.1 hr, Option.map_some, Option.some.injEq] at hcount
  exact hne hcount

/-- The init refreshes first, the claim then passes over the locked row. -/
def claimAfterRefresh : List (Move Bool Nat) :=
  [.stmt false, .stmt false, .stmt true, .stmt true, .stmt false]

theorem claimAfterRefresh_unlocked : (callsRun 4 staleChunk initAndClaim claimAfterRefresh).isSome ∧
    InitsUnlocked 4 staleChunk initAndClaim claimAfterRefresh := by
  refine ⟨by decide +kernel, inits_unlocked 4 staleChunk initAndClaim claimAfterRefresh ?_ (by decide +kernel)⟩
  intro i hashes hi h hm
  unfold initAndClaim at hi
  split at hi
  · cases hi
  · cases hi
    rw [List.mem_singleton] at hm
    rw [hm]
    decide

end StorageEngine
