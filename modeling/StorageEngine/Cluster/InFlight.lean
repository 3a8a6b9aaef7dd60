import StorageEngine.Cluster.Protocol
import StorageEngine.Gc.Tombstones

/-!
# Deletes in flight

While a `DELETE` is in flight its chunk is a tombstone: it was sent for a claimed chunk, and the chunk's row
goes only after every worker has answered. `RevertTombstone` is the one call that breaks this. A task that
timed out makes the daemon give the chunk back, whether or not the request it gave up on can still arrive.
`FlightInv` is the invariant of the runs in which it cannot.
-/

namespace StorageEngine

open Relational Transition Async

variable {ι κ μ : Type} [DecidableEq ι] [DecidableEq κ] [DecidableEq μ] {sha256 : Bytes → String} {net : Addresses μ}
  {n : Nat}

/-- `RevertTombstone` gives back no chunk with a `DELETE` in flight, and a `GetOrphanedChunks` that fails
returns no rows. -/
def NoLateDelete (s : Cluster ι κ μ) : ClusterStep ι κ μ → Prop
  | .gc (.revert d true) => ∀ h ∈ (s.masters.daemon d).outstanding.head?, ∀ e ∈ s.wire.inFlight,
      e.request.request ≠ .delete h
  | .gc a => strayOrphans s.db a = []
  | _ => True

instance (s : Cluster ι κ μ) : (a : ClusterStep ι κ μ) → Decidable (NoLateDelete s a)
  | .gc (.revert d true) => inferInstanceAs (Decidable (∀ h ∈ (s.masters.daemon d).outstanding.head?,
      ∀ e ∈ s.wire.inFlight, e.request.request ≠ .delete h))
  | .gc (.claim d order fault) => inferInstanceAs (Decidable (strayOrphans s.db (.claim d order fault) = []))
  | .gc (.client _) | .gc (.record ..) | .gc (.revert _ false) | .gc (.crash _) => .isTrue rfl
  | .other _ | .init .. | .post .. | .ack .. | .commit .. | .task .. | .deliver _ | .lose _ => .isTrue trivial

/-! ## Batches -/

/-- What a daemon holds is a tombstone, and nobody else holds it. -/
structure Held (s : Masters ι) : Prop where
  tomb : ∀ d h, h ∈ (s.daemon d).outstanding → counter s.db h = some (-1)
  once : ∀ h d d', h ∈ (s.daemon d).outstanding → h ∈ (s.daemon d').outstanding → d = d'
  nodup : BatchesNodup s

/-- A daemon goes on to `phase`: what it holds then was its own or nobody's. -/
theorem Held.set {s : Masters ι} {d : ι} {db : Store} {phase : GcPhase} (hi : Held s)
    (hnd : phase.outstanding.Nodup)
    (hown : ∀ k ∈ phase.outstanding, counter db k = some (-1) ∧
      (k ∈ (s.daemon d).outstanding ∨ ∀ e, k ∉ (s.daemon e).outstanding))
    (hothers : ∀ e, e ≠ d → ∀ k ∈ (s.daemon e).outstanding, counter db k = some (-1)) : Held (s.set d db phase) := by
  refine ⟨fun e k hk => ?_, fun k e e' he he' => ?_, fun e => ?_⟩
  · rw [outstanding_set] at hk
    split at hk
    · exact (hown k hk).1
    · rename_i hne; exact hothers e hne k hk
  · rw [outstanding_set] at he he'
    by_cases hd : e = d <;> by_cases hd' : e' = d
    · rw [hd, hd']
    · rw [if_pos hd] at he
      rw [if_neg hd'] at he'
      rcases (hown k he).2 with hold | hfree
      · exact absurd (hi.once k e' d he' hold) hd'
      · exact absurd he' (hfree e')
    · rw [if_neg hd] at he
      rw [if_pos hd'] at he'
      rcases (hown k he').2 with hold | hfree
      · exact absurd (hi.once k e d he hold) hd
      · exact absurd he (hfree e)
    · rw [if_neg hd] at he
      rw [if_neg hd'] at he'
      exact hi.once k e e' he he'
  · rw [outstanding_set]
    split
    · exact hnd
    · exact hi.nodup e

omit [DecidableEq ι] in
theorem Held.client {s : Masters ι} {db : Store} (hi : Held s)
    (hkeep : ∀ k, counter s.db k = some (-1) → counter db k = some (-1)) : Held { s with db := db } :=
  ⟨fun d k hk => hkeep k (hi.tomb d k hk), hi.once, hi.nodup⟩

/-- The rows of a purge or a revert are the daemon's own, so the others' tombstones stay. -/
theorem Held.daemon {s t : Masters ι} {a : MasterStep ι} (hi : Held s) (h : DaemonStep n s a t)
    (ha : ∀ x, a ≠ .client x) : Held t := by
  cases h with
  | client ht => exact absurd rfl (ha _)
  | @claim d order phase hidle hphase =>
    have hzero : ∀ k ∈ phase.outstanding, counter s.db k = some 0 := by
      intro k hk
      rw [hphase] at hk
      exact counter_orphan hk
    have hcount : ∀ k, counter (claimChunks s.db (orphanHashes order s.db expiryHours batchSize)) k =
        if k ∈ phase.outstanding then (counter s.db k).map fun _ => -1 else counter s.db k := by
      intro k
      rw [counter_claimChunks, hphase]
    have hfree : ∀ k ∈ phase.outstanding, ∀ e, k ∉ (s.daemon e).outstanding := by
      intro k hk e he
      have htomb := hi.tomb e k he
      rw [hzero k hk] at htomb
      cases htomb
    refine hi.set (by rw [hphase]; exact nodup_orphanHashes _ _ _ _) (fun k hk => ⟨?_, Or.inr (hfree k hk)⟩) ?_
    · rw [hcount, if_pos hk, hzero k hk]; rfl
    · intro e _ k hk
      rw [hcount, if_neg fun hm => hfree k hm e hk]
      exact hi.tomb e k hk
  | @record d deleted purged phase hsub _ hphase =>
    refine hi.set (by rw [hphase]; exact (hi.nodup d).filter _) (fun k hk => ?_) fun e hne k hk => ?_
    · rw [hphase, List.mem_filter] at hk
      have hout : k ∉ purged := by simpa using hk.2
      rw [counter_deleteChunkRecordsBulk, if_neg fun hm => hout hm.2]
      exact ⟨hi.tomb d k hk.1, Or.inl hk.1⟩
    · rw [counter_deleteChunkRecordsBulk, if_neg fun hm => hne (hi.once k e d hk (hsub k hm.2))]
      exact hi.tomb e k hk
  | @revert d h phase hphase =>
    have hnd := hi.nodup d
    rw [hphase, List.nodup_cons] at hnd
    refine hi.set hnd.2 (fun k hk => ?_) fun e hne k hk => ?_
    · have hmem : k ∈ (s.daemon d).outstanding := by rw [hphase]; exact List.mem_cons_of_mem _ hk
      have hkh : k ≠ h := fun he => hnd.1 (he ▸ hk)
      rw [counter_revertTombstone, if_neg fun hm => hkh hm.2]
      exact ⟨hi.tomb d k hmem, Or.inl hmem⟩
    · have hkh : k ≠ h := by
        rintro rfl
        exact hne (hi.once k e d hk (by rw [hphase]; exact List.mem_cons_self))
      rw [counter_revertTombstone, if_neg fun hm => hkh hm.2]
      exact hi.tomb e k hk

theorem Held.faulty {s : Masters ι} {d : ι} {phase : GcPhase} (hi : Held s)
    (hsub : phase.outstanding.Sublist (s.daemon d).outstanding) : Held (s.set d s.db phase) :=
  hi.set ((hi.nodup d).sublist hsub) (fun k hk => ⟨hi.tomb d k (hsub.subset hk), Or.inl (hsub.subset hk)⟩)
    fun e _ k hk => hi.tomb e k hk

/-! ## Requests -/

/-- A `DELETE` in flight is for a tombstone. -/
def Tombstoned (db : Store) (wire : ChunkWire μ) : Prop :=
  ∀ e ∈ wire.inFlight, ∀ h, e.request.request = .delete h → counter db h = some (-1)

/-- A `DELETE` in flight is the one its chunk's task waits for, or the task has failed. -/
def Awaited (wire : ChunkWire μ) (hash : String) (t : DeleteTask μ) : Prop :=
  ∀ e ∈ wire.inFlight, e.request.request = .delete hash → t.waiting = some e ∨ t.allSuccess = false

/-- The chunk is in the batch that the daemon purges. -/
def GcPhase.isPurging (h : String) : GcPhase → Prop
  | .purging orphans => h ∈ orphans.map OrphanedChunk.hash
  | _ => False

theorem GcPhase.isPurging.outstanding {h : String} {p : GcPhase} (hp : p.isPurging h) : h ∈ p.outstanding := by
  cases p with
  | purging orphans => exact hp
  | idle => exact hp.elim
  | reverting hashes => exact hp.elim

structure FlightInv (s : Masters ι) (task : ι → String → DeleteTask μ) (wire : ChunkWire μ) : Prop where
  counted : Counted s.db
  floored : Floored s.db
  held : Held s
  flight : Tombstoned s.db wire
  awaited : ∀ d h, (s.daemon d).isPurging h → Awaited wire h (task d h)

omit [DecidableEq ι] [DecidableEq μ] in
theorem flightInv_init : FlightInv (Masters.init ι) (fun _ _ => (.start [] : DeleteTask μ)) .empty where
  counted := counted_empty
  floored h m hm := by cases hm
  held := ⟨fun _ _ hm => absurd hm List.not_mem_nil, fun _ _ _ hm => absurd hm List.not_mem_nil, fun _ => List.nodup_nil⟩
  flight e he := by cases he
  awaited d h hp := hp.elim

/-- A handler's transaction leaves a tombstone as it is, if it commits only chunks that are none. -/
theorem StoreStep.tombstone {db db' : Store} {t : Txn} (h : StoreStep n db t db') (hg : t.collects = false)
    (hc : CommitCounted db t) (hi : Counted db) {k : String} (hk : counter db k = some (-1)) :
    counter db' k = some (-1) := by
  by_cases hcount : t.counts = true
  · cases h with
    | quiet h => unfold counter; rw [h.chunks]; exact hk
    | @commit u f s hashes _ h =>
      have hout : k ∉ hashes := by
        intro hm
        obtain ⟨r, hr, hpos⟩ := (hc h.isOk).2 k hm
        have hr' : counter db k = some r.refCount := counter_eq_some.2 ⟨r, hr, rfl⟩
        rw [hk, Option.some.injEq] at hr'
        omega
      rw [h.counter, hk, List.count_eq_zero.2 hout]
      rfl
    | @delete order u f first _ hfirst h =>
      have hout : some k ∉ first.chunks := by
        intro hm
        have hle := h.count_first_le k
        have hsplit := h.references k
        have hone := List.count_pos_iff.2 hm
        have hpos := hi.one_le (by omega) hk
        omega
      rw [h.counter, hk, Option.map_some, if_neg hout]
    | _ => cases hcount
  · rcases h.counter_other (by simpa using hcount) hg k with he | ⟨hnone, -⟩
    · rw [he]; exact hk
    · rw [hnone] at hk; cases hk

variable {s : Masters ι} {task : ι → String → DeleteTask μ} {wire : ChunkWire μ}

omit [DecidableEq ι] [DecidableEq μ] in
/-- **A handler's transaction.** -/
theorem FlightInv.client (hi : FlightInv s task wire) {t : Txn} (ht : t.collects = false) (hc : CommitCounted s.db t) :
    FlightInv { s with db := t.apply n s.db } task wire := by
  have hstep := t.storeStep n s.db
  have hkeep : ∀ k, counter s.db k = some (-1) → counter (t.apply n s.db) k = some (-1) :=
    fun k hk => hstep.tombstone ht hc hi.counted hk
  refine ⟨hstep.counted hc hi.counted, hstep.floored hi.counted hi.floored, hi.held.client hkeep, ?_, hi.awaited⟩
  intro e he h hdel
  exact hkeep h (hi.flight e he h hdel)

omit [DecidableEq ι] [DecidableEq μ] in
/-- Requests that are no `DELETE`s come and go, and those in flight get fewer. -/
theorem FlightInv.requests (hi : FlightInv s task wire) {wire' : ChunkWire μ}
    (hsub : ∀ e ∈ wire'.inFlight, e ∈ wire.inFlight ∨ ∀ h, e.request.request ≠ .delete h) : FlightInv s task wire' where
  counted := hi.counted
  floored := hi.floored
  held := hi.held
  flight e he h hdel := by
    rcases hsub e he with hold | hno
    · exact hi.flight e hold h hdel
    · exact absurd hdel (hno h)
  awaited d h hp e he hdel := by
    rcases hsub e he with hold | hno
    · exact hi.awaited d h hp e hold hdel
    · exact absurd hdel (hno h)

/-- What a task's step does to the requests in flight and to the task. -/
theorem stepTask_spec {wire wire' : ChunkWire μ} {hash : String} {t t' : DeleteTask μ} {e : TaskEvent}
    (h : stepTask net wire hash t e = some (t', wire')) (hi : Awaited wire hash t) :
    Awaited wire' hash t' ∧ ∀ x ∈ wire'.inFlight, x ∈ wire.inFlight ∨ x.request.request = .delete hash := by
  cases e with
  | send =>
    simp only [stepTask] at h
    split at h
    · rename_i loc rest hwait hloc
      simp only [Option.some.injEq, Prod.mk.injEq] at h
      obtain ⟨rfl, rfl⟩ := h
      refine ⟨fun x hx hdel => ?_, fun x hx => ?_⟩
      · rcases Wire.mem_send.1 hx with rfl | hx
        · exact Or.inl rfl
        · rcases hi x hx hdel with hw | hfail
          · rw [hwait] at hw; cases hw
          · exact Or.inr hfail
      · rcases Wire.mem_send.1 hx with rfl | hx
        · exact Or.inr rfl
        · exact Or.inl hx
    · cases h
  | answer r =>
    simp only [stepTask] at h
    split at h
    · rename_i x₀ hwait
      split at h
      · rename_i hreply
        simp only [Option.some.injEq, Prod.mk.injEq] at h
        obtain ⟨rfl, rfl⟩ := h
        refine ⟨fun x hx hdel => ?_, fun x hx => Or.inl hx⟩
        rcases hi x hx hdel with hw | hfail
        · rw [hwait, Option.some.injEq] at hw
          subst hw
          exact absurd hx (Wire.not_inFlight_of_replied hreply)
        · exact Or.inr (by simp [hfail])
      · cases h
    · cases h
  | fail =>
    simp only [stepTask, Option.map_eq_some_iff, Prod.mk.injEq] at h
    obtain ⟨x₀, -, rfl, rfl⟩ := h
    exact ⟨fun x _ _ => Or.inr rfl, fun x hx => Or.inl hx⟩
  | abort =>
    simp only [stepTask, Option.some.injEq, Prod.mk.injEq] at h
    obtain ⟨rfl, rfl⟩ := h
    exact ⟨fun x _ _ => Or.inr rfl, fun x hx => Or.inl hx⟩

/-- **A task's step.** Nobody else's task is for the same chunk. -/
theorem FlightInv.taskStep (hi : FlightInv s task wire) {d : ι} {hash : String} {e : TaskEvent}
    {res : DeleteTask μ × ChunkWire μ} (hp : (s.daemon d).isPurging hash)
    (h : stepTask net wire hash (task d hash) e = some res) :
    FlightInv s (Function.update task d (Function.update (task d) hash res.1)) res.2 := by
  obtain ⟨hawait, hnew⟩ := stepTask_spec h (hi.awaited d hash hp)
  have htomb := hi.held.tomb d hash hp.outstanding
  refine ⟨hi.counted, hi.floored, hi.held, fun x hx k hdel => ?_, fun d' k hp' x hx hdel => ?_⟩
  · rcases hnew x hx with hold | hh
    · exact hi.flight x hold k hdel
    · rw [hh, ChunkRequest.delete.injEq] at hdel
      exact hdel ▸ htomb
  · by_cases hk : k = hash
    · subst hk
      obtain rfl : d' = d := hi.held.once k d' d hp'.outstanding hp.outstanding
      simp only [Function.update_self]
      exact hawait x hx hdel
    · have hsame : Function.update task d (Function.update (task d) hash res.1) d' k = task d' k := by
        rw [Function.update_apply]
        split
        · rename_i hd; subst hd; rw [Function.update_of_ne hk]
        · rfl
      rw [hsame]
      rcases hnew x hx with hold | hh
      · exact hi.awaited d' k hp' x hold hdel
      · rw [hh, ChunkRequest.delete.injEq] at hdel
        exact absurd hdel.symm hk

/-- Only a claim puts a daemon into a batch. -/
theorem stepMasters_isPurging {t : Masters ι} {a : MasterStep ι} (h : stepMasters n s a = some t) {d : ι} {k : String}
    (hp : (t.daemon d).isPurging k) :
    (s.daemon d).isPurging k ∨ s.daemon d = .idle ∧ ∃ order fault, a = .claim d order fault := by
  have hset : ∀ (e : ι) (db : Store) (phase : GcPhase), t = s.set e db phase → d ≠ e ∨ ¬ phase.isPurging k →
      (s.daemon d).isPurging k := by
    intro e db phase ht hor
    subst ht
    simp only [Masters.set, Function.update_apply] at hp
    split at hp
    · rename_i hd
      rcases hor with hne | hno
      · exact absurd hd hne
      · exact absurd hp hno
    · exact hp
  have hrev : ∀ hs, ¬ (startReverting hs).isPurging k := by
    intro hs
    cases hs <;> exact id
  cases a with
  | client x =>
    simp only [stepMasters] at h
    split at h
    · cases h
    · cases h; exact Or.inl hp
  | claim e order fault =>
    simp only [stepMasters] at h
    split at h
    · rename_i hidle
      simp only [Option.some.injEq] at h
      by_cases hd : d = e
      · subst hd; exact Or.inr ⟨hidle, order, fault, rfl⟩
      · exact Or.inl (hset e _ _ h.symm (Or.inl hd))
    · cases h
  | record e deleted ok =>
    simp only [stepMasters] at h
    split at h
    · simp only [Option.some.injEq] at h
      exact Or.inl (hset e _ _ h.symm (Or.inr (hrev _)))
    · cases h
  | revert e ok =>
    simp only [stepMasters] at h
    split at h
    · simp only [Option.some.injEq] at h
      exact Or.inl (hset e _ _ h.symm (Or.inr (hrev _)))
    · cases h
  | crash e =>
    simp only [stepMasters, Option.some.injEq] at h
    exact Or.inl (hset e _ _ h.symm (Or.inr id))

omit [DecidableEq ι] [DecidableEq κ] [DecidableEq μ] in
/-- A purged chunk's task has had all its answers. -/
theorem gcEnabled_record {s : Cluster ι κ μ} {d : ι} {deleted : List String} {ok : Bool}
    (hen : gcEnabled s (.record d deleted ok) = true) {h : String} (hd : h ∈ deleted)
    (ho : h ∈ (s.masters.daemon d).outstanding) :
    (s.masters.daemon d).isPurging h ∧ (s.task d h).waiting = none ∧ (s.task d h).allSuccess = true := by
  simp only [gcEnabled] at hen
  split at hen
  · rename_i orphans hph
    rw [hph] at ho ⊢
    obtain ⟨o, hmem, rfl⟩ := List.mem_map.1 ho
    have hdone := List.all_eq_true.1 hen o hmem
    simp only [DeleteTask.finished, Bool.and_eq_true, Option.isNone_iff_eq_none, beq_iff_eq] at hdone
    refine ⟨ho, hdone.1.2, ?_⟩
    rw [← hdone.2]
    simpa using hd
  · cases hen

omit [DecidableEq κ] [DecidableEq μ] in
/-- **A daemon's step.** -/
theorem FlightInv.gc {s : Cluster ι κ μ} (hi : FlightInv s.masters s.task s.wire) {a : MasterStep ι} {m : Masters ι}
    (hen : gcEnabled s a = true) (h : stepMasters n s.masters a = some m) (hc : NoLateDelete s (.gc a)) :
    FlightInv m (gcTasks s m a) s.wire := by
  have ha : ∀ x, a ≠ .client x := by
    rintro x rfl
    cases hen
  have htasks : ∀ d k, (s.masters.daemon d).isPurging k → gcTasks s m a d k = s.task d k ∨ s.masters.daemon d = .idle := by
    intro d k hp
    cases a with
    | claim e order fault =>
      by_cases hd : d = e
      · subst hd
        simp only [stepMasters] at h
        split at h
        · rename_i hidle; exact Or.inr hidle
        · cases h
      · exact Or.inl (by simp only [gcTasks, Function.update_of_ne hd])
    | _ => exact Or.inl rfl
  -- a chunk a daemon has just claimed has no request in flight
  have hawait : (∀ d k, s.masters.daemon d = .idle → k ∈ (m.daemon d).outstanding → counter s.masters.db k ≠ some (-1)) →
      ∀ d k, (m.daemon d).isPurging k → Awaited s.wire k (gcTasks s m a d k) := by
    intro hclaim d k hp e he hdel
    rcases stepMasters_isPurging h hp with hold | ⟨hidle, -⟩
    · rcases htasks d k hold with hsame | hidle
      · rw [hsame]; exact hi.awaited d k hold e he hdel
      · rw [hidle] at hold; exact hold.elim
    · exact absurd (hi.flight e he k hdel) (hclaim d k hidle hp.outstanding)
  by_cases hf : FaultFree a
  · have hstep := stepMasters_cases h hf
    have hheld := hi.held.daemon hstep ha
    cases hstep with
    | client ht => exact absurd rfl (ha _)
    | @claim d order phase hidle hphase =>
      have hst : StoreStep n s.masters.db (.getOrphanedChunks order none expiryHours batchSize)
          (claimChunks s.masters.db (orphanHashes order s.masters.db expiryHours batchSize)) := .claim
      refine ⟨hst.counted trivial hi.counted, hst.floored hi.counted hi.floored, hheld, fun e he k hdel => ?_,
        hawait fun e k hie hk => ?_⟩
      · have htomb := hi.flight e he k hdel
        show counter (claimChunks _ _) k = _
        rw [counter_claimChunks, if_neg, htomb]
        intro hm
        rw [counter_orphan hm] at htomb
        cases htomb
      · rw [outstanding_set] at hk
        split at hk
        · rw [hphase] at hk
          rw [counter_orphan hk]
          simp
        · rw [hie] at hk
          cases hk
    | @record d deleted purged phase hsub hdeleted hphase =>
      have hst : StoreStep n s.masters.db (.deleteChunkRecordsBulk purged) (deleteChunkRecordsBulk s.masters.db purged) :=
        .purge
      refine ⟨hst.counted trivial hi.counted, hst.floored hi.counted hi.floored, hheld, fun e he k hdel => ?_,
        hawait fun e k hie hk => ?_⟩
      · have htomb := hi.flight e he k hdel
        show counter (deleteChunkRecordsBulk _ _) k = _
        rw [counter_deleteChunkRecordsBulk, if_neg, htomb]
        rintro ⟨-, hm⟩
        obtain ⟨hp, hwait, hsucc⟩ := gcEnabled_record hen (hdeleted k hm) (hsub k hm)
        rcases hi.awaited d k hp e he hdel with hw | hfail
        · rw [hwait] at hw; cases hw
        · rw [hsucc] at hfail; cases hfail
      · rw [outstanding_set] at hk
        split at hk
        · rename_i he
          rw [hphase, ← he, hie] at hk
          cases hk
        · rw [hie] at hk
          cases hk
    | @revert d k phase hphase =>
      have hst : StoreStep n s.masters.db (.revertTombstone k) (revertTombstone s.masters.db k) := .revert
      refine ⟨hst.counted trivial hi.counted, hst.floored hi.counted hi.floored, hheld, fun e he j hdel => ?_,
        hawait fun e j hie hj => ?_⟩
      · have htomb := hi.flight e he j hdel
        show counter (revertTombstone _ _) j = _
        rw [counter_revertTombstone, if_neg, htomb]
        rintro ⟨-, rfl⟩
        exact hc j (by rw [hphase]; rfl) e he hdel
      · rw [outstanding_set] at hj
        split at hj
        · rename_i he
          rw [← he, hie] at hphase
          cases hphase
        · rw [hie] at hj
          cases hj
  · have hstray : strayOrphans s.masters.db a = [] := by
      cases a with
      | revert d ok => rfl
      | client x => rfl
      | claim d order fault => exact hc
      | record d deleted ok => rfl
      | crash d => rfl
    obtain ⟨d, phase, rfl, hsub⟩ := stepMasters_faulty h hf hstray
    refine ⟨hi.counted, hi.floored, hi.held.faulty hsub, hi.flight, hawait fun e k hie hk => ?_⟩
    rw [outstanding_set] at hk
    split at hk
    · rename_i he
      have hk' := hsub.subset hk
      rw [← he, hie] at hk'
      cases hk'
    · rw [hie] at hk
      cases hk

end StorageEngine
