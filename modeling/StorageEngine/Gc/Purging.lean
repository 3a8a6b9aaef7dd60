import StorageEngine.Gc.Tombstones

/-!
# What the physical deletes are sent for

A daemon sends its deletes on the strength of the list `GetOrphanedChunks` returns. `PurgesTombstones` says
that this is sound: while they run, every chunk of the batch carries a committed `ref_count = -1`. A claim
keeps that law exactly when it does not fail with rows in hand (`ClaimSound`); the other steps are those that
move the count of a chunk somebody is purging (`PurgesSafely`).
-/

namespace StorageEngine

open Relational Transition

/-! ## One claim -/

/-- The query has rows: some chunk is an orphan, and the limit is not zero. -/
def orphansFound (db : Store) (expiryHours limit : Nat) : Bool :=
  limit != 0 && !(db.chunks.select (isOrphan expiryHours db.now)).isEmpty

/-- The call does not fail after a row of its answer was decoded. -/
def ClaimSound (fault : Option ClaimFault) (db : Store) (expiryHours limit : Nat) : Prop :=
  match fault with
  | none | some .query | some (.decode 0) => True
  | some (.decode (_ + 1)) | some .commit => orphansFound db expiryHours limit = false

/-- Every hash of the list has its `ref_count = -1` in the store the call leaves. -/
def ListCommitted (order : List String) (fault : Option ClaimFault) (db : Store) (expiryHours limit : Nat) : Prop :=
  ∀ o ∈ (getOrphanedChunks order fault db expiryHours limit).2,
    counter (getOrphanedChunks order fault db expiryHours limit).1 o.hash = some (-1)

theorem orphanHashes_eq_nil {order : List String} {db : Store} {expiryHours limit : Nat} :
    orphanHashes order db expiryHours limit = [] ↔ orphansFound db expiryHours limit = false := by
  have hlen := (scan_perm (nodup_select db.chunks (isOrphan expiryHours db.now)) order).length_eq
  have hnil : scan order (db.chunks.select (isOrphan expiryHours db.now)) = [] ↔
      db.chunks.select (isOrphan expiryHours db.now) = [] := by
    rw [← List.length_eq_zero_iff, ← List.length_eq_zero_iff, hlen]
  simp only [orphanHashes, List.map_eq_nil_iff, List.take_eq_nil_iff, hnil, orphansFound, Bool.and_eq_false_iff,
    bne_eq_false_iff_eq, Bool.not_eq_false', List.isEmpty_iff]

theorem mem_orphans {order : List String} {db : Store} {expiryHours limit : Nat} {o : OrphanedChunk}
    (ho : o ∈ (orphanHashes order db expiryHours limit).map (orphanOf db)) :
    o.hash ∈ orphanHashes order db expiryHours limit := by
  obtain ⟨h, hh, rfl⟩ := List.mem_map.1 ho
  exact hh

theorem counter_claimed {order : List String} {db : Store} {expiryHours limit : Nat} {h : String}
    (hh : h ∈ orphanHashes order db expiryHours limit) :
    counter (claimChunks db (orphanHashes order db expiryHours limit)) h = some (-1) := by
  rw [counter_claimChunks, if_pos hh, counter_orphan hh]
  rfl

/-- A rolled back claim leaves its hashes at zero, so only an empty list is sound. -/
theorem orphans_uncommitted {order : List String} {db : Store} {expiryHours limit : Nat} {os : List OrphanedChunk}
    (hsub : ∀ o ∈ os, o ∈ (orphanHashes order db expiryHours limit).map (orphanOf db)) :
    (∀ o ∈ os, counter db o.hash = some (-1)) ↔ os = [] := by
  constructor
  · intro hall
    rw [List.eq_nil_iff_forall_not_mem]
    intro o ho
    have hzero := counter_orphan (mem_orphans (hsub o ho))
    rw [hall o ho] at hzero
    cases hzero
  · rintro rfl
    simp

theorem take_orphans_eq_nil {order : List String} {db : Store} {expiryHours limit row : Nat} :
    ((orphanHashes order db expiryHours limit).map (orphanOf db)).take row = [] ↔
      row = 0 ∨ orphansFound db expiryHours limit = false := by
  rw [List.take_eq_nil_iff, List.map_eq_nil_iff, orphanHashes_eq_nil]

/-- **One claim**: what it returns is committed exactly when it did not fail with rows in hand. -/
theorem listCommitted_iff (order : List String) (fault : Option ClaimFault) (db : Store) (expiryHours limit : Nat) :
    ListCommitted order fault db expiryHours limit ↔ ClaimSound fault db expiryHours limit := by
  rcases fault with _ | _ | row | _
  · refine iff_of_true (fun o ho => ?_) trivial
    exact counter_claimed (mem_orphans ho)
  · exact iff_of_true (fun o ho => by cases ho) trivial
  · refine (orphans_uncommitted (fun o ho => List.mem_of_mem_take ho)).trans (take_orphans_eq_nil.trans ?_)
    cases row <;> simp [ClaimSound]
  · refine (orphans_uncommitted (fun o ho => ho)).trans ?_
    rw [List.map_eq_nil_iff, orphanHashes_eq_nil]
    rfl

/-! ## Runs -/

variable {ι : Type} [DecidableEq ι]

/-- The hashes whose physical deletes a daemon is sending. -/
def GcPhase.purges : GcPhase → List String
  | .purging orphans => orphans.map OrphanedChunk.hash
  | _ => []

/-- **Physical deletes are sent only for chunks that are tombstoned.** -/
def PurgesTombstones (s : Masters ι) : Prop := ∀ d, ∀ h ∈ (s.daemon d).purges, counter s.db h = some (-1)

/-- Some daemon is sending deletes of the chunk. -/
def Purging (s : Masters ι) (h : String) : Prop := ∃ d, h ∈ (s.daemon d).purges

/-- A claim does not fail with rows in hand; a commit, a deletion and another daemon's revert leave the count
of a chunk alone while deletes of it are under way. -/
def PurgesSafely (s : Masters ι) : MasterStep ι → Prop
  | .claim _ _ fault => ClaimSound fault s.db expiryHours batchSize
  | .client (.commitFile u f size hashes) => (commitFile s.db u f size hashes).isOk → ∀ h ∈ hashes, ¬ Purging s h
  | .client (.deleteFile order u f) => ∀ first ∈ (fileRows order s.db u f).head?,
      ∀ h, some h ∈ first.chunks → ¬ Purging s h
  | .revert d ok => ok = true → ∀ h rest, s.daemon d = .reverting (h :: rest) → ¬ Purging s h
  | _ => True

/-- No two daemons purge one chunk. -/
def PurgedOnce (s : Masters ι) : Prop :=
  ∀ h d d', h ∈ (s.daemon d).purges → h ∈ (s.daemon d').purges → d = d'

@[simp] theorem purges_startPurging (orphans : List OrphanedChunk) :
    (startPurging orphans).purges = orphans.map OrphanedChunk.hash := by
  cases orphans <;> rfl

@[simp] theorem purges_startReverting (hashes : List String) : (startReverting hashes).purges = [] := by
  cases hashes <;> rfl

theorem purges_set (s : Masters ι) (d e : ι) (db : Store) (phase : GcPhase) :
    ((s.set d db phase).daemon e).purges = if e = d then phase.purges else (s.daemon e).purges := by
  unfold Masters.set
  by_cases he : e = d
  · subst he; simp
  · simp [he]

/-- A daemon that is not purging is left; the tombstones of the others are to stay. -/
theorem purgesTombstones_set {s : Masters ι} {d : ι} {db : Store} {phase : GcPhase} (hphase : phase.purges = [])
    (hkeep : ∀ e, e ≠ d → ∀ h ∈ (s.daemon e).purges, counter db h = some (-1)) :
    PurgesTombstones (s.set d db phase) := by
  intro e h hh
  rw [purges_set] at hh
  split at hh
  · rw [hphase] at hh; cases hh
  · rename_i he; exact hkeep e he h hh

theorem purgedOnce_set {s : Masters ι} {d : ι} {db : Store} {phase : GcPhase} (hj : PurgedOnce s)
    (hphase : ∀ h ∈ phase.purges, h ∈ (s.daemon d).purges) : PurgedOnce (s.set d db phase) := by
  have hmem : ∀ h e, h ∈ ((s.set d db phase).daemon e).purges → h ∈ (s.daemon e).purges := by
    intro h e hh
    rw [purges_set] at hh
    split at hh
    · rename_i he; exact he ▸ hphase h hh
    · exact hh
  exact fun h e e' he he' => hj h e e' (hmem h e he) (hmem h e' he')

/-! ### Handlers -/

omit [DecidableEq ι] in
theorem purging_commit {s : Masters ι} {u : Int} {f : String} {size : Int} {hashes : List String} {db : Store}
    (hp : PurgesTombstones s) (h : CommitEffect s.db u f size hashes db) :
    PurgesTombstones { s with db := db } ↔ ∀ k ∈ hashes, ¬ Purging s k := by
  constructor
  · rintro hall k hk ⟨d, hd⟩
    have hcount := List.count_pos_iff.2 hk
    have hafter : counter db k = some (-1) := hall d k hd
    rw [h.counter, hp d k hd, Option.map_some, Option.some.injEq] at hafter
    omega
  · intro hno d k hd
    have hout : k ∉ hashes := fun hk => hno k hk ⟨d, hd⟩
    show counter db k = some (-1)
    rw [h.counter, hp d k hd, List.count_eq_zero.2 hout]
    rfl

omit [DecidableEq ι] in
theorem purging_delete {s : Masters ι} {u : Int} {f : String} {first : FileRow} {db : Store}
    (hp : PurgesTombstones s) (h : DeleteEffect s.db u f first db) :
    PurgesTombstones { s with db := db } ↔ ∀ k, some k ∈ first.chunks → ¬ Purging s k := by
  constructor
  · rintro hall k hk ⟨d, hd⟩
    have hafter : counter db k = some (-1) := hall d k hd
    rw [h.counter, hp d k hd, Option.map_some, if_pos hk, Option.some.injEq] at hafter
    omega
  · intro hno d k hd
    have hout : some k ∉ first.chunks := fun hk => hno k hk ⟨d, hd⟩
    show counter db k = some (-1)
    rw [h.counter, hp d k hd, Option.map_some, if_neg hout]

omit [DecidableEq ι] in
theorem purging_handler (n : Nat) {s : Masters ι} {t : Txn} (ht : t.collects = false) (hp : PurgesTombstones s) :
    PurgesTombstones { s with db := t.apply n s.db } ↔ PurgesSafely s (.client t) := by
  by_cases hc : t.counts = true
  · cases t with
    | commitFile u f size hashes =>
      simp only [Txn.apply, PurgesSafely]
      cases hok : StorageEngine.commitFile s.db u f size hashes with
      | error e => exact iff_of_true hp fun h => by cases h
      | ok db' =>
        have heff := purging_commit hp (commitFile_ok.1 hok)
        exact heff.trans ⟨fun h _ => h, fun h => h rfl⟩
    | deleteFile order u f =>
      simp only [Txn.apply, PurgesSafely]
      rcases deleteFile_cases order s.db u f with ⟨hnone, h⟩ | ⟨first, db', hfirst, h, heff⟩
      · rw [h]
        refine iff_of_true hp fun first hfirst => ?_
        obtain ⟨id, hid, hname⟩ := mem_fileRows.1 (List.mem_of_mem_head? hfirst)
        exact absurd hname (hnone id first hid)
      · rw [h, hfirst]
        simp only [Option.mem_some_iff, forall_eq']
        exact purging_delete hp heff
    | _ => cases hc
  · have hsafe : PurgesSafely s (.client t) := by cases t <;> trivial
    refine iff_of_true (fun d k hd => ?_) hsafe
    rcases (t.storeStep n s.db).counter_other (by simpa using hc) ht k with he | ⟨hnone, -⟩
    · exact he.trans (hp d k hd)
    · have htomb := hp d k hd
      rw [hnone] at htomb
      cases htomb

/-! ### Daemons -/

theorem purging_claim {s : Masters ι} {d : ι} {order : List String} {fault : Option ClaimFault}
    (hp : PurgesTombstones s) (hj : PurgedOnce s) :
    let res := getOrphanedChunks order fault s.db expiryHours batchSize
    (PurgesTombstones (s.set d res.1 (startPurging res.2)) ↔ ClaimSound fault s.db expiryHours batchSize) ∧
      (ClaimSound fault s.db expiryHours batchSize → PurgedOnce (s.set d res.1 (startPurging res.2))) := by
  intro res
  -- the tombstones of the other batches are no orphans, so no claim moves them
  have hothers : ∀ e, ∀ h ∈ (s.daemon e).purges, counter res.1 h = some (-1) := by
    intro e h hh
    have htomb := hp e h hh
    rcases fault with _ | _ | _ | _
    · show counter (claimChunks _ _) h = _
      rw [counter_claimChunks, htomb]
      split <;> rfl
    all_goals exact htomb
  have hiff : PurgesTombstones (s.set d res.1 (startPurging res.2)) ↔
      ListCommitted order fault s.db expiryHours batchSize := by
    constructor
    · intro hall o ho
      refine hall d o.hash ?_
      rw [purges_set, if_pos rfl, purges_startPurging]
      exact List.mem_map_of_mem ho
    · intro hall e h hh
      rw [purges_set] at hh
      split at hh
      · rw [purges_startPurging] at hh
        obtain ⟨o, ho, rfl⟩ := List.mem_map.1 hh
        exact hall o ho
      · exact hothers e h hh
  refine ⟨hiff.trans (listCommitted_iff ..), fun hsound => ?_⟩
  have hmine : ∀ h ∈ (startPurging res.2).purges, ∀ e, h ∉ (s.daemon e).purges := by
    intro h hh e he
    rw [purges_startPurging] at hh
    obtain ⟨o, ho, rfl⟩ := List.mem_map.1 hh
    have hmem : o ∈ (orphanHashes order s.db expiryHours batchSize).map (orphanOf s.db) := by
      rcases fault with _ | _ | _ | _
      · exact ho
      · cases ho
      · exact List.mem_of_mem_take ho
      · exact ho
    have hzero := counter_orphan (mem_orphans hmem)
    rw [hp e _ he] at hzero
    cases hzero
  intro h e e' he he'
  rw [purges_set] at he he'
  by_cases hed : e = d <;> by_cases hed' : e' = d
  · rw [hed, hed']
  · rw [if_pos hed] at he
    rw [if_neg hed'] at he'
    exact absurd he' (hmine h he e')
  · rw [if_neg hed] at he
    rw [if_pos hed'] at he'
    exact absurd he (hmine h he' e)
  · rw [if_neg hed] at he
    rw [if_neg hed'] at he'
    exact hj h e e' he he'

/-- Neither a recording nor a crash moves the tombstone of a batch that is still being purged. -/
theorem purging_record {s : Masters ι} {d : ι} {deleted : List String} {ok : Bool} {t : Masters ι} {n : Nat}
    (h : stepMasters n s (.record d deleted ok) = some t) (hp : PurgesTombstones s) (hj : PurgedOnce s) :
    PurgesTombstones t ∧ PurgedOnce t := by
  simp only [stepMasters] at h
  split at h
  · rename_i orphans hd
    cases h
    refine ⟨purgesTombstones_set (purges_startReverting _) fun e he k hk => ?_,
      purgedOnce_set hj fun k hk => by rw [purges_startReverting] at hk; cases hk⟩
    split
    · rw [counter_deleteChunkRecordsBulk, if_neg]
      · exact hp e k hk
      · rintro ⟨-, hin⟩
        refine he (hj k e d hk ?_)
        rw [hd]
        exact (List.mem_filter.1 hin).1
    · exact hp e k hk
  · cases h

theorem purging_revert {s : Masters ι} {d : ι} {ok : Bool} {t : Masters ι} {n : Nat}
    (h : stepMasters n s (.revert d ok) = some t) (hp : PurgesTombstones s) (hj : PurgedOnce s) :
    (PurgesTombstones t ↔ PurgesSafely s (.revert d ok)) ∧ PurgedOnce t := by
  simp only [stepMasters] at h
  split at h
  · rename_i g rest hd
    cases h
    refine ⟨?_, purgedOnce_set hj fun k hk => by rw [purges_startReverting] at hk; cases hk⟩
    have hother : ∀ e k, k ∈ (s.daemon e).purges → e ≠ d := by
      rintro e k hk rfl
      rw [hd] at hk
      cases hk
    constructor
    · rintro hall rfl k rest' hk ⟨e, he⟩
      rw [hd, GcPhase.reverting.injEq, List.cons.injEq] at hk
      have hafter := hall e k (by rw [purges_set, if_neg (hother e k he)]; exact he)
      simp only [Masters.set, ↓reduceIte] at hafter
      rw [counter_revertTombstone, if_pos ⟨hp e k he, hk.1.symm⟩] at hafter
      cases hafter
    · intro hsafe
      refine purgesTombstones_set (purges_startReverting _) fun e _ k hk => ?_
      split
      · rename_i hok
        rw [counter_revertTombstone, if_neg]
        · exact hp e k hk
        · rintro ⟨-, rfl⟩
          exact hsafe hok k rest hd ⟨e, hk⟩
      · exact hp e k hk
  · cases h

/-- **One step** of masters and daemons. -/
theorem purging_step {n : Nat} {s t : Masters ι} {a : MasterStep ι} (h : stepMasters n s a = some t)
    (hp : PurgesTombstones s) (hj : PurgedOnce s) :
    (PurgesTombstones t ↔ PurgesSafely s a) ∧ (PurgesSafely s a → PurgedOnce t) := by
  cases a with
  | client x =>
    simp only [stepMasters] at h
    split at h
    · cases h
    · rename_i hx
      cases h
      exact ⟨purging_handler n (by simpa using hx) hp, fun _ => hj⟩
  | claim d order fault =>
    simp only [stepMasters] at h
    split at h
    · cases h
      exact purging_claim hp hj
    · cases h
  | record d deleted ok =>
    obtain ⟨hpt, hjt⟩ := purging_record h hp hj
    exact ⟨iff_of_true hpt trivial, fun _ => hjt⟩
  | revert d ok =>
    obtain ⟨hpt, hjt⟩ := purging_revert h hp hj
    exact ⟨hpt, fun _ => hjt⟩
  | crash d =>
    cases h
    refine ⟨iff_of_true (purgesTombstones_set rfl fun e _ k hk => hp e k hk) trivial, fun _ => ?_⟩
    exact purgedOnce_set hj fun k hk => by cases hk

/-- **A failed claim is acted on exactly when it fails with rows in hand.** For one call: the list is committed
unless the call fails after a row was decoded. For every run from any store: deletes are sent for tombstones
only, exactly when no claim so fails and nobody moves the count of a chunk while deletes of it are under way. -/
theorem claims_committed_iff (n : Nat) (db : Store) :
    (∀ order fault expiry limit, ListCommitted order fault db expiry limit ↔ ClaimSound fault db expiry limit) ∧
    ∀ steps : List (MasterStep ι), Always (stepMasters n) PurgesTombstones ⟨db, fun _ => .idle⟩ steps ↔
      EachStep (stepMasters n) PurgesSafely ⟨db, fun _ => .idle⟩ steps := by
  refine ⟨fun order fault expiry limit => listCommitted_iff order fault db expiry limit, fun steps => ?_⟩
  refine Always.iff_eachStep (J := PurgedOnce) (fun s a t hj hp _ hc ht => (purging_step ht hp hj).2 hc)
    (fun s a t hj hp _ ht => (purging_step ht hp hj).1) (eachStep_true steps _) ?_ ?_
  · intro h d d' hd
    cases hd
  · intro d h hd
    cases hd

/-- An upload-init of a chunk nobody commits, two days before the claim. -/
def abandonedUpload : List (MasterStep Unit) := sampleSetup.map .client ++
  [.client (.filterMissingChunks [sampleHash]), .client (.tick (hours 48))]

/-- The claim fails at its commit: the list it returns is not committed, and the daemon goes on with a chunk
whose count is still zero. -/
theorem failedCommit_purges_live :
    (¬ ∀ order fault db expiry limit, ListCommitted order fault db expiry limit) ∧
    ¬ ∀ steps : List (MasterStep Unit), Always (stepMasters 4) PurgesTombstones (Masters.init Unit) steps := by
  have hbefore : (exec (stepMasters 4) (Masters.init Unit) abandonedUpload).any
      (fun s => orphansFound s.db expiryHours batchSize) = true := by decide +kernel
  have hafter : (exec (stepMasters 4) (Masters.init Unit) (abandonedUpload ++ [.claim () [] (some .commit)])).any
      (fun s => (s.daemon ()).purges == [sampleHash] && counter s.db sampleHash == some 0) = true := by
    decide +kernel
  constructor
  · intro hall
    obtain ⟨s, -, hfound⟩ := (Option.any_eq_true ..).1 hbefore
    have hsound : orphansFound s.db expiryHours batchSize = false :=
      (listCommitted_iff [] (some .commit) s.db expiryHours batchSize).1 (hall _ _ _ _ _)
    rw [hfound] at hsound
    cases hsound
  · intro hruns
    obtain ⟨s, hs, he⟩ := (Option.any_eq_true ..).1 hafter
    rw [Bool.and_eq_true, beq_iff_eq, beq_iff_eq] at he
    have htomb := always_iff_prefix.1 (hruns _) _ s (List.prefix_refl _) hs () sampleHash (by rw [he.1]; simp)
    rw [he.2] at htomb
    cases htomb

end StorageEngine
