import StorageEngine.Gc.Daemon
import StorageEngine.Metadata.References

/-!
# Tombstones and batches

`ref_count = -1` is meant to say "some daemon holds this chunk". `Disciplined` is that law; the daemons
keep it, and a handler's transaction keeps it exactly when it leaves tombstones and counts at zero alone
(`RespectsTombstones`). `CommitFile` and `DeleteFile` change the count without looking at it, so nothing in
the store makes them do so.
-/

namespace StorageEngine

open Relational Transition

variable {ι : Type} [DecidableEq ι]

/-- Counts are at least `-1`, and `-1` stands exactly at the hashes of the unresolved batches, which
share no hash. -/
structure Disciplined (s : Masters ι) : Prop where
  floor : ∀ h m, counter s.db h = some m → -1 ≤ m
  tomb : ∀ h, counter s.db h = some (-1) ↔ ∃ d, h ∈ (s.daemon d).outstanding
  once : ∀ h d d', h ∈ (s.daemon d).outstanding → h ∈ (s.daemon d').outstanding → d = d'

/-- No batch holds a hash twice. -/
def BatchesNodup (s : Masters ι) : Prop := ∀ d, (s.daemon d).outstanding.Nodup

/-- A `CommitFile` increments no tombstone, a `DeleteFile` decrements only counts above zero. -/
def RespectsTombstones (s : Masters ι) : MasterStep ι → Prop
  | .client (.commitFile u f size hashes) => (commitFile s.db u f size hashes).isOk →
      ∀ h ∈ hashes, counter s.db h ≠ some (-1)
  | .client (.deleteFile order u f) => ∀ first ∈ (fileRows order s.db u f).head?,
      ∀ x ∈ first.chunks, ∀ h ∈ x, ∀ m ∈ counter s.db h, 1 ≤ m
  | _ => True

instance (s : Masters ι) : (a : MasterStep ι) → Decidable (RespectsTombstones s a)
  | .client (.commitFile u f size hashes) =>
    inferInstanceAs (Decidable ((commitFile s.db u f size hashes).isOk → ∀ h ∈ hashes, _))
  | .client (.deleteFile order u f) =>
    inferInstanceAs (Decidable (∀ first ∈ (fileRows order s.db u f).head?, ∀ x ∈ first.chunks, _))
  | .client (.createUser ..) | .client (.registerWorker ..) | .client (.filterMissingChunks _) |
  .client (.getOrphanedChunks ..) | .client (.deleteChunkRecordsBulk _) | .client (.revertTombstone _) |
  .client (.addCluster ..) | .client (.replaceCluster ..) | .client (.tick _) |
  .claim .. | .record .. | .revert .. | .crash _ => .isTrue trivial

omit [DecidableEq ι] in
theorem disciplined_init : Disciplined (Masters.init ι) where
  floor h m hm := by cases hm
  tomb h := by
    refine iff_of_false (fun hm => by cases hm) ?_
    rintro ⟨d, hd⟩
    cases hd
  once h d d' hd := by cases hd

/-! ## Handlers -/

omit [DecidableEq ι] in
/-- A handler's transaction keeps the law exactly when the tombstones it leaves are those it found. -/
theorem disciplined_client {s : Masters ι} {db : Store} (hi : Disciplined s) :
    Disciplined { s with db := db } ↔
      ∀ h, (∀ m, counter db h = some m → -1 ≤ m) ∧ (counter db h = some (-1) ↔ counter s.db h = some (-1)) := by
  constructor
  · intro hd h
    exact ⟨hd.floor h, (hd.tomb h).trans (hi.tomb h).symm⟩
  · intro hall
    exact ⟨fun h => (hall h).1, fun h => (hall h).2.trans (hi.tomb h), hi.once⟩

omit [DecidableEq ι] in
theorem disciplined_commit {s : Masters ι} {u : Int} {f : String} {size : Int} {hashes : List String} {db : Store}
    (hi : Disciplined s) (h : CommitEffect s.db u f size hashes db) :
    Disciplined { s with db := db } ↔ ∀ k ∈ hashes, counter s.db k ≠ some (-1) := by
  rw [disciplined_client hi]
  constructor
  · intro hall k hk hm
    have hcount := List.count_pos_iff.2 hk
    have hback := (hall k).2.2 hm
    rw [h.counter, hm, Option.map_some, Option.some.injEq] at hback
    omega
  · intro hno k
    rw [h.counter]
    cases hm : counter s.db k with
    | none => simp
    | some m =>
      have hfloor := hi.floor k m hm
      simp only [Option.map_some, Option.some.injEq, forall_eq']
      by_cases hk : k ∈ hashes
      · have hne : m ≠ -1 := fun he => hno k hk (he ▸ hm)
        omega
      · rw [List.count_eq_zero.2 hk]
        omega

omit [DecidableEq ι] in
theorem disciplined_delete {s : Masters ι} {u : Int} {f : String} {first : FileRow} {db : Store}
    (hi : Disciplined s) (h : DeleteEffect s.db u f first db) :
    Disciplined { s with db := db } ↔ ∀ x ∈ first.chunks, ∀ k ∈ x, ∀ m ∈ counter s.db k, 1 ≤ m := by
  rw [disciplined_client hi]
  constructor
  · intro hall x hx k hk m hm
    obtain rfl : x = some k := hk
    have hfloor := hi.floor k m hm
    obtain ⟨hge, htomb⟩ := hall k
    rw [h.counter, hm, Option.map_some, if_pos hx] at hge htomb
    simp only [Option.some.injEq, forall_eq'] at hge htomb
    omega
  · intro hpos k
    rw [h.counter]
    cases hm : counter s.db k with
    | none => simp
    | some m =>
      have hfloor := hi.floor k m hm
      simp only [Option.map_some, Option.some.injEq, forall_eq']
      by_cases hk : some k ∈ first.chunks
      · have hone := hpos (some k) hk k rfl m hm
        rw [if_pos hk]
        omega
      · rw [if_neg hk]
        omega

omit [DecidableEq ι] in
theorem disciplined_handler (n : Nat) {s : Masters ι} {t : Txn} (ht : t.collects = false) (hi : Disciplined s) :
    Disciplined { s with db := t.apply n s.db } ↔ RespectsTombstones s (.client t) := by
  by_cases hc : t.counts = true
  · cases t with
    | commitFile u f size hashes =>
      simp only [Txn.apply, RespectsTombstones]
      cases hok : StorageEngine.commitFile s.db u f size hashes with
      | error e => exact iff_of_true hi fun h => by cases h
      | ok db =>
        have heff := disciplined_commit hi (commitFile_ok.1 hok)
        exact heff.trans ⟨fun h _ => h, fun h => h rfl⟩
    | deleteFile order u f =>
      simp only [Txn.apply, RespectsTombstones]
      rcases deleteFile_cases order s.db u f with ⟨hnone, h⟩ | ⟨first, db, hfirst, h, heff⟩
      · rw [h]
        refine iff_of_true hi fun first hfirst => ?_
        obtain ⟨id, hid, hname⟩ := mem_fileRows.1 (List.mem_of_mem_head? hfirst)
        exact absurd hname (hnone id first hid)
      · rw [h, hfirst]
        simp only [Option.mem_some_iff, forall_eq']
        exact disciplined_delete hi heff
    | _ => cases hc
  · have hc' : t.counts = false := by simpa using hc
    refine iff_of_true ((disciplined_client hi).2 fun k => ?_) ?_
    · rcases (t.storeStep n s.db).counter_other hc' ht k with he | ⟨hnone, hzero⟩
      · rw [he]; exact ⟨hi.floor k, Iff.rfl⟩
      · rw [hzero, hnone]; simp
    · cases t <;> trivial

/-! ## Daemons -/

/-- The hashes of daemon `d` become `hs`, everybody else's stay. -/
theorem outstanding_set (s : Masters ι) (d e : ι) (db : Store) (phase : GcPhase) :
    ((s.set d db phase).daemon e).outstanding = if e = d then phase.outstanding else (s.daemon e).outstanding := by
  unfold Masters.set
  by_cases he : e = d
  · subst he; simp
  · simp [he]

theorem batchesNodup_step {n : Nat} {s t : Masters ι} {a : MasterStep ι} (h : DaemonStep n s a t)
    (hi : BatchesNodup s) : BatchesNodup t := by
  intro e
  cases h with
  | client ht => exact hi e
  | claim hidle hphase =>
    rw [outstanding_set, hphase]
    split
    · exact nodup_orphanHashes _ _ _ _
    · exact hi e
  | @record d _ _ phase hsub _ hphase =>
    rw [outstanding_set, hphase]
    split
    · exact (hi d).filter _
    · exact hi e
  | @revert d k phase hphase =>
    rw [outstanding_set]
    split
    · have hd := hi d
      rw [hphase, List.nodup_cons] at hd
      exact hd.2
    · exact hi e

theorem Disciplined.claim {s : Masters ι} {d : ι} {order : List String} {phase : GcPhase} (hi : Disciplined s)
    (hidle : (s.daemon d).outstanding = [])
    (hphase : phase.outstanding = orphanHashes order s.db expiryHours batchSize) :
    Disciplined (s.set d (claimChunks s.db (orphanHashes order s.db expiryHours batchSize)) phase) := by
  -- a hash at zero is nobody's yet
  have hfree : ∀ k ∈ phase.outstanding, ∀ e, k ∉ (s.daemon e).outstanding := by
    intro k hk e he
    rw [hphase] at hk
    have htomb := (hi.tomb k).2 ⟨e, he⟩
    rw [counter_orphan hk] at htomb
    cases htomb
  have hcount : ∀ k, counter (s.set d (claimChunks s.db (orphanHashes order s.db expiryHours batchSize)) phase).db k =
      if k ∈ phase.outstanding then some (-1) else counter s.db k := by
    intro k
    rw [hphase]
    show counter (claimChunks _ _) k = _
    rw [counter_claimChunks]
    split
    · rename_i hk; rw [counter_orphan hk]; rfl
    · rfl
  refine ⟨fun k m hm => ?_, fun k => ?_, fun k e e' he he' => ?_⟩
  · rw [hcount] at hm
    split at hm
    · cases hm; exact Int.le_refl _
    · exact hi.floor k m hm
  · rw [hcount]
    by_cases hk : k ∈ phase.outstanding
    · rw [if_pos hk]
      exact iff_of_true rfl ⟨d, by rw [outstanding_set, if_pos rfl]; exact hk⟩
    · rw [if_neg hk, hi.tomb]
      refine exists_congr fun e => ?_
      rw [outstanding_set]
      split
      · rename_i he; subst he; rw [hidle]; exact iff_of_false (by simp) hk
      · exact Iff.rfl
  · rw [outstanding_set] at he he'
    by_cases hd : e = d <;> by_cases hd' : e' = d
    · rw [hd, hd']
    · rw [if_pos hd] at he
      rw [if_neg hd'] at he'
      exact absurd he' (hfree k he e')
    · rw [if_pos hd'] at he'
      rw [if_neg hd] at he
      exact absurd he (hfree k he' e)
    · rw [if_neg hd] at he
      rw [if_neg hd'] at he'
      exact hi.once k e e' he he'

/-- A daemon resolves some of its hashes: their rows leave `-1`, the others' keep it. -/
theorem Disciplined.resolve {s : Masters ι} {d : ι} {db : Store} {phase : GcPhase} (hi : Disciplined s)
    (hsub : ∀ k ∈ phase.outstanding, k ∈ (s.daemon d).outstanding)
    (hgone : ∀ k ∈ (s.daemon d).outstanding, k ∉ phase.outstanding → ∀ m, counter db k = some m → 0 ≤ m)
    (hkept : ∀ k, (k ∈ (s.daemon d).outstanding → k ∈ phase.outstanding) → counter db k = counter s.db k) :
    Disciplined (s.set d db phase) := by
  refine ⟨fun k m hm => ?_, fun k => ?_, fun k e e' he he' => ?_⟩
  · by_cases hk : k ∈ (s.daemon d).outstanding → k ∈ phase.outstanding
    · exact hi.floor k m (hkept k hk ▸ hm)
    · have hout : k ∈ (s.daemon d).outstanding ∧ k ∉ phase.outstanding := by simpa using hk
      have hpos := hgone k hout.1 hout.2 m hm
      omega
  · by_cases hk : k ∈ (s.daemon d).outstanding → k ∈ phase.outstanding
    · show counter db k = _ ↔ _
      rw [hkept k hk, hi.tomb]
      refine exists_congr fun e => ?_
      rw [outstanding_set]
      split
      · rename_i he; subst he; exact ⟨hk, hsub k⟩
      · exact Iff.rfl
    · have hout : k ∈ (s.daemon d).outstanding ∧ k ∉ phase.outstanding := by simpa using hk
      refine iff_of_false (fun hm => ?_) ?_
      · have hpos := hgone k hout.1 hout.2 _ hm
        omega
      · rintro ⟨e, he⟩
        rw [outstanding_set] at he
        split at he
        · exact hout.2 he
        · rename_i hne; exact hne (hi.once k e d he hout.1)
  · have hmem : ∀ x, k ∈ ((s.set d db phase).daemon x).outstanding → k ∈ (s.daemon x).outstanding := by
      intro x hx
      rw [outstanding_set] at hx
      split at hx
      · rename_i hxd; subst hxd; exact hsub k hx
      · exact hx
    exact hi.once k e e' (hmem e he) (hmem e' he')

theorem Disciplined.record {s : Masters ι} {d : ι} {purged : List String} {phase : GcPhase} (hi : Disciplined s)
    (hphase : phase.outstanding = (s.daemon d).outstanding.filter fun h => !purged.contains h)
    (hpurged : ∀ h ∈ purged, h ∈ (s.daemon d).outstanding) :
    Disciplined (s.set d (deleteChunkRecordsBulk s.db purged) phase) := by
  have hmem : ∀ k, k ∈ phase.outstanding ↔ k ∈ (s.daemon d).outstanding ∧ k ∉ purged := by
    intro k
    rw [hphase]
    simp
  refine hi.resolve (fun k hk => ((hmem k).1 hk).1) (fun k hk hout m hm => ?_) fun k hk => ?_
  · have htomb := (hi.tomb k).2 ⟨d, hk⟩
    have hin : k ∈ purged := by
      by_contra hne
      exact hout ((hmem k).2 ⟨hk, hne⟩)
    rw [counter_deleteChunkRecordsBulk, if_pos ⟨htomb, hin⟩] at hm
    cases hm
  · rw [counter_deleteChunkRecordsBulk, if_neg]
    rintro ⟨-, hin⟩
    exact ((hmem k).1 (hk (hpurged k hin))).2 hin

theorem Disciplined.revert {s : Masters ι} {d : ι} {h : String} {phase : GcPhase} (hi : Disciplined s)
    (hnd : (s.daemon d).outstanding.Nodup) (hphase : (s.daemon d).outstanding = h :: phase.outstanding) :
    Disciplined (s.set d (revertTombstone s.db h) phase) := by
  rw [hphase, List.nodup_cons] at hnd
  refine hi.resolve (fun k hk => ?_) (fun k hk hout m hm => ?_) fun k hk => ?_
  · rw [hphase]; exact List.mem_cons_of_mem _ hk
  · have htomb := (hi.tomb k).2 ⟨d, hk⟩
    rw [hphase] at hk
    have hkh : k = h := (List.mem_cons.1 hk).resolve_right hout
    rw [counter_revertTombstone, if_pos ⟨htomb, hkh⟩] at hm
    cases hm
    exact Int.le_refl 0
  · rw [counter_revertTombstone, if_neg]
    rintro ⟨-, rfl⟩
    exact hnd.1 (hk (by rw [hphase]; exact List.mem_cons_self))

/-- **One step** of a fault-free run keeps the law exactly when it respects the tombstones. -/
theorem disciplined_step {n : Nat} {s t : Masters ι} {a : MasterStep ι} (h : DaemonStep n s a t)
    (hnd : BatchesNodup s) (hi : Disciplined s) : Disciplined t ↔ RespectsTombstones s a := by
  cases h with
  | client ht => exact disciplined_handler n ht hi
  | claim hidle hphase => exact iff_of_true (hi.claim hidle hphase) trivial
  | record hsub _ hphase => exact iff_of_true (hi.record hphase hsub) trivial
  | @revert d k phase hphase => exact iff_of_true (hi.revert (hnd d) hphase) trivial

/-- **Tombstone discipline.** In a run in which no daemon crashes and no call of a daemon fails, the law
holds in every state exactly when every handler's transaction respects the tombstones. -/
theorem disciplined_iff (n : Nat) (steps : List (MasterStep ι))
    (hf : EachStep (stepMasters n) (fun _ => FaultFree) (Masters.init ι) steps) :
    Always (stepMasters n) Disciplined (Masters.init ι) steps ↔
      EachStep (stepMasters n) RespectsTombstones (Masters.init ι) steps := by
  refine always_iff_eachStep (A := fun _ => FaultFree) (J := BatchesNodup) ?_ ?_ hf (fun _ => List.nodup_nil)
    disciplined_init
  · intro s a t hj ha ht
    exact batchesNodup_step (stepMasters_cases ht ha) hj
  · intro s a t hj hp ha ht
    exact disciplined_step (stepMasters_cases ht ha) hj hp

/-- A chunk is uploaded, released, claimed, given back after a failed delete, and claimed again. -/
def claimAndRevert : List (MasterStep Unit) := sampleSetup.map .client ++
  [.client (.filterMissingChunks [sampleHash]), .client (.commitFile 1 "a" 0 [sampleHash]),
   .client (.deleteFile [] 1 "a"), .client (.tick (hours 25)), .claim () [] none,
   .client (.filterMissingChunks [sampleHash]), .record () [] true, .revert () true,
   .client (.tick (hours 25)), .claim () [] none, .record () [sampleHash] true]

theorem claimAndRevert_disciplined : Always (stepMasters 4) Disciplined (Masters.init Unit) claimAndRevert :=
  (disciplined_iff 4 claimAndRevert (by decide +kernel)).2 (by decide +kernel)

/-- A commit of a hash without a row, then an upload-init of it, then the deletion: `ref_count = -1` in
no batch. -/
def orphanTombstone : List (MasterStep Unit) := sampleSetup.map .client ++
  [.client (.commitFile 1 "a" 0 [sampleHash]), .client (.filterMissingChunks [sampleHash]),
   .client (.deleteFile [] 1 "a")]

theorem orphanTombstone_undisciplined : EachStep (stepMasters 4) (fun _ => FaultFree) (Masters.init Unit) orphanTombstone ∧
    ¬ Always (stepMasters 4) Disciplined (Masters.init Unit) orphanTombstone := by
  refine ⟨by decide +kernel, fun h => ?_⟩
  have hend : ∃ s, exec (stepMasters 4) (Masters.init Unit) orphanTombstone = some s ∧
      counter s.db sampleHash = some (-1) ∧ s.daemon () = .idle := by
    have hfacts : ((exec (stepMasters 4) (Masters.init Unit) orphanTombstone).map fun s =>
        (counter s.db sampleHash, s.daemon ())) = some (some (-1), .idle) := by decide +kernel
    obtain ⟨s, hs, he⟩ := Option.map_eq_some_iff.1 hfacts
    rw [Prod.mk.injEq] at he
    exact ⟨s, hs, he.1, he.2⟩
  obtain ⟨s, hs, hcount, hidle⟩ := hend
  have hd := always_iff_prefix.1 h _ s (List.prefix_refl _) hs
  obtain ⟨d, hmem⟩ := (hd.tomb sampleHash).1 hcount
  rw [show d = () from rfl, hidle] at hmem
  cases hmem

end StorageEngine
