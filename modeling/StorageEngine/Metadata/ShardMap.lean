import Mathlib.Algebra.BigOperators.Group.List.Lemmas
import Mathlib.Algebra.Order.BigOperators.Group.List
import StorageEngine.Metadata.Placement

/-!
# The shard map

`AddCluster` fills the map when it is empty and moves surplus buckets to the new cluster when it is not
(`PostgresRepository.hpp:449-497`); no other call writes it. So from the first cluster on every bucket is owned,
by a cluster that is there, and its nodes are workers that are there: an upload-init is always routed
(`routing_total`).
-/

namespace StorageEngine

open Relational Transition

/-- The map after an `AddCluster`. -/
def grownShardMap (numBuckets : Nat) (order : List Nat) (db : Store) : Table Nat Int :=
  let current := bucketCounts db
  if current.isEmpty then (List.range numBuckets).foldl (fun m b => m.put b db.clusterSeq) db.shardMap
  else current.foldl (reassign order db.clusterSeq (numBuckets / (current.length + 1))) db.shardMap

/-- What a successful `AddCluster` did. -/
structure GrowEffect (n : Nat) (order : List Nat) (db : Store) (ids : List Int) (db' : Store) : Prop where
  verified : verifyNodesExist db ids = .ok ()
  fresh : db.clusters.get? db.clusterSeq = none
  effect : ∃ name, db' = { db with clusters := db.clusters.insertNew db.clusterSeq ⟨name, ids⟩
                                   clusterSeq := db.clusterSeq + 1
                                   shardMap := grownShardMap n order db }

theorem addCluster_effect {n : Nat} {order : List Nat} {db db' : Store} {name : String} {ids : List Int}
    (h : addCluster n order db name ids = .ok db') : GrowEffect n order db ids db' := by
  unfold addCluster at h
  split at h
  · cases h
  rename_i hverify
  split at h
  · cases h
  rename_i stored _
  split at h
  · cases h
  split at h
  · cases h
  rename_i clusters hins
  obtain ⟨hnone, rfl⟩ := Table.insert?_eq_some.1 hins
  exact ⟨hverify, hnone, stored, (Except.ok.inj h).symm⟩

/-- The transaction is an `AddCluster`. -/
def Txn.grows : Txn → Bool
  | .addCluster .. => true
  | _ => false

theorem Txn.shardMap_frame (n : Nat) (db : Store) {t : Txn} (ht : t.grows = false) :
    (t.apply n db).shardMap = db.shardMap := by
  cases t with
  | addCluster order name ids => cases ht
  | createUser e p s =>
    simp only [Txn.apply, StorageEngine.createUser]
    split
    · split
      · split <;> rfl
      · rfl
    · rfl
  | registerWorker ih ip ah ap free =>
    simp only [Txn.apply, StorageEngine.registerWorker]
    split
    · split
      · split <;> rfl
      · rfl
    · rfl
  | filterMissingChunks hs =>
    simp only [Txn.apply]
    cases h : StorageEngine.filterMissingChunks n db hs with
    | error e => rfl
    | ok res => exact (congrArg Store.shardMap (filterMissingChunks_effect h).frame).trans rfl
  | commitFile u f s hs =>
    simp only [Txn.apply]
    cases h : StorageEngine.commitFile db u f s hs with
    | error e => rfl
    | ok db' =>
      obtain ⟨-, -, arr, name, -, -, rfl⟩ := commitFile_ok.1 h
      rfl
  | deleteFile order u f =>
    simp only [Txn.apply, StorageEngine.deleteFile]
    split <;> rfl
  | getOrphanedChunks order fault expiry limit =>
    cases fault with
    | none => rfl
    | some fault => cases fault <;> rfl
  | deleteChunkRecordsBulk hs =>
    simp only [Txn.apply, StorageEngine.deleteChunkRecordsBulk]
    split <;> rfl
  | revertTombstone h => rfl
  | replaceCluster cid ids =>
    simp only [Txn.apply, StorageEngine.replaceCluster]
    split
    · rfl
    · split <;> rfl
  | tick d => rfl

/-- Clusters are never removed. -/
theorem Txn.clusters_isSome (n : Nat) (db : Store) (t : Txn) {id : Int} (h : (db.clusters.get? id).isSome) :
    ((t.apply n db).clusters.get? id).isSome := by
  by_cases ht : t.administers = true
  · cases t with
    | registerWorker ih ip ah ap free =>
      simp only [Txn.apply, committed]
      split
      · rename_i db' hok
        rwa [registerWorker_clusters hok]
      · exact h
    | addCluster order name ids =>
      simp only [Txn.apply, committed]
      split
      · rename_i db' hok
        obtain ⟨-, -, stored, rfl⟩ := addCluster_effect hok
        rw [Table.get?_insertNew]
        split
        · rfl
        · exact h
      · exact h
    | replaceCluster cid ids =>
      simp only [Txn.apply, StorageEngine.replaceCluster]
      split
      · exact h
      split
      · exact h
      · exact (Table.isSome_updateWhere ..).trans h
    | _ => cases ht
  · rwa [(Txn.administers_frame n db (by simpa using ht)).2]

/-! ## Rebalancing -/

/-- A bucket keeps its owner or goes to the new cluster; none appears or goes away. -/
theorem get?_reassign (order : List Nat) (newClusterId : Int) (target : Nat) (m : Table Nat Int) (owner : Int × Nat)
    (b : Nat) : (reassign order newClusterId target m owner).get? b = m.get? b ∨
      (m.get? b).isSome ∧ (reassign order newClusterId target m owner).get? b = some newClusterId := by
  unfold reassign
  split
  · exact Or.inl rfl
  · rw [Table.get?_updateWhere]
    cases hb : m.get? b with
    | none => exact Or.inl rfl
    | some c =>
      rw [Option.map_some]
      split
      · exact Or.inr ⟨rfl, rfl⟩
      · exact Or.inl rfl

theorem get?_reassigns (order : List Nat) (newClusterId : Int) (target : Nat) (owners : List (Int × Nat))
    (m : Table Nat Int) (b : Nat) :
    (owners.foldl (reassign order newClusterId target) m).get? b = m.get? b ∨
      (m.get? b).isSome ∧ (owners.foldl (reassign order newClusterId target) m).get? b = some newClusterId := by
  induction owners generalizing m with
  | nil => exact Or.inl rfl
  | cons owner owners ih =>
    rw [List.foldl_cons]
    rcases get?_reassign order newClusterId target m owner b with hkept | ⟨hsome, hmoved⟩
    · rcases ih (reassign order newClusterId target m owner) with h | ⟨h₁, h₂⟩
      · exact Or.inl (h.trans hkept)
      · exact Or.inr ⟨hkept ▸ h₁, h₂⟩
    · rcases ih (reassign order newClusterId target m owner) with h | ⟨-, h₂⟩
      · exact Or.inr ⟨hsome, h.trans hmoved⟩
      · exact Or.inr ⟨hsome, h₂⟩

/-- A turn moves buckets of its owner only. -/
theorem reassign_other {order : List Nat} {newClusterId : Int} {target : Nat} {m : Table Nat Int} {owner : Int × Nat}
    {b : Nat} {c : Int} (hb : m.get? b = some c) (hc : c ≠ owner.1) :
    (reassign order newClusterId target m owner).get? b = some c := by
  unfold reassign
  split
  · exact hb
  · rw [Table.get?_updateWhere, hb, Option.map_some, if_neg]
    intro hmoved
    obtain ⟨⟨b', c'⟩, hin, rfl⟩ := List.mem_map.1 (List.contains_iff_mem.1 hmoved)
    have hsel := (mem_scan (nodup_select _ _) order).1 (List.mem_of_mem_take hin)
    obtain ⟨hget, howner⟩ := Table.mem_select.1 hsel
    rw [hb, Option.some.injEq] at hget
    exact hc (hget.trans (by simpa using howner))

/-- A turn with a surplus moves a bucket. -/
theorem reassign_moves {order : List Nat} {newClusterId : Int} {target : Nat} {m : Table Nat Int} {owner : Int × Nat}
    (hsurplus : target < owner.2) {b : Nat} (hb : m.get? b = some owner.1) :
    ∃ b', (reassign order newClusterId target m owner).get? b' = some newClusterId := by
  have hsel : (b, owner.1) ∈ m.select fun _ c => c == owner.1 := Table.mem_select.2 ⟨hb, by simp⟩
  have hscan := (mem_scan (nodup_select m fun _ c => c == owner.1) order).2 hsel
  obtain ⟨first, rest, hrows⟩ := List.exists_cons_of_ne_nil (List.ne_nil_of_mem hscan)
  have hfirst : first ∈ scan order (m.select fun _ c => c == owner.1) := by
    rw [hrows]
    exact List.mem_cons_self
  obtain ⟨hget, -⟩ := Table.mem_select.1 ((mem_scan (nodup_select m fun _ c => c == owner.1) order).1 hfirst)
  obtain ⟨k, hk⟩ : ∃ k, owner.2 - target = k + 1 := ⟨owner.2 - target - 1, by omega⟩
  refine ⟨first.1, ?_⟩
  unfold reassign
  rw [if_neg (Nat.not_le.2 hsurplus), Table.get?_updateWhere, hget, Option.map_some, if_pos]
  simp [hrows, hk]

theorem reassigns_move {order : List Nat} {newClusterId : Int} {target : Nat} {owners : List (Int × Nat)}
    (hnd : (owners.map Prod.fst).Nodup) {m : Table Nat Int} {owner : Int × Nat} (howner : owner ∈ owners)
    (hsurplus : target < owner.2) {b : Nat} (hb : m.get? b = some owner.1) :
    ∃ b', (owners.foldl (reassign order newClusterId target) m).get? b' = some newClusterId := by
  induction owners generalizing m with
  | nil => cases howner
  | cons o owners ih =>
    obtain ⟨hout, hnd⟩ := List.nodup_cons.1 hnd
    rw [List.foldl_cons]
    rcases List.mem_cons.1 howner with rfl | hin
    · obtain ⟨b', hb'⟩ := reassign_moves hsurplus hb
      rcases get?_reassigns order newClusterId target owners (reassign order newClusterId target m owner) b' with h | ⟨-, h⟩
      · exact ⟨b', h.trans hb'⟩
      · exact ⟨b', h⟩
    · refine ih hnd hin (reassign_other hb fun he => hout ?_)
      rw [← he]
      exact List.mem_map_of_mem hin

theorem get?_bootstrap (clusterId : Int) (n : Nat) (m : Table Nat Int) (b : Nat) :
    ((List.range n).foldl (fun m b => m.put b clusterId) m).get? b = if b < n then some clusterId else m.get? b := by
  induction n with
  | zero => rfl
  | succ n ih =>
    rw [List.range_succ, List.foldl_append, List.foldl_cons, List.foldl_nil, Table.get?_put, ih]
    by_cases hb : b = n
    · simp [hb]
    · by_cases hlt : b < n
      · simp [hb, hlt, Nat.lt_succ_of_lt hlt]
      · have hge : ¬ b < n + 1 := by omega
        simp [hb, hlt, hge]

theorem bucketCounts_isEmpty {db : Store} : (bucketCounts db).isEmpty = true ↔ ∀ b, db.shardMap.get? b = none := by
  have hrows : (bucketCounts db).isEmpty = true ↔ db.shardMap.rows = [] := by
    rw [List.isEmpty_iff]
    simp [bucketCounts, List.dedup_eq_nil]
  rw [hrows]
  constructor
  · intro h b
    rw [Table.get?_eq_none, h]
    exact List.not_mem_nil
  · intro h
    refine List.eq_nil_iff_forall_not_mem.2 fun e he => ?_
    exact Table.get?_eq_none.1 (h e.1) (List.mem_map.2 ⟨e, he, rfl⟩)

/-- A map that covers `n` buckets has `n` rows. -/
theorem length_of_covers {n : Nat} {m : Table Nat Int} (h : ∀ b, (m.get? b).isSome ↔ b < n) : m.rows.length = n := by
  have hkeys : (m.rows.map Prod.fst).Perm (List.range n) := by
    refine (List.perm_ext_iff_of_nodup m.nodup List.nodup_range).2 fun b => ?_
    rw [List.mem_range, ← h b, Option.isSome_iff_ne_none, Ne, Table.get?_eq_none, not_not]
  simpa using hkeys.length_eq

/-- **One owner has a surplus.** -/
theorem exists_surplus {n : Nat} (hn : 1 ≤ n) {db : Store} (h : ∀ b, (db.shardMap.get? b).isSome ↔ b < n) :
    ∃ owner ∈ bucketCounts db, n / ((bucketCounts db).length + 1) < owner.2 ∧
      ∃ b, db.shardMap.get? b = some owner.1 := by
  have hsum : ((bucketCounts db).map Prod.snd).sum = n := by
    rw [← length_of_covers h, bucketCounts, List.map_map]
    exact (List.sum_map_count_dedup_eq_length (db.shardMap.rows.map Prod.snd)).trans (List.length_map _)
  have hsurplus : ∃ owner ∈ bucketCounts db, n / ((bucketCounts db).length + 1) < owner.2 := by
    by_contra hnone
    have hle : ∀ c ∈ (bucketCounts db).map Prod.snd, c ≤ n / ((bucketCounts db).length + 1) := by
      intro c hc
      obtain ⟨owner, howner, rfl⟩ := List.mem_map.1 hc
      exact Nat.not_lt.1 fun hlt => hnone ⟨owner, howner, hlt⟩
    have hbound := List.sum_le_card_nsmul _ _ hle
    rw [hsum, List.length_map, Nat.nsmul_eq_mul] at hbound
    have hdiv := Nat.div_mul_le_self n ((bucketCounts db).length + 1)
    rw [Nat.mul_succ, Nat.mul_comm] at hdiv
    generalize n / ((bucketCounts db).length + 1) = q at hbound hdiv
    rcases Nat.eq_zero_or_pos q with rfl | hq
    · rw [Nat.mul_zero] at hbound
      omega
    · omega
  obtain ⟨owner, howner, hlt⟩ := hsurplus
  refine ⟨owner, howner, hlt, ?_⟩
  obtain ⟨c, hc, rfl⟩ := List.mem_map.1 howner
  obtain ⟨⟨b, c'⟩, hrow, rfl⟩ := List.mem_map.1 (List.mem_dedup.1 hc)
  exact ⟨b, Table.mem_rows.1 hrow⟩

theorem nodup_bucketCounts (db : Store) : ((bucketCounts db).map Prod.fst).Nodup := by
  rw [bucketCounts, List.map_map]
  simpa [Function.comp_def] using List.nodup_dedup (db.shardMap.rows.map Prod.snd)

/-- **A new cluster gets a bucket.** -/
theorem grownShardMap_owns {n : Nat} (hn : 1 ≤ n) (order : List Nat) {db : Store}
    (h : (∀ b, db.shardMap.get? b = none) ∨ ∀ b, (db.shardMap.get? b).isSome ↔ b < n) :
    ∃ b, (grownShardMap n order db).get? b = some db.clusterSeq := by
  unfold grownShardMap
  by_cases hempty : (bucketCounts db).isEmpty = true
  · refine ⟨0, ?_⟩
    simp only [hempty, ↓reduceIte, get?_bootstrap]
    rw [if_pos (show 0 < n from hn)]
  · simp only [hempty, Bool.false_eq_true, ↓reduceIte]
    have hcovers := h.resolve_left fun hnone => hempty (bucketCounts_isEmpty.2 hnone)
    obtain ⟨owner, howner, hlt, b, hb⟩ := exists_surplus hn hcovers
    exact reassigns_move (nodup_bucketCounts db) howner hlt hb

/-! ## What holds from the first cluster on -/

/-- No bucket has an owner, or exactly those below `n` have one; an owner is a cluster that is there. -/
structure Sharded (n : Nat) (db : Store) : Prop where
  covered : (∀ b, db.shardMap.get? b = none) ∨ ∀ b, (db.shardMap.get? b).isSome ↔ b < n
  owners : ∀ b c, db.shardMap.get? b = some c → (db.clusters.get? c).isSome

/-- The node arrays that are stored are not empty. -/
structure Manned (db : Store) : Prop where
  clusters : ∀ id c, db.clusters.get? id = some c → c.activeNodes ≠ []
  chunks : ∀ h r, db.chunks.get? h = some r → r.nodes ≠ []

theorem verifyNodesExist_ne_nil {db : Store} {ids : List Int} (h : verifyNodesExist db ids = .ok ()) : ids ≠ [] := by
  rintro rfl
  cases h

/-- A bucket keeps its owner, or goes to the new cluster. -/
theorem grownShardMap_owner {n : Nat} {order : List Nat} {db : Store} {b : Nat} {c : Int}
    (h : (grownShardMap n order db).get? b = some c) : c = db.clusterSeq ∨ db.shardMap.get? b = some c := by
  unfold grownShardMap at h
  simp only at h
  split at h
  · rw [get?_bootstrap] at h
    split at h
    · exact Or.inl (Option.some.inj h).symm
    · exact Or.inr h
  · rcases get?_reassigns order db.clusterSeq (n / ((bucketCounts db).length + 1)) (bucketCounts db) db.shardMap b with
      hkept | ⟨-, hmoved⟩
    · exact Or.inr (hkept ▸ h)
    · exact Or.inl (Option.some.inj (h.symm.trans hmoved))

theorem grownShardMap_covers {n : Nat} (order : List Nat) {db : Store}
    (h : (∀ b, db.shardMap.get? b = none) ∨ ∀ b, (db.shardMap.get? b).isSome ↔ b < n) (b : Nat) :
    ((grownShardMap n order db).get? b).isSome ↔ b < n := by
  by_cases hempty : (bucketCounts db).isEmpty = true
  · simp only [grownShardMap, hempty, ↓reduceIte, get?_bootstrap, bucketCounts_isEmpty.1 hempty b]
    split <;> simp [*]
  · have hold := h.resolve_left (fun hnone => hempty (bucketCounts_isEmpty.2 hnone)) b
    simp only [grownShardMap, hempty, Bool.false_eq_true, ↓reduceIte]
    rcases get?_reassigns order db.clusterSeq (n / ((bucketCounts db).length + 1)) (bucketCounts db) db.shardMap b with
      hkept | ⟨hsome, hmoved⟩
    · rwa [hkept]
    · rw [hmoved, ← hold, hsome]
      rfl

/-- **A new cluster** leaves every bucket with an owner that is there. -/
theorem GrowEffect.sharded {n : Nat} {order : List Nat} {db db' : Store} {ids : List Int}
    (h : GrowEffect n order db ids db') (hs : Sharded n db) :
    Sharded n db' ∧ ∀ b, (db'.shardMap.get? b).isSome ↔ b < n := by
  obtain ⟨-, -, name, rfl⟩ := h
  have hcovers := grownShardMap_covers order hs.covered
  refine ⟨⟨Or.inr hcovers, fun b c hb => ?_⟩, hcovers⟩
  rw [Table.get?_insertNew]
  split
  · rfl
  · exact hs.owners b c ((grownShardMap_owner hb).resolve_left ‹_›)

theorem Txn.sharded (n : Nat) (db : Store) (t : Txn) (h : Sharded n db) : Sharded n (t.apply n db) := by
  by_cases ht : t.grows = true
  · cases t with
    | addCluster order name ids =>
      simp only [Txn.apply, committed]
      split
      · rename_i db' hok
        exact ((addCluster_effect hok).sharded h).1
      · exact h
    | _ => cases ht
  · have hframe := Txn.shardMap_frame n db (t := t) (by simpa using ht)
    refine ⟨by rw [hframe]; exact h.covered, fun b c hb => Txn.clusters_isSome n db t (h.owners b c ?_)⟩
    rwa [hframe] at hb

theorem Txn.covers {n : Nat} {db : Store} (t : Txn) (hs : Sharded n db) (h : ∀ b, (db.shardMap.get? b).isSome ↔ b < n) :
    ∀ b, ((t.apply n db).shardMap.get? b).isSome ↔ b < n := by
  by_cases ht : t.grows = true
  · cases t with
    | addCluster order name ids =>
      simp only [Txn.apply, committed]
      split
      · rename_i db' hok
        exact ((addCluster_effect hok).sharded hs).2
      · exact h
    | _ => cases ht
  · rwa [Txn.shardMap_frame n db (t := t) (by simpa using ht)]

theorem Txn.manned (n : Nat) (db : Store) (t : Txn) (h : Manned db) : Manned (t.apply n db) := by
  refine ⟨fun id c hc => ?_, fun k r hr => ?_⟩
  · rcases t.rerouted n db id c hc with ⟨c₀, hc₀, hnodes⟩ | hverify
    · exact hnodes ▸ h.clusters id c₀ hc₀
    · exact verifyNodesExist_ne_nil hverify
  · rcases (t.storeStep n db).nodes hr with ⟨r₀, hr₀, hnodes⟩ | ⟨-, id, c, hc, hnodes⟩
    · exact hnodes ▸ h.chunks k r₀ hr₀
    · exact hnodes ▸ h.clusters id c hc

/-! ## Uploads are routed -/

/-- What routing relies on: every bucket has an owner, and node arrays list workers that are there. -/
structure Routed (n : Nat) (db : Store) : Prop where
  buckets : ∀ b, (db.shardMap.get? b).isSome ↔ b < n
  owners : ∀ b c, db.shardMap.get? b = some c → (db.clusters.get? c).isSome
  manned : Manned db
  staffed : Staffed db

theorem FilterEffect.routing {n : Nat} {db db' : Store} (h : FilterEffect db db') (hr : Routed n db) : Routed n db' := by
  have hnodes : ∀ k r, db'.chunks.get? k = some r → r.nodes ≠ [] ∧ ∀ w ∈ r.nodes, (db.workers.get? w).isSome := by
    intro k r hrow
    cases hk : db.chunks.get? k with
    | none =>
      obtain ⟨id, c, hc, hnodes⟩ := h.routed k r hk hrow
      rw [hnodes]
      exact ⟨hr.manned.clusters id c hc, hr.staffed.clusters id c hc⟩
    | some r₀ =>
      obtain ⟨t, ht, -⟩ := h.kept k r₀ hk
      obtain rfl := Option.some.inj (ht.symm.trans hrow)
      exact ⟨hr.manned.chunks k r₀ hk, hr.staffed.chunks k r₀ hk⟩
  rw [h.frame]
  exact ⟨hr.buckets, hr.owners, ⟨hr.manned.clusters, fun k r hrow => (hnodes k r hrow).1⟩,
    ⟨hr.staffed.clusters, fun k r hrow => (hnodes k r hrow).2⟩⟩

theorem calculateBucketId_lt {n : Nat} (hn : 0 < n) (hash : String) : calculateBucketId hash n < n := by
  unfold calculateBucketId
  split
  · exact hn
  split
  · exact Nat.mod_lt _ hn
  · exact hn

theorem nodeData_ne_none {db : Store} {nodes : List Int} (hne : nodes ≠ [])
    (hs : ∀ w ∈ nodes, (db.workers.get? w).isSome) : nodeData db nodes ≠ none := by
  obtain ⟨id, hid⟩ := List.exists_mem_of_ne_nil _ hne
  obtain ⟨ns, hns⟩ := nodeData_isSome.2 ⟨id, hid, hs id hid⟩
  rw [hns]
  exact Option.some_ne_none ns

/-- **One turn of the loop** fails for a tombstone or a hash too long only. -/
theorem Routed.filterMissingOne {n : Nat} {db : Store} (hn : 0 < n) (h : Routed n db) {hash : String} {e : RepoError}
    (herr : filterMissingOne n db hash = .error e) :
    (e = .chunkLocked ∧ ∃ r, db.chunks.get? hash = some r ∧ r.refCount = -1) ∨ (e = .valueTooLong ∧ varchar 64 hash = none) := by
  unfold StorageEngine.filterMissingOne at herr
  cases hrow : db.chunks.get? hash with
  | none =>
    simp only [hrow] at herr
    obtain ⟨c, hc⟩ := Option.isSome_iff_exists.1 ((h.buckets _).2 (calculateBucketId_lt hn hash))
    obtain ⟨cluster, hcluster⟩ := Option.isSome_iff_exists.1 (h.owners _ c hc)
    simp only [hc, Option.bind_some, hcluster] at herr
    split at herr
    · rename_i hnone
      exact absurd hnone (nodeData_ne_none (h.manned.clusters c cluster hcluster) (h.staffed.clusters c cluster hcluster))
    · split at herr
      · rename_i hlong
        exact Or.inr ⟨(Except.error.inj herr).symm, hlong⟩
      · cases herr
  | some row =>
    simp only [hrow] at herr
    split at herr
    · rename_i hlocked
      exact Or.inl ⟨(Except.error.inj herr).symm, row, rfl, hlocked⟩
    split at herr
    · split at herr
      · rename_i hnone
        exact absurd hnone (nodeData_ne_none (h.manned.chunks hash row hrow) (h.staffed.chunks hash row hrow))
      · cases herr
    · cases herr

/-- **`FilterMissingChunks`** fails for a tombstone or a hash too long only. -/
theorem Routed.filterMissingChunks {n : Nat} (hn : 0 < n) {hashes : List String} {db : Store} (h : Routed n db)
    {e : RepoError} (herr : filterMissingChunks n db hashes = .error e) :
    (e = .chunkLocked ∧ ∃ hash ∈ hashes, ∃ r, db.chunks.get? hash = some r ∧ r.refCount = -1) ∨
      (e = .valueTooLong ∧ ∃ hash ∈ hashes, varchar 64 hash = none) := by
  induction hashes generalizing db with
  | nil => cases herr
  | cons hash rest ih =>
    simp only [StorageEngine.filterMissingChunks] at herr
    cases hone : StorageEngine.filterMissingOne n db hash with
    | error e' =>
      simp only [hone] at herr
      obtain rfl := Except.error.inj herr
      rcases h.filterMissingOne hn hone with ⟨he, hrow⟩ | ⟨he, hlong⟩
      · exact Or.inl ⟨he, hash, List.mem_cons_self, hrow⟩
      · exact Or.inr ⟨he, hash, List.mem_cons_self, hlong⟩
    | ok res =>
      obtain ⟨db₁, plan⟩ := res
      have heff := (filterMissingOne_spec hone).1
      simp only [hone] at herr
      cases hrest : StorageEngine.filterMissingChunks n db₁ rest with
      | ok res => simp [hrest] at herr
      | error e' =>
        simp only [hrest] at herr
        obtain rfl := Except.error.inj herr
        rcases ih (heff.routing h) hrest with ⟨he, k, hk, r, hr, hlocked⟩ | ⟨he, k, hk, hlong⟩
        · -- a row the turn has made is no tombstone
          refine Or.inl ⟨he, k, List.mem_cons_of_mem _ hk, ?_⟩
          cases hold : db.chunks.get? k with
          | none =>
            have hzero := (heff.fresh k r hold hr).1
            omega
          | some r₀ =>
            obtain ⟨t, ht, -⟩ := heff.kept k r₀ hold
            obtain rfl := Option.some.inj (ht.symm.trans hr)
            exact ⟨r₀, rfl, hlocked⟩
        · exact Or.inr ⟨he, k, List.mem_cons_of_mem _ hk, hlong⟩

/-! ## The nodes of a plan -/

/-- The node array that `FilterMissingChunks` makes a plan from. -/
def planNodes (n : Nat) (db : Store) (hash : String) : List Int :=
  match db.chunks.get? hash with
  | some row => row.nodes
  | none => (((db.shardMap.get? (calculateBucketId hash n)).bind db.clusters.get?).map ClusterRow.activeNodes).getD []

theorem filterMissingOne_plan {n : Nat} {db db' : Store} {hash : String} {plan : ChunkRoutingPlan}
    (h : filterMissingOne n db hash = .ok (db', some plan)) :
    plan.hash = hash ∧ nodeData db (planNodes n db hash) = some plan.assignedNodes := by
  unfold filterMissingOne at h
  unfold planNodes
  split at h
  · rename_i hrow
    simp only at h
    split at h
    · cases h
    rename_i cluster hcluster
    split at h
    · cases h
    rename_i nodes hnodes
    split at h
    · cases h
    · cases h
      simp only [hrow, hcluster, Option.map_some, Option.getD_some]
      exact ⟨rfl, hnodes⟩
  · rename_i row hrow
    split at h
    · cases h
    simp only at h
    split at h
    · split at h
      · cases h
      · rename_i nodes hnodes
        cases h
        simp only [hrow]
        exact ⟨rfl, hnodes⟩
    · cases h

/-- **A turn leaves every later plan the same nodes**: a row that is made has the nodes it would be routed to. -/
theorem filterMissingOne_planNodes {n : Nat} {db db' : Store} {hash : String} {plan : Option ChunkRoutingPlan}
    (h : filterMissingOne n db hash = .ok (db', plan)) (k : String) : planNodes n db' k = planNodes n db k := by
  unfold filterMissingOne at h
  split at h
  · rename_i hrow
    simp only at h
    split at h
    · cases h
    rename_i cluster hcluster
    split at h
    · cases h
    split at h
    · cases h
    · rename_i key hkey
      cases h
      unfold planNodes
      simp only [Table.get?_insertNew]
      by_cases hk : k = key
      · subst hk
        rw [if_pos rfl]
        cases hold : db.chunks.get? k with
        | none => simp only [Option.getD_none, calculateBucketId_varchar hkey, hcluster, Option.map_some, Option.getD_some]
        | some row => rfl
      · rw [if_neg hk]
  · rename_i row hrow
    have hkept : ∀ db'' : Store, db'' = { db with chunks := refreshChunk db.now db.chunks hash } →
        planNodes n db'' k = planNodes n db k := by
      rintro db'' rfl
      unfold planNodes
      simp only [get?_refreshChunk]
      cases db.chunks.get? k with
      | none => rfl
      | some row =>
        simp only [Option.map_some]
        split <;> rfl
    split at h
    · cases h
    simp only at h
    split at h
    · split at h
      · cases h
      · cases h
        exact hkept _ rfl
    · cases h
      exact hkept _ rfl

theorem filterMissingChunks_planNodes {n : Nat} {hashes : List String} {db db' : Store} {plans : List ChunkRoutingPlan}
    (h : filterMissingChunks n db hashes = .ok (db', plans)) : (∀ k, planNodes n db' k = planNodes n db k) ∧
      ∀ plan ∈ plans, nodeData db (planNodes n db plan.hash) = some plan.assignedNodes := by
  induction hashes generalizing db plans with
  | nil =>
    cases h
    exact ⟨fun k => rfl, fun plan hplan => by cases hplan⟩
  | cons hash rest ih =>
    obtain ⟨db₁, head, tail, hone, hrest, rfl⟩ := filterMissingChunks_cons.1 h
    have hturn := filterMissingOne_planNodes hone
    obtain ⟨hkept, hplans⟩ := ih hrest
    refine ⟨fun k => (hkept k).trans (hturn k), fun plan hplan => ?_⟩
    rcases List.mem_append.1 hplan with hhead | htail
    · obtain rfl := Option.mem_toList.1 hhead
      obtain ⟨rfl, hnodes⟩ := filterMissingOne_plan hone
      exact hnodes
    · rw [← hturn, ← (filterMissingOne_spec hone).1.nodeData]
      exact hplans plan htail

/-- One of the transactions is an `AddCluster` that succeeds. -/
def Founded (n : Nat) (txns : List Txn) : Prop :=
  ∃ before order clusterName ids after, txns = before ++ .addCluster order clusterName ids :: after ∧
    (addCluster n order (run n .empty before) clusterName ids).isOk = true

/-- **From the first cluster on** the store is routed. -/
theorem Founded.routed {n : Nat} {txns : List Txn} (h : Founded n txns) : Routed n (run n .empty txns) := by
  have hsharded : Sharded n .empty := ⟨Or.inl fun b => rfl, fun b c hb => by cases hb⟩
  have hmanned : Manned .empty := ⟨fun id c hc => (by cases hc), fun h r hr => (by cases hr)⟩
  have hcovers : Sharded n (run n .empty txns) ∧ ∀ b, ((run n .empty txns).shardMap.get? b).isSome ↔ b < n := by
    obtain ⟨before, order, name, ids, after, rfl, hok⟩ := h
    obtain ⟨db', hok⟩ : ∃ db', addCluster n order (run n .empty before) name ids = .ok db' := by
      cases hadd : addCluster n order (run n .empty before) name ids with
      | error e =>
        rw [hadd] at hok
        cases hok
      | ok db' => exact ⟨db', rfl⟩
    have hgrown := (addCluster_effect hok).sharded (run_inv (Txn.sharded n) before hsharded)
    rw [run_append]
    refine run_inv (P := fun db => Sharded n db ∧ ∀ b, (db.shardMap.get? b).isSome ↔ b < n)
      (fun db t hdb => ⟨t.sharded n db hdb.1, t.covers hdb.1 hdb.2⟩) after ?_
    have happly : (Txn.addCluster order name ids).apply n (run n .empty before) = db' := by
      simp only [Txn.apply, hok, committed]
    rwa [happly]
  exact ⟨hcovers.2, hcovers.1.owners, run_inv (Txn.manned n) txns hmanned, run_inv (Txn.staffed n) txns staffed_empty⟩

/-- **Routing is total.** Once an `AddCluster` has succeeded every bucket has an owner that is there, node arrays list
workers that are there, and `FilterMissingChunks` finds nodes for every hash. -/
theorem routing_total {n : Nat} (hn : 1 ≤ n) {txns : List Txn} (h : Founded n txns) :
    Routed n (run n .empty txns) ∧ (∀ hash, calculateBucketId hash n < n) ∧
      ∀ hashes, (∀ b, filterMissingChunks n (run n .empty txns) hashes ≠ .error (.shardMapUninitialized b)) ∧
        ∀ db' plans, filterMissingChunks n (run n .empty txns) hashes = .ok (db', plans) →
          ∀ plan ∈ plans, plan.assignedNodes ≠ [] := by
  refine ⟨h.routed, calculateBucketId_lt hn, fun hashes => ⟨fun b herr => ?_, fun db' plans hok plan hplan => ?_⟩⟩
  · rcases h.routed.filterMissingChunks hn herr with ⟨he, -⟩ | ⟨he, -⟩
    · cases he
    · cases he
  · exact nodeData_ne_nil ((filterMissingChunks_planNodes hok).2 plan hplan)

theorem routing_total_rebalanced :
    let txns : List Txn := [.registerWorker "w1" 1 "w1" 1 0, .registerWorker "w2" 1 "w2" 1 0, .addCluster [] "a" [1],
      .addCluster [2, 0] "b" [2, 1]]
    Routed 3 (run 3 .empty txns) ∧ (∀ hash, calculateBucketId hash 3 < 3) ∧
      ∀ hashes, (∀ b, filterMissingChunks 3 (run 3 .empty txns) hashes ≠ .error (.shardMapUninitialized b)) ∧
        ∀ db' plans, filterMissingChunks 3 (run 3 .empty txns) hashes = .ok (db', plans) →
          ∀ plan ∈ plans, plan.assignedNodes ≠ [] :=
  routing_total (by decide) ⟨[.registerWorker "w1" 1 "w1" 1 0, .registerWorker "w2" 1 "w2" 1 0, .addCluster [] "a" [1]],
    [2, 0], "b", [2, 1], [], rfl, by decide +kernel⟩

end StorageEngine
