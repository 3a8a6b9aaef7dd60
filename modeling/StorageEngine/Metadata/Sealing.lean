import StorageEngine.Metadata.ShardMap

/-!
# Workers that are sealed

`ReplaceCluster` marks the workers its cluster had `READ_ONLY` (`PostgresRepository.hpp:517-521`), and a heartbeat never
lifts that (`:166-169`). Upload plans are made from `clusters.active_nodes` and `chunks.nodes` (`:189-240`) and do not look
at the status. So a sealed worker is spared as long as no cluster with buckets and no chunk that waits for its upload
lists it, and each transaction can be told from its arguments whether it leaves that so (`sealed_spared_iff`).
-/

namespace StorageEngine

open Relational Transition

/-- The worker takes no new chunks. -/
def Sealed (db : Store) (id : Int) : Prop := ∃ w, db.workers.get? id = some w ∧ w.status = .readOnly

/-- None of the nodes is sealed. -/
def Unsealed (db : Store) (nodes : List Int) : Prop := ∀ id ∈ nodes, ¬ Sealed db id

/-- No upload plan lists a sealed worker, whatever the hashes. -/
def SealedSpared (n : Nat) (db : Store) : Prop :=
  ∀ hashes db' plans, filterMissingChunks n db hashes = .ok (db', plans) →
    ∀ plan ∈ plans, Unsealed db (planNodes n db plan.hash)

/-- The shard map leads to the cluster. -/
def OwnsBucket (db : Store) (clusterId : Int) : Prop := ∃ b, db.shardMap.get? b = some clusterId

/-- A cluster is made of workers that are not sealed; a replacement seals no worker that a cluster with buckets keeps
or a waiting chunk lists; no chunk comes to wait that lists a sealed worker. -/
def SparesSealed (n : Nat) (db : Store) : Txn → Prop
  | .addCluster order clusterName ids => (addCluster n order db clusterName ids).isOk = true → Unsealed db ids
  | .replaceCluster clusterId ids => (replaceCluster db clusterId ids).isOk = true →
    ∀ cluster, db.clusters.get? clusterId = some cluster →
      (OwnsBucket db clusterId → Unsealed db ids ∧ ∀ id ∈ ids, id ∉ cluster.activeNodes) ∧
      (∀ other c, other ≠ clusterId → db.clusters.get? other = some c → OwnsBucket db other →
        ∀ id ∈ c.activeNodes, id ∉ cluster.activeNodes) ∧
      ∀ h r, db.chunks.get? h = some r → r.refCount = 0 → ∀ id ∈ r.nodes, id ∉ cluster.activeNodes
  | .commitFile userId filename size hashes => (commitFile db userId filename size hashes).isOk = true →
    ∀ h r, db.chunks.get? h = some r → r.refCount < 0 → r.refCount + hashes.count h = 0 → Unsealed db r.nodes
  | .deleteFile order userId filename => ∀ first, (fileRows order db userId filename).head? = some first →
    ∀ h r, db.chunks.get? h = some r → r.refCount = 1 → some h ∈ first.chunks → Unsealed db r.nodes
  | .revertTombstone hash => ∀ r, db.chunks.get? hash = some r → r.refCount = -1 → Unsealed db r.nodes
  | _ => True

/-! ## What a sealed worker is kept out of -/

/-- No cluster with buckets and no waiting chunk lists a sealed worker. -/
structure SealedOut (db : Store) : Prop where
  clusters : ∀ id c, db.clusters.get? id = some c → OwnsBucket db id → Unsealed db c.activeNodes
  pending : ∀ h r, db.chunks.get? h = some r → r.refCount = 0 → Unsealed db r.nodes

/-- What holds of every store that is reached. -/
structure Laid (n : Nat) (db : Store) : Prop where
  sharded : Sharded n db
  manned : Manned db
  staffed : Staffed db
  keys : ∀ h r, db.chunks.get? h = some r → h.length ≤ 64

theorem filterMissingOne_keys {n : Nat} {db db' : Store} {hash : String} {plan : Option ChunkRoutingPlan}
    (h : filterMissingOne n db hash = .ok (db', plan)) {k : String} {r : ChunkRow} (hr : db'.chunks.get? k = some r) :
    k.length ≤ 64 ∨ ∃ r₀, db.chunks.get? k = some r₀ := by
  have hrefreshed : ∀ db'' : Store, db'' = { db with chunks := refreshChunk db.now db.chunks hash } →
      db''.chunks.get? k = some r → ∃ r₀, db.chunks.get? k = some r₀ := by
    rintro db'' rfl hr
    rw [get?_refreshChunk] at hr
    obtain ⟨r₀, hr₀, -⟩ := Option.map_eq_some_iff.1 hr
    exact ⟨r₀, hr₀⟩
  unfold filterMissingOne at h
  split at h
  · simp only at h
    split at h
    · cases h
    split at h
    · cases h
    split at h
    · cases h
    · rename_i key hkey
      cases h
      rw [Table.get?_insertNew] at hr
      split at hr
      · rename_i hk
        exact Or.inl (hk ▸ (varchar_overlong hkey).1)
      · exact Or.inr ⟨r, hr⟩
  · split at h
    · cases h
    simp only at h
    split at h
    · split at h
      · cases h
      · cases h
        exact Or.inr (hrefreshed _ rfl hr)
    · cases h
      exact Or.inr (hrefreshed _ rfl hr)

theorem filterMissingChunks_keys {n : Nat} {hashes : List String} {db db' : Store} {plans : List ChunkRoutingPlan}
    (h : filterMissingChunks n db hashes = .ok (db', plans)) {k : String} {r : ChunkRow} (hr : db'.chunks.get? k = some r) :
    k.length ≤ 64 ∨ ∃ r₀, db.chunks.get? k = some r₀ := by
  induction hashes generalizing db plans with
  | nil =>
    cases h
    exact Or.inr ⟨r, hr⟩
  | cons hash rest ih =>
    obtain ⟨db₁, head, tail, hone, hrest, rfl⟩ := filterMissingChunks_cons.1 h
    rcases ih hrest with hle | ⟨r₁, hr₁⟩
    · exact Or.inl hle
    · exact filterMissingOne_keys hone hr₁

theorem StoreStep.keys {n : Nat} {db db' : Store} {t : Txn} (h : StoreStep n db t db') {k : String} {r : ChunkRow}
    (hr : db'.chunks.get? k = some r) : k.length ≤ 64 ∨ ∃ r₀, db.chunks.get? k = some r₀ := by
  rcases h.nodes hr with ⟨r₀, hr₀, -⟩ | ⟨hnone, -⟩
  · exact Or.inr ⟨r₀, hr₀⟩
  cases h with
  | filter hok => exact filterMissingChunks_keys hok hr
  | quiet hq =>
    rw [hq.chunks, hnone] at hr
    cases hr
  | commit hc =>
    rw [hc.get?_chunks, hnone] at hr
    cases hr
  | delete _ hd =>
    rw [hd.get?_chunks, hnone] at hr
    cases hr
  | claim =>
    rw [get?_claimChunks, hnone] at hr
    cases hr
  | purge =>
    rw [get?_deleteChunkRecordsBulk, hnone] at hr
    cases hr
  | revert =>
    rw [get?_revertTombstone, hnone] at hr
    cases hr

theorem Txn.laid (n : Nat) (db : Store) (t : Txn) (h : Laid n db) : Laid n (t.apply n db) :=
  ⟨t.sharded n db h.sharded, t.manned n db h.manned, t.staffed n db h.staffed, fun k _ hr =>
    ((t.storeStep n db).keys hr).elim id fun ⟨r₀, hr₀⟩ => h.keys k r₀ hr₀⟩

theorem laid_empty (n : Nat) : Laid n .empty where
  sharded := ⟨Or.inl fun b => rfl, fun b c hb => by cases hb⟩
  manned := ⟨fun id c hc => (by cases hc), fun h r hr => (by cases hr)⟩
  staffed := staffed_empty
  keys h r hr := by cases hr

/-! ## Which plans list a sealed worker -/

section

variable {n : Nat} {db : Store}

/-- A hash of the bucket gets the nodes of its owner. -/
theorem Laid.plan_of_bucket (h : Laid n db) (hn : n ≤ 2 ^ 32) {b : Nat} {id : Int} {c : ClusterRow}
    (hb : db.shardMap.get? b = some id) (hc : db.clusters.get? id = some c) :
    ∃ hashes db' plans, filterMissingChunks n db hashes = .ok (db', plans) ∧
      ∃ plan ∈ plans, planNodes n db plan.hash = c.activeNodes := by
  have hcovers : ∀ b, (db.shardMap.get? b).isSome ↔ b < n := by
    refine h.sharded.covered.resolve_left fun hnone => ?_
    rw [hnone] at hb
    cases hb
  have hlt : b < n := (hcovers b).1 (by rw [hb]; rfl)
  have hrow : db.chunks.get? (bucketHash b) = none := by
    cases hr : db.chunks.get? (bucketHash b) with
    | none => rfl
    | some r =>
      have hlen := h.keys _ r hr
      rw [length_bucketHash] at hlen
      omega
  have hrouted : Routed n db := ⟨hcovers, h.sharded.owners, h.manned, h.staffed⟩
  cases hres : filterMissingChunks n db [bucketHash b] with
  | error e =>
    obtain ⟨key, hkey⟩ := varchar_bucketHash b
    rcases hrouted.filterMissingChunks (Nat.zero_lt_of_lt hlt) hres with ⟨-, k, hk, r, hr, -⟩ | ⟨-, k, hk, hlong⟩
    · rw [List.mem_singleton.1 hk, hrow] at hr
      cases hr
    · rw [List.mem_singleton.1 hk, hkey] at hlong
      cases hlong
  | ok res =>
    obtain ⟨db', plans⟩ := res
    have hhashes := (filterMissingChunks_plans hres).1
    have hmissing : isMissing db (bucketHash b) = true := by rw [isMissing, hrow]
    rw [List.filter_cons_of_pos hmissing, List.filter_nil, List.map_eq_singleton_iff] at hhashes
    obtain ⟨plan, rfl, hplan⟩ := hhashes
    refine ⟨_, db', _, hres, plan, List.mem_singleton_self _, ?_⟩
    rw [hplan, planNodes, hrow]
    simp only [calculateBucketId_bucketHash hlt hn, hb, Option.bind_some, hc, Option.map_some, Option.getD_some]

/-- A waiting chunk gets the nodes of its row. -/
theorem Laid.plan_of_pending (h : Laid n db) {k : String} {r : ChunkRow} (hr : db.chunks.get? k = some r)
    (hzero : r.refCount = 0) : ∃ hashes db' plans, filterMissingChunks n db hashes = .ok (db', plans) ∧
      ∃ plan ∈ plans, planNodes n db plan.hash = r.nodes := by
  obtain ⟨nodes, hnodes⟩ :=
    Option.ne_none_iff_exists'.1 (nodeData_ne_none (h.manned.chunks k r hr) (h.staffed.chunks k r hr))
  have hone : filterMissingOne n db k =
      .ok ({ db with chunks := refreshChunk db.now db.chunks k }, some (parseNodePlan k nodes)) := by
    simp [filterMissingOne, hr, hzero, hnodes]
  refine ⟨[k], _, _, filterMissingChunks_cons.2 ⟨_, _, _, hone, rfl, rfl⟩, parseNodePlan k nodes, by simp, ?_⟩
  simp only [planNodes, parseNodePlan, hr]

theorem Laid.sealedSpared_iff (h : Laid n db) (hn : n ≤ 2 ^ 32) : SealedSpared n db ↔ SealedOut db := by
  constructor
  · intro hspared
    refine ⟨fun id c hc ⟨b, hb⟩ => ?_, fun k r hr hzero => ?_⟩
    · obtain ⟨hashes, db', plans, hok, plan, hplan, hnodes⟩ := h.plan_of_bucket hn hb hc
      exact hnodes ▸ hspared hashes db' plans hok plan hplan
    · obtain ⟨hashes, db', plans, hok, plan, hplan, hnodes⟩ := h.plan_of_pending hr hzero
      exact hnodes ▸ hspared hashes db' plans hok plan hplan
  · intro hout hashes db' plans hok plan hplan
    have hmissing : plan.hash ∈ hashes.filter (isMissing db) := by
      rw [← (filterMissingChunks_plans hok).1]
      exact List.mem_map_of_mem hplan
    have hmissing := (List.mem_filter.1 hmissing).2
    unfold planNodes
    cases hrow : db.chunks.get? plan.hash with
    | some r =>
      rw [isMissing, hrow] at hmissing
      exact hout.pending _ r hrow (by simpa using hmissing)
    | none =>
      cases hb : db.shardMap.get? (calculateBucketId plan.hash n) with
      | none => exact fun id hid => by cases hid
      | some id =>
        cases hc : db.clusters.get? id with
        | none =>
          simp only [Option.bind_some, hc]
          exact fun id hid => by cases hid
        | some c =>
          simp only [Option.bind_some, hc]
          exact hout.clusters id c hc ⟨_, hb⟩

end

/-! ## One transaction -/

section

variable {n : Nat} {db db' : Store}

/-- Away from clusters and workers only the waiting chunks can change. -/
theorem SealedOut.iff_pending (h : SealedOut db) (hworkers : db'.workers = db.workers)
    (hclusters : db'.clusters = db.clusters) (hshardMap : db'.shardMap = db.shardMap) :
    SealedOut db' ↔ ∀ k r, db'.chunks.get? k = some r → r.refCount = 0 → Unsealed db r.nodes := by
  have hsealed : ∀ nodes, Unsealed db' nodes ↔ Unsealed db nodes := by
    intro nodes
    unfold Unsealed Sealed
    rw [hworkers]
  constructor
  · intro h' k r hr hzero
    exact (hsealed _).1 (h'.pending k r hr hzero)
  · intro hpending
    refine ⟨fun id c hc ⟨b, hb⟩ => (hsealed _).2 ?_, fun k r hr hzero => (hsealed _).2 (hpending k r hr hzero)⟩
    rw [hclusters] at hc
    rw [hshardMap] at hb
    exact h.clusters id c hc ⟨b, hb⟩

theorem SealedOut.of_chunks (h : SealedOut db) (hworkers : db'.workers = db.workers)
    (hclusters : db'.clusters = db.clusters) (hshardMap : db'.shardMap = db.shardMap) (hchunks : db'.chunks = db.chunks) :
    SealedOut db' :=
  (h.iff_pending hworkers hclusters hshardMap).2 fun k r hr => h.pending k r (hchunks ▸ hr)

/-- **A heartbeat** changes nobody's seal. -/
theorem registerWorker_sealed {ih ah : String} {ip ap free : Int} (h : registerWorker db ih ip ah ap free = .ok db')
    (id : Int) : Sealed db' id ↔ Sealed db id := by
  unfold registerWorker at h
  split at h
  · simp only at h
    split at h
    · split at h
      · rename_i ws hins
        cases h
        obtain ⟨hnone, rfl⟩ := Table.insert?_eq_some.1 hins
        unfold Sealed
        simp only [Table.get?_insertNew]
        split
        · rename_i hid
          subst hid
          simp [hnone]
        · rfl
      · cases h
    · cases h
      unfold Sealed
      simp only [Table.get?_updateWhere]
      cases db.workers.get? id with
      | none => simp
      | some w =>
        simp only [Option.map_some, Option.some.injEq, exists_eq_left']
        split
        · cases w.status <;> simp
        · rfl
  · cases h

theorem filterMissingChunks_sealedOut {hashes : List String} {plans : List ChunkRoutingPlan} (h : SealedOut db)
    (hok : filterMissingChunks n db hashes = .ok (db', plans)) : SealedOut db' := by
  have heff := filterMissingChunks_effect hok
  refine (h.iff_pending (by rw [heff.frame]) (by rw [heff.frame]) (by rw [heff.frame])).2 fun k r hr hzero => ?_
  cases hold : db.chunks.get? k with
  | some r₀ =>
    obtain ⟨t, ht, -⟩ := heff.kept k r₀ hold
    obtain rfl := Option.some.inj (ht.symm.trans hr)
    exact h.pending k r₀ hold hzero
  | none =>
    have hnodes := (filterMissingChunks_planNodes hok).1 k
    simp only [planNodes, hr, hold] at hnodes
    rw [hnodes]
    cases hb : db.shardMap.get? (calculateBucketId k n) with
    | none => exact fun id hid => by cases hid
    | some id =>
      cases hc : db.clusters.get? id with
      | none =>
        simp only [Option.bind_some, hc]
        exact fun id hid => by cases hid
      | some c =>
        simp only [Option.bind_some, hc]
        exact h.clusters id c hc ⟨_, hb⟩

theorem CommitEffect.sealedOut_iff {userId : Int} {filename : String} {size : Int} {hashes : List String}
    (heff : CommitEffect db userId filename size hashes db') (h : SealedOut db) : SealedOut db' ↔
      ∀ k r, db.chunks.get? k = some r → r.refCount < 0 → r.refCount + hashes.count k = 0 → Unsealed db r.nodes := by
  have hframe : db'.workers = db.workers ∧ db'.clusters = db.clusters ∧ db'.shardMap = db.shardMap := by
    obtain ⟨-, -, arr, name, -, -, rfl⟩ := heff
    exact ⟨rfl, rfl, rfl⟩
  rw [h.iff_pending hframe.1 hframe.2.1 hframe.2.2]
  constructor
  · intro hpending k r hr _ hsum
    refine hpending k { r with
      refCount := r.refCount + hashes.count k, createdAt := if k ∈ hashes then db.now else r.createdAt } ?_ hsum
    rw [heff.get?_chunks, hr, Option.map_some]
  · intro hcond k r hr hzero
    rw [heff.get?_chunks] at hr
    obtain ⟨r₀, hr₀, rfl⟩ := Option.map_eq_some_iff.1 hr
    by_cases hneg : r₀.refCount < 0
    · exact hcond k r₀ hr₀ hneg hzero
    · exact h.pending k r₀ hr₀ (by simp only at hzero; omega)

theorem DeleteEffect.sealedOut_iff {userId : Int} {filename : String} {first : FileRow}
    (heff : DeleteEffect db userId filename first db') (h : SealedOut db) : SealedOut db' ↔
      ∀ k r, db.chunks.get? k = some r → r.refCount = 1 → some k ∈ first.chunks → Unsealed db r.nodes := by
  rw [h.iff_pending (by rw [heff.effect]) (by rw [heff.effect]) (by rw [heff.effect])]
  constructor
  · intro hpending k r hr hone hin
    refine hpending k { r with refCount := r.refCount - 1 } ?_ (by simp only; omega)
    rw [heff.get?_chunks, hr, Option.map_some, if_pos hin]
  · intro hcond k r hr hzero
    rw [heff.get?_chunks] at hr
    obtain ⟨r₀, hr₀, rfl⟩ := Option.map_eq_some_iff.1 hr
    split at hzero
    · rename_i hin
      rw [if_pos hin]
      exact hcond k r₀ hr₀ (by simp only at hzero; omega) hin
    · rename_i hout
      rw [if_neg hout]
      exact h.pending k r₀ hr₀ hzero

theorem revertTombstone_sealedOut {hash : String} (h : SealedOut db) : SealedOut (revertTombstone db hash) ↔
    ∀ r, db.chunks.get? hash = some r → r.refCount = -1 → Unsealed db r.nodes := by
  refine (show SealedOut (revertTombstone db hash) ↔ _ from h.iff_pending rfl rfl rfl).trans ?_
  constructor
  · intro hpending r hr htombstone
    refine hpending hash { r with refCount := 0, createdAt := db.now } ?_ rfl
    rw [get?_revertTombstone, hr, Option.map_some, if_pos ⟨rfl, htombstone⟩]
  · intro hcond k r hr hzero
    rw [get?_revertTombstone] at hr
    obtain ⟨r₀, hr₀, rfl⟩ := Option.map_eq_some_iff.1 hr
    split at hzero
    · rename_i hk
      obtain ⟨rfl, htombstone⟩ := hk
      rw [if_pos ⟨rfl, htombstone⟩]
      exact hcond r₀ hr₀ htombstone
    · rename_i hk
      rw [if_neg hk]
      exact h.pending k r₀ hr₀ hzero

theorem GrowEffect.sealedOut_iff {order : List Nat} {ids : List Int} (heff : GrowEffect n order db ids db') (hn : 1 ≤ n)
    (hlaid : Laid n db) (h : SealedOut db) : SealedOut db' ↔ Unsealed db ids := by
  obtain ⟨-, hfresh, name, rfl⟩ := heff
  have hnew : (db.clusters.insertNew db.clusterSeq ⟨name, ids⟩).get? db.clusterSeq = some ⟨name, ids⟩ := by
    rw [Table.get?_insertNew, if_pos rfl, hfresh, Option.getD_none]
  constructor
  · intro h'
    exact h'.clusters _ _ hnew (grownShardMap_owns hn order hlaid.sharded.covered)
  · intro hids
    refine ⟨fun id c hc ⟨b, hb⟩ => ?_, h.pending⟩
    by_cases hid : id = db.clusterSeq
    · subst hid
      obtain rfl := Option.some.inj (hnew.symm.trans hc)
      exact hids
    · have hold : db.clusters.get? id = some c := by
        simpa only [Table.get?_insertNew, if_neg hid] using hc
      exact h.clusters id c hold ⟨b, (grownShardMap_owner hb).resolve_left hid⟩

/-- What a successful `ReplaceCluster` did. -/
structure ReplaceEffect (db : Store) (clusterId : Int) (ids : List Int) (cluster : ClusterRow) (db' : Store) : Prop where
  found : db.clusters.get? clusterId = some cluster
  verified : verifyNodesExist db ids = .ok ()
  effect : db' = { db with
    workers := db.workers.updateWhere (fun id _ => cluster.activeNodes.contains id) fun w => { w with status := .readOnly }
    clusters := db.clusters.updateWhere (fun id _ => id == clusterId) fun c => { c with activeNodes := ids } }

theorem replaceCluster_effect {clusterId : Int} {ids : List Int} (h : replaceCluster db clusterId ids = .ok db') :
    ∃ cluster, ReplaceEffect db clusterId ids cluster db' := by
  unfold replaceCluster at h
  split at h
  · cases h
  rename_i cluster hfound
  split at h
  · cases h
  rename_i hverified
  exact ⟨cluster, hfound, hverified, (Except.ok.inj h).symm⟩

theorem ReplaceEffect.sealed {clusterId : Int} {ids : List Int} {cluster : ClusterRow}
    (heff : ReplaceEffect db clusterId ids cluster db') (hstaffed : Staffed db) (id : Int) :
    Sealed db' id ↔ Sealed db id ∨ id ∈ cluster.activeNodes := by
  obtain ⟨hfound, -, rfl⟩ := heff
  unfold Sealed
  simp only [Table.get?_updateWhere, Option.map_eq_some_iff]
  constructor
  · rintro ⟨w, ⟨w₀, hw₀, rfl⟩, hstatus⟩
    split at hstatus
    · rename_i hin
      exact Or.inr (List.contains_iff_mem.1 hin)
    · exact Or.inl ⟨w₀, hw₀, hstatus⟩
  · rintro (⟨w, hw, hstatus⟩ | hin)
    · exact ⟨_, ⟨w, hw, rfl⟩, by split <;> trivial⟩
    · obtain ⟨w, hw⟩ := Option.isSome_iff_exists.1 (hstaffed.clusters _ _ hfound id hin)
      exact ⟨_, ⟨w, hw, rfl⟩, by rw [if_pos (List.contains_iff_mem.2 hin)]⟩

theorem ReplaceEffect.sealedOut_iff {clusterId : Int} {ids : List Int} {cluster : ClusterRow}
    (heff : ReplaceEffect db clusterId ids cluster db') (hstaffed : Staffed db) (h : SealedOut db) : SealedOut db' ↔
      (OwnsBucket db clusterId → Unsealed db ids ∧ ∀ id ∈ ids, id ∉ cluster.activeNodes) ∧
      (∀ other c, other ≠ clusterId → db.clusters.get? other = some c → OwnsBucket db other →
        ∀ id ∈ c.activeNodes, id ∉ cluster.activeNodes) ∧
      ∀ k r, db.chunks.get? k = some r → r.refCount = 0 → ∀ id ∈ r.nodes, id ∉ cluster.activeNodes := by
  have hunsealed : ∀ nodes, Unsealed db' nodes ↔ Unsealed db nodes ∧ ∀ id ∈ nodes, id ∉ cluster.activeNodes := by
    intro nodes
    unfold Unsealed
    simp only [heff.sealed hstaffed, not_or]
    exact forall₂_and
  have hclusters : ∀ id, db'.clusters.get? id =
      (db.clusters.get? id).map fun c => if id = clusterId then { c with activeNodes := ids } else c := by
    intro id
    rw [heff.effect]
    simp
  have hshardMap : ∀ id, OwnsBucket db' id ↔ OwnsBucket db id := by
    intro id
    rw [heff.effect]
    rfl
  have hchunks : db'.chunks = db.chunks := by rw [heff.effect]
  constructor
  · intro h'
    refine ⟨fun howns => ?_, fun other c hother hc howns => ?_, fun k r hr hzero => ?_⟩
    · refine (hunsealed ids).1 (h'.clusters clusterId { cluster with activeNodes := ids } ?_ ((hshardMap _).2 howns))
      rw [hclusters, heff.found, Option.map_some, if_pos rfl]
    · refine ((hunsealed _).1 (h'.clusters other c ?_ ((hshardMap _).2 howns))).2
      rw [hclusters, hc, Option.map_some, if_neg hother]
    · exact ((hunsealed _).1 (h'.pending k r (hchunks ▸ hr) hzero)).2
  · rintro ⟨hown, hothers, hpending⟩
    refine ⟨fun id c hc howns => (hunsealed _).2 ?_, fun k r hr hzero => (hunsealed _).2 ?_⟩
    · rw [hclusters] at hc
      obtain ⟨c₀, hc₀, rfl⟩ := Option.map_eq_some_iff.1 hc
      have howns := (hshardMap id).1 howns
      by_cases hid : id = clusterId
      · rw [if_pos hid]
        exact hown (hid ▸ howns)
      · rw [if_neg hid]
        exact ⟨h.clusters id c₀ hc₀ howns, hothers id c₀ hid hc₀ howns⟩
    · rw [hchunks] at hr
      exact ⟨h.pending k r hr hzero, hpending k r hr hzero⟩

/-- **One transaction** leaves sealed workers spared exactly when it meets the condition. -/
theorem SealedOut.step_iff (hn : 1 ≤ n) (hlaid : Laid n db) (h : SealedOut db) (t : Txn) :
    SealedOut (t.apply n db) ↔ SparesSealed n db t := by
  cases t with
  | createUser e p s =>
    refine iff_of_true ?_ trivial
    have hframe := Txn.administers_frame n db (t := .createUser e p s) rfl
    exact h.of_chunks hframe.1 hframe.2 (Txn.shardMap_frame n db rfl) (createUser_quiet db e p s).chunks
  | registerWorker ih ip ah ap free =>
    refine iff_of_true ?_ trivial
    simp only [Txn.apply, committed]
    split
    · rename_i db' hok
      have hquiet := registerWorker_quiet hok
      have hunsealed : ∀ nodes, Unsealed db' nodes ↔ Unsealed db nodes := by
        intro nodes
        unfold Unsealed
        simp only [registerWorker_sealed hok]
      have hshardMap : db'.shardMap = db.shardMap := by
        have hframe := Txn.shardMap_frame n db (t := .registerWorker ih ip ah ap free) rfl
        simpa only [Txn.apply, hok, committed] using hframe
      refine ⟨fun id c hc hb => (hunsealed _).2 ?_, fun k r hr hzero => (hunsealed _).2 ?_⟩
      · obtain ⟨b, hb⟩ := hb
        exact h.clusters id c (registerWorker_clusters hok ▸ hc) ⟨b, hshardMap ▸ hb⟩
      · exact h.pending k r (hquiet.chunks ▸ hr) hzero
    · exact h
  | filterMissingChunks hashes =>
    refine iff_of_true ?_ trivial
    simp only [Txn.apply]
    cases hres : StorageEngine.filterMissingChunks n db hashes with
    | error e => exact h
    | ok res => exact filterMissingChunks_sealedOut h hres
  | commitFile u f s hashes =>
    simp only [Txn.apply, SparesSealed]
    cases hres : StorageEngine.commitFile db u f s hashes with
    | error e => exact iff_of_true h fun hok => by cases hok
    | ok db' =>
      rw [committed, (commitFile_ok.1 hres).sealedOut_iff h]
      exact ⟨fun hcond _ => hcond, fun hcond => hcond rfl⟩
  | deleteFile order u f =>
    simp only [Txn.apply, SparesSealed]
    rcases deleteFile_cases order db u f with ⟨hnone, hres⟩ | ⟨first, db', hfirst, hres, heff⟩
    · rw [hres]
      refine iff_of_true h fun first hfirst => ?_
      obtain ⟨id, hid, hname⟩ := mem_fileRows.1 (List.mem_of_mem_head? hfirst)
      exact absurd hname (hnone id first hid)
    · rw [hres, heff.sealedOut_iff h, hfirst]
      constructor
      · rintro hcond _ ⟨⟩
        exact hcond
      · exact fun hcond => hcond first rfl
  | getOrphanedChunks order fault expiry limit =>
    refine iff_of_true ?_ trivial
    cases fault with
    | none =>
      refine (show SealedOut (claimChunks db (orphanHashes order db expiry limit)) ↔ _ from
        h.iff_pending rfl rfl rfl).2 fun k r hr hzero => ?_
      rw [get?_claimChunks] at hr
      obtain ⟨r₀, hr₀, rfl⟩ := Option.map_eq_some_iff.1 hr
      split at hzero
      · cases hzero
      · rename_i hout
        rw [if_neg hout]
        exact h.pending k r₀ hr₀ hzero
    | some fault => cases fault <;> exact h
  | deleteChunkRecordsBulk hashes =>
    refine iff_of_true ?_ trivial
    have hframe := Txn.administers_frame n db (t := .deleteChunkRecordsBulk hashes) rfl
    refine (h.iff_pending hframe.1 hframe.2 (Txn.shardMap_frame n db rfl)).2 fun k r hr hzero => ?_
    simp only [Txn.apply, get?_deleteChunkRecordsBulk, Option.filter_eq_some_iff] at hr
    exact h.pending k r hr.1 hzero
  | revertTombstone hash => exact revertTombstone_sealedOut h
  | addCluster order name ids =>
    simp only [Txn.apply, SparesSealed]
    cases hres : StorageEngine.addCluster n order db name ids with
    | error e => exact iff_of_true h fun hok => by cases hok
    | ok db' =>
      rw [committed, (addCluster_effect hres).sealedOut_iff hn hlaid h]
      exact ⟨fun hcond _ => hcond, fun hcond => hcond rfl⟩
  | replaceCluster clusterId ids =>
    simp only [Txn.apply, SparesSealed]
    cases hres : StorageEngine.replaceCluster db clusterId ids with
    | error e => exact iff_of_true h fun hok => by cases hok
    | ok db' =>
      obtain ⟨cluster, heff⟩ := replaceCluster_effect hres
      rw [committed, heff.sealedOut_iff hlaid.staffed h, heff.found]
      constructor
      · rintro hcond - _ ⟨⟩
        exact hcond
      · exact fun hcond => hcond rfl cluster rfl
  | tick d => exact iff_of_true (h.of_chunks rfl rfl rfl rfl) trivial

/-- **No transaction lifts a seal.** -/
theorem Txn.sealed (t : Txn) (hstaffed : Staffed db) {id : Int} (h : Sealed db id) : Sealed (t.apply n db) id := by
  by_cases ht : t.administers = true
  · cases t with
    | registerWorker ih ip ah ap free =>
      simp only [Txn.apply, committed]
      split
      · rename_i db' hok
        exact (registerWorker_sealed hok id).2 h
      · exact h
    | addCluster order name ids =>
      simp only [Txn.apply, committed]
      split
      · rename_i db' hok
        unfold Sealed
        rwa [addCluster_workers hok]
      · exact h
    | replaceCluster clusterId ids =>
      simp only [Txn.apply, committed]
      split
      · rename_i db' hok
        obtain ⟨cluster, heff⟩ := replaceCluster_effect hok
        exact (heff.sealed hstaffed id).2 (Or.inl h)
      · exact h
    | _ => cases ht
  · unfold Sealed
    rwa [(Txn.administers_frame n db (by simpa using ht)).1]

end

/-! ## Runs -/

/-- A worker that is sealed stays sealed. -/
def StaysSealed (n : Nat) (txns : List Txn) : Prop :=
  ∀ before after, txns = before ++ after → ∀ id, Sealed (run n .empty before) id → Sealed (run n .empty txns) id

theorem staysSealed (n : Nat) (txns : List Txn) : StaysSealed n txns := by
  rintro before after rfl id h
  rw [run_append]
  have hstaffed := run_inv (Txn.staffed n) before staffed_empty
  exact (run_inv (P := fun db => Staffed db ∧ Sealed db id)
    (fun db t hdb => ⟨t.staffed n db hdb.1, t.sealed hdb.1 hdb.2⟩) after ⟨hstaffed, h⟩).2

/-- **Sealed workers take no new data**, in every state of a run, exactly when each of its transactions meets
`SparesSealed`; a seal is never lifted. -/
theorem sealed_spared_iff {n : Nat} (hn : 1 ≤ n) (hmax : n ≤ 2147483647) (txns : List Txn) :
    Always (stepTxn n) (SealedSpared n) .empty txns ∧ StaysSealed n txns ↔
      EachStep (stepTxn n) (SparesSealed n) .empty txns := by
  rw [and_iff_left (staysSealed n txns)]
  have hbuckets : n ≤ 2 ^ 32 := by omega
  refine always_iff_eachStep (J := Laid n) (A := fun _ _ => True) (fun db t db' hlaid _ hstep => ?_)
    (fun db t db' hlaid hspared _ hstep => ?_) (eachStep_true txns _) (laid_empty n) ?_
  · exact Option.some.inj hstep ▸ t.laid n db hlaid
  · obtain rfl := Option.some.inj hstep
    rw [(t.laid n db hlaid).sealedSpared_iff hbuckets]
    exact ((hlaid.sealedSpared_iff hbuckets).1 hspared).step_iff hn hlaid t
  · refine ((laid_empty n).sealedSpared_iff hbuckets).2 ⟨fun id c hc => ?_, fun k r hr => ?_⟩
    · cases hc
    · cases hr

/-- A cluster of one worker, replaced by that worker and a second one. -/
def grownInPlace : List Txn :=
  [.registerWorker "worker1" 9081 "localhost" 9081 0, .registerWorker "worker2" 9082 "localhost" 9082 0,
   .addCluster [] "hot" [1], .replaceCluster 1 [1, 2]]

theorem sealed_spared_grownInPlace :
    Always (stepTxn 4) (SealedSpared 4) .empty grownInPlace ∧ StaysSealed 4 grownInPlace ↔
      EachStep (stepTxn 4) (SparesSealed 4) .empty grownInPlace :=
  sealed_spared_iff (by decide) (by decide) grownInPlace

/-- The first worker is `READ_ONLY`, and every new chunk is sent to it. -/
theorem grownInPlace_listed : ¬ ∀ n txns, 1 ≤ n → n ≤ 2147483647 →
    Always (stepTxn n) (SealedSpared n) .empty txns ∧ StaysSealed n txns := by
  intro h
  have hspared := always_iff_prefix.1 (h 4 grownInPlace (by decide) (by decide)).1 _ _ (List.prefix_refl _)
    (exec_stepTxn 4 _ _)
  have hplan : (filterMissingChunks 4 (run 4 .empty grownInPlace) ["ab"]).toOption.any (fun res =>
      res.2.any fun plan => planNodes 4 (run 4 .empty grownInPlace) plan.hash == [1, 2]) = true := by decide +kernel
  have hstatus : ((run 4 .empty grownInPlace).workers.get? 1).any (fun w => w.status == .readOnly) = true := by
    decide +kernel
  obtain ⟨res, hres, hany⟩ := (Option.any_eq_true ..).1 hplan
  obtain ⟨plan, hin, hnodes⟩ := List.any_eq_true.1 hany
  obtain ⟨w, hw, hreadOnly⟩ := (Option.any_eq_true ..).1 hstatus
  have hok : filterMissingChunks 4 (run 4 .empty grownInPlace) ["ab"] = .ok (res.1, res.2) := by
    cases hcall : filterMissingChunks 4 (run 4 .empty grownInPlace) ["ab"] with
    | error e =>
      rw [hcall] at hres
      cases hres
    | ok res' =>
      rw [hcall] at hres
      rw [Option.some.inj hres]
  refine hspared _ _ _ hok plan hin 1 ?_ ⟨w, hw, by simpa using hreadOnly⟩
  rw [beq_iff_eq.1 hnodes]
  exact List.mem_cons_self

end StorageEngine
