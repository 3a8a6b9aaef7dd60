import Mathlib.Data.List.Perm.Subperm
import StorageEngine.Metadata.Txn

/-!
# Where chunks are placed

A `chunks` row keeps the node array of the cluster its hash was routed to, and an array only enters
`clusters` after `VerifyNodesExist`; worker rows are never deleted and keep their internal address. So
the machines behind a node array are the same ones for good. `Addresses` says which machine a request
reaches: a worker is one machine under both of its addresses as long as it registers with addresses of
its own (`RegistersItself`).
-/

namespace StorageEngine

open Relational

/-! ## Node arrays -/

/-- The node arrays that are stored name workers that exist. -/
structure Staffed (db : Store) : Prop where
  clusters : ∀ id c, db.clusters.get? id = some c → ∀ w ∈ c.activeNodes, (db.workers.get? w).isSome
  chunks : ∀ h r, db.chunks.get? h = some r → ∀ w ∈ r.nodes, (db.workers.get? w).isSome

theorem staffed_empty : Staffed .empty where
  clusters id c hc := by cases hc
  chunks h r hr := by cases hr

/-- As many rows as distinct ids: every id has a row. -/
theorem verifyNodesExist_ok {db : Store} {ids : List Int} (h : verifyNodesExist db ids = .ok ()) :
    ∀ id ∈ ids, (db.workers.get? id).isSome := by
  unfold verifyNodesExist at h
  split at h
  · cases h
  · split at h
    · rename_i hlen
      have hsub : (db.workers.select fun id _ => ids.contains id).map Prod.fst ⊆ ids.dedup := by
        intro id hid
        obtain ⟨⟨k, w⟩, hsel, rfl⟩ := List.mem_map.1 hid
        have hk := (Table.mem_select.1 hsel).2
        exact List.mem_dedup.2 (by simpa using hk)
      have hnd := nodup_select db.workers fun id _ => ids.contains id
      have hperm := (hnd.subperm hsub).perm_of_length_le (by rw [List.length_map, hlen])
      intro id hid
      have hmem := hperm.mem_iff.2 (List.mem_dedup.2 hid)
      obtain ⟨⟨k, w⟩, hsel, rfl⟩ := List.mem_map.1 hmem
      rw [(Table.mem_select.1 hsel).1]
      rfl
    · cases h

/-- Worker rows stay, under the internal address they have. -/
def WorkersKept (db db' : Store) : Prop :=
  ∀ id w, db.workers.get? id = some w →
    ∃ w', db'.workers.get? id = some w' ∧ w'.internalHost = w.internalHost ∧ w'.internalPort = w.internalPort

theorem WorkersKept.of_eq {db db' : Store} (h : db'.workers = db.workers) : WorkersKept db db' :=
  fun _ w hw => ⟨w, by rw [h]; exact hw, rfl, rfl⟩

theorem WorkersKept.isSome {db db' : Store} (h : WorkersKept db db') {id : Int} (hid : (db.workers.get? id).isSome) :
    (db'.workers.get? id).isSome := by
  obtain ⟨w, hw⟩ := Option.isSome_iff_exists.1 hid
  obtain ⟨w', hw', -⟩ := h id w hw
  rw [hw']
  rfl

theorem CommitEffect.workers {db db' : Store} {u : Int} {f : String} {s : Int} {hashes : List String}
    (h : CommitEffect db u f s hashes db') : db'.workers = db.workers := by
  obtain ⟨-, -, arr, name, -, -, rfl⟩ := h
  rfl

theorem StoreStep.workersKept {n : Nat} {db db' : Store} {t : Txn} (h : StoreStep n db t db') : WorkersKept db db' := by
  cases h with
  | quiet h => exact h.workers
  | filter h => exact .of_eq (by rw [(filterMissingChunks_effect h).frame])
  | commit h => exact .of_eq h.workers
  | delete _ h => exact .of_eq (by rw [h.effect])
  | claim => exact .of_eq rfl
  | purge => unfold deleteChunkRecordsBulk; split <;> exact .of_eq rfl
  | revert => exact .of_eq rfl

/-- A row keeps its node array; a new one has that of a cluster. -/
theorem StoreStep.nodes {n : Nat} {db db' : Store} {t : Txn} (h : StoreStep n db t db') {k : String} {r : ChunkRow}
    (hr : db'.chunks.get? k = some r) : (∃ r₀, db.chunks.get? k = some r₀ ∧ r.nodes = r₀.nodes) ∨
      db.chunks.get? k = none ∧ ∃ id c, db.clusters.get? id = some c ∧ r.nodes = c.activeNodes := by
  cases h with
  | quiet h => rw [h.chunks] at hr; exact Or.inl ⟨r, hr, rfl⟩
  | filter h =>
    have heff := filterMissingChunks_effect h
    cases hk : db.chunks.get? k with
    | none => exact Or.inr ⟨rfl, heff.routed k r hk hr⟩
    | some r₀ =>
      obtain ⟨t, ht, -⟩ := heff.kept k r₀ hk
      rw [hr, Option.some.injEq] at ht
      exact Or.inl ⟨r₀, rfl, by rw [ht]⟩
  | commit h =>
    rw [h.get?_chunks, Option.map_eq_some_iff] at hr
    obtain ⟨r₀, hr₀, rfl⟩ := hr
    exact Or.inl ⟨r₀, hr₀, rfl⟩
  | delete _ h =>
    rw [h.get?_chunks, Option.map_eq_some_iff] at hr
    obtain ⟨r₀, hr₀, rfl⟩ := hr
    exact Or.inl ⟨r₀, hr₀, by split <;> rfl⟩
  | claim =>
    rw [get?_claimChunks, Option.map_eq_some_iff] at hr
    obtain ⟨r₀, hr₀, rfl⟩ := hr
    exact Or.inl ⟨r₀, hr₀, by split <;> rfl⟩
  | purge =>
    rw [get?_deleteChunkRecordsBulk, Option.filter_eq_some_iff] at hr
    exact Or.inl ⟨r, hr.1, rfl⟩
  | revert =>
    rw [get?_revertTombstone, Option.map_eq_some_iff] at hr
    obtain ⟨r₀, hr₀, rfl⟩ := hr
    exact Or.inl ⟨r₀, hr₀, by split <;> rfl⟩

/-- The calls of workers and operators. -/
def Txn.administers : Txn → Bool
  | .registerWorker .. | .addCluster .. | .replaceCluster .. => true
  | _ => false

theorem Txn.administers_frame (n : Nat) (db : Store) {t : Txn} (ht : t.administers = false) :
    (t.apply n db).workers = db.workers ∧ (t.apply n db).clusters = db.clusters := by
  cases t with
  | registerWorker ih ip ah ap free => cases ht
  | addCluster order name ids => cases ht
  | replaceCluster cid ids => cases ht
  | createUser e p s =>
    simp only [Txn.apply, StorageEngine.createUser]
    split
    · split
      · split <;> exact ⟨rfl, rfl⟩
      · exact ⟨rfl, rfl⟩
    · exact ⟨rfl, rfl⟩
  | filterMissingChunks hs =>
    simp only [Txn.apply]
    cases h : StorageEngine.filterMissingChunks n db hs with
    | error e => exact ⟨rfl, rfl⟩
    | ok res =>
      have hframe := (filterMissingChunks_effect h).frame
      exact ⟨(congrArg Store.workers hframe).trans rfl, (congrArg Store.clusters hframe).trans rfl⟩
  | commitFile u f s hs =>
    simp only [Txn.apply]
    cases h : StorageEngine.commitFile db u f s hs with
    | error e => exact ⟨rfl, rfl⟩
    | ok db' =>
      obtain ⟨-, -, arr, name, -, -, rfl⟩ := commitFile_ok.1 h
      exact ⟨rfl, rfl⟩
  | deleteFile order u f =>
    simp only [Txn.apply, StorageEngine.deleteFile]
    split <;> exact ⟨rfl, rfl⟩
  | getOrphanedChunks order fault expiry limit =>
    cases fault with
    | none => exact ⟨rfl, rfl⟩
    | some fault => cases fault <;> exact ⟨rfl, rfl⟩
  | deleteChunkRecordsBulk hs =>
    simp only [Txn.apply, StorageEngine.deleteChunkRecordsBulk]
    split <;> exact ⟨rfl, rfl⟩
  | revertTombstone h => exact ⟨rfl, rfl⟩
  | tick d => exact ⟨rfl, rfl⟩

/-- A cluster's node array is one it had, or has been verified. -/
def Rerouted (db db' : Store) : Prop :=
  ∀ id c, db'.clusters.get? id = some c → (∃ c₀, db.clusters.get? id = some c₀ ∧ c.activeNodes = c₀.activeNodes) ∨
    verifyNodesExist db c.activeNodes = .ok ()

theorem Rerouted.of_eq {db db' : Store} (h : db'.clusters = db.clusters) : Rerouted db db' :=
  fun _ c hc => Or.inl ⟨c, by rw [← h]; exact hc, rfl⟩

theorem addCluster_rerouted {n : Nat} {order : List Nat} {db db' : Store} {name : String} {ids : List Int}
    (h : addCluster n order db name ids = .ok db') : Rerouted db db' := by
  unfold addCluster at h
  split at h
  · cases h
  rename_i hverify
  split at h
  · cases h
  split at h
  · cases h
  split at h
  · cases h
  rename_i clusters hins
  cases h
  obtain ⟨hnone, rfl⟩ := Table.insert?_eq_some.1 hins
  intro id c hc
  rw [Table.get?_insertNew, hnone, Option.getD_none] at hc
  split at hc
  · cases hc; exact Or.inr hverify
  · exact Or.inl ⟨c, hc, rfl⟩

theorem replaceCluster_rerouted {db db' : Store} {cid : Int} {ids : List Int} (h : replaceCluster db cid ids = .ok db') :
    Rerouted db db' := by
  unfold replaceCluster at h
  split at h
  · cases h
  split at h
  · cases h
  rename_i hverify
  cases h
  intro id c hc
  simp only [Table.get?_updateWhere, Option.map_eq_some_iff] at hc
  obtain ⟨c₀, hc₀, rfl⟩ := hc
  split
  · exact Or.inr hverify
  · exact Or.inl ⟨c₀, hc₀, rfl⟩

theorem registerWorker_clusters {db db' : Store} {ih ah : String} {ip ap free : Int}
    (h : registerWorker db ih ip ah ap free = .ok db') : db'.clusters = db.clusters := by
  unfold registerWorker at h
  split at h
  · simp only at h
    split at h
    · split at h <;> cases h
      rfl
    · cases h; rfl
  · cases h

theorem Txn.rerouted (n : Nat) (db : Store) (t : Txn) : Rerouted db (t.apply n db) := by
  by_cases ht : t.administers = true
  · cases t with
    | registerWorker ih ip ah ap free =>
      simp only [Txn.apply, committed]
      split
      · rename_i db' h; exact .of_eq (registerWorker_clusters h)
      · exact .of_eq rfl
    | addCluster order name ids =>
      simp only [Txn.apply, committed]
      split
      · rename_i db' h; exact addCluster_rerouted h
      · exact .of_eq rfl
    | replaceCluster cid ids =>
      simp only [Txn.apply, committed]
      split
      · rename_i db' h; exact replaceCluster_rerouted h
      · exact .of_eq rfl
    | _ => cases ht
  · exact .of_eq (Txn.administers_frame n db (by simpa using ht)).2

/-- **Every transaction keeps node arrays staffed.** -/
theorem Txn.staffed (n : Nat) (db : Store) (t : Txn) (h : Staffed db) : Staffed (t.apply n db) := by
  have hstep := t.storeStep n db
  have hkept := hstep.workersKept
  refine ⟨fun id c hc w hw => ?_, fun k r hr w hw => ?_⟩
  · rcases t.rerouted n db id c hc with ⟨c₀, hc₀, hnodes⟩ | hverify
    · exact hkept.isSome (h.clusters id c₀ hc₀ w (hnodes ▸ hw))
    · exact hkept.isSome (verifyNodesExist_ok hverify w hw)
  · rcases hstep.nodes hr with ⟨r₀, hr₀, hnodes⟩ | ⟨-, id, c, hc, hnodes⟩
    · exact hkept.isSome (h.chunks k r₀ hr₀ w (hnodes ▸ hw))
    · exact hkept.isSome (h.clusters id c hc w (hnodes ▸ hw))

/-! ## Machines -/

/-- The machine a request sent to an address reaches. -/
structure Addresses (μ : Type) where
  internal : WorkerLocation → μ
  advertised : NodeInfo → μ

section

variable {μ : Type} (net : Addresses μ)

/-- Both addresses of a worker row are the same machine's. -/
def Addressed (db : Store) : Prop :=
  ∀ id w, db.workers.get? id = some w →
    net.advertised ⟨w.advertisedHost, w.advertisedPort⟩ = net.internal ⟨w.internalHost, w.internalPort⟩

/-- A worker that registers does so with addresses of its own. -/
def RegistersItself : Txn → Prop
  | .registerWorker ih ip ah ap _ =>
    ∀ i ∈ varchar 255 ih, ∀ a ∈ varchar 255 ah, net.advertised ⟨a, ap⟩ = net.internal ⟨i, ip⟩
  | _ => True

instance [DecidableEq μ] : (t : Txn) → Decidable (RegistersItself net t)
  | .registerWorker ih ip ah ap _ =>
    inferInstanceAs (Decidable (∀ i ∈ varchar 255 ih, ∀ a ∈ varchar 255 ah, net.advertised ⟨a, ap⟩ = net.internal ⟨i, ip⟩))
  | .createUser .. | .filterMissingChunks _ | .commitFile .. | .deleteFile .. | .getOrphanedChunks .. |
    .deleteChunkRecordsBulk _ | .revertTombstone _ | .addCluster .. | .replaceCluster .. | .tick _ => .isTrue trivial

/-- The machines that keep the chunks of a node array. -/
def replicas (db : Store) (nodes : List Int) : List μ := (locationsOf db nodes).map net.internal

variable {net}

theorem mem_workersOf {db : Store} {nodes : List Int} {w : WorkerRow} :
    w ∈ workersOf db nodes ↔ ∃ id ∈ nodes, db.workers.get? id = some w := by
  unfold workersOf
  constructor
  · intro hw
    obtain ⟨⟨id, w'⟩, hsel, rfl⟩ := List.mem_map.1 hw
    obtain ⟨hget, hid⟩ := Table.mem_select.1 hsel
    exact ⟨id, by simpa using hid, hget⟩
  · rintro ⟨id, hid, hget⟩
    exact List.mem_map.2 ⟨(id, w), Table.mem_select.2 ⟨hget, by simpa using hid⟩, rfl⟩

theorem mem_replicas {db : Store} {nodes : List Int} {m : μ} :
    m ∈ replicas net db nodes ↔
      ∃ id ∈ nodes, ∃ w, db.workers.get? id = some w ∧ net.internal ⟨w.internalHost, w.internalPort⟩ = m := by
  unfold replicas locationsOf
  simp only [List.map_map, List.mem_map, mem_workersOf, Function.comp_apply]
  constructor
  · rintro ⟨w, ⟨id, hid, hget⟩, hm⟩
    exact ⟨id, hid, w, hget, hm⟩
  · rintro ⟨id, hid, w, hget, hm⟩
    exact ⟨w, ⟨id, hid, hget⟩, hm⟩

/-- A staffed array keeps its machines. -/
theorem WorkersKept.replicas {db db' : Store} (h : WorkersKept db db') {nodes : List Int}
    (hs : ∀ id ∈ nodes, (db.workers.get? id).isSome) {m : μ} (hm : m ∈ replicas net db' nodes) :
    m ∈ StorageEngine.replicas net db nodes := by
  obtain ⟨id, hid, w', hw', rfl⟩ := mem_replicas.1 hm
  obtain ⟨w, hw⟩ := Option.isSome_iff_exists.1 (hs id hid)
  obtain ⟨w'', hw'', hhost, hport⟩ := h id w hw
  rw [hw', Option.some.injEq] at hw''
  subst hw''
  exact mem_replicas.2 ⟨id, hid, w, hw, by rw [hhost, hport]⟩

/-- The nodes of a plan are the machines of the row's array. -/
theorem Addressed.nodeData {db : Store} (h : Addressed net db) {nodes : List Int} {ns : List NodeInfo}
    (hns : nodeData db nodes = some ns) : ns.map net.advertised = replicas net db nodes := by
  unfold StorageEngine.nodeData at hns
  unfold replicas locationsOf
  split at hns
  · cases hns
  · rename_i hws
    rw [Option.some.injEq] at hns
    rw [← hns, List.map_map, List.map_map]
    refine List.map_congr_left fun w hw => ?_
    obtain ⟨id, -, hget⟩ := mem_workersOf.1 hw
    exact h id w hget

theorem registerWorker_addressed {db db' : Store} {ih ah : String} {ip ap free : Int}
    (hok : registerWorker db ih ip ah ap free = .ok db') (hr : RegistersItself net (.registerWorker ih ip ah ap free))
    (h : Addressed net db) : Addressed net db' := by
  intro id w hw
  unfold registerWorker at hok
  split at hok
  · rename_i i a hi ha
    simp only at hok
    split at hok
    · split at hok
      · rename_i ws hins
        cases hok
        obtain ⟨hnone, rfl⟩ := Table.insert?_eq_some.1 hins
        rw [Table.get?_insertNew, hnone, Option.getD_none] at hw
        split at hw
        · cases hw; exact hr i hi a ha
        · exact h id w hw
      · cases hok
    · cases hok
      simp only [Table.get?_updateWhere, Option.map_eq_some_iff] at hw
      obtain ⟨w₀, hw₀, rfl⟩ := hw
      split
      · rename_i hsame
        simp only [Bool.and_eq_true, beq_iff_eq] at hsame
        have hself := hr i hi a ha
        rw [← hsame.1, ← hsame.2] at hself
        exact hself
      · exact h id w₀ hw₀
  · cases hok

theorem replaceCluster_addressed {db db' : Store} {cid : Int} {ids : List Int}
    (hok : replaceCluster db cid ids = .ok db') (h : Addressed net db) : Addressed net db' := by
  unfold replaceCluster at hok
  split at hok
  · cases hok
  split at hok
  · cases hok
  cases hok
  intro id w hw
  simp only [Table.get?_updateWhere, Option.map_eq_some_iff] at hw
  obtain ⟨w₀, hw₀, rfl⟩ := hw
  split
  · exact h id w₀ hw₀
  · exact h id w₀ hw₀

theorem addCluster_workers {n : Nat} {order : List Nat} {db db' : Store} {name : String} {ids : List Int}
    (h : addCluster n order db name ids = .ok db') : db'.workers = db.workers := by
  unfold addCluster at h
  split at h
  · cases h
  split at h
  · cases h
  split at h
  · cases h
  split at h
  · cases h
  cases h
  rfl

/-- **Only registrations write addresses.** -/
theorem Txn.addressed (n : Nat) (db : Store) (t : Txn) (hr : RegistersItself net t) (h : Addressed net db) :
    Addressed net (t.apply n db) := by
  have hsame : ∀ db' : Store, db'.workers = db.workers → Addressed net db' :=
    fun db' he id w hw => h id w (by rw [← he]; exact hw)
  by_cases ht : t.administers = true
  · cases t with
    | registerWorker ih ip ah ap free =>
      simp only [Txn.apply, committed]
      split
      · rename_i db' hok; exact registerWorker_addressed hok hr h
      · exact h
    | addCluster order name ids =>
      simp only [Txn.apply, committed]
      split
      · rename_i db' hok; exact hsame _ (addCluster_workers hok)
      · exact h
    | replaceCluster cid ids =>
      simp only [Txn.apply, committed]
      split
      · rename_i db' hok; exact replaceCluster_addressed hok h
      · exact h
    | _ => cases ht
  · exact hsame _ (Txn.administers_frame n db (by simpa using ht)).1

end

end StorageEngine
