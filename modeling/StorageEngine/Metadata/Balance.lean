import StorageEngine.Lib.Shares
import StorageEngine.Metadata.ShardMap

/-!
# The load of the clusters

Each `AddCluster` trims the owners of the shard map to `num_buckets / (owners + 1)` buckets and gives the rest to the new
cluster (`PostgresRepository.hpp:470-497`). An owner is a cluster in the map: one that has lost all its buckets is
counted no more, and gets none back.

| here | there |
| --- | --- |
| `ownedBuckets`  | `COUNT(bucket_id)` of the `GROUP BY` (`:456-457`), 0 for a cluster without a row |
| `addedClusters` | the ids `INSERT INTO clusters … RETURNING cluster_id` gave (`:451-454`) |
-/

namespace StorageEngine

open Relational Transition Shares

def ownedBuckets (db : Store) (clusterId : Int) : Nat := (db.shardMap.rows.map Prod.snd).count clusterId

/-- The clusters of the `AddCluster` calls that succeed, in order. -/
def addedClusters (n : Nat) : Store → List Txn → List Int
  | _, [] => []
  | db, .addCluster order name ids :: txns =>
    (if (addCluster n order db name ids).isOk then [db.clusterSeq] else []) ++
      addedClusters n ((Txn.addCluster order name ids).apply n db) txns
  | db, t :: txns => addedClusters n (t.apply n db) txns

/-! ## Buckets as a set -/

section

variable {n : Nat} {m : Table Nat Int}

theorem toFinset_select (h : ∀ b c, m.get? b = some c → b < n) (c : Int) :
    ((m.select fun _ d => d == c).map Prod.fst).toFinset = part (Finset.range n) m.get? c := by
  ext b
  rw [List.mem_toFinset, mem_part, Finset.mem_range, List.mem_map]
  constructor
  · rintro ⟨⟨b', d⟩, hin, rfl⟩
    obtain ⟨hget, hd⟩ := Table.mem_select.1 hin
    obtain rfl := beq_iff_eq.1 hd
    exact ⟨h _ _ hget, hget⟩
  · rintro ⟨-, hget⟩
    exact ⟨(b, c), Table.mem_select.2 ⟨hget, beq_self_eq_true c⟩, rfl⟩

/-- `COUNT` counts the buckets. -/
theorem count_owner (h : ∀ b c, m.get? b = some c → b < n) (c : Int) :
    (m.rows.map Prod.snd).count c = (part (Finset.range n) m.get? c).card := by
  rw [← toFinset_select h, List.toFinset_card_of_nodup (nodup_select _ _), List.length_map, List.count, List.countP_map,
    List.countP_eq_length_filter]
  rfl

theorem toFinset_owners (h : ∀ b c, m.get? b = some c → b < n) :
    (m.rows.map Prod.snd).toFinset = owners (Finset.range n) m.get? := by
  ext c
  rw [List.mem_toFinset, mem_owners, List.mem_map]
  constructor
  · rintro ⟨⟨b, d⟩, hin, rfl⟩
    have hget := Table.mem_rows.1 hin
    exact ⟨b, Finset.mem_range.2 (h _ _ hget), hget⟩
  · rintro ⟨b, -, hget⟩
    exact ⟨(b, c), Table.mem_rows.2 hget, rfl⟩

/-! ## One turn of the rebalancing loop -/

/-- **A turn takes the surplus of its owner**, whichever buckets the `LIMIT` picks. -/
theorem reassign_moved (order : List Nat) (newClusterId : Int) (target : Nat) {owner : Int × Nat}
    (h : ∀ b c, m.get? b = some c → b < n) (hcount : owner.2 = (part (Finset.range n) m.get? owner.1).card) :
    ∃ moved ⊆ part (Finset.range n) m.get? owner.1, moved.card = owner.2 - target ∧
      ∀ b, (reassign order newClusterId target m owner).get? b = if b ∈ moved then some newClusterId else m.get? b := by
  unfold reassign
  split
  · rename_i hle
    exact ⟨∅, Finset.empty_subset _, by rw [Finset.card_empty]; omega, fun b => by simp⟩
  · rename_i hsurplus
    have hsel := nodup_select m fun _ c => c == owner.1
    have hperm := scan_perm hsel order
    generalize hscan : scan order (m.select fun _ c => c == owner.1) = rows at hperm
    have hnd : ((rows.take (owner.2 - target)).map Prod.fst).Nodup :=
      ((hperm.map Prod.fst).nodup_iff.2 hsel).sublist ((List.take_sublist _ _).map _)
    have hlen : rows.length = owner.2 := by
      rw [hcount, ← toFinset_select h, List.toFinset_card_of_nodup hsel, List.length_map, hperm.length_eq]
    have hget : ∀ b ∈ (rows.take (owner.2 - target)).map Prod.fst, m.get? b = some owner.1 := by
      intro b hb
      obtain ⟨⟨b', c⟩, hin, rfl⟩ := List.mem_map.1 hb
      obtain ⟨hget, hc⟩ := Table.mem_select.1 (hperm.mem_iff.1 (List.mem_of_mem_take hin))
      rwa [beq_iff_eq.1 hc] at hget
    refine ⟨((rows.take (owner.2 - target)).map Prod.fst).toFinset, fun b hb => ?_, ?_, fun b => ?_⟩
    · have hb' := hget b (List.mem_toFinset.1 hb)
      exact mem_part.2 ⟨Finset.mem_range.2 (h _ _ hb'), hb'⟩
    · rw [List.toFinset_card_of_nodup hnd, List.length_map, List.length_take, hlen]
      omega
    · simp only [Table.get?_updateWhere, List.mem_toFinset]
      by_cases hb : b ∈ (rows.take (owner.2 - target)).map Prod.fst
      · rw [hget b hb, if_pos hb, Option.map_some, if_pos (List.contains_iff_mem.2 hb)]
      · rw [if_neg hb]
        cases m.get? b with
        | none => rfl
        | some c => rw [Option.map_some, if_neg fun hc => hb (List.contains_iff_mem.1 hc)]

/-- The parts after a turn. -/
theorem reassign_parts (order : List Nat) {newClusterId : Int} (target : Nat) {owner : Int × Nat}
    (h : ∀ b c, m.get? b = some c → b < n) (hcount : owner.2 = (part (Finset.range n) m.get? owner.1).card) {c : Int}
    (hc : c ≠ newClusterId) :
    (part (Finset.range n) (reassign order newClusterId target m owner).get? c).card =
      if c = owner.1 then min owner.2 target else (part (Finset.range n) m.get? c).card := by
  obtain ⟨moved, hsub, hcard, hget⟩ := reassign_moved order newClusterId target h hcount
  have hpart : part (Finset.range n) (reassign order newClusterId target m owner).get? c =
      part (Finset.range n) m.get? c \ moved := by
    ext b
    rw [Finset.mem_sdiff, mem_part, mem_part, hget]
    split
    · rename_i hb
      exact iff_of_false (fun hown => hc (Option.some.inj hown.2).symm) fun hown => hown.2 hb
    · rename_i hb
      exact (and_iff_left hb).symm
  rw [hpart]
  split
  · rename_i hown
    rw [hown, Finset.card_sdiff_of_subset hsub, hcard, ← hcount]
    omega
  · rename_i hother
    have hdisjoint : Disjoint (part (Finset.range n) m.get? c) moved := by
      refine Finset.disjoint_left.2 fun b hb hmoved => hother ?_
      exact Option.some.inj ((mem_part.1 hb).2.symm.trans (mem_part.1 (hsub hmoved)).2)
    rw [Finset.sdiff_eq_self_of_disjoint hdisjoint]

/-- **The parts after the loop.** -/
theorem reassigns_parts (order : List Nat) {newClusterId : Int} (target : Nat) {owners : List (Int × Nat)}
    (hnd : (owners.map Prod.fst).Nodup) (hnew : newClusterId ∉ owners.map Prod.fst)
    (h : ∀ b c, m.get? b = some c → b < n)
    (hcount : ∀ owner ∈ owners, owner.2 = (part (Finset.range n) m.get? owner.1).card) {c : Int} (hc : c ≠ newClusterId) :
    (part (Finset.range n) (owners.foldl (reassign order newClusterId target) m).get? c).card =
      if c ∈ owners.map Prod.fst then min (part (Finset.range n) m.get? c).card target
      else (part (Finset.range n) m.get? c).card := by
  induction owners generalizing m with
  | nil => rfl
  | cons owner rest ih =>
    rw [List.map_cons, List.nodup_cons] at hnd
    rw [List.map_cons, List.mem_cons, not_or] at hnew
    have hown := hcount owner List.mem_cons_self
    have hturn := fun {c : Int} (hc : c ≠ newClusterId) => reassign_parts order target h hown hc
    have hkept : ∀ b d, (reassign order newClusterId target m owner).get? b = some d → b < n := by
      intro b d hb
      rcases get?_reassign order newClusterId target m owner b with hsame | ⟨hsome, -⟩
      · exact h b d (hsame ▸ hb)
      · obtain ⟨e, he⟩ := Option.isSome_iff_exists.1 hsome
        exact h b e he
    have hrest : ∀ other ∈ rest, other.2 = (part (Finset.range n) (reassign order newClusterId target m owner).get? other.1).card := by
      intro other hin
      have hmem : other.1 ∈ rest.map Prod.fst := List.mem_map_of_mem hin
      have hne : other.1 ≠ owner.1 := fun he => hnd.1 (he ▸ hmem)
      rw [hturn fun he => hnew.2 (he ▸ hmem), if_neg hne]
      exact hcount other (List.mem_cons_of_mem _ hin)
    rw [List.foldl_cons, ih hnd.2 hnew.2 hkept hrest, hturn hc, List.map_cons]
    by_cases he : c = owner.1
    · subst he
      rw [if_neg hnd.1, if_pos rfl, if_pos List.mem_cons_self, hown]
    · rw [if_neg he]
      simp only [List.mem_cons, he, false_or]

end

/-! ## One call -/

theorem Sharded.range {n : Nat} {db : Store} (hs : Sharded n db) (b : Nat) (c : Int) (hb : db.shardMap.get? b = some c) : b < n := by
  rcases hs.covered with hnone | hall
  · rw [hnone b] at hb
    cases hb
  · exact (hall b).1 (Option.isSome_iff_exists.2 ⟨c, hb⟩)

theorem Sharded.ownedBuckets {n : Nat} {db : Store} (hs : Sharded n db) (c : Int) :
    ownedBuckets db c = (part (Finset.range n) db.shardMap.get? c).card := count_owner hs.range c

theorem mem_bucketCounts {n : Nat} {db : Store} (h : ∀ b c, db.shardMap.get? b = some c → b < n) {c : Int} :
    c ∈ (bucketCounts db).map Prod.fst ↔ c ∈ owners (Finset.range n) db.shardMap.get? := by
  rw [← toFinset_owners h, List.mem_toFinset, bucketCounts, List.map_map]
  simp [Function.comp_def]

theorem length_bucketCounts {n : Nat} {db : Store} (h : ∀ b c, db.shardMap.get? b = some c → b < n) :
    (bucketCounts db).length = (owners (Finset.range n) db.shardMap.get?).card := by
  rw [← toFinset_owners h, List.card_toFinset, bucketCounts, List.length_map]

/-- **A call lets the clusters grow by one.** -/
theorem GrowEffect.grows {n : Nat} {order : List Nat} {db db' : Store} {ids : List Int}
    (h : GrowEffect n order db ids db') (hs : Sharded n db) :
    Shares.Grows (Finset.range n) db.clusterSeq db.shardMap.get? db'.shardMap.get? ∧
      db.clusterSeq ∉ owners (Finset.range n) db.shardMap.get? := by
  have hcovers := (h.sharded hs).2
  have hnew : db.clusterSeq ∉ owners (Finset.range n) db.shardMap.get? := by
    intro hin
    obtain ⟨b, -, hb⟩ := mem_owners.1 hin
    have hthere := hs.owners b _ hb
    rw [h.fresh] at hthere
    cases hthere
  have hrange := hs.range
  obtain ⟨-, -, name, rfl⟩ := h
  refine ⟨⟨fun b hb => (hcovers b).2 (Finset.mem_range.1 hb), fun b hb => ?_, fun c hc => ?_⟩, hnew⟩
  · simp only [grownShardMap]
    split
    · exact Or.inr (by rw [get?_bootstrap, if_pos (Finset.mem_range.1 hb)])
    · exact (get?_reassigns ..).imp_right And.right
  · simp only [grownShardMap]
    split
    · rename_i hempty
      have hnone := bucketCounts_isEmpty.1 hempty
      have hzero : ∀ f : Nat → Option Int, (∀ b < n, f b ≠ some c) → (part (Finset.range n) f c).card = 0 := by
        intro f hf
        refine Finset.card_eq_zero.2 (Finset.filter_eq_empty_iff.2 fun b hb => hf b (Finset.mem_range.1 hb))
      rw [hzero _ fun b hb => ?_, hzero _ fun b _ => by rw [hnone b]; exact (Option.some_ne_none c).symm, Nat.zero_min]
      rw [get?_bootstrap, if_pos hb]
      exact fun he => hc (Option.some.inj he).symm
    · rw [reassigns_parts order _ (nodup_bucketCounts db) (fun hin => hnew ((mem_bucketCounts hrange).1 hin)) hrange ?_ hc,
        length_bucketCounts hrange, target, Finset.card_range]
      · split
        · rfl
        · rename_i hout
          have hzero := Nat.eq_zero_of_not_pos fun hpos => hout ((mem_bucketCounts hrange).2 (card_part_pos.1 hpos))
          rw [hzero, Nat.zero_min]
      · intro owner howner
        obtain ⟨c, -, rfl⟩ := List.mem_map.1 howner
        exact count_owner hrange c

/-! ## Runs -/

/-- The clusters `cs`, added one after another to an empty map, share the buckets. -/
structure Spread (n : Nat) (cs : List Int) (db : Store) : Prop where
  sharded : Sharded n db
  there : ∀ c ∈ cs, (db.clusters.get? c).isSome
  distinct : cs.Nodup
  rotated : Rotated (Finset.range n) cs db.shardMap.get?

theorem GrowEffect.spread {n : Nat} (hn : 1 ≤ n) {order : List Nat} {db db' : Store} {ids cs : List Int}
    (h : GrowEffect n order db ids db') (hs : Spread n cs db) : Spread n (cs ++ [db.clusterSeq]) db' := by
  have hnd : (cs ++ [db.clusterSeq]).Nodup := by
    refine List.nodup_append.2 ⟨hs.distinct, List.nodup_singleton _, fun c hc d hd => ?_⟩
    rintro rfl
    obtain rfl := List.mem_singleton.1 hd
    have hthere := hs.there _ hc
    rw [h.fresh] at hthere
    cases hthere
  refine ⟨(h.sharded hs.sharded).1, fun c hc => ?_, hnd,
    hs.rotated.grow (h.grows hs.sharded).1 (Finset.nonempty_range_iff.2 (by omega)) hnd⟩
  obtain ⟨-, -, name, rfl⟩ := h
  rw [Table.get?_insertNew]
  split
  · rfl
  · rename_i hne
    exact hs.there c ((List.mem_append.1 hc).resolve_right fun hin => hne (List.mem_singleton.1 hin))

/-- A transaction that adds no cluster. -/
theorem Spread.frame {n : Nat} {db : Store} {cs : List Int} (hs : Spread n cs db) {t : Txn}
    (ht : (t.apply n db).shardMap = db.shardMap) : Spread n cs (t.apply n db) where
  sharded := t.sharded n db hs.sharded
  there c hc := t.clusters_isSome n db (hs.there c hc)
  distinct := hs.distinct
  rotated := by
    rw [ht]
    exact hs.rotated

theorem Spread.run {n : Nat} (hn : 1 ≤ n) {db : Store} {cs : List Int} (hs : Spread n cs db) (txns : List Txn) :
    Spread n (cs ++ addedClusters n db txns) (run n db txns) := by
  induction txns generalizing db cs with
  | nil => simpa [addedClusters, StorageEngine.run] using hs
  | cons t txns ih =>
    have hquiet : t.grows = false → Spread n (cs ++ addedClusters n db (t :: txns)) (StorageEngine.run n db (t :: txns)) := by
      intro ht
      have hlist : addedClusters n db (t :: txns) = addedClusters n (t.apply n db) txns := by
        cases t <;> first | rfl | cases ht
      rw [hlist]
      exact ih (hs.frame (Txn.shardMap_frame n db ht))
    cases ht : t.grows with
    | false => exact hquiet ht
    | true =>
      cases t with
      | addCluster order name ids =>
        cases hadd : StorageEngine.addCluster n order db name ids with
        | error e =>
          have happly : (Txn.addCluster order name ids).apply n db = db := by
            rw [Txn.apply, hadd, committed]
          rw [addedClusters, hadd, happly]
          simpa [StorageEngine.run, happly, Except.isOk, Except.toBool] using ih hs
        | ok db' =>
          have happly : (Txn.addCluster order name ids).apply n db = db' := by
            rw [Txn.apply, hadd, committed]
          have hnext := ih ((addCluster_effect hadd).spread hn hs)
          rw [addedClusters, hadd, happly, ← List.append_assoc]
          simpa [StorageEngine.run, happly, Except.isOk, Except.toBool] using hnext
      | _ => cases ht

theorem spread_empty {n : Nat} {db : Store} (hempty : ∀ b, db.shardMap.get? b = none) : Spread n [] db where
  sharded := ⟨Or.inl hempty, fun b c hb => by rw [hempty b] at hb; cases hb⟩
  there c hc := by cases hc
  distinct := List.nodup_nil
  rotated := Or.inl ⟨rfl, fun b _ => hempty b⟩

/-- **The load is even** exactly when the buckets divide up to a remainder of one, and past as many clusters as buckets
when these have gone round. -/
theorem load_even_iff {n : Nat} (hn : 1 ≤ n) {db : Store} (hempty : ∀ b, db.shardMap.get? b = none) (txns : List Txn)
    (hadded : addedClusters n db txns ≠ []) :
    (∀ c ∈ addedClusters n db txns, ∀ d ∈ addedClusters n db txns,
      ownedBuckets (run n db txns) c ≤ ownedBuckets (run n db txns) d + 1) ↔
    ((addedClusters n db txns).length ≤ n ∧ n % (addedClusters n db txns).length ≤ 1) ∨
      (n < (addedClusters n db txns).length ∧ n ∣ (addedClusters n db txns).length) := by
  have hs := (spread_empty hempty).run hn txns
  rw [List.nil_append] at hs
  have heven := hs.rotated.even_iff hadded
  rw [Finset.card_range] at heven
  rw [← heven]
  simp only [hs.sharded.ownedBuckets]

/-- Three clusters one after another. -/
def threeClusters : List Txn :=
  [.registerWorker "w1" 1 "w1" 1 0, .addCluster [] "a" [1], .addCluster [4, 0] "b" [1], .addCluster [] "a" [1],
    .addCluster [1] "c" [1]]

theorem load_even_threeClusters :
    (∀ c ∈ addedClusters 4 .empty threeClusters, ∀ d ∈ addedClusters 4 .empty threeClusters,
      ownedBuckets (run 4 .empty threeClusters) c ≤ ownedBuckets (run 4 .empty threeClusters) d + 1) ↔
    ((addedClusters 4 .empty threeClusters).length ≤ 4 ∧ 4 % (addedClusters 4 .empty threeClusters).length ≤ 1) ∨
      (4 < (addedClusters 4 .empty threeClusters).length ∧ 4 ∣ (addedClusters 4 .empty threeClusters).length) :=
  load_even_iff (by decide) (fun _ => rfl) threeClusters (by decide +kernel)

/-- Of five buckets the third cluster has three, the others one each. -/
theorem threeClusters_uneven : ¬ ∀ (n : Nat) (db : Store) (txns : List Txn), 1 ≤ n → (∀ b, db.shardMap.get? b = none) →
    ∀ c ∈ addedClusters n db txns, ∀ d ∈ addedClusters n db txns,
      ownedBuckets (run n db txns) c ≤ ownedBuckets (run n db txns) d + 1 := by
  intro h
  have hadded : addedClusters 5 .empty threeClusters = [1, 2, 3] := by decide +kernel
  have hload : ownedBuckets (run 5 .empty threeClusters) 3 = 3 ∧ ownedBuckets (run 5 .empty threeClusters) 1 = 1 := by
    decide +kernel
  have hle := h 5 .empty threeClusters (by decide) (fun _ => rfl) 3 (by simp [hadded]) 1 (by simp [hadded])
  rw [hload.1, hload.2] at hle
  exact absurd hle (by decide)

/-! ## What a call moves -/

/-- Every owner keeps buckets up to the target, and the new cluster has all others. -/
structure MovesLeast (n : Nat) (owners : List Int) (db : Store) (newClusterId : Int) (db' : Store) : Prop where
  added : newClusterId ∉ owners ∧ (db'.clusters.get? newClusterId).isSome
  kept : ∀ c ∈ owners, (∀ b, db'.shardMap.get? b = some c → db.shardMap.get? b = some c) ∧
    ownedBuckets db' c = min (ownedBuckets db c) (n / (owners.length + 1))
  moved : ∀ b < n, db'.shardMap.get? b = db.shardMap.get? b ∨ db'.shardMap.get? b = some newClusterId
  newcomer : 1 ≤ ownedBuckets db' newClusterId

theorem GrowEffect.movesLeast {n : Nat} (hn : 1 ≤ n) {order : List Nat} {db db' : Store} {ids owners : List Int}
    (h : GrowEffect n order db ids db') (hs : Sharded n db) (hnd : owners.Nodup)
    (howners : ∀ c, c ∈ owners ↔ ∃ b, db.shardMap.get? b = some c) : MovesLeast n owners db db.clusterSeq db' := by
  obtain ⟨hgrows, hnew⟩ := h.grows hs
  have hs' := (h.sharded hs).1
  have hlist : Shares.owners (Finset.range n) db.shardMap.get? = owners.toFinset := by
    ext c
    rw [mem_owners, List.mem_toFinset, howners]
    constructor
    · rintro ⟨b, -, hb⟩
      exact ⟨b, hb⟩
    · rintro ⟨b, hb⟩
      exact ⟨b, Finset.mem_range.2 (hs.range b c hb), hb⟩
  have htarget : target (Finset.range n) db.shardMap.get? = n / (owners.length + 1) := by
    rw [target, hlist, List.toFinset_card_of_nodup hnd, Finset.card_range]
  have hnotin : db.clusterSeq ∉ owners := by
    rwa [hlist, List.mem_toFinset] at hnew
  refine ⟨⟨hnotin, ?_⟩, fun c hc => ?_, fun b hb => hgrows.kept b (Finset.mem_range.2 hb), ?_⟩
  · obtain ⟨-, -, name, rfl⟩ := h
    rw [Table.get?_insertNew, if_pos rfl]
    rfl
  · have hne : c ≠ db.clusterSeq := by
      rintro rfl
      exact hnotin hc
    refine ⟨fun b hb => ?_, ?_⟩
    · have hin := hgrows.part_subset hne (mem_part.2 ⟨Finset.mem_range.2 (hs'.range b c hb), hb⟩)
      exact (mem_part.1 hin).2
    · rw [hs'.ownedBuckets, hs.ownedBuckets, hgrows.trimmed c hne, htarget]
  · rw [hs'.ownedBuckets]
    exact hgrows.newcomer_pos hnew (Finset.nonempty_range_iff.2 (by omega))

/-- **Rebalancing moves as little as its target allows**, and the clusters of a first lap are equal but for the newest,
which has the remainder too. -/
theorem rebalance_least {n : Nat} (hn : 1 ≤ n) :
    (∀ txns order name ids db' owners, (∀ b < n, ((run n .empty txns).shardMap.get? b).isSome) → owners.Nodup →
      (∀ c, c ∈ owners ↔ ∃ b, (run n .empty txns).shardMap.get? b = some c) →
      addCluster n order (run n .empty txns) name ids = .ok db' →
      MovesLeast n owners (run n .empty txns) (run n .empty txns).clusterSeq db') ∧
    ∀ db txns, (∀ b, db.shardMap.get? b = none) → addedClusters n db txns ≠ [] → (addedClusters n db txns).length ≤ n →
      ∃ older newest, addedClusters n db txns = older ++ [newest] ∧
        (∀ c ∈ older, ownedBuckets (run n db txns) c = n / (addedClusters n db txns).length) ∧
        ownedBuckets (run n db txns) newest =
          n / (addedClusters n db txns).length + n % (addedClusters n db txns).length := by
  constructor
  · intro txns order name ids db' owners _ hnd howners hok
    have hs : Sharded n (run n .empty txns) := run_inv (Txn.sharded n) txns (spread_empty fun _ => rfl).sharded
    exact (addCluster_effect hok).movesLeast hn hs hnd howners
  · intro db txns hempty hne hle
    have hs := (spread_empty hempty).run hn txns
    rw [List.nil_append] at hs
    obtain ⟨older, newest, hlist, holder, hnewest⟩ := hs.rotated.first_lap hne (by rwa [Finset.card_range])
    rw [Finset.card_range] at holder hnewest
    refine ⟨older, newest, hlist, fun c hc => ?_, ?_⟩
    · rw [hs.sharded.ownedBuckets, holder c hc]
    · rw [hs.sharded.ownedBuckets, hnewest]

/-- A fourth cluster among five buckets, and the three before it. -/
theorem rebalance_least_threeClusters :
    (∃ db', addCluster 5 [] (run 5 .empty threeClusters) "d" [1] = .ok db' ∧
      MovesLeast 5 [1, 2, 3] (run 5 .empty threeClusters) (run 5 .empty threeClusters).clusterSeq db') ∧
    ∃ older newest, addedClusters 5 .empty threeClusters = older ++ [newest] ∧
      (∀ c ∈ older, ownedBuckets (run 5 .empty threeClusters) c = 5 / (addedClusters 5 .empty threeClusters).length) ∧
      ownedBuckets (run 5 .empty threeClusters) newest =
        5 / (addedClusters 5 .empty threeClusters).length + 5 % (addedClusters 5 .empty threeClusters).length := by
  have hsome : (addCluster 5 [] (run 5 .empty threeClusters) "d" [1]).isOk = true := by decide +kernel
  have hrows : (run 5 .empty threeClusters).shardMap.rows.map Prod.snd = [3, 3, 3, 1, 2] := by decide +kernel
  have hcovered : ∀ b < 5, ((run 5 .empty threeClusters).shardMap.get? b).isSome := by decide +kernel
  have howners : ∀ c, c ∈ [1, 2, 3] ↔ ∃ b, (run 5 .empty threeClusters).shardMap.get? b = some c := by
    intro c
    have hmem : c ∈ (run 5 .empty threeClusters).shardMap.rows.map Prod.snd ↔
        ∃ b, (run 5 .empty threeClusters).shardMap.get? b = some c := by
      rw [List.mem_map]
      constructor
      · rintro ⟨⟨b, d⟩, hin, rfl⟩
        exact ⟨b, Table.mem_rows.1 hin⟩
      · rintro ⟨b, hb⟩
        exact ⟨(b, c), Table.mem_rows.2 hb, rfl⟩
    rw [← hmem, hrows]
    simp only [List.mem_cons, List.not_mem_nil, or_false]
    omega
  cases hok : addCluster 5 [] (run 5 .empty threeClusters) "d" [1] with
  | error e =>
    rw [hok] at hsome
    cases hsome
  | ok db' =>
    refine ⟨⟨db', rfl, ?_⟩, ?_⟩
    · exact (rebalance_least (by decide)).1 threeClusters [] "d" [1] db' [1, 2, 3] hcovered (by decide) howners hok
    · exact (rebalance_least (by decide)).2 .empty threeClusters (fun _ => rfl) (by decide +kernel) (by decide +kernel)

end StorageEngine
