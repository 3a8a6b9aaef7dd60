import Mathlib.Data.List.Perm.Basic
import StorageEngine.Lib.RefCount
import StorageEngine.Metadata.Repository

/-!
# What each repository call does to the `files` and `chunks` tables

One lemma per call, stated on `get?`. Everything after this file reasons from these, never from the
bodies in `Repository.lean`.
-/

namespace StorageEngine

open Relational RefCount

/-! ## Unordered results -/

theorem nodup_select {κ ρ : Type} (t : Table κ ρ) (p : κ → ρ → Bool) : ((t.select p).map Prod.fst).Nodup :=
  t.nodup.sublist (List.filter_sublist.map _)

section
variable {κ ρ : Type} [DecidableEq κ]

theorem find?_key {rows : List (κ × ρ)} (hnd : (rows.map Prod.fst).Nodup) {e : κ × ρ} {k : κ} :
    rows.find? (fun d => d.1 == k) = some e ↔ e ∈ rows ∧ e.1 = k := by
  have h := Table.mem_rows (t := ⟨rows, hnd⟩) (k := k) (r := e.2)
  simp only [Table.get?, Option.map_eq_some_iff] at h
  constructor
  · intro hf
    exact ⟨List.mem_of_find?_eq_some hf, by simpa using List.find?_some hf⟩
  · rintro ⟨he, rfl⟩
    obtain ⟨d, hd, hde⟩ := h.1 he
    have hdk : d.1 = e.1 := by simpa using List.find?_some hd
    rw [hd, Prod.ext hdk hde]

theorem mem_scan {rows : List (κ × ρ)} (hnd : (rows.map Prod.fst).Nodup) (order : List κ) {e : κ × ρ} :
    e ∈ scan order rows ↔ e ∈ rows := by
  simp only [scan, List.mem_append, List.mem_filterMap, List.mem_dedup, List.mem_filter,
    Bool.not_eq_eq_eq_not, Bool.not_true, List.contains_eq_mem, decide_eq_false_iff_not, find?_key hnd]
  constructor
  · rintro (⟨k, -, he, -⟩ | ⟨he, -⟩) <;> exact he
  · intro he
    by_cases hk : e.1 ∈ order
    · exact Or.inl ⟨e.1, hk, he, rfl⟩
    · exact Or.inr ⟨he, hk⟩

theorem nodup_scan {rows : List (κ × ρ)} (hnd : (rows.map Prod.fst).Nodup) (order : List κ) :
    (scan order rows).Nodup := by
  have hrows : rows.Nodup := List.Nodup.of_map _ hnd
  refine List.nodup_append.2 ⟨?_, hrows.filter _, ?_⟩
  · refine (List.nodup_dedup order).filterMap fun j k e hj hk => ?_
    rw [Option.mem_def, find?_key hnd] at hj hk
    exact hj.2.symm.trans hk.2
  · intro e he d hd hed
    subst hed
    simp only [List.mem_filterMap, List.mem_dedup, List.mem_filter, find?_key hnd] at he hd
    obtain ⟨k, hk, -, rfl⟩ := he
    simp [hk] at hd

theorem scan_perm {rows : List (κ × ρ)} (hnd : (rows.map Prod.fst).Nodup) (order : List κ) :
    (scan order rows).Perm rows :=
  (List.perm_ext_iff_of_nodup (nodup_scan hnd order) (List.Nodup.of_map _ hnd)).2 fun _ => mem_scan hnd order

end

/-! ## Worker nodes -/

theorem nodeData_ne_nil {db : Store} {nodes : List Int} {ns : List NodeInfo} (h : nodeData db nodes = some ns) :
    ns ≠ [] := by
  unfold nodeData at h
  split at h
  · cases h
  · rename_i ws hws
    rw [Option.some.injEq] at h
    subst h
    exact fun he => hws (List.map_eq_nil_iff.1 he)

theorem nodeData_isSome {db : Store} {nodes : List Int} :
    (∃ ns, nodeData db nodes = some ns) ↔ ∃ id ∈ nodes, (db.workers.get? id).isSome := by
  unfold nodeData
  constructor
  · rintro ⟨ns, hns⟩
    split at hns
    · cases hns
    · rename_i ws hws
      obtain ⟨w, hw⟩ := List.exists_mem_of_ne_nil (workersOf db nodes) hws
      obtain ⟨⟨id, w'⟩, hsel, rfl⟩ := List.mem_map.1 hw
      obtain ⟨hget, hid⟩ := Table.mem_select.1 hsel
      exact ⟨id, by simpa using hid, by rw [hget]; rfl⟩
  · rintro ⟨id, hid, hs⟩
    obtain ⟨w, hw⟩ := Option.isSome_iff_exists.1 hs
    have hmem : w ∈ workersOf db nodes :=
      List.mem_map.2 ⟨(id, w), Table.mem_select.2 ⟨hw, by simpa using hid⟩, rfl⟩
    split
    · rename_i hnil
      rw [hnil] at hmem
      cases hmem
    · exact ⟨_, rfl⟩

/-! ## Files -/

theorem isFile_iff {userId : Int} {filename : String} {id : Int} {r : FileRow} :
    isFile userId filename id r = true ↔ r.userId = userId ∧ r.filename = filename := by
  simp [isFile]

theorem mem_fileRows {order : List Int} {db : Store} {userId : Int} {filename : String} {r : FileRow} :
    r ∈ fileRows order db userId filename ↔
      ∃ id, db.files.get? id = some r ∧ r.userId = userId ∧ r.filename = filename := by
  simp only [fileRows, List.mem_map, mem_scan (nodup_select _ _)]
  constructor
  · rintro ⟨⟨id, s⟩, hs, rfl⟩
    obtain ⟨hs, hp⟩ := Table.mem_select.1 hs
    exact ⟨id, hs, isFile_iff.1 hp⟩
  · rintro ⟨id, hr, hu, hf⟩
    exact ⟨(id, r), Table.mem_select.2 ⟨hr, isFile_iff.2 ⟨hu, hf⟩⟩, rfl⟩

/-- References to a hash in the stored chunk arrays. -/
def references (db : Store) (hash : String) : Nat := refs (db.files.rows.map fun e => e.2.chunks) (some hash)

/-- The counter of a hash, `none` without a `chunks` row. -/
def counter (db : Store) (hash : String) : Option Int := (db.chunks.get? hash).map ChunkRow.refCount

theorem references_pos {db : Store} {hash : String} :
    0 < references db hash ↔ ∃ id r, db.files.get? id = some r ∧ some hash ∈ r.chunks := by
  rw [references, refs_pos]
  constructor
  · rintro ⟨cs, hcs, hm⟩
    obtain ⟨⟨id, r⟩, hr, rfl⟩ := List.mem_map.1 hcs
    exact ⟨id, r, Table.mem_rows.1 hr, hm⟩
  · rintro ⟨id, r, hr, hm⟩
    exact ⟨r.chunks, List.mem_map.2 ⟨(id, r), Table.mem_rows.2 hr, rfl⟩, hm⟩

/-! ## `FilterMissingChunks` -/

theorem get?_refreshChunk (now : Nat) (chunks : Table String ChunkRow) (hash h : String) :
    (refreshChunk now chunks hash).get? h =
      (chunks.get? h).map fun r => if h = hash then { r with createdAt := now } else r := by
  simp [refreshChunk]

/-- A row that `FilterMissingChunks` reports for upload. -/
def isMissing (db : Store) (hash : String) : Bool :=
  match db.chunks.get? hash with
  | none => true
  | some r => r.refCount == 0

/-- What a successful `FilterMissingChunks` can have done. -/
structure FilterEffect (db db' : Store) : Prop where
  frame : db' = { db with chunks := db'.chunks }
  fresh : ∀ h r, db.chunks.get? h = none → db'.chunks.get? h = some r →
    r.refCount = 0 ∧ r.createdAt = db.now ∧ ∃ ns, nodeData db r.nodes = some ns
  kept : ∀ h r, db.chunks.get? h = some r →
    ∃ t, db'.chunks.get? h = some { r with createdAt := t } ∧ (t = r.createdAt ∨ t = db.now)
  /-- A new row gets the nodes of a cluster. -/
  routed : ∀ h r, db.chunks.get? h = none → db'.chunks.get? h = some r →
    ∃ id c, db.clusters.get? id = some c ∧ r.nodes = c.activeNodes

theorem FilterEffect.refl (db : Store) : FilterEffect db db where
  frame := rfl
  fresh h r hn hr := by rw [hn] at hr; cases hr
  kept h r hr := ⟨r.createdAt, hr, Or.inl rfl⟩
  routed h r hn hr := by rw [hn] at hr; cases hr

theorem FilterEffect.now {db db' : Store} (h : FilterEffect db db') : db'.now = db.now := by rw [h.frame]

theorem FilterEffect.files {db db' : Store} (h : FilterEffect db db') : db'.files = db.files := by rw [h.frame]

theorem FilterEffect.nodeData {db db' : Store} (h : FilterEffect db db') (nodes : List Int) :
    nodeData db' nodes = nodeData db nodes := by
  rw [h.frame]; rfl

theorem FilterEffect.trans {db₁ db₂ db₃ : Store} (h : FilterEffect db₁ db₂) (g : FilterEffect db₂ db₃) :
    FilterEffect db₁ db₃ where
  frame := by rw [g.frame, h.frame]
  fresh k r hn hr := by
    cases hm : db₂.chunks.get? k with
    | none =>
      obtain ⟨h1, h2, ns, h3⟩ := g.fresh k r hm hr
      exact ⟨h1, h2.trans h.now, ns, by rw [← h.nodeData]; exact h3⟩
    | some s =>
      obtain ⟨h1, h2, h3⟩ := h.fresh k s hn hm
      obtain ⟨t, ht, hor⟩ := g.kept k s hm
      rw [hr, Option.some.injEq] at ht
      subst ht
      refine ⟨h1, ?_, h3⟩
      rcases hor with rfl | rfl
      · exact h2
      · exact h.now
  kept k r hr := by
    obtain ⟨t, ht, hor⟩ := h.kept k r hr
    obtain ⟨u, hu, hor'⟩ := g.kept k _ ht
    refine ⟨u, hu, ?_⟩
    rcases hor' with rfl | rfl
    · exact hor
    · exact Or.inr h.now
  routed k r hn hr := by
    cases hm : db₂.chunks.get? k with
    | none =>
      obtain ⟨id, c, hc, hnodes⟩ := g.routed k r hm hr
      exact ⟨id, c, by rw [h.frame] at hc; exact hc, hnodes⟩
    | some s =>
      obtain ⟨t, ht, -⟩ := g.kept k s hm
      rw [hr, Option.some.injEq] at ht
      subst ht
      exact h.routed k s hn hm

theorem FilterEffect.isMissing {db db' : Store} (h : FilterEffect db db') (k : String) :
    isMissing db' k = isMissing db k := by
  unfold StorageEngine.isMissing
  cases hm : db.chunks.get? k with
  | some r => obtain ⟨t, ht, -⟩ := h.kept k r hm; rw [ht]
  | none =>
    cases hm' : db'.chunks.get? k with
    | none => rfl
    | some r => simp [(h.fresh k r hm hm').1]

/-- The chunk row of `h` as a successful `FilterMissingChunks` leaves it, for a hash that fits its column. -/
def Refreshed (db : Store) (now : Nat) (h : String) : Prop :=
  ∃ r, db.chunks.get? h = some r ∧ r.refCount ≠ -1 ∧ r.createdAt = now

/-- What one turn of the loop returns: a plan exactly for a missing hash, with the workers of the row's
node array. -/
theorem filterMissingOne_spec {n : Nat} {db db' : Store} {hash : String} {plan : Option ChunkRoutingPlan}
    (h : filterMissingOne n db hash = .ok (db', plan)) :
    FilterEffect db db' ∧ (varchar 64 hash = some hash → Refreshed db' db.now hash) ∧
      (isMissing db hash = false → plan = none) ∧
      (isMissing db hash = true → ∃ ns, plan = some ⟨hash, ns⟩ ∧
        (varchar 64 hash = some hash → ∃ r, db'.chunks.get? hash = some r ∧ nodeData db r.nodes = some ns)) := by
  unfold filterMissingOne at h
  cases hrow : db.chunks.get? hash with
  | none =>
    simp only [hrow] at h
    split at h
    · cases h
    · rename_i cluster hcl
      obtain ⟨clusterId, -, hcluster⟩ := Option.bind_eq_some_iff.1 hcl
      split at h
      · cases h
      · rename_i ns hns
        split at h
        · cases h
        · rename_i key hkey
          simp only [Except.ok.injEq, Prod.mk.injEq] at h
          obtain ⟨rfl, rfl⟩ := h
          have hget : varchar 64 hash = some hash →
              (db.chunks.insertNew key ⟨cluster.activeNodes, 0, db.now⟩).get? hash =
                some ⟨cluster.activeNodes, 0, db.now⟩ := by
            intro hv
            rw [hkey, Option.some.injEq] at hv
            subst hv
            simp [hrow]
          refine ⟨⟨rfl, fun k r hk hr => ?_, fun k r hk => ⟨r.createdAt, ?_, Or.inl rfl⟩, fun k r hk hr => ?_⟩,
            ?_, ?_, ?_⟩
          · simp only [Table.get?_insertNew] at hr
            split at hr
            · rename_i hkk
              subst hkk
              simp only [hk, Option.getD_none, Option.some.injEq] at hr
              subst hr
              exact ⟨rfl, rfl, ns, hns⟩
            · rw [hk] at hr; cases hr
          · simp only [Table.get?_insertNew]
            split
            · rename_i hkk; subst hkk; simp [hk]
            · exact hk
          · simp only [Table.get?_insertNew] at hr
            split at hr
            · rename_i hkk
              subst hkk
              simp only [hk, Option.getD_none, Option.some.injEq] at hr
              subst hr
              exact ⟨clusterId, cluster, hcluster, rfl⟩
            · rw [hk] at hr; cases hr
          · exact fun hv => ⟨_, hget hv, by simp, rfl⟩
          · intro hm; simp [isMissing, hrow] at hm
          · exact fun _ => ⟨ns, rfl, fun hv => ⟨_, hget hv, hns⟩⟩
  | some row =>
    simp only [hrow] at h
    split at h
    · cases h
    · rename_i hlock
      have heff : FilterEffect db { db with chunks := refreshChunk db.now db.chunks hash } := by
        have hnone : ∀ k r, db.chunks.get? k = none → (refreshChunk db.now db.chunks hash).get? k ≠ some r := by
          intro k r hk
          simp [get?_refreshChunk, hk]
        refine ⟨rfl, fun k r hk hr => absurd hr (hnone k r hk), fun k r hk => ?_, fun k r hk hr => absurd hr (hnone k r hk)⟩
        · by_cases hkk : k = hash
          · exact ⟨db.now, by rw [get?_refreshChunk, hk]; simp [hkk], Or.inr rfl⟩
          · exact ⟨r.createdAt, by rw [get?_refreshChunk, hk]; simp [hkk], Or.inl rfl⟩
      have hget : (refreshChunk db.now db.chunks hash).get? hash = some { row with createdAt := db.now } := by
        rw [get?_refreshChunk, hrow]; simp
      have hmiss : isMissing db hash = (row.refCount == 0) := by simp [isMissing, hrow]
      split at h
      · rename_i hz
        split at h
        · cases h
        · rename_i ns hns
          simp only [Except.ok.injEq, Prod.mk.injEq] at h
          obtain ⟨rfl, rfl⟩ := h
          refine ⟨heff, fun _ => ⟨_, hget, hlock, rfl⟩, ?_, ?_⟩
          · intro hm; simp [hmiss, hz] at hm
          · exact fun _ => ⟨ns, rfl, fun _ => ⟨_, hget, hns⟩⟩
      · rename_i hz
        simp only [Except.ok.injEq, Prod.mk.injEq] at h
        obtain ⟨rfl, rfl⟩ := h
        refine ⟨heff, fun _ => ⟨_, hget, hlock, rfl⟩, fun _ => rfl, ?_⟩
        intro hm; simp [hmiss, hz] at hm

theorem Refreshed.step {db db' : Store} {h : String} (hr : Refreshed db db.now h) (he : FilterEffect db db') :
    Refreshed db' db.now h := by
  obtain ⟨r, hget, hne, hc⟩ := hr
  obtain ⟨t, ht, hor⟩ := he.kept h r hget
  refine ⟨_, ht, hne, ?_⟩
  rcases hor with rfl | rfl
  · exact hc
  · rfl

theorem filterMissingChunks_cons {n : Nat} {db db' : Store} {hash : String} {rest : List String}
    {plans : List ChunkRoutingPlan} :
    filterMissingChunks n db (hash :: rest) = .ok (db', plans) ↔
      ∃ db₁ plan tail, filterMissingOne n db hash = .ok (db₁, plan) ∧
        filterMissingChunks n db₁ rest = .ok (db', tail) ∧ plans = plan.toList ++ tail := by
  simp only [filterMissingChunks]
  cases h1 : filterMissingOne n db hash with
  | error e => simp
  | ok res =>
    obtain ⟨db₁, plan⟩ := res
    cases h2 : filterMissingChunks n db₁ rest with
    | error e =>
      simp only [h2, reduceCtorEq, Except.ok.injEq, Prod.mk.injEq, false_iff]
      rintro ⟨_, _, _, ⟨rfl, rfl⟩, h, -⟩
      rw [h2] at h; cases h
    | ok res =>
      obtain ⟨db₂, tail⟩ := res
      simp only [h2, Except.ok.injEq, Prod.mk.injEq]
      constructor
      · rintro ⟨rfl, rfl⟩; exact ⟨db₁, plan, tail, ⟨rfl, rfl⟩, h2, rfl⟩
      · rintro ⟨_, _, _, ⟨rfl, rfl⟩, h, rfl⟩
        rw [h2] at h
        simp only [Except.ok.injEq, Prod.mk.injEq] at h
        exact ⟨h.1, by rw [h.2]⟩

theorem filterMissingChunks_effect {n : Nat} : ∀ {hashes : List String} {db db' : Store} {plans : List ChunkRoutingPlan},
    filterMissingChunks n db hashes = .ok (db', plans) → FilterEffect db db'
  | [], db, db', plans, h => by
    simp only [filterMissingChunks, Except.ok.injEq, Prod.mk.injEq] at h
    exact h.1 ▸ FilterEffect.refl db
  | _ :: _, db, db', plans, h => by
    obtain ⟨db₁, plan, tail, h1, h2, -⟩ := filterMissingChunks_cons.1 h
    exact (filterMissingOne_spec h1).1.trans (filterMissingChunks_effect h2)

/-- After a successful call every listed hash that fits the column has a fresh, untombstoned row. -/
theorem filterMissingChunks_refreshed {n : Nat} : ∀ {hashes : List String} {db db' : Store} {plans : List ChunkRoutingPlan},
    filterMissingChunks n db hashes = .ok (db', plans) →
    ∀ h ∈ hashes, varchar 64 h = some h → Refreshed db' db.now h
  | [], _, _, _, _, h, hm, _ => by simp at hm
  | k :: rest, db, db', plans, hok, h, hm, hv => by
    obtain ⟨db₁, plan, tail, h1, h2, -⟩ := filterMissingChunks_cons.1 hok
    obtain ⟨heff, href, -, -⟩ := filterMissingOne_spec h1
    rcases List.mem_cons.1 hm with rfl | hm
    · have hr := href hv
      rw [← heff.now] at hr ⊢
      exact hr.step (filterMissingChunks_effect h2)
    · rw [← heff.now]
      exact filterMissingChunks_refreshed h2 h hm hv

/-- **The plans** are the missing hashes of the list, in its order and with its repetitions, each with
the workers of its row. -/
theorem filterMissingChunks_plans {n : Nat} : ∀ {hashes : List String} {db db' : Store} {plans : List ChunkRoutingPlan},
    filterMissingChunks n db hashes = .ok (db', plans) →
    plans.map ChunkRoutingPlan.hash = hashes.filter (isMissing db) ∧
      ∀ p ∈ plans, varchar 64 p.hash = some p.hash →
        ∃ r, db'.chunks.get? p.hash = some r ∧ nodeData db r.nodes = some p.assignedNodes
  | [], _, _, plans, h => by
    simp only [filterMissingChunks, Except.ok.injEq, Prod.mk.injEq] at h
    simp [← h.2]
  | k :: rest, db, db', plans, hok => by
    obtain ⟨db₁, plan, tail, h1, h2, rfl⟩ := filterMissingChunks_cons.1 hok
    obtain ⟨heff, -, hno, hyes⟩ := filterMissingOne_spec h1
    obtain ⟨ih1, ih2⟩ := filterMissingChunks_plans h2
    have heff2 := filterMissingChunks_effect h2
    have hrest : rest.filter (isMissing db₁) = rest.filter (isMissing db) :=
      List.filter_congr fun x _ => heff.isMissing x
    have htail : ∀ p ∈ tail, varchar 64 p.hash = some p.hash →
        ∃ r, db'.chunks.get? p.hash = some r ∧ nodeData db r.nodes = some p.assignedNodes := by
      intro p hp hv
      obtain ⟨r, hr, hns⟩ := ih2 p hp hv
      exact ⟨r, hr, by rw [← heff.nodeData]; exact hns⟩
    cases hm : isMissing db k with
    | false =>
      rw [hno hm]
      refine ⟨?_, by simpa using htail⟩
      rw [List.filter_cons_of_neg (by simp [hm])]
      simpa [hrest] using ih1
    | true =>
      obtain ⟨ns, rfl, hns⟩ := hyes hm
      rw [List.filter_cons_of_pos hm]
      refine ⟨by simpa [hrest] using ih1, ?_⟩
      simp only [Option.toList_some, List.singleton_append, List.mem_cons]
      rintro p (rfl | hp) hv
      · obtain ⟨r, hr, hn⟩ := hns hv
        obtain ⟨t, ht, -⟩ := heff2.kept _ r hr
        exact ⟨_, ht, hn⟩
      · exact htail p hp hv

/-! ## `CommitFile` -/

theorem get?_addReference (now : Nat) (chunks : Table String ChunkRow) (hash h : String) :
    (addReference now chunks hash).get? h = (chunks.get? h).map fun r =>
      if h = hash then { r with refCount := r.refCount + 1, createdAt := now } else r := by
  simp [addReference]

/-- The loop adds one for every occurrence of the hash in the list. -/
theorem get?_addReferences (now : Nat) (hashes : List String) (chunks : Table String ChunkRow) (h : String) :
    (hashes.foldl (addReference now) chunks).get? h = (chunks.get? h).map fun r =>
      { r with refCount := r.refCount + hashes.count h, createdAt := if h ∈ hashes then now else r.createdAt } := by
  induction hashes generalizing chunks with
  | nil => simp
  | cons k ks ih =>
    rw [List.foldl_cons, ih, get?_addReference, Option.map_map]
    refine congrArg (Option.map · _) (funext fun r => ?_)
    by_cases hk : h = k
    · subst hk
      simp only [Function.comp_apply, ↓reduceIte, List.count_cons_self, List.mem_cons, true_or, ChunkRow.mk.injEq,
        true_and, ite_self, and_true]
      omega
    · have hne : ¬ k = h := fun e => hk e.symm
      simp [hk, List.count_cons_of_ne hne]

/-- What a successful `CommitFile` did: one `files` row with the array that the literal denotes, and
the increments. -/
structure CommitEffect (db : Store) (userId : Int) (filename : String) (fileSize : Int) (hashes : List String)
    (db' : Store) : Prop where
  user : (db.users.get? userId).isSome
  fresh : db.files.get? db.fileSeq = none
  effect : ∃ arr name, textArrayIn (arrayLiteral hashes) = some arr ∧ varchar 255 filename = some name ∧
    db' = { db with files := db.files.insertNew db.fileSeq ⟨userId, name, fileSize, arr⟩
                    fileSeq := db.fileSeq + 1
                    chunks := hashes.foldl (addReference db.now) db.chunks }

theorem commitFile_ok {db db' : Store} {userId : Int} {filename : String} {fileSize : Int} {hashes : List String} :
    commitFile db userId filename fileSize hashes = .ok db' ↔ CommitEffect db userId filename fileSize hashes db' := by
  unfold commitFile
  constructor
  · intro h
    split at h
    · cases h
    rename_i arr harr
    split at h
    · cases h
    rename_i name hname
    split at h
    · cases h
    rename_i hu
    split at h
    · cases h
    rename_i files hfiles
    simp only [Except.ok.injEq] at h
    obtain ⟨hnone, rfl⟩ := Table.insert?_eq_some.1 hfiles
    exact ⟨by simpa [Option.isSome_iff_ne_none] using hu, hnone, arr, name, harr, hname, h.symm⟩
  · rintro ⟨hu, hnone, arr, name, harr, hname, rfl⟩
    have hu' : ((db.users.get? userId).isNone) = false := by simpa [Option.isSome_iff_ne_none] using hu
    simp only [harr, hname, hu', Bool.false_eq_true, ↓reduceIte, Table.insert?_eq_some.2 ⟨hnone, rfl⟩]

namespace CommitEffect

variable {db db' : Store} {userId : Int} {filename : String} {fileSize : Int} {hashes : List String}

theorem isOk (h : CommitEffect db userId filename fileSize hashes db') :
    (commitFile db userId filename fileSize hashes).isOk := by
  rw [commitFile_ok.2 h]
  rfl

theorem get?_chunks (h : CommitEffect db userId filename fileSize hashes db') (k : String) :
    db'.chunks.get? k = (db.chunks.get? k).map fun r =>
      { r with refCount := r.refCount + hashes.count k, createdAt := if k ∈ hashes then db.now else r.createdAt } := by
  obtain ⟨-, -, arr, name, -, -, rfl⟩ := h
  exact get?_addReferences db.now hashes db.chunks k

theorem now (h : CommitEffect db userId filename fileSize hashes db') : db'.now = db.now := by
  obtain ⟨-, -, arr, name, -, -, rfl⟩ := h; rfl

/-- With the literal reading back, the new row holds the committed list. -/
theorem files (h : CommitEffect db userId filename fileSize hashes db') (hrb : ReadsBack hashes) :
    ∃ name, varchar 255 filename = some name ∧
      db'.files = db.files.insertNew db.fileSeq ⟨userId, name, fileSize, hashes.map some⟩ := by
  obtain ⟨-, -, arr, name, harr, hname, rfl⟩ := h
  rw [ReadsBack, harr, Option.some.injEq] at hrb
  subst hrb
  exact ⟨name, hname, rfl⟩

theorem references (h : CommitEffect db userId filename fileSize hashes db') (hrb : ReadsBack hashes) (k : String) :
    references db' k = StorageEngine.references db k + hashes.count k := by
  obtain ⟨name, -, hf⟩ := h.files hrb
  unfold StorageEngine.references
  rw [hf, Table.rows_insertNew_of_none h.fresh]
  simp [List.count_map_of_injective _ _ (Option.some_injective _)]

theorem counter (h : CommitEffect db userId filename fileSize hashes db') (k : String) :
    counter db' k = (StorageEngine.counter db k).map (· + (hashes.count k : Int)) := by
  unfold StorageEngine.counter
  rw [h.get?_chunks, Option.map_map, Option.map_map]
  rfl

end CommitEffect

/-! ## `DeleteFile` -/

/-- What `DeleteFile` did when it found the row `first`. -/
structure DeleteEffect (db : Store) (userId : Int) (filename : String) (first : FileRow) (db' : Store) : Prop where
  found : ∃ id, db.files.get? id = some first ∧ first.userId = userId ∧ first.filename = filename
  effect : db' = { db with
    chunks := db.chunks.updateWhere (fun h _ => first.chunks.contains (some h)) fun r =>
      { r with refCount := r.refCount - 1 }
    files := db.files.deleteWhere (isFile userId filename) }

/-- Either the name has no row and nothing happens, or one of its rows is the one that is read. -/
theorem deleteFile_cases (order : List Int) (db : Store) (userId : Int) (filename : String) :
    ((∀ id r, db.files.get? id = some r → ¬ (r.userId = userId ∧ r.filename = filename)) ∧
      deleteFile order db userId filename = (db, false)) ∨
    ∃ first db', (fileRows order db userId filename).head? = some first ∧
      deleteFile order db userId filename = (db', true) ∧ DeleteEffect db userId filename first db' := by
  unfold deleteFile
  cases hrows : fileRows order db userId filename with
  | nil =>
    refine Or.inl ⟨fun id r hr ⟨hu, hf⟩ => ?_, rfl⟩
    have hm : r ∈ fileRows order db userId filename := mem_fileRows.2 ⟨id, hr, hu, hf⟩
    rw [hrows] at hm; cases hm
  | cons first rest =>
    have hm : first ∈ fileRows order db userId filename := by rw [hrows]; simp
    exact Or.inr ⟨first, _, rfl, rfl, mem_fileRows.1 hm, rfl⟩

/-- References to `k` in all rows of one name. -/
def nameReferences (db : Store) (userId : Int) (filename : String) (k : String) : Nat :=
  refs ((db.files.select (isFile userId filename)).map fun e => e.2.chunks) (some k)

theorem count_le_nameReferences {db : Store} {id : Int} {r : FileRow} (hr : db.files.get? id = some r) (k : String) :
    r.chunks.count (some k) ≤ nameReferences db r.userId r.filename k := by
  have hm : r.chunks ∈ (db.files.select (isFile r.userId r.filename)).map fun e => e.2.chunks :=
    List.mem_map.2 ⟨(id, r), Table.mem_select.2 ⟨hr, isFile_iff.2 ⟨rfl, rfl⟩⟩, rfl⟩
  exact count_le_refs hm (some k)

namespace DeleteEffect

variable {db db' : Store} {userId : Int} {filename : String} {first : FileRow}

theorem get?_chunks (h : DeleteEffect db userId filename first db') (k : String) :
    db'.chunks.get? k = (db.chunks.get? k).map fun r =>
      if some k ∈ first.chunks then { r with refCount := r.refCount - 1 } else r := by
  rw [h.effect]
  simp

theorem get?_files (h : DeleteEffect db userId filename first db') (id : Int) :
    db'.files.get? id = (db.files.get? id).filter fun r => !isFile userId filename id r := by
  rw [h.effect]
  simp

theorem now (h : DeleteEffect db userId filename first db') : db'.now = db.now := by rw [h.effect]

theorem counter (h : DeleteEffect db userId filename first db') (k : String) :
    counter db' k = (StorageEngine.counter db k).map fun n => if some k ∈ first.chunks then n - 1 else n := by
  unfold StorageEngine.counter
  rw [h.get?_chunks, Option.map_map, Option.map_map]
  refine congrArg (Option.map · _) (funext fun r => ?_)
  by_cases hk : some k ∈ first.chunks <;> simp only [Function.comp_apply, hk, ↓reduceIte]

/-- All rows of the name go, the row that was read among them. -/
theorem references (h : DeleteEffect db userId filename first db') (k : String) :
    nameReferences db userId filename k + references db' k = StorageEngine.references db k := by
  unfold StorageEngine.references nameReferences
  rw [h.effect]
  exact refs_filter_add (fun e : Int × FileRow => e.2.chunks) (fun e => isFile userId filename e.1 e.2) db.files.rows (some k)

theorem count_first_le (h : DeleteEffect db userId filename first db') (k : String) :
    first.chunks.count (some k) ≤ nameReferences db userId filename k := by
  obtain ⟨id, hr, rfl, rfl⟩ := h.found
  exact count_le_nameReferences hr k

end DeleteEffect

/-! ## Garbage collection -/

theorem get?_claimChunks (db : Store) (claimed : List String) (k : String) :
    (claimChunks db claimed).chunks.get? k = (db.chunks.get? k).map fun r =>
      if k ∈ claimed then { r with refCount := -1 } else r := by
  simp [claimChunks]

theorem mem_orphanHashes {order : List String} {db : Store} {expiryHours limit : Nat} {h : String}
    (hm : h ∈ orphanHashes order db expiryHours limit) :
    ∃ r, db.chunks.get? h = some r ∧ r.refCount = 0 ∧ r.createdAt + hours expiryHours < db.now := by
  obtain ⟨⟨k, r⟩, hk, rfl⟩ := List.mem_map.1 hm
  have hk := (mem_scan (nodup_select _ _) order).1 (List.mem_of_mem_take hk)
  obtain ⟨hr, hp⟩ := Table.mem_select.1 hk
  exact ⟨r, hr, by simpa [isOrphan] using hp⟩

theorem nodup_orphanHashes (order : List String) (db : Store) (expiryHours limit : Nat) :
    (orphanHashes order db expiryHours limit).Nodup := by
  have hperm := (scan_perm (nodup_select db.chunks (isOrphan expiryHours db.now)) order).map Prod.fst
  have hnd := hperm.nodup_iff.2 (nodup_select _ _)
  exact hnd.sublist ((List.take_sublist _ _).map _)

theorem get?_deleteChunkRecordsBulk (db : Store) (hashes : List String) (k : String) :
    (deleteChunkRecordsBulk db hashes).chunks.get? k =
      (db.chunks.get? k).filter fun r => !(r.refCount == -1 && hashes.contains k) := by
  unfold deleteChunkRecordsBulk
  split
  · rename_i h
    rw [List.isEmpty_iff] at h
    subst h
    cases db.chunks.get? k <;> simp [Option.filter]
  · exact Table.get?_deleteWhere _ _ _

theorem get?_revertTombstone (db : Store) (hash k : String) :
    (revertTombstone db hash).chunks.get? k = (db.chunks.get? k).map fun r =>
      if k = hash ∧ r.refCount = -1 then { r with refCount := 0, createdAt := db.now } else r := by
  simp [revertTombstone]

end StorageEngine
