import StorageEngine.Cluster.InFlight

/-!
# Committed chunks are on the workers' disks

`Durable`: every worker in the `chunks` row of a committed hash stores the chunk. The commit of a
conforming client makes it so (`AttemptLive`): the chunks that were missing it has posted, the others were
stored, and for the 24 hours it has no `DELETE` for any of them can be in flight. Afterwards `FlightInv`
keeps it so. A `DELETE` that outlives its task's timeout and the `RevertTombstone` after it is what breaks
it (`lateDelete_loses_chunk`).
-/

namespace StorageEngine

open Relational Transition Async

variable {ι κ μ : Type} [DecidableEq ι] [DecidableEq κ] [DecidableEq μ] {sha256 : Bytes → String} {net : Addresses μ}
  {n : Nat}

/-- While the file of a commit is there, every hash of the committed list has a row, and every worker of
the row stores the chunk. -/
def Durable (sha256 : Bytes → String) (net : Addresses μ) (s : Cluster ι κ μ) : Prop :=
  ∀ e ∈ s.commits, (s.db.files.get? e.1).isSome → ∀ h ∈ e.2, ∃ r, s.db.chunks.get? h = some r ∧
    ∀ m ∈ replicas net s.db r.nodes, Holds sha256 (s.disk m) h

/-- The rows of live chunks: their workers store them. -/
def Stored (sha256 : Bytes → String) (net : Addresses μ) (db : Store) (disk : μ → Disk) : Prop :=
  ∀ h r, db.chunks.get? h = some r → 0 < r.refCount → ∀ m ∈ replicas net db r.nodes, Holds sha256 (disk m) h

/-! ## An attempt -/

/-- What a client knows within the 24 hours after its upload-init. -/
structure AttemptLive (sha256 : Bytes → String) (net : Addresses μ) (db : Store) (disk : μ → Disk) (wire : ChunkWire μ)
    (a : Attempt μ) : Prop where
  fresh : Fresh db a.chunkHashes a.since
  /-- A worker of a row has the chunk, or the client has a plan for it. -/
  covered : ∀ h ∈ a.chunkHashes, ∀ r, db.chunks.get? h = some r → ∀ m ∈ replicas net db r.nodes,
    Holds sha256 (disk m) h ∨ ∃ p ∈ a.plans, p.hash = h ∧ ∃ node ∈ p.assignedNodes, net.advertised node = m
  posted : ∀ node e hash body, (node, e) ∈ a.posts → e.request.request = .post hash body →
    ∀ r, (e, r) ∈ wire.replies → r.status = 200 → Holds sha256 (disk (net.advertised node)) hash
  acked : ∀ node hash, (node, hash) ∈ a.acked → Holds sha256 (disk (net.advertised node)) hash

/-- An upload that is under way: its plans and requests are about its own chunks, in the store as it is. -/
structure AttemptOk (sha256 : Bytes → String) (net : Addresses μ) (db : Store) (disk : μ → Disk) (wire : ChunkWire μ)
    (a : Attempt μ) : Prop where
  hex : ∀ h ∈ a.chunkHashes, HexDigest h
  past : a.since ≤ db.now
  listed : ∀ p ∈ a.plans, p.hash ∈ a.chunkHashes
  sent : ∀ node e, (node, e) ∈ a.posts → ∃ hash ∈ a.chunkHashes, ∃ body,
    e.request = ⟨net.advertised node, .post hash body⟩
  ackedListed : ∀ node hash, (node, hash) ∈ a.acked → hash ∈ a.chunkHashes
  live : db.now ≤ a.since + hours 24 → AttemptLive sha256 net db disk wire a

/-- The clients and what they have committed. -/
structure DurableInv (sha256 : Bytes → String) (net : Addresses μ) (s : Cluster ι κ μ) : Prop where
  flight : FlightInv s.masters s.task s.wire
  staffed : Staffed s.db
  addressed : Addressed net s.db
  stored : Stored sha256 net s.db s.disk
  attempts : ∀ c a, s.attempt c = some a → AttemptOk sha256 net s.db s.disk s.wire a
  commits : ∀ e ∈ s.commits, e.1 < s.db.fileSeq ∧ ∀ f, s.db.files.get? e.1 = some f → f.chunks = e.2.map some

omit [DecidableEq ι] [DecidableEq κ] [DecidableEq μ] in
theorem durableInv_init : DurableInv sha256 net (Cluster.init ι κ μ) where
  flight := flightInv_init
  staffed := staffed_empty
  addressed id w hw := by cases hw
  stored h r hr := by cases hr
  attempts c a ha := by cases ha
  commits e he := by cases he

omit [DecidableEq ι] [DecidableEq κ] [DecidableEq μ] in
/-- **The invariant is enough**: a committed hash is referenced, so its count is above zero. -/
theorem DurableInv.durable {s : Cluster ι κ μ} (hi : DurableInv sha256 net s) : Durable sha256 net s := by
  intro e he hfile h hh
  obtain ⟨f, hf⟩ := Option.isSome_iff_exists.1 hfile
  have hchunks := (hi.commits e he).2 f hf
  have href : 0 < references s.db h := by
    refine references_pos.2 ⟨e.1, f, hf, ?_⟩
    rw [hchunks]
    exact List.mem_map.2 ⟨h, hh, rfl⟩
  obtain ⟨m, hm, hpos⟩ := (hi.flight.counted h).pos href
  obtain ⟨r, hr, rfl⟩ := counter_eq_some.1 hm
  exact ⟨r, hr, hi.stored h r hr hpos⟩

/-! ## Transactions -/

/-- A count above zero was above zero, unless it is a commit that raised it. -/
theorem StoreStep.refCount_pos {db db' : Store} {t : Txn} (h : StoreStep n db t db') {k : String} {r : ChunkRow}
    (hr : db'.chunks.get? k = some r) (hpos : 0 < r.refCount) :
    (∃ r₀, db.chunks.get? k = some r₀ ∧ 0 < r₀.refCount) ∨ ∃ u f s hashes, t = .commitFile u f s hashes ∧ k ∈ hashes := by
  cases h with
  | quiet h => rw [h.chunks] at hr; exact Or.inl ⟨r, hr, hpos⟩
  | filter h =>
    have heff := filterMissingChunks_effect h
    cases hk : db.chunks.get? k with
    | none =>
      have hzero := (heff.fresh k r hk hr).1
      omega
    | some r₀ =>
      obtain ⟨t, ht, -⟩ := heff.kept k r₀ hk
      rw [hr, Option.some.injEq] at ht
      subst ht
      exact Or.inl ⟨r₀, rfl, hpos⟩
  | @commit u f s hashes _ h =>
    rw [h.get?_chunks, Option.map_eq_some_iff] at hr
    obtain ⟨r₀, hr₀, rfl⟩ := hr
    by_cases hm : k ∈ hashes
    · exact Or.inr ⟨u, f, s, hashes, rfl, hm⟩
    · simp only [List.count_eq_zero.2 hm] at hpos
      exact Or.inl ⟨r₀, hr₀, by omega⟩
  | delete _ h =>
    rw [h.get?_chunks, Option.map_eq_some_iff] at hr
    obtain ⟨r₀, hr₀, rfl⟩ := hr
    refine Or.inl ⟨r₀, hr₀, ?_⟩
    split at hpos
    · simp only at hpos; omega
    · exact hpos
  | claim =>
    rw [get?_claimChunks, Option.map_eq_some_iff] at hr
    obtain ⟨r₀, hr₀, rfl⟩ := hr
    split at hpos
    · simp only at hpos; omega
    · exact Or.inl ⟨r₀, hr₀, hpos⟩
  | purge =>
    rw [get?_deleteChunkRecordsBulk, Option.filter_eq_some_iff] at hr
    exact Or.inl ⟨r, hr.1, hpos⟩
  | revert =>
    rw [get?_revertTombstone, Option.map_eq_some_iff] at hr
    obtain ⟨r₀, hr₀, rfl⟩ := hr
    split at hpos
    · simp only at hpos; omega
    · exact Or.inl ⟨r₀, hr₀, hpos⟩

omit [DecidableEq μ] in
/-- The machines of a row that was there are those it had. -/
theorem StoreStep.replicas {db db' : Store} {t : Txn} (h : StoreStep n db t db') (hs : Staffed db) {k : String}
    {r r₀ : ChunkRow} (hr : db'.chunks.get? k = some r) (hr₀ : db.chunks.get? k = some r₀) {m : μ}
    (hm : m ∈ replicas net db' r.nodes) : m ∈ StorageEngine.replicas net db r₀.nodes := by
  rcases h.nodes hr with ⟨r₁, hr₁, hnodes⟩ | ⟨hnone, -⟩
  · rw [hr₀, Option.some.injEq] at hr₁
    subst hr₁
    rw [hnodes] at hm
    exact h.workersKept.replicas (hs.chunks k r₀ hr₀) hm
  · rw [hr₀] at hnone; cases hnone

omit [DecidableEq μ] in
/-- An attempt is as good after a transaction as before. -/
theorem AttemptOk.store {db db' : Store} {t : Txn} {disk : μ → Disk} {wire : ChunkWire μ} {a : Attempt μ}
    (ha : AttemptOk sha256 net db disk wire a) (h : StoreStep n db t db') (hi : Counted db) (hs : Staffed db)
    (hexp : ∀ order fault expiry limit, t = .getOrphanedChunks order fault expiry limit → expiry = expiryHours) :
    AttemptOk sha256 net db' disk wire a := by
  refine ⟨ha.hex, Nat.le_trans ha.past h.now_le, ha.listed, ha.sent, ha.ackedListed, fun hnow => ?_⟩
  have hlive := ha.live (Nat.le_trans h.now_le hnow)
  refine ⟨h.fresh hi hexp ha.past hnow hlive.fresh, fun k hk r hr m hm => ?_, hlive.posted, hlive.acked⟩
  obtain ⟨r₀, hr₀, -, -⟩ := hlive.fresh k hk
  exact hlive.covered k hk r₀ hr₀ m (h.replicas hs hr hr₀ hm)

omit [DecidableEq μ] in
theorem Stored.store {db db' : Store} {t : Txn} {disk : μ → Disk} (hst : Stored sha256 net db disk)
    (h : StoreStep n db t db') (hs : Staffed db)
    (hcommit : ∀ u f size hashes, t = .commitFile u f size hashes → ∀ k ∈ hashes, ∀ r, db.chunks.get? k = some r →
      ∀ m ∈ replicas net db r.nodes, Holds sha256 (disk m) k) : Stored sha256 net db' disk := by
  intro k r hr hpos m hm
  rcases h.refCount_pos hr hpos with ⟨r₀, hr₀, hpos₀⟩ | ⟨u, f, size, hashes, rfl, hk⟩
  · exact hst k r₀ hr₀ hpos₀ m (h.replicas hs hr hr₀ hm)
  · rcases h.nodes hr with ⟨r₀, hr₀, -⟩ | ⟨hnone, -⟩
    · exact hcommit u f size hashes rfl k hk r₀ hr₀ m (h.replicas hs hr hr₀ hm)
    · cases h with
      | quiet h => rw [h.chunks, hnone] at hr; cases hr
      | commit h => rw [h.get?_chunks, hnone] at hr; cases hr

omit [DecidableEq μ] in
/-- A complete attempt within its 24 hours: every worker of every listed row has the chunk. -/
theorem AttemptLive.all_stored {db : Store} {disk : μ → Disk} {wire : ChunkWire μ} {a : Attempt μ}
    (h : AttemptLive sha256 net db disk wire a) (hc : a.complete) {k : String} (hk : k ∈ a.chunkHashes) {r : ChunkRow}
    (hr : db.chunks.get? k = some r) {m : μ} (hm : m ∈ replicas net db r.nodes) : Holds sha256 (disk m) k := by
  rcases h.covered k hk r hr m hm with hold | ⟨p, hp, rfl, node, hnode, rfl⟩
  · exact hold
  · exact h.acked node p.hash (hc p hp node hnode)

/-! ## One step -/

omit [DecidableEq κ] in
/-- A daemon's step is a transaction on the store, or none. -/
theorem gc_apply {s m : Masters ι} {a : MasterStep ι} (h : stepMasters n s a = some m) (ha : ∀ x, a ≠ .client x)
    (hret : strayOrphans s.db a = []) : ∃ t : Txn, (t = .tick 0 ∨ t.isSweep = true) ∧ m.db = t.apply n s.db := by
  by_cases hf : FaultFree a
  · cases stepMasters_cases h hf with
    | client ht => exact absurd rfl (ha _)
    | @claim d order phase hidle hphase => exact ⟨.getOrphanedChunks order none expiryHours batchSize, Or.inr rfl, rfl⟩
    | @record d deleted purged phase hsub hdel hphase => exact ⟨.deleteChunkRecordsBulk purged, Or.inr rfl, rfl⟩
    | @revert d k phase hphase => exact ⟨.revertTombstone k, Or.inr rfl, rfl⟩
  · obtain ⟨d, phase, rfl, -⟩ := stepMasters_faulty h hf hret
    exact ⟨.tick 0, Or.inl rfl, rfl⟩

variable {s : Cluster ι κ μ}

omit [DecidableEq ι] [DecidableEq κ] [DecidableEq μ] in
/-- A transaction of the masters, the disks and the clients staying as they are. -/
theorem DurableInv.transact (hi : DurableInv sha256 net s) {t : Txn} {m : Masters ι} {task : ι → String → DeleteTask μ}
    (hdb : m.db = t.apply n s.db) (hflight : FlightInv m task s.wire) (hr : RegistersItself net t)
    (hexp : ∀ order fault expiry limit, t = .getOrphanedChunks order fault expiry limit → expiry = expiryHours)
    (hcommit : ∀ u f size hashes, t = .commitFile u f size hashes → ∀ k ∈ hashes, ∀ r, s.db.chunks.get? k = some r →
      ∀ m ∈ replicas net s.db r.nodes, Holds sha256 (s.disk m) k) :
    DurableInv sha256 net { s with masters := m, task := task } := by
  have hstep : StoreStep n s.db t m.db := hdb ▸ t.storeStep n s.db
  refine ⟨hflight, ?_, ?_, hi.stored.store hstep hi.staffed hcommit, fun c a ha => ?_, fun e he => ?_⟩
  · show Staffed m.db
    rw [hdb]
    exact t.staffed n s.db hi.staffed
  · show Addressed net m.db
    rw [hdb]
    exact t.addressed n s.db hr hi.addressed
  · exact (hi.attempts c a ha).store hstep hi.flight.counted hi.staffed hexp
  · obtain ⟨hlt, hfiles⟩ := hi.commits e he
    exact ⟨Int.lt_of_lt_of_le hlt hstep.fileSeq_le, fun f hf => hfiles f (hstep.files_stable hlt hf)⟩

omit [DecidableEq ι] [DecidableEq μ] in
/-- A client's attempt is replaced. -/
theorem DurableInv.setAttempt (hi : DurableInv sha256 net s) {c : κ} {y : Option (Attempt μ)}
    (hy : ∀ a, y = some a → AttemptOk sha256 net s.db s.disk s.wire a) :
    DurableInv sha256 net { s with attempt := Function.update s.attempt c y } := by
  refine ⟨hi.flight, hi.staffed, hi.addressed, hi.stored, fun d a ha => ?_, hi.commits⟩
  simp only [Function.update_apply] at ha
  split at ha
  · exact hy a ha
  · exact hi.attempts d a ha

omit [DecidableEq ι] [DecidableEq κ] [DecidableEq μ] in
/-- Requests are sent or lost, nothing is answered. -/
theorem DurableInv.setWire (hi : DurableInv sha256 net s) {wire : ChunkWire μ} {task : ι → String → DeleteTask μ}
    (hflight : FlightInv s.masters task wire) (hreplies : wire.replies = s.wire.replies) :
    DurableInv sha256 net { s with task := task, wire := wire } := by
  refine ⟨hflight, hi.staffed, hi.addressed, hi.stored, fun c a ha => ?_, hi.commits⟩
  have hok := hi.attempts c a ha
  refine ⟨hok.hex, hok.past, hok.listed, hok.sent, hok.ackedListed, fun hnow => ?_⟩
  have hlive := hok.live hnow
  refine ⟨hlive.fresh, hlive.covered, fun node e hash body he hreq r hr => ?_, hlive.acked⟩
  have hr' : (e, r) ∈ s.wire.replies := hreplies ▸ hr
  exact hlive.posted node e hash body he hreq r hr'

theorem stepTask_replies {wire wire' : ChunkWire μ} {hash : String} {t t' : DeleteTask μ} {e : TaskEvent}
    (h : stepTask net wire hash t e = some (t', wire')) : wire'.replies = wire.replies := by
  cases e with
  | send =>
    simp only [stepTask] at h
    split at h
    · cases h; rfl
    · cases h
  | answer r =>
    simp only [stepTask] at h
    split at h
    · split at h
      · cases h; rfl
      · cases h
    · cases h
  | fail =>
    simp only [stepTask, Option.map_eq_some_iff, Prod.mk.injEq] at h
    obtain ⟨x, -, -, rfl⟩ := h
    rfl
  | abort => cases h; rfl

omit [DecidableEq ι] [DecidableEq κ] in
/-- **A worker runs a handler.** A chunk that matters to anybody is no tombstone, so it is not deleted. -/
theorem DurableInv.deliver (hi : DurableInv sha256 net s) {e : Envelope (Sent μ)} (he : e ∈ s.wire.inFlight) :
    DurableInv sha256 net { s with
      disk := Function.update s.disk e.request.machine (serve sha256 (s.disk e.request.machine) e.request.request).1
      wire := s.wire.reply e he (serve sha256 (s.disk e.request.machine) e.request.request).2 } := by
  have hkeep : ∀ m h, counter s.db h ≠ some (-1) → Holds sha256 (s.disk m) h → Holds sha256 (Function.update s.disk
      e.request.machine (serve sha256 (s.disk e.request.machine) e.request.request).1 m) h := by
    intro m h hlive hold
    rw [Function.update_apply]
    split
    · rename_i hm
      subst hm
      exact hold.serve fun hdel => hlive (hi.flight.flight e he h hdel)
    · exact hold
  have hflight : FlightInv s.masters s.task
      (s.wire.reply e he (serve sha256 (s.disk e.request.machine) e.request.request).2) :=
    hi.flight.requests fun x hx => Or.inl (Wire.mem_reply.1 hx).1
  refine ⟨hflight, hi.staffed, hi.addressed, fun h r hr hpos m hm => ?_, fun c a ha => ?_, hi.commits⟩
  · refine hkeep m h (fun hcount => ?_) (hi.stored h r hr hpos m hm)
    obtain ⟨r', hr', hneg⟩ := counter_eq_some.1 hcount
    rw [show s.db.chunks.get? h = some r from hr, Option.some.injEq] at hr'
    subst hr'
    omega
  · have hok := hi.attempts c a ha
    refine ⟨hok.hex, hok.past, hok.listed, hok.sent, hok.ackedListed, fun hnow => ?_⟩
    have hlive := hok.live hnow
    have hcount : ∀ h ∈ a.chunkHashes, counter s.db h ≠ some (-1) := by
      intro h hh hcount
      obtain ⟨r, hr, hpos, -⟩ := hlive.fresh h hh
      have hr' : counter s.db h = some r.refCount := counter_eq_some.2 ⟨r, hr, rfl⟩
      rw [hcount, Option.some.injEq] at hr'
      omega
    refine ⟨hlive.fresh, fun h hh r hr m hm => ?_, fun node x hash body hx hpost r hr h200 => ?_, fun node h hh => ?_⟩
    · rcases hlive.covered h hh r hr m hm with hold | hplan
      · exact Or.inl (hkeep m h (hcount h hh) hold)
      · exact Or.inr hplan
    · obtain ⟨hash', hhash, body', hreq⟩ := hok.sent node x hx
      have hsame : hash' = hash := by
        rw [hreq, ChunkRequest.post.injEq] at hpost
        exact hpost.1
      subst hsame
      rw [Wire.replies_reply] at hr
      rcases List.mem_cons.1 hr with hnew | hr
      · obtain ⟨rfl, rfl⟩ := Prod.mk.inj hnew
        rw [hreq] at h200 ⊢
        simp only [Function.update_self]
        exact holds_of_post h200
      · exact hkeep _ hash' (hcount hash' hhash) (hlive.posted node x hash' body hx hpost r hr h200)
    · exact hkeep _ h (hcount h (hok.ackedListed node h hh)) (hlive.acked node h hh)

omit [DecidableEq μ] in
/-- What a client knows when its upload-init has answered. -/
theorem attemptOk_init {db db' : Store} {hashes : List String} {plans : List ChunkRoutingPlan} {disk : μ → Disk}
    {wire : ChunkWire μ} (h : filterMissingChunks n db hashes = .ok (db', plans)) (hhex : ∀ h ∈ hashes, HexDigest h)
    (haddr : Addressed net db) (hfloor : Floored db') (hst : Stored sha256 net db' disk) :
    AttemptOk sha256 net db' disk wire ⟨hashes, db.now, plans, [], []⟩ := by
  have heff := filterMissingChunks_effect h
  obtain ⟨hplans, hrows⟩ := filterMissingChunks_plans h
  have hlisted : ∀ p ∈ plans, p.hash ∈ hashes := by
    intro p hp
    have hmem : p.hash ∈ plans.map ChunkRoutingPlan.hash := List.mem_map.2 ⟨p, hp, rfl⟩
    rw [hplans] at hmem
    exact (List.mem_filter.1 hmem).1
  have hnode : ∀ nodes, nodeData db' nodes = nodeData db nodes := heff.nodeData
  refine ⟨hhex, Nat.le_of_eq heff.now.symm, hlisted, fun _ _ hm => absurd hm List.not_mem_nil,
    fun _ _ hm => absurd hm List.not_mem_nil, fun _ => ?_⟩
  refine ⟨fun k hk => ?_, fun k hk r hr m hm => ?_, fun _ _ _ _ hm => absurd hm List.not_mem_nil,
    fun _ _ hm => absurd hm List.not_mem_nil⟩
  · obtain ⟨r, hr, hne, hage⟩ := filterMissingChunks_refreshed h k hk (hhex k hk).varchar
    have hge := hfloor k r.refCount (counter_eq_some.2 ⟨r, hr, rfl⟩)
    exact ⟨r, hr, by omega, Nat.le_of_eq hage.symm⟩
  · by_cases hmiss : isMissing db k = true
    · have hmem : k ∈ plans.map ChunkRoutingPlan.hash := by
        rw [hplans]
        exact List.mem_filter.2 ⟨hk, hmiss⟩
      obtain ⟨p, hp, rfl⟩ := List.mem_map.1 hmem
      obtain ⟨r', hr', hns⟩ := hrows p hp (hhex _ hk).varchar
      rw [hr, Option.some.injEq] at hr'
      subst hr'
      have haddr' : Addressed net db' := by
        intro id w hw
        rw [heff.frame] at hw
        exact haddr id w hw
      have hmachines := haddr'.nodeData ((hnode r.nodes).trans hns)
      rw [← hmachines] at hm
      obtain ⟨node, hmem', rfl⟩ := List.mem_map.1 hm
      exact Or.inr ⟨p, hp, rfl, node, hmem', rfl⟩
    · left
      obtain ⟨r', hr', hne, -⟩ := filterMissingChunks_refreshed h k hk (hhex k hk).varchar
      rw [hr, Option.some.injEq] at hr'
      subst hr'
      have hge := hfloor k r.refCount (counter_eq_some.2 ⟨r, hr, rfl⟩)
      have hzero : r.refCount ≠ 0 := by
        intro hz
        apply hmiss
        rw [← heff.isMissing k]
        simp [isMissing, hr, hz]
      exact hst k r hr (by omega) m hm

/-- **One step** of the system that gives no chunk back under a late `DELETE`. -/
theorem DurableInv.step {s' : Cluster ι κ μ} {a : ClusterStep ι κ μ} (hi : DurableInv sha256 net s)
    (hc : NoLateDelete s a) (h : stepCluster sha256 net n s a = some s') : DurableInv sha256 net s' := by
  cases a with
  | other t =>
    simp only [stepCluster] at h
    split at h
    · rename_i ht
      cases h
      refine hi.transact rfl (hi.flight.client ?_ ?_) ht.2 ?_ ?_
      · cases t <;> first | rfl | cases ht.1
      · cases t <;> first | trivial | cases ht.1
      · rintro order fault expiry limit rfl
        cases ht.1
      · rintro u f size hashes rfl
        cases ht.1
    · cases h
  | init c hashes =>
    simp only [stepCluster] at h
    split at h
    · rename_i hhex
      split at h
      · cases h
        exact hi.setAttempt fun a ha => by cases ha
      · rename_i db plans hok
        cases h
        have hdb : db = (Txn.filterMissingChunks hashes).apply n s.db := by
          simp only [Txn.apply, hok]; rfl
        have hflight : FlightInv { s.masters with db := db } s.task s.wire := by
          rw [hdb]
          exact hi.flight.client rfl trivial
        have hi' := hi.transact (t := .filterMissingChunks hashes) hdb hflight trivial
          (fun _ _ _ _ he => by cases he) (fun _ _ _ _ he => by cases he)
        exact hi'.setAttempt fun a ha => by
          cases ha
          exact attemptOk_init hok hhex hi.addressed hflight.floored hi'.stored
    · cases h
  | post c node hash body =>
    simp only [stepCluster] at h
    split at h
    · rename_i a ha
      split at h
      · rename_i hplan
        cases h
        obtain ⟨p, hp, rfl, hnode⟩ := hplan
        let req : Sent μ := ⟨net.advertised node, .post p.hash body⟩
        have hflight : FlightInv s.masters s.task (s.wire.send req) := hi.flight.requests fun x hx => by
          rcases Wire.mem_send.1 hx with rfl | hx
          · exact Or.inr fun h => ChunkRequest.noConfusion
          · exact Or.inl hx
        have hi' : DurableInv sha256 net { s with task := s.task, wire := s.wire.send req } := hi.setWire hflight rfl
        refine hi'.setAttempt fun b hb => ?_
        cases hb
        have hok := hi'.attempts c a ha
        refine ⟨hok.hex, hok.past, hok.listed, fun node' e he => ?_, hok.ackedListed, fun hnow => ?_⟩
        · rcases List.mem_cons.1 he with hnew | he
          · obtain ⟨rfl, rfl⟩ := Prod.mk.inj hnew
            exact ⟨p.hash, hok.listed p hp, body, rfl⟩
          · exact hok.sent node' e he
        · have hlive := hok.live hnow
          refine ⟨hlive.fresh, hlive.covered, fun node' e hash body' he hreq r hr => ?_, hlive.acked⟩
          rcases List.mem_cons.1 he with hnew | he
          · obtain ⟨rfl, rfl⟩ := Prod.mk.inj hnew
            exact absurd hr (Wire.next_not_replied s.wire req r)
          · exact hlive.posted node' e hash body' he hreq r hr
      · cases h
    · cases h
  | ack c node e r =>
    simp only [stepCluster] at h
    split at h
    · rename_i a hash body ha hreq
      split at h
      · rename_i hack
        cases h
        refine hi.setAttempt fun b hb => ?_
        cases hb
        have hok := hi.attempts c a ha
        refine ⟨hok.hex, hok.past, hok.listed, hok.sent, fun node' k hk => ?_, fun hnow => ?_⟩
        · rcases List.mem_cons.1 hk with hnew | hk
          · obtain ⟨rfl, rfl⟩ := Prod.mk.inj hnew
            obtain ⟨hash', hhash, body', hsent⟩ := hok.sent node' e hack.1
            rw [hsent, ChunkRequest.post.injEq] at hreq
            exact hreq.1 ▸ hhash
          · exact hok.ackedListed node' k hk
        · have hlive := hok.live hnow
          refine ⟨hlive.fresh, hlive.covered, hlive.posted, fun node' k hk => ?_⟩
          rcases List.mem_cons.1 hk with hnew | hk
          · obtain ⟨rfl, rfl⟩ := Prod.mk.inj hnew
            exact hlive.posted node' e k body hack.1 hreq r hack.2.1 hack.2.2
          · exact hlive.acked node' k hk
      · cases h
    · cases h
  | commit c u f size =>
    simp only [stepCluster] at h
    split at h
    · rename_i a ha
      split at h
      · rename_i hcomplete
        split at h
        · cases h; exact hi
        · rename_i db hok
          cases h
          have hatt := hi.attempts c a ha
          have hlive := hatt.live hcomplete.2
          have hdb : db = (Txn.commitFile u f size a.chunkHashes).apply n s.db := by
            simp only [Txn.apply, hok]; rfl
          have heff := commitFile_ok.1 hok
          have hrb := readsBack_of_hex hatt.hex
          have hcounted : CommitCounted s.db (.commitFile u f size a.chunkHashes) := by
            intro _
            refine ⟨hrb, fun k hk => ?_⟩
            obtain ⟨r, hr, hpos, -⟩ := hlive.fresh k hk
            exact ⟨r, hr, hpos⟩
          have hflight : FlightInv { s.masters with db := db } s.task s.wire := by
            rw [hdb]
            exact hi.flight.client rfl hcounted
          have hi' := hi.transact (t := .commitFile u f size a.chunkHashes) hdb hflight trivial
            (fun _ _ _ _ he => by cases he) (fun u' f' size' hashes he k hk r hr m hm => by
              cases he
              exact hlive.all_stored hcomplete.1 hk hr hm)
          refine ⟨hi'.flight, hi'.staffed, hi'.addressed, hi'.stored, hi'.attempts, fun e he => ?_⟩
          rcases List.mem_cons.1 he with rfl | he
          · obtain ⟨name, -, hfiles⟩ := heff.files hrb
            have hseq : db.fileSeq = s.db.fileSeq + 1 := by
              obtain ⟨-, -, arr, name, -, -, rfl⟩ := heff
              rfl
            refine ⟨?_, fun f' hf' => ?_⟩
            · show s.db.fileSeq < db.fileSeq
              omega
            · have hget : db.files.get? s.db.fileSeq = some ⟨u, name, size, a.chunkHashes.map some⟩ := by
                rw [hfiles, Table.get?_insertNew, if_pos rfl, heff.fresh, Option.getD_none]
              have hsame : db.files.get? s.db.fileSeq = some f' := hf'
              rw [hget, Option.some.injEq] at hsame
              rw [← hsame]
          · exact hi'.commits e he
      · cases h
    · cases h
  | gc a =>
    simp only [stepCluster] at h
    split at h
    · rename_i hen
      obtain ⟨m, hm, rfl⟩ := Option.map_eq_some_iff.1 h
      have ha : ∀ x, a ≠ .client x := by
        rintro x rfl
        cases hen
      have hstray : strayOrphans s.db a = [] := by
        cases a with
        | claim d order fault => exact hc
        | _ => rfl
      obtain ⟨t, ht, hdb⟩ := gc_apply hm ha hstray
      refine hi.transact hdb (hi.flight.gc hen hm hc) ?_ ?_ ?_
      · rcases ht with rfl | ht
        · trivial
        · cases t <;> trivial
      · rintro order fault expiry limit rfl
        rcases ht with ht | ht
        · cases ht
        · simpa [Txn.isSweep] using ht
      · rintro u f size hashes rfl
        rcases ht with ht | ht <;> cases ht
    · cases h
  | task d hash e =>
    simp only [stepCluster] at h
    split at h
    · rename_i orphans hd
      split at h
      · rename_i hmem
        obtain ⟨⟨t', wire'⟩, hres, rfl⟩ := Option.map_eq_some_iff.1 h
        have hp : (s.masters.daemon d).isPurging hash := by rw [hd]; exact hmem
        exact hi.setWire (hi.flight.taskStep hp hres) (stepTask_replies hres)
      · cases h
    · cases h
  | deliver e =>
    simp only [stepCluster] at h
    split at h
    · rename_i he
      cases h
      exact hi.deliver he
    · cases h
  | lose e =>
    simp only [stepCluster, Option.some.injEq] at h
    subst h
    have hflight : FlightInv s.masters s.task (s.wire.lose e) :=
      hi.flight.requests fun x hx => Or.inl (Wire.mem_lose.1 hx).1
    exact hi.setWire hflight rfl

theorem durableInv_run {steps : List (ClusterStep ι κ μ)}
    (hc : EachStep (stepCluster sha256 net n) NoLateDelete (Cluster.init ι κ μ) steps)
    (h : exec (stepCluster sha256 net n) (Cluster.init ι κ μ) steps = some s) : DurableInv sha256 net s :=
  EachStep.inv (fun _ _ _ hi hca hst => hi.step hca hst) hc durableInv_init h

/-- **Committed chunks are durable**, in every state of a run that gives no chunk back while a `DELETE` for
it can still arrive. -/
theorem committed_durable (sha256 : Bytes → String) (net : Addresses μ) (n : Nat) (steps : List (ClusterStep ι κ μ))
    (hc : EachStep (stepCluster sha256 net n) NoLateDelete (Cluster.init ι κ μ) steps) :
    Always (stepCluster sha256 net n) (Durable sha256 net) (Cluster.init ι κ μ) steps := by
  refine always_iff_prefix.2 fun pre t hpre ht => ?_
  obtain ⟨post, rfl⟩ := hpre
  exact (durableInv_run (EachStep.append.1 hc).1 ht).durable

/-! ## A `DELETE` that comes late -/

/-- One machine, whatever the address. -/
def oneMachine : Addresses Unit := ⟨fun _ => (), fun _ => ()⟩

/-- One daemon, one client, one worker. -/
abbrev SampleStep := ClusterStep Unit Unit Unit

/-- A chunk that was announced and never sent is claimed a day later; its `DELETE` goes out. -/
def claimAndDelete : List SampleStep := sampleSetup.map .other ++
  [.init () [sampleHash], .other (.tick (hours 25)), .gc (.claim () [] none), .task () sampleHash .send]

/-- The client uploads the chunk, whose `POST` is request 1, and commits it. -/
def uploadAndCommit : List SampleStep :=
  [.init () [sampleHash], .post () ⟨"localhost", 9081⟩ sampleHash [97], .deliver ⟨1, (), .post sampleHash [97]⟩,
   .ack () ⟨"localhost", 9081⟩ ⟨1, (), .post sampleHash [97]⟩ ⟨200, "OK", []⟩, .commit () 1 "a" 1]

/-- The task times out, the chunk is given back and uploaded again; then the `DELETE` arrives. -/
def lateDelete : List SampleStep := claimAndDelete ++
  [.task () sampleHash .fail, .gc (.record () [] true), .gc (.revert () true)] ++ uploadAndCommit ++
  [.deliver ⟨0, (), .delete sampleHash⟩]

theorem lateDelete_loses_chunk :
    ¬ Always (stepCluster sampleSha256 oneMachine 4) (Durable sampleSha256 oneMachine) (Cluster.init Unit Unit Unit)
      lateDelete := by
  intro h
  have hfacts : (exec (stepCluster sampleSha256 oneMachine 4) (Cluster.init Unit Unit Unit) lateDelete).any (fun s =>
      s.commits == [(1, [sampleHash])] && (s.db.files.get? 1).isSome &&
        (s.db.chunks.get? sampleHash).map ChunkRow.nodes == some [1] && locationsOf s.db [1] == [⟨"worker1", 9080⟩] &&
        ((s.disk ()).get? sampleHash).isNone) = true := by decide +kernel
  obtain ⟨s, hs, he⟩ := (Option.any_eq_true ..).1 hfacts
  simp only [Bool.and_eq_true, beq_iff_eq, Option.isNone_iff_eq_none] at he
  obtain ⟨⟨⟨⟨hcommits, hfile⟩, hnodes⟩, hloc⟩, hdisk⟩ := he
  have hd := always_iff_prefix.1 h _ s (List.prefix_refl _) hs
  obtain ⟨r, hr, hall⟩ := hd (1, [sampleHash]) (by rw [hcommits]; exact List.mem_cons_self) hfile sampleHash
    List.mem_cons_self
  rw [hr, Option.map_some, Option.some.injEq] at hnodes
  obtain ⟨body, hbody, -⟩ := hall () (by rw [replicas, hnodes, hloc]; exact List.mem_cons_self)
  rw [Option.mem_def.1 hbody] at hdisk
  cases hdisk

/-- The same, but the worker answers the `DELETE` in time: the row goes, and the upload starts afresh. -/
def promptDelete : List SampleStep := claimAndDelete ++
  [.deliver ⟨0, (), .delete sampleHash⟩, .task () sampleHash (.answer ⟨200, "DELETED", []⟩),
   .gc (.record () [sampleHash] true)] ++ uploadAndCommit

theorem promptDelete_durable :
    (exec (stepCluster sampleSha256 oneMachine 4) (Cluster.init Unit Unit Unit) promptDelete).isSome ∧
      Always (stepCluster sampleSha256 oneMachine 4) (Durable sampleSha256 oneMachine) (Cluster.init Unit Unit Unit)
        promptDelete :=
  ⟨by decide +kernel, committed_durable sampleSha256 oneMachine 4 promptDelete (by decide +kernel)⟩

end StorageEngine
