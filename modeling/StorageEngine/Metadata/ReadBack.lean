import StorageEngine.Metadata.References

/-!
# Commit, then read back

What `GetDownloadPlan` answers for a name after a commit of it. The size is taken from one of the name's
rows, the plans from all of them joined with `chunks`; nothing keeps a second row of the name, a hash
without a `chunks` row or a name longer than its column out of the table. A commit that finds none of
these (`CommitReadable`) is read back as it was made, until the user deletes the file.
-/

namespace StorageEngine

open Relational Transition

/-! ## The plan of one row -/

theorem flatMap_of_unique {α β : Type} {l : List α} {f : α → List β} {a : α} (hnd : l.Nodup) (ha : a ∈ l)
    (hrest : ∀ b ∈ l, b ≠ a → f b = []) : l.flatMap f = f a := by
  induction l with
  | nil => cases ha
  | cons b l ih =>
    rw [List.nodup_cons] at hnd
    rw [List.flatMap_cons]
    by_cases hb : b = a
    · subst hb
      have htail : l.flatMap f = [] := List.flatMap_eq_nil_iff.2 fun c hc =>
        hrest c (List.mem_cons_of_mem _ hc) fun he => hnd.1 (he ▸ hc)
      rw [htail, List.append_nil]
    · have hal : a ∈ l := (List.mem_cons.1 ha).resolve_left fun he => hb he.symm
      rw [hrest b List.mem_cons_self hb, List.nil_append]
      exact ih hnd.2 hal fun c hc => hrest c (List.mem_cons_of_mem _ hc)

/-- The ordinals of one row ascend, so `ORDER BY` leaves its plans where they are. -/
theorem unnestJoin_sorted (db : Store) (r : FileRow) : (unnestJoin db r).Pairwise fun a b => a.1 ≤ b.1 := by
  unfold unnestJoin
  rw [List.pairwise_filterMap]
  have hidx : r.chunks.zipIdx.Pairwise fun a b => a.2 < b.2 := by
    have hmap : (r.chunks.zipIdx.map Prod.snd).Pairwise (· < ·) := by
      rw [List.zipIdx_map_snd]
      exact List.pairwise_lt_range' ..
    exact List.pairwise_map.1 hmap
  refine hidx.imp fun {a b} hab x hx y hy => ?_
  simp only [Option.bind_eq_some_iff, Option.map_eq_some_iff] at hx hy
  obtain ⟨h, -, c, -, rfl⟩ := hx
  obtain ⟨k, -, d, -, rfl⟩ := hy
  exact Nat.le_of_lt hab

/-- A row whose hashes all have `chunks` rows joins to one plan for each, in order. -/
theorem unnestJoin_hashes {db : Store} {hashes : List String} (hrows : ∀ h ∈ hashes, (db.chunks.get? h).isSome)
    (u : Int) (f : String) (s : Int) :
    (unnestJoin db ⟨u, f, s, hashes.map some⟩).map (fun e => e.2.1) = hashes := by
  unfold unnestJoin
  generalize 0 = i
  induction hashes generalizing i with
  | nil => rfl
  | cons h hs ih =>
    obtain ⟨c, hc⟩ := Option.isSome_iff_exists.1 (hrows h List.mem_cons_self)
    have htail := ih (fun k hk => hrows k (List.mem_cons_of_mem _ hk)) (i + 1)
    simp only [List.map_cons, List.zipIdx_cons, List.filterMap_cons, Option.bind_some, hc, Option.map_some]
    rw [htail]

theorem mem_unnestJoin {db : Store} {r : FileRow} {e : Nat × String × List NodeInfo} (he : e ∈ unnestJoin db r) :
    ∃ c, db.chunks.get? e.2.1 = some c ∧ e.2.2 = (nodeData db c.nodes).getD [] := by
  obtain ⟨⟨x, i⟩, -, hx⟩ := List.mem_filterMap.1 he
  simp only [Option.bind_eq_some_iff, Option.map_eq_some_iff] at hx
  obtain ⟨h, -, c, hc, rfl⟩ := hx
  exact ⟨c, hc, rfl⟩

/-- Every `chunks` row names a worker that exists. -/
def Placed (db : Store) : Prop := ∀ h r, db.chunks.get? h = some r → ∃ ns, nodeData db r.nodes = some ns

/-- The rows of a name: one holds the list, the others are empty files of the same size. -/
def OneFile (db : Store) (u : Int) (f : String) (size : Int) (hashes : List String) : Prop :=
  ∃ id₀, db.files.get? id₀ = some ⟨u, f, size, hashes.map some⟩ ∧
    ∀ id r, db.files.get? id = some r → r.userId = u → r.filename = f → r.size = size ∧ (id ≠ id₀ → r.chunks = [])

/-- `GetDownloadPlan` answers with the committed size and list, under every query plan. -/
def ReadsAs (db : Store) (u : Int) (f : String) (size : Int) (hashes : List String) : Prop :=
  ∀ order order', ∃ plans, getDownloadPlan order order' db u f = .ok ⟨size, plans⟩ ∧
    plans.map ChunkRoutingPlan.hash = hashes ∧ ∀ p ∈ plans, p.assignedNodes ≠ []

/-- Of the rows that are joined only one contributes. -/
theorem OneFile.joined {db : Store} {u : Int} {f : String} {size : Int} {hashes : List String}
    (hone : OneFile db u f size hashes) (order : List Int) :
    (fileRows order db u f).flatMap (unnestJoin db) = unnestJoin db ⟨u, f, size, hashes.map some⟩ := by
  obtain ⟨id₀, hrow, hall⟩ := hone
  have hnd := nodup_scan (nodup_select db.files (isFile u f)) order
  have hmem := fun e => mem_scan (e := e) (nodup_select db.files (isFile u f)) order
  unfold fileRows
  rw [List.flatMap_map]
  refine flatMap_of_unique (a := (id₀, ⟨u, f, size, hashes.map some⟩)) hnd ?_ fun e he hne => ?_
  · exact (hmem _).2 (Table.mem_select.2 ⟨hrow, isFile_iff.2 ⟨rfl, rfl⟩⟩)
  · obtain ⟨hget, hname⟩ := Table.mem_select.1 ((hmem e).1 he)
    obtain ⟨hu', hf'⟩ := isFile_iff.1 hname
    have hid' : e.1 ≠ id₀ := by
      intro heq
      rw [heq, hrow, Option.some.injEq] at hget
      exact hne (Prod.ext heq hget.symm)
    have hempty := (hall e.1 e.2 hget hu' hf').2 hid'
    simp only [unnestJoin, hempty]
    rfl

/-- The plan of a name with one file. -/
theorem getDownloadPlan_eq {db : Store} {u : Int} {f : String} {size : Int} {hashes : List String}
    (hone : OneFile db u f size hashes) (order order' : List Int) : getDownloadPlan order order' db u f =
      .ok ⟨size, (unnestJoin db ⟨u, f, size, hashes.map some⟩).map fun e => parseNodePlan e.2.1 e.2.2⟩ := by
  have hjoin := hone.joined order'
  obtain ⟨id₀, hrow, hall⟩ := hone
  unfold getDownloadPlan
  cases hfr : fileRows order db u f with
  | nil =>
    have hm : _ ∈ fileRows order db u f := mem_fileRows.2 ⟨id₀, hrow, rfl, rfl⟩
    rw [hfr] at hm
    cases hm
  | cons first rest =>
    obtain ⟨id, hid, hu, hf⟩ := mem_fileRows.1 (show first ∈ fileRows order db u f by rw [hfr]; simp)
    have hsize := (hall id first hid hu hf).1
    simp only [hjoin]
    rw [List.Pairwise.insertionSort_eq (unnestJoin_sorted db _), hsize]

theorem getDownloadPlan_spec {db : Store} {u : Int} {f : String} {size : Int} {hashes : List String}
    (hone : OneFile db u f size hashes) (hrows : ∀ h ∈ hashes, (db.chunks.get? h).isSome) (hplaced : Placed db) :
    ReadsAs db u f size hashes := by
  intro order order'
  refine ⟨_, getDownloadPlan_eq hone order order', ?_, fun p hp => ?_⟩
  · rw [List.map_map]
    exact unnestJoin_hashes hrows u f size
  · obtain ⟨e, he, rfl⟩ := List.mem_map.1 hp
    obtain ⟨c, hc, hn⟩ := mem_unnestJoin he
    obtain ⟨ns, hns⟩ := hplaced _ c hc
    show e.2.2 ≠ []
    rw [hn, hns]
    exact nodeData_ne_nil hns

/-! ## Runs, with the last commit of one name -/

/-- The store, and size and list of the last successful commit of the name since its last deletion. -/
structure Tracked where
  db : Store
  last : Option (Int × List String)

/-- No file was committed. -/
def Tracked.init : Tracked := ⟨.empty, none⟩

/-- What a transaction makes of the last commit of `(u, f)`. -/
def trackLast (u : Int) (f : String) (s : Tracked) : Txn → Option (Int × List String)
  | .commitFile u' f' size hashes =>
    if (u', f') = (u, f) ∧ (commitFile s.db u' f' size hashes).isOk then some (size, hashes) else s.last
  | .deleteFile _ u' f' => if (u', f') = (u, f) then none else s.last
  | _ => s.last

/-- A run without the collector. -/
def stepTracked (n : Nat) (u : Int) (f : String) (s : Tracked) (t : Txn) : Option Tracked :=
  if t.collects then none else some ⟨t.apply n s.db, trackLast u f s t⟩

/-- The last commit of the name is what `GetDownloadPlan` answers. -/
def LastReads (u : Int) (f : String) (s : Tracked) : Prop :=
  ∀ size hashes, s.last = some (size, hashes) → ReadsAs s.db u f size hashes

/-- A successful commit whose name fits its column, whose array literal reads back, whose hashes have
`chunks` rows, and whose name has no row but empty files of the same size. -/
def CommitReadable (s : Tracked) : Txn → Prop
  | .commitFile u f size hashes => (commitFile s.db u f size hashes).isOk →
      f.length ≤ 255 ∧ ReadsBack hashes ∧ (∀ h ∈ hashes, (s.db.chunks.get? h).isSome) ∧
        ∀ e ∈ s.db.files.select (isFile u f), e.2.size = size ∧ e.2.chunks = []
  | _ => True

instance (s : Tracked) : (t : Txn) → Decidable (CommitReadable s t)
  | .commitFile u f size hashes => inferInstanceAs (Decidable ((commitFile s.db u f size hashes).isOk → _ ∧ _))
  | .createUser .. | .registerWorker .. | .filterMissingChunks _ | .deleteFile .. | .getOrphanedChunks .. |
  .deleteChunkRecordsBulk _ | .revertTombstone _ | .addCluster .. | .replaceCluster .. | .tick _ => .isTrue trivial

/-- The last commit of the name is its only row, and its chunks are there. -/
structure ReadInv (u : Int) (f : String) (s : Tracked) : Prop where
  placed : Placed s.db
  last : ∀ size hashes, s.last = some (size, hashes) →
    OneFile s.db u f size hashes ∧ ∀ h ∈ hashes, (s.db.chunks.get? h).isSome

theorem readInv_init (u : Int) (f : String) : ReadInv u f .init where
  placed h r hr := by cases hr
  last size hashes hl := by cases hl

/-- Without the collector no `chunks` row goes, and each keeps naming a worker that exists. -/
theorem StoreStep.placed {n : Nat} {db db' : Store} {t : Txn} (h : StoreStep n db t db') (hg : t.collects = false)
    (hi : Placed db) : Placed db' ∧ ∀ k, (db.chunks.get? k).isSome → (db'.chunks.get? k).isSome := by
  cases h with
  | quiet h =>
    refine ⟨fun k r hr => ?_, fun k hk => by rw [h.chunks]; exact hk⟩
    rw [h.chunks] at hr
    obtain ⟨id, hid, hw⟩ := nodeData_isSome.1 (hi k r hr)
    obtain ⟨w, hw⟩ := Option.isSome_iff_exists.1 hw
    obtain ⟨w', hw', -⟩ := h.workers id w hw
    exact nodeData_isSome.2 ⟨id, hid, by rw [hw']; rfl⟩
  | filter h =>
    have heff := filterMissingChunks_effect h
    refine ⟨fun k r hr => ?_, fun k hk => ?_⟩
    · rw [heff.nodeData]
      cases hk : db.chunks.get? k with
      | none => exact (heff.fresh k r hk hr).2.2
      | some r₀ =>
        obtain ⟨t, ht, -⟩ := heff.kept k r₀ hk
        rw [hr, Option.some.injEq] at ht
        subst ht
        exact hi k r₀ hk
    · obtain ⟨r, hr⟩ := Option.isSome_iff_exists.1 hk
      obtain ⟨t, ht, -⟩ := heff.kept k r hr
      rw [ht]
      rfl
  | commit h =>
    refine ⟨fun k r hr => ?_, fun k hk => by rw [h.get?_chunks, Option.isSome_map]; exact hk⟩
    rw [h.get?_chunks, Option.map_eq_some_iff] at hr
    obtain ⟨r₀, hr₀, rfl⟩ := hr
    obtain ⟨-, -, arr, name, -, -, rfl⟩ := h
    exact hi k r₀ hr₀
  | delete hfirst h =>
    refine ⟨fun k r hr => ?_, fun k hk => by rw [h.get?_chunks, Option.isSome_map]; exact hk⟩
    rw [h.get?_chunks, Option.map_eq_some_iff] at hr
    obtain ⟨r₀, hr₀, rfl⟩ := hr
    have hsame : nodeData db' = nodeData db := by rw [h.effect]; rfl
    rw [hsame]
    split
    · exact hi k r₀ hr₀
    · exact hi k r₀ hr₀
  | claim => cases hg
  | purge => cases hg
  | revert => cases hg

/-- Rows of the name stay as they are under every transaction that is no commit or deletion of it. -/
theorem OneFile.keep {db db' : Store} {u : Int} {f : String} {size : Int} {hashes : List String}
    (h : OneFile db u f size hashes)
    (hsame : ∀ id r, r.userId = u → r.filename = f → (db'.files.get? id = some r ↔ db.files.get? id = some r)) :
    OneFile db' u f size hashes := by
  obtain ⟨id₀, hrow, hall⟩ := h
  exact ⟨id₀, (hsame id₀ _ rfl rfl).2 hrow, fun id r hr hu hf => hall id r ((hsame id r hu hf).1 hr) hu hf⟩

theorem OneFile.commit {db db' : Store} {u u' : Int} {f f' : String} {size size' : Int} {hashes hs : List String}
    (h : OneFile db u f size hashes) (heff : CommitEffect db u' f' size' hs db') (hrb : ReadsBack hs)
    (hfit : f'.length ≤ 255) (hne : (u', f') ≠ (u, f)) : OneFile db' u f size hashes := by
  obtain ⟨name, hname, hfiles⟩ := heff.files hrb
  rw [varchar_of_le hfit, Option.some.injEq] at hname
  subst hname
  refine h.keep fun id r hu hf => ?_
  rw [hfiles, Table.get?_insertNew]
  split
  · rename_i hid
    subst hid
    rw [heff.fresh]
    refine iff_of_false (fun hr => ?_) (by simp)
    simp only [Option.getD_none, Option.some.injEq] at hr
    subst hr
    exact hne (Prod.ext hu hf)
  · exact Iff.rfl

theorem oneFile_of_commit {db db' : Store} {u : Int} {f : String} {size : Int} {hashes : List String}
    (heff : CommitEffect db u f size hashes db') (hrb : ReadsBack hashes) (hfit : f.length ≤ 255)
    (hothers : ∀ e ∈ db.files.select (isFile u f), e.2.size = size ∧ e.2.chunks = []) :
    OneFile db' u f size hashes := by
  obtain ⟨name, hname, hfiles⟩ := heff.files hrb
  rw [varchar_of_le hfit, Option.some.injEq] at hname
  subst hname
  have hget : ∀ id, db'.files.get? id =
      if id = db.fileSeq then some ⟨u, f, size, hashes.map some⟩ else db.files.get? id := by
    intro id
    rw [hfiles, Table.get?_insertNew, heff.fresh]
    rfl
  refine ⟨db.fileSeq, by rw [hget, if_pos rfl], fun id r hr hu hf => ?_⟩
  rw [hget] at hr
  split at hr
  · rename_i hid
    cases hr
    exact ⟨rfl, fun hne => absurd hid hne⟩
  · obtain ⟨hsize, hempty⟩ := hothers (id, r) (Table.mem_select.2 ⟨hr, isFile_iff.2 ⟨hu, hf⟩⟩)
    exact ⟨hsize, fun _ => hempty⟩

/-- **One transaction** keeps the invariant if it is no unreadable commit. -/
theorem ReadInv.step {n : Nat} {u : Int} {f : String} {s s' : Tracked} {t : Txn} (hi : ReadInv u f s)
    (hc : CommitReadable s t) (h : stepTracked n u f s t = some s') : ReadInv u f s' := by
  unfold stepTracked at h
  split at h
  · cases h
  rename_i hg
  have hg' : t.collects = false := by simpa using hg
  cases h
  have hstep := t.storeStep n s.db
  obtain ⟨hplaced, hrows⟩ := hstep.placed hg' hi.placed
  refine ⟨hplaced, fun size hashes hl => ?_⟩
  by_cases hcount : t.counts = true
  · cases t with
    | commitFile u' f' size' hs =>
      simp only [trackLast] at hl
      cases hok : commitFile s.db u' f' size' hs with
      | error e =>
        have hsame : (Txn.commitFile u' f' size' hs).apply n s.db = s.db := by simp only [Txn.apply, hok]; rfl
        rw [hok, if_neg (by simp [Except.isOk, Except.toBool])] at hl
        rw [hsame]
        exact hi.last size hashes hl
      | ok db' =>
        have hdb : (Txn.commitFile u' f' size' hs).apply n s.db = db' := by simp only [Txn.apply, hok]; rfl
        have heff := commitFile_ok.1 hok
        obtain ⟨hfit, hrb, hreg, hothers⟩ := hc heff.isOk
        rw [hdb] at hrows ⊢
        by_cases hname : (u', f') = (u, f)
        · rw [if_pos ⟨hname, heff.isOk⟩, Option.some.injEq, Prod.mk.injEq] at hl
          obtain ⟨rfl, rfl⟩ := hl
          obtain ⟨rfl, rfl⟩ := Prod.mk.inj hname
          exact ⟨oneFile_of_commit heff hrb hfit hothers, fun k hk => hrows k (hreg k hk)⟩
        · rw [if_neg fun h => hname h.1] at hl
          obtain ⟨hone, hreg'⟩ := hi.last size hashes hl
          exact ⟨hone.commit heff hrb hfit hname, fun k hk => hrows k (hreg' k hk)⟩
    | deleteFile order u' f' =>
      simp only [trackLast] at hl
      split at hl
      · cases hl
      · rename_i hname
        obtain ⟨hone, hreg⟩ := hi.last size hashes hl
        refine ⟨hone.keep fun id r hu hf => ?_, fun k hk => hrows k (hreg k hk)⟩
        simp only [Txn.apply]
        rcases deleteFile_cases order s.db u' f' with ⟨-, h⟩ | ⟨first, db', -, h, heff⟩
        · rw [h]
        · rw [h, heff.get?_files, Option.filter_eq_some_iff]
          refine and_iff_left_of_imp fun _ => ?_
          simp only [Bool.not_eq_true', Bool.eq_false_iff, ne_eq, isFile_iff]
          rintro ⟨hu', hf'⟩
          exact hname (Prod.ext (hu'.symm.trans hu) (hf'.symm.trans hf))
    | _ => cases hcount
  · have hcount' : t.counts = false := by simpa using hcount
    have hlast : trackLast u f s t = s.last := by cases t <;> first | rfl | cases hcount'
    obtain ⟨hone, hreg⟩ := hi.last size hashes (hlast ▸ hl)
    refine ⟨hone.keep fun id r _ _ => ?_, fun k hk => hrows k (hreg k hk)⟩
    rw [hstep.files_other hcount']

theorem ReadInv.lastReads {u : Int} {f : String} {s : Tracked} (hi : ReadInv u f s) : LastReads u f s := by
  intro size hashes hl
  obtain ⟨hone, hreg⟩ := hi.last size hashes hl
  exact getDownloadPlan_spec hone hreg hi.placed

/-- **Commit, then read back.** In a run whose commits are all readable, `GetDownloadPlan` answers in every
state with the last commit of the name. -/
theorem commit_read_back (n : Nat) (u : Int) (f : String) (txns : List Txn)
    (hc : EachStep (stepTracked n u f) CommitReadable .init txns) :
    Always (stepTracked n u f) (LastReads u f) .init txns := by
  refine always_iff_prefix.2 fun pre s hpre hs => ReadInv.lastReads ?_
  obtain ⟨rest, rfl⟩ := hpre
  exact EachStep.inv (fun _ _ _ hi hcs hst => hi.step hcs hst) (EachStep.append.1 hc).1 (readInv_init u f) hs

/-- A file with a repeated chunk; another user shares the chunk. -/
def uploadAndRead : List Txn := sampleSetup ++
  [.filterMissingChunks [sampleHash], .commitFile 1 "a" 2097152 [sampleHash, sampleHash],
   .commitFile 2 "a" 1048576 [sampleHash], .deleteFile [] 2 "a"]

theorem uploadAndRead_reads : Always (stepTracked 4 1 "a") (LastReads 1 "a") .init uploadAndRead :=
  commit_read_back 4 1 "a" uploadAndRead (by decide +kernel)

/-- A name committed twice. -/
def committedTwice : List Txn := sampleSetup ++
  [.filterMissingChunks [sampleHash], .commitFile 1 "a" 10 [sampleHash], .commitFile 1 "a" 20 [sampleHash]]

/-- The plan lists the chunk of both rows. -/
theorem committedTwice_misread : ¬ Always (stepTracked 4 1 "a") (LastReads 1 "a") .init committedTwice := by
  intro h
  have hfacts : ((exec (stepTracked 4 1 "a") .init committedTwice).map fun s =>
      (s.last, (getDownloadPlan [] [] s.db 1 "a").toOption.map fun m => m.plans.length)) =
      some (some (20, [sampleHash]), some 2) := by decide +kernel
  obtain ⟨s, hs, he⟩ := Option.map_eq_some_iff.1 hfacts
  rw [Prod.mk.injEq] at he
  obtain ⟨plans, hplan, hhashes, -⟩ := always_iff_prefix.1 h _ s (List.prefix_refl _) hs 20 [sampleHash] he.1 [] []
  have hlen := congrArg List.length hhashes
  have htwo := he.2
  rw [hplan] at htwo
  simp only [Except.toOption, Option.map_some, Option.some.injEq] at htwo
  rw [List.length_map, htwo] at hlen
  cases hlen

end StorageEngine
