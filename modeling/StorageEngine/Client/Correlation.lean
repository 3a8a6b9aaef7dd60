import StorageEngine.Client.Upload
import StorageEngine.Metadata.ShardMap

/-!
# Which chunks a plan list makes pending

`FilterMissingChunks` answers hash after hash, and the row it makes for the first of two equal hashes is met by the
second (`PostgresRepository.hpp:187-249`); the client walks its list beside the answer and moves on in the answer only
where the hashes agree (`DSEClient.cpp:184-198`). The two never drift apart: the answer is the list filtered, and the
walk takes it up completely (`plan_correlation`).
-/

namespace StorageEngine

/-- The plans from `plan_idx` on when the loop of `correlate` ends. -/
def unmatchedPlans : List String → List ChunkRoutingPlan → List ChunkRoutingPlan
  | h :: hs, p :: ps => if h = p.hash then unmatchedPlans hs ps else unmatchedPlans hs (p :: ps)
  | _, ps => ps

/-- The index's hash is missing and its chunk is not completed. -/
def pendingAt (missing : String → Bool) (hashes : List String) (completed : List Bool) (i : Nat) : Bool :=
  (hashes[i]?).any missing && completed[i]? == some false

/-! ## The walk beside a filtered list -/

section

variable {missing : String → Bool}

/-- A hash that is not missing comes before every plan. -/
theorem hash_ne_of_filter {h : String} {hs : List String} {ps : List ChunkRoutingPlan}
    (hps : ps.map ChunkRoutingPlan.hash = hs.filter missing) (hh : missing h = false) : ∀ p ∈ ps, h ≠ p.hash := by
  rintro p hp rfl
  have hin : p.hash ∈ hs.filter missing := by
    rw [← hps]
    exact List.mem_map_of_mem hp
  rw [(List.mem_filter.1 hin).2] at hh
  cases hh

theorem correlate_skip {i : Nat} {h : String} {hs : List String} {c : Bool} {cs : List Bool} {ps : List ChunkRoutingPlan}
    (hne : ∀ p ∈ ps, h ≠ p.hash) : correlate i (h :: hs) (c :: cs) ps = correlate (i + 1) hs cs ps := by
  cases ps with
  | nil => cases hs <;> cases cs <;> rfl
  | cons p ps => rw [correlate, if_neg (hne p List.mem_cons_self)]

theorem unmatchedPlans_filter {hs : List String} {ps : List ChunkRoutingPlan}
    (hps : ps.map ChunkRoutingPlan.hash = hs.filter missing) : unmatchedPlans hs ps = [] := by
  induction hs generalizing ps with
  | nil => simpa [unmatchedPlans] using hps
  | cons h hs ih =>
    by_cases hh : missing h = true
    · rw [List.filter_cons_of_pos hh] at hps
      obtain ⟨p, ps, rfl, rfl, htail⟩ := List.map_eq_cons_iff.1 hps
      rw [unmatchedPlans, if_pos rfl]
      exact ih htail
    · rw [List.filter_cons_of_neg hh] at hps
      have hne := hash_ne_of_filter hps (by simpa using hh)
      cases ps with
      | nil => rfl
      | cons p ps =>
        rw [unmatchedPlans, if_neg (hne p List.mem_cons_self)]
        exact ih hps

/-- Going on from the second hash. -/
theorem filter_pendingAt_cons (h : String) (hs : List String) (c : Bool) (cs : List Bool) (i : Nat) :
    ((List.range (h :: hs).length).filter (pendingAt missing (h :: hs) (c :: cs))).map (i + ·) =
      (if missing h && c == false then [i] else []) ++
        ((List.range hs.length).filter (pendingAt missing hs cs)).map (i + 1 + ·) := by
  have hzero : pendingAt missing (h :: hs) (c :: cs) 0 = (missing h && c == false) := by
    cases c <;> simp [pendingAt]
  have hsucc : ((List.range hs.length).map Nat.succ).filter (pendingAt missing (h :: hs) (c :: cs)) =
      ((List.range hs.length).filter (pendingAt missing hs cs)).map Nat.succ := by
    rw [List.filter_map]
    rfl
  rw [List.length_cons, List.range_succ_eq_map, List.filter_cons, hzero, hsucc]
  have hshift : (((List.range hs.length).filter (pendingAt missing hs cs)).map Nat.succ).map (i + ·) =
      ((List.range hs.length).filter (pendingAt missing hs cs)).map (i + 1 + ·) := by
    rw [List.map_map]
    refine List.map_congr_left fun k _ => ?_
    simp only [Function.comp_apply]
    omega
  split
  · rw [List.map_cons, hshift]
    rfl
  · exact hshift

/-- **The pending indices** are those of the missing hashes whose chunks are not completed, in order. -/
theorem correlate_indices {hs : List String} {cs : List Bool} {ps : List ChunkRoutingPlan} (i : Nat)
    (hlen : cs.length = hs.length) (hps : ps.map ChunkRoutingPlan.hash = hs.filter missing) :
    (correlate i hs cs ps).map Prod.fst = ((List.range hs.length).filter (pendingAt missing hs cs)).map (i + ·) := by
  induction hs generalizing i cs ps with
  | nil => rfl
  | cons h hs ih =>
    cases cs with
    | nil => cases hlen
    | cons c cs =>
      have hlen' : cs.length = hs.length := Nat.succ.inj hlen
      rw [filter_pendingAt_cons]
      by_cases hh : missing h = true
      · rw [List.filter_cons_of_pos hh] at hps
        obtain ⟨p, ps, rfl, rfl, htail⟩ := List.map_eq_cons_iff.1 hps
        rw [correlate, if_pos rfl, List.map_append, ih (i + 1) hlen' htail, hh]
        cases c <;> rfl
      · rw [List.filter_cons_of_neg hh] at hps
        rw [Bool.not_eq_true] at hh
        rw [correlate_skip (hash_ne_of_filter hps hh), ih (i + 1) hlen' hps, hh]
        rfl

end

/-- **Plan correlation is exact.** A list without tombstones is answered where it is routed and fits its column; the
plans are the list's missing hashes, and beside them the client finds all of them and makes pending exactly the missing
chunks that are not completed, each with a plan for its hash. -/
theorem plan_correlation {n : Nat} {db : Store} {hashes : List String}
    (hlocked : ∀ h ∈ hashes, ∀ r, db.chunks.get? h = some r → r.refCount ≠ -1) {completed : List Bool}
    (hlen : completed.length = hashes.length) :
    (0 < n → Routed n db → (∀ h ∈ hashes, varchar 64 h ≠ none) →
      ∃ db' plans, filterMissingChunks n db hashes = .ok (db', plans)) ∧
    ∀ db' plans, filterMissingChunks n db hashes = .ok (db', plans) →
      plans.map ChunkRoutingPlan.hash = hashes.filter (isMissing db) ∧
      unmatchedPlans hashes plans = [] ∧
      (correlate 0 hashes completed plans).map Prod.fst =
        (List.range hashes.length).filter (pendingAt (isMissing db) hashes completed) ∧
      ∀ e ∈ correlate 0 hashes completed plans, hashes[e.1]? = some e.2.hash ∧ e.2 ∈ plans := by
  constructor
  · intro hn hrouted hfits
    cases hres : filterMissingChunks n db hashes with
    | ok res => exact ⟨res.1, res.2, rfl⟩
    | error e =>
      rcases hrouted.filterMissingChunks hn hres with ⟨-, h, hin, r, hr, htombstone⟩ | ⟨-, h, hin, hlong⟩
      · exact absurd htombstone (hlocked h hin r hr)
      · exact absurd hlong (hfits h hin)
  · intro db' plans hok
    have hplans := (filterMissingChunks_plans hok).1
    refine ⟨hplans, unmatchedPlans_filter hplans, ?_, fun e he => ?_⟩
    · rw [correlate_indices 0 hlen hplans]
      simp
    · obtain ⟨k, hk, hhash, -, hplan⟩ := mem_correlate he
      rw [Nat.zero_add] at hk
      exact ⟨hk ▸ hhash, hplan⟩

/-- A store that has the chunk `"k"`. -/
def storeOfOne : Store :=
  run 4 .empty [.createUser "ann" "p" "s", .registerWorker "worker1" 9081 "localhost" 9081 0, .addCluster [] "hot" [1],
    .filterMissingChunks ["k"], .commitFile 1 "f" 1 ["k"]]

/-- A chunk twice, one of its two indices completed. -/
theorem plan_correlation_repeated :
    (0 < 4 → Routed 4 storeOfOne → (∀ h ∈ ["a", "k", "a", "b"], varchar 64 h ≠ none) →
      ∃ db' plans, filterMissingChunks 4 storeOfOne ["a", "k", "a", "b"] = .ok (db', plans)) ∧
    ∀ db' plans, filterMissingChunks 4 storeOfOne ["a", "k", "a", "b"] = .ok (db', plans) →
      plans.map ChunkRoutingPlan.hash = ["a", "k", "a", "b"].filter (isMissing storeOfOne) ∧
      unmatchedPlans ["a", "k", "a", "b"] plans = [] ∧
      (correlate 0 ["a", "k", "a", "b"] [true, false, false, false] plans).map Prod.fst =
        (List.range 4).filter (pendingAt (isMissing storeOfOne) ["a", "k", "a", "b"] [true, false, false, false]) ∧
      ∀ e ∈ correlate 0 ["a", "k", "a", "b"] [true, false, false, false] plans,
        ["a", "k", "a", "b"][e.1]? = some e.2.hash ∧ e.2 ∈ plans := by
  refine plan_correlation ?_ rfl
  have hall : ["a", "k", "a", "b"].all (fun h => (storeOfOne.chunks.get? h).all fun r => r.refCount != -1) = true := by
    decide +kernel
  intro h hh r hr
  have hrow := List.all_eq_true.1 hall h hh
  rw [hr] at hrow
  simpa using hrow

end StorageEngine
