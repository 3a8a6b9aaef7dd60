import Mathlib.Logic.Function.Basic
import StorageEngine.Gc.Daemon
import StorageEngine.Metadata.References

/-!
# The grace period

The collector claims a row only 24 hours after `created_at`, and `FilterMissingChunks` writes
`created_at`; so a client has 24 hours from its upload-init to its commit. The resume check of
`DSEClient::UploadFile` is a second rule about the same period, measured in whole seconds from the start
of the session.

| here | there |
| --- | --- |
| `wholeSeconds`                | `duration_cast<seconds>(system_clock::now()…)` (`DSEClient.cpp:93-95`) |
| `Session`, `start`, `finish`  | the manifest and the log: `SaveUploadManifest` (`:164`), `DeleteUploadManifest` (`:242`) |
| `check`                       | resume detection (`:101-128`) |
| `init`                        | `InitializeUpload` (`:176`), `FilterMissingChunks` on the master |
| `store`                       | a worker's `200` and the index in the log |

All clocks are one, `db.now`. `Session.claimed` and the log of inits only record what happened.
-/

namespace StorageEngine

open Relational Transition RefCount

def wholeSeconds (t : Nat) : Nat := t / 1000000

/-- The resume check: `current_sys_time - session_timestamp > 82800` discards the session. -/
def gcExpired (now : Nat) (sessionTimestamp : Nat) : Bool := wholeSeconds now > sessionTimestamp + 82800

structure Session where
  chunkHashes : List String
  /-- `session_timestamp`. -/
  timestamp : Nat
  /-- When the resume check of the running attempt passed; `none` in the first attempt. -/
  checkedAt : Option Nat
  /-- The attempt's upload-init has succeeded. -/
  ready : Bool
  /-- Hashes stored and logged as completed since the session began. -/
  uploaded : List String
  /-- Those of them the collector has claimed after that. -/
  claimed : List String
deriving DecidableEq, Repr

/-- The database, and the uploads in the eyes of their clients. -/
structure Uploads (κ : Type) where
  db : Store
  /-- The upload-inits that succeeded: who, which list, when. -/
  inits : List (κ × List String × Nat)
  session : κ → Option Session

def Uploads.init (κ : Type) : Uploads κ := ⟨.empty, [], fun _ => none⟩

/-- One step of a client, or another transaction. -/
inductive UploadStep (κ : Type) where
  /-- Any other request, or time passing. -/
  | other (t : Txn)
  /-- A transaction of a collector. -/
  | gc (t : Txn)
  | start (c : κ) (hashes : List String)
  | check (c : κ)
  | init (c : κ) (hashes : List String)
  | store (c : κ) (hash : String)
  | commit (c : κ) (userId : Int) (filename : String) (fileSize : Int) (hashes : List String)
  | finish (c : κ)
deriving DecidableEq

/-- The hashes a collector's transaction claims. -/
def claimedBy (db : Store) : Txn → List String
  | .getOrphanedChunks order none expiryHours limit => orphanHashes order db expiryHours limit
  | _ => []

/-- A collector's transactions; the claim is made with the daemon's expiry. -/
def Txn.isSweep : Txn → Bool
  | .getOrphanedChunks _ _ expiry _ => expiry == expiryHours
  | .deleteChunkRecordsBulk _ | .revertTombstone _ => true
  | _ => false

/-- Neither a collector's transaction nor an upload-init nor a commit. -/
def Txn.isOther : Txn → Bool
  | .filterMissingChunks _ | .commitFile .. => false
  | t => !t.collects

/-- Uploaded chunks that a collector has claimed. -/
def Session.noteClaims (claims : List String) (x : Session) : Session :=
  { x with claimed := x.claimed ++ claims.filter (x.uploaded.contains ·) }

variable {κ : Type} [DecidableEq κ]

/-- `none` where the client or the collector would not take the step: an init or a commit of something
that is no digest, a commit whose client's last init of the list is more than 24 hours old, a chunk sent
before the attempt's init. -/
def stepUploads (n : Nat) (s : Uploads κ) : UploadStep κ → Option (Uploads κ)
  | .other t => if t.isOther then some { s with db := t.apply n s.db } else none
  | .gc t =>
    if t.isSweep then
      some { s with db := t.apply n s.db
                    session := fun c => (s.session c).map (Session.noteClaims (claimedBy s.db t)) }
    else none
  | .start c hashes =>
    some { s with session := Function.update s.session c (some ⟨hashes, wholeSeconds s.db.now, none, false, [], []⟩) }
  | .check c =>
    match s.session c with
    | some x =>
      let x' := if gcExpired s.db.now x.timestamp then none
        else some { x with checkedAt := some s.db.now, ready := false }
      some { s with session := Function.update s.session c x' }
    | none => none
  | .init c hashes =>
    if ∀ h ∈ hashes, HexDigest h then
      match filterMissingChunks n s.db hashes with
      | .error _ => some s
      | .ok (db, _) =>
        some ⟨db, (c, hashes, s.db.now) :: s.inits, Function.update s.session c ((s.session c).map fun x =>
          if x.chunkHashes = hashes then { x with ready := true } else x)⟩
    else none
  | .store c hash =>
    match s.session c with
    | some x =>
      if x.ready ∧ hash ∈ x.chunkHashes then
        some { s with session := Function.update s.session c (some { x with uploaded := hash :: x.uploaded }) }
      else none
    | none => none
  | .commit c u f size hashes =>
    if ∃ e ∈ s.inits, e.1 = c ∧ e.2.1 = hashes ∧ s.db.now ≤ e.2.2 + hours 24 then
      some { s with db := (Txn.commitFile u f size hashes).apply n s.db }
    else none
  | .finish c => some { s with session := Function.update s.session c none }

/-! ## The claim about inits -/

/-- The rows of an init's list are there, live, and not older than the init. -/
def Fresh (db : Store) (hashes : List String) (t : Nat) : Prop :=
  ∀ h ∈ hashes, ∃ r, db.chunks.get? h = some r ∧ 0 ≤ r.refCount ∧ t ≤ r.createdAt

/-- No count is below `-1`. -/
def Floored (db : Store) : Prop := ∀ h m, counter db h = some m → -1 ≤ m

/-- Within 24 hours of a successful upload-init its hashes have rows and none is a tombstone. -/
def InitsSafe (s : Uploads κ) : Prop :=
  ∀ e ∈ s.inits, s.db.now ≤ e.2.2 + hours 24 → ∀ h ∈ e.2.1, ∃ r, s.db.chunks.get? h = some r ∧ r.refCount ≠ -1

/-- A resumed attempt whose init succeeds within `window` of the check skips nothing the collector has
claimed since it was stored. -/
def ResumesSafe (window : Nat) (s : Uploads κ) : Prop :=
  ∀ c x t, s.session c = some x → x.checkedAt = some t → x.ready = true → s.db.now ≤ t + window → x.claimed = []

theorem Counted.one_le {db : Store} {h : String} {m : Int} (hi : Counted db) (href : 0 < references db h)
    (hm : counter db h = some m) : 1 ≤ m := by
  obtain ⟨k, hk, hpos⟩ := (hi h).pos href
  rw [hm, Option.some.injEq] at hk
  omega

/-- What a transaction of the run does to counters: `Counted`, and the floor. -/
theorem StoreStep.floored {n : Nat} {db db' : Store} {t : Txn} (h : StoreStep n db t db') (hi : Counted db)
    (hf : Floored db) : Floored db' := by
  intro k m hm
  cases h with
  | quiet h => unfold counter at hm; rw [h.chunks] at hm; exact hf k m hm
  | filter h =>
    rcases (filterMissingChunks_effect h).counter k with he | ⟨-, hz⟩
    · exact hf k m (he ▸ hm)
    · rw [hz, Option.some.injEq] at hm; omega
  | commit h =>
    rw [h.counter, Option.map_eq_some_iff] at hm
    obtain ⟨m', hm', rfl⟩ := hm
    have hge := hf k m' hm'
    omega
  | @delete order u f first _ hfirst h =>
    rw [h.counter, Option.map_eq_some_iff] at hm
    obtain ⟨m', hm', rfl⟩ := hm
    have hge := hf k m' hm'
    by_cases hk : some k ∈ first.chunks
    · -- the row that is read refers to the hash, so its count is above zero
      have hle := h.count_first_le k
      have hsplit := h.references k
      have hone := List.count_pos_iff.2 hk
      have hpos := hi.one_le (by omega) hm'
      rw [if_pos hk]
      omega
    · rw [if_neg hk]
      exact hge
  | claim =>
    rw [counter_claimChunks] at hm
    split at hm
    · rename_i hk
      rw [counter_orphan hk, Option.map_some, Option.some.injEq] at hm
      omega
    · exact hf k m hm
  | purge =>
    rw [counter_deleteChunkRecordsBulk] at hm
    split at hm
    · cases hm
    · exact hf k m hm
  | revert =>
    rw [counter_revertTombstone] at hm
    split at hm
    · cases hm; decide
    · exact hf k m hm

/-- **A transaction keeps the rows of an init fresh** while its 24 hours run. -/
theorem StoreStep.fresh {n : Nat} {db db' : Store} {t : Txn} (h : StoreStep n db t db') (hi : Counted db)
    (hexp : ∀ order fault expiry limit, t = .getOrphanedChunks order fault expiry limit → expiry = expiryHours)
    {hashes : List String} {t₀ : Nat} (hpast : t₀ ≤ db.now) (hnow : db'.now ≤ t₀ + hours 24)
    (hfresh : Fresh db hashes t₀) : Fresh db' hashes t₀ := by
  intro k hk
  obtain ⟨r, hr, hpos, hage⟩ := hfresh k hk
  cases h with
  | quiet h => exact ⟨r, by rw [h.chunks]; exact hr, hpos, hage⟩
  | filter h =>
    obtain ⟨t, ht, hor⟩ := (filterMissingChunks_effect h).kept k r hr
    refine ⟨_, ht, hpos, ?_⟩
    rcases hor with rfl | rfl
    · exact hage
    · exact hpast
  | @commit u f s hs _ h =>
    refine ⟨_, by rw [h.get?_chunks, hr]; rfl, by simp only; omega, ?_⟩
    show t₀ ≤ if k ∈ hs then db.now else r.createdAt
    split
    · exact hpast
    · exact hage
  | @delete order u f first _ hfirst h =>
    have hrow := h.get?_chunks k
    rw [hr, Option.map_some] at hrow
    by_cases hm : some k ∈ first.chunks
    · have hle := h.count_first_le k
      have hsplit := h.references k
      have hone := List.count_pos_iff.2 hm
      have hge := hi.one_le (by omega) (counter_eq_some.2 ⟨r, hr, rfl⟩)
      rw [if_pos hm] at hrow
      exact ⟨_, hrow, by simp only; omega, hage⟩
    · rw [if_neg hm] at hrow
      exact ⟨r, hrow, hpos, hage⟩
  | @claim order expiry limit =>
    obtain rfl := hexp _ _ _ _ rfl
    refine ⟨r, ?_, hpos, hage⟩
    rw [get?_claimChunks, hr, Option.map_some, if_neg]
    intro hm
    obtain ⟨r', hr', -, hold⟩ := mem_orphanHashes hm
    obtain rfl : r = r' := Option.some.inj (hr.symm.trans hr')
    have hle : db.now ≤ t₀ + hours 24 := hnow
    have hgt : r.createdAt + hours 24 < db.now := hold
    omega
  | purge =>
    refine ⟨r, ?_, hpos, hage⟩
    rw [get?_deleteChunkRecordsBulk, hr, Option.filter_some, if_pos]
    have hne : r.refCount ≠ -1 := by omega
    simp [hne]
  | @revert hash =>
    have hne : ¬ (k = hash ∧ r.refCount = -1) := by omega
    exact ⟨r, by rw [get?_revertTombstone, hr, Option.map_some, if_neg hne], hpos, hage⟩

/-! ## The invariant -/

/-- What the timestamp of a session promises. -/
structure SessionOk (now : Nat) (inits : List (κ × List String × Nat)) (c : κ) (x : Session) : Prop where
  started : seconds x.timestamp ≤ now
  /-- Nothing is stored before an init of the session. -/
  inited : x.ready = true ∨ x.uploaded ≠ [] → ∃ t, (c, x.chunkHashes, t) ∈ inits ∧ seconds x.timestamp ≤ t
  listed : ∀ h ∈ x.uploaded, h ∈ x.chunkHashes
  claimed : x.claimed ≠ [] → seconds x.timestamp + hours 24 < now
  checked : ∀ t, x.checkedAt = some t → t < seconds (x.timestamp + 82801)

/-- Rows of a recent init are fresh; sessions keep their promises. -/
structure GraceInv (s : Uploads κ) : Prop where
  counted : Counted s.db
  floored : Floored s.db
  past : ∀ e ∈ s.inits, e.2.2 ≤ s.db.now ∧ ∀ h ∈ e.2.1, HexDigest h
  fresh : ∀ e ∈ s.inits, s.db.now ≤ e.2.2 + hours 24 → Fresh s.db e.2.1 e.2.2
  sessions : ∀ c x, s.session c = some x → SessionOk s.db.now s.inits c x

omit [DecidableEq κ] in
theorem graceInv_init : GraceInv (Uploads.init κ) where
  counted := counted_empty
  floored h m hm := by cases hm
  past e he := by cases he
  fresh e he := by cases he
  sessions c x hx := by cases hx

omit [DecidableEq κ] in
/-- A transaction of the run keeps what the invariant says about the store and the inits. -/
theorem GraceInv.transact {n : Nat} {s : Uploads κ} {t : Txn} {session : κ → Option Session} (hi : GraceInv s)
    (hc : CommitCounted s.db t)
    (hexp : ∀ order fault expiry limit, t = .getOrphanedChunks order fault expiry limit → expiry = expiryHours)
    (hs : ∀ c x, session c = some x → SessionOk (t.apply n s.db).now s.inits c x) :
    GraceInv ⟨t.apply n s.db, s.inits, session⟩ := by
  have hstep := t.storeStep n s.db
  have hle := hstep.now_le
  refine ⟨hstep.counted hc hi.counted, hstep.floored hi.counted hi.floored, ?_, ?_, hs⟩
  · intro e he
    exact ⟨Nat.le_trans (hi.past e he).1 hle, (hi.past e he).2⟩
  · intro e he hnow
    exact hstep.fresh hi.counted hexp (hi.past e he).1 hnow (hi.fresh e he (Nat.le_trans hle hnow))

omit [DecidableEq κ] in
/-- Sessions change, the store does not. -/
theorem GraceInv.sessions_only {s : Uploads κ} {session : κ → Option Session} (hi : GraceInv s)
    (hs : ∀ c x, session c = some x → SessionOk s.db.now s.inits c x) : GraceInv { s with session := session } :=
  ⟨hi.counted, hi.floored, hi.past, hi.fresh, hs⟩

/-- One client's session is replaced. -/
theorem GraceInv.update {s : Uploads κ} {c : κ} {y : Option Session} (hi : GraceInv s)
    (hy : ∀ x, y = some x → SessionOk s.db.now s.inits c x) :
    GraceInv { s with session := Function.update s.session c y } := by
  refine hi.sessions_only fun d x hx => ?_
  rw [Function.update_apply] at hx
  split at hx
  · rename_i hd; subst hd; exact hy x hx
  · exact hi.sessions d x hx

omit [DecidableEq κ] in
theorem SessionOk.later {now now' : Nat} {inits inits' : List (κ × List String × Nat)} {c : κ} {x : Session}
    (h : SessionOk now inits c x) (hnow : now ≤ now') (hinits : inits ⊆ inits') : SessionOk now' inits' c x where
  started := Nat.le_trans h.started hnow
  inited hx := by
    obtain ⟨t, ht, hle⟩ := h.inited hx
    exact ⟨t, hinits ht, hle⟩
  listed := h.listed
  claimed hx := Nat.lt_of_lt_of_le (h.claimed hx) hnow
  checked := h.checked

omit [DecidableEq κ] in
/-- The collector claims nothing a session has stored, unless 24 hours have passed since the session began. -/
theorem SessionOk.noteClaims {s : Uploads κ} {c : κ} {x : Session} {t : Txn} (hi : GraceInv s)
    (hx : SessionOk s.db.now s.inits c x) (ht : t.isSweep = true) :
    SessionOk s.db.now s.inits c (x.noteClaims (claimedBy s.db t)) := by
  refine ⟨hx.started, hx.inited, hx.listed, fun hne => ?_, hx.checked⟩
  by_cases hold : x.claimed = []
  · -- a claim that hits the session: the row is older than 24 hours, the init is not older than the session
    simp only [Session.noteClaims, hold, List.nil_append] at hne
    obtain ⟨k, hk⟩ := List.exists_mem_of_ne_nil _ hne
    obtain ⟨hclaim, hup⟩ := List.mem_filter.1 hk
    have hup' : k ∈ x.uploaded := by simpa using hup
    obtain ⟨t₀, hinit, hstart⟩ := hx.inited (Or.inr (List.ne_nil_of_mem hup'))
    cases t with
    | getOrphanedChunks order fault expiry limit =>
      cases fault with
      | some fault => cases hclaim
      | none =>
        obtain rfl : expiry = expiryHours := by simpa [Txn.isSweep] using ht
        obtain ⟨r, hr, -, hage⟩ := mem_orphanHashes hclaim
        have hgt : r.createdAt + hours 24 < s.db.now := hage
        show seconds x.timestamp + hours 24 < s.db.now
        by_contra hnot
        obtain ⟨r', hr', -, hfresh⟩ := hi.fresh _ hinit (by simp only; omega) k (hx.listed k hup')
        obtain rfl : r = r' := Option.some.inj (hr.symm.trans hr')
        simp only at hfresh
        omega
    | _ => cases hclaim
  · exact hx.claimed hold

/-! ## One step, and runs -/

theorem GraceInv.step {n : Nat} {s s' : Uploads κ} {a : UploadStep κ} (hi : GraceInv s)
    (h : stepUploads n s a = some s') : GraceInv s' := by
  cases a with
  | other t =>
    simp only [stepUploads] at h
    split at h
    · rename_i ht
      cases h
      have hle := (t.storeStep n s.db).now_le
      refine hi.transact ?_ ?_ fun c x hx => (hi.sessions c x hx).later hle (List.Subset.refl _)
      · cases t <;> trivial
      · rintro order fault expiry limit rfl
        cases ht
    · cases h
  | gc t =>
    simp only [stepUploads] at h
    split at h
    · rename_i ht
      cases h
      have hle := (t.storeStep n s.db).now_le
      refine hi.transact ?_ ?_ fun c x hx => ?_
      · cases t <;> trivial
      · rintro order fault expiry limit rfl
        simpa [Txn.isSweep] using ht
      · obtain ⟨y, hy, rfl⟩ := Option.map_eq_some_iff.1 hx
        exact ((hi.sessions c y hy).noteClaims hi ht).later hle (List.Subset.refl _)
    · cases h
  | start c hashes =>
    simp only [stepUploads, Option.some.injEq] at h
    subst h
    refine hi.update fun x hx => ?_
    cases hx
    exact ⟨Nat.div_mul_le_self _ _, by simp, by simp, by simp, by simp⟩
  | check c =>
    simp only [stepUploads] at h
    split at h
    · rename_i x hx
      simp only [Option.some.injEq] at h
      subst h
      have hok := hi.sessions c x hx
      refine hi.update fun y hy => ?_
      split at hy
      · cases hy
      · rename_i hexp
        cases hy
        refine ⟨hok.started, fun hor => hok.inited (hor.imp_left (by simp)), hok.listed, hok.claimed, fun t ht => ?_⟩
        cases ht
        simp only [gcExpired, wholeSeconds, gt_iff_lt, decide_eq_true_eq, Nat.not_lt] at hexp
        show s.db.now < (x.timestamp + 82801) * 1000000
        omega
    · cases h
  | init c hashes =>
    simp only [stepUploads] at h
    split at h
    · rename_i hhex
      split at h
      · cases h; exact hi
      · rename_i db plans hok
        cases h
        have heff := filterMissingChunks_effect hok
        have hstep : StoreStep n s.db (.filterMissingChunks hashes) db := .filter hok
        have hnow := heff.now
        refine ⟨hstep.counted trivial hi.counted, hstep.floored hi.counted hi.floored, ?_, ?_, ?_⟩
        · intro e he
          rw [hnow]
          rcases List.mem_cons.1 he with rfl | he
          · exact ⟨Nat.le_refl _, hhex⟩
          · exact hi.past e he
        · intro e he hle
          rcases List.mem_cons.1 he with rfl | he
          · intro k hk
            obtain ⟨r, hr, hne, hage⟩ := filterMissingChunks_refreshed hok k hk (hhex k hk).varchar
            have hge := hstep.floored hi.counted hi.floored k r.refCount (counter_eq_some.2 ⟨r, hr, rfl⟩)
            exact ⟨r, hr, by omega, Nat.le_of_eq hage.symm⟩
          · refine hstep.fresh hi.counted (fun _ _ _ _ h => by cases h) (hi.past e he).1 hle (hi.fresh e he ?_)
            rw [← hnow]
            exact hle
        · intro d y hy
          have hmono : s.inits ⊆ (c, hashes, s.db.now) :: s.inits := fun _ he => List.mem_cons_of_mem _ he
          simp only [Function.update_apply] at hy
          rw [hnow]
          split at hy
          · rename_i hd
            subst hd
            obtain ⟨x, hx, rfl⟩ := Option.map_eq_some_iff.1 hy
            have hok := (hi.sessions d x hx).later (Nat.le_refl _) hmono
            split
            · rename_i hlist
              refine ⟨hok.started, fun _ => ?_, hok.listed, hok.claimed, hok.checked⟩
              exact ⟨s.db.now, by rw [← hlist]; exact List.mem_cons_self, hok.started⟩
            · exact hok
          · exact (hi.sessions d y hy).later (Nat.le_refl _) hmono
    · cases h
  | store c hash =>
    simp only [stepUploads] at h
    split at h
    · rename_i x hx
      split at h
      · rename_i hready
        simp only [Option.some.injEq] at h
        subst h
        have hok := hi.sessions c x hx
        refine hi.update fun y hy => ?_
        cases hy
        refine ⟨hok.started, fun _ => hok.inited (Or.inl hready.1), fun k hk => ?_, hok.claimed, hok.checked⟩
        rcases List.mem_cons.1 hk with rfl | hk
        · exact hready.2
        · exact hok.listed k hk
      · cases h
    · cases h
  | commit c u f size hashes =>
    simp only [stepUploads] at h
    split at h
    · rename_i hinit
      cases h
      obtain ⟨⟨c', hs, t₀⟩, he, rfl, rfl, hnow⟩ := hinit
      have hle := ((Txn.commitFile u f size hs).storeStep n s.db).now_le
      refine hi.transact ?_ (fun _ _ _ _ h => by cases h) fun d x hx => (hi.sessions d x hx).later hle (List.Subset.refl _)
      intro _
      refine ⟨readsBack_of_hex (hi.past _ he).2, fun k hk => ?_⟩
      obtain ⟨r, hr, hpos, -⟩ := hi.fresh _ he hnow k hk
      exact ⟨r, hr, hpos⟩
    · cases h
  | finish c =>
    simp only [stepUploads, Option.some.injEq] at h
    subst h
    exact hi.update fun x hx => by cases hx

theorem graceInv_run {n : Nat} {steps : List (UploadStep κ)} {s : Uploads κ}
    (h : exec (stepUploads n) (Uploads.init κ) steps = some s) : GraceInv s :=
  exec_inv (fun _ _ _ hi hst => hi.step hst) graceInv_init h

omit [DecidableEq κ] in
theorem GraceInv.initsSafe {s : Uploads κ} (hi : GraceInv s) : InitsSafe s := by
  intro e he hnow k hk
  obtain ⟨r, hr, hpos, -⟩ := hi.fresh e he hnow k hk
  exact ⟨r, hr, by omega⟩

omit [DecidableEq κ] in
/-- A resume within 3599 s of its check is within 24 h of the whole second the session began in. -/
theorem GraceInv.resumesSafe {s : Uploads κ} (hi : GraceInv s) : ResumesSafe (seconds 3599) s := by
  intro c x t hx ht _ hnow
  have hok := hi.sessions c x hx
  by_contra hne
  have hlate : seconds x.timestamp + hours 24 < s.db.now := hok.claimed hne
  have hcheck := hok.checked t ht
  unfold hours seconds at *
  omega

/-- **Grace period.** In every state of every run the hashes of an upload-init are safe for 24 hours, and
a session resumed within 3599 seconds of its check skips nothing that was claimed. -/
theorem grace_period (n : Nat) (steps : List (UploadStep κ)) (s : Uploads κ)
    (h : exec (stepUploads n) (Uploads.init κ) steps = some s) : InitsSafe s ∧ ResumesSafe (seconds 3599) s :=
  have hi := graceInv_run h
  ⟨hi.initsSafe, hi.resumesSafe⟩

/-- A session that begins at a whole second, is initialised 0.1 s and stores its chunk 0.2 s later; `gap`
after its check at 82800.9 s a second init runs, the collector having swept at 86400.5 s. -/
def lateResume : List (UploadStep Unit) :=
  [.other (.registerWorker "worker1" 9080 "localhost" 9081 1000), .other (.addCluster [] "alpha" [1]),
   .start () [sampleHash], .other (.tick 100000), .init () [sampleHash], .other (.tick 100000),
   .store () sampleHash, .other (.tick (seconds 82800 + 700000)), .check (),
   .other (.tick (seconds 3599 + 600000)), .gc (.getOrphanedChunks [] none 24 100),
   .gc (.deleteChunkRecordsBulk [sampleHash]), .other (.tick 100000), .init () [sampleHash]]

/-- The resume is 3599.7 s after the check, and the chunk it skips is gone. -/
theorem lateResume_skips_claimed : ∃ s, exec (stepUploads 4) (Uploads.init Unit) lateResume = some s ∧
    ¬ ResumesSafe (seconds 3600) s := by
  have hfacts : ((exec (stepUploads 4) (Uploads.init Unit) lateResume).map fun s => (s.session (), s.db.now)) =
      some (some ⟨[sampleHash], 0, some 82800900000, true, [sampleHash], [sampleHash]⟩, 86400600000) := by
    decide +kernel
  obtain ⟨s, hs, he⟩ := Option.map_eq_some_iff.1 hfacts
  rw [Prod.mk.injEq] at he
  refine ⟨s, hs, fun hsafe => ?_⟩
  have hclaimed := hsafe () _ 82800900000 he.1 rfl rfl (by rw [he.2]; decide)
  cases hclaimed

/-- Another user's last file of a chunk goes after the init; the commit a day later finds it. -/
def dayLongUpload : List (UploadStep Bool) :=
  [.other (.createUser "ann@dse" "pw" "salt"), .other (.createUser "bob@dse" "pw" "salt"),
   .other (.registerWorker "worker1" 9080 "localhost" 9081 1000), .other (.addCluster [] "alpha" [1]),
   .init true [sampleHash], .commit true 1 "a" 0 [sampleHash], .other (.tick (hours 30)),
   .start false [sampleHash], .init false [sampleHash], .other (.deleteFile [] 1 "a"), .other (.tick (hours 23)),
   .gc (.getOrphanedChunks [] none 24 100), .check false, .other (.tick (seconds 3599)), .init false [sampleHash],
   .commit false 2 "b" 0 [sampleHash]]

theorem dayLongUpload_safe : ∃ s, exec (stepUploads 4) (Uploads.init Bool) dayLongUpload = some s ∧
    InitsSafe s ∧ ResumesSafe (seconds 3599) s := by
  have hrun : (exec (stepUploads 4) (Uploads.init Bool) dayLongUpload).isSome := by decide +kernel
  obtain ⟨s, hs⟩ := Option.isSome_iff_exists.1 hrun
  exact ⟨s, hs, grace_period 4 dayLongUpload s hs⟩

end StorageEngine
