import StorageEngine.ControlPlane.Unread
import StorageEngine.Gc.Tombstones
import StorageEngine.Lib.Daemon

/-!
# Stopping the daemons

The thread of `GarbageCollectorDaemon` with its two loops on `keep_running` and its sleep, next to what the rest of the
fleet does to the database, and `main`, which clears the flag and notifies. A worker's heartbeats stop the same way.

| here | there |
| --- | --- |
| `gcDaemon`, `workGc`  | `GarbageCollectorDaemon` (`master/main.cpp:112-191`); the batches are those of `Gc/Daemon` |
| `heartbeatDaemon`     | `HeartbeatDaemon` (`worker/main.cpp:36-86`) |
| `.clear`, `.notify`   | `keep_running = false; gc_cv.notify_all();` (`master/main.cpp:259-260`, `worker/main.cpp:161`) |
| `.lock` to `.timeout` | `gc_cv.wait_for` (`master/main.cpp:185-188`, `worker/main.cpp:80-83`) |
-/

namespace StorageEngine

open Relational Transition Daemon

variable {ι : Type} [DecidableEq ι]

/-- Within the `try` block. -/
inductive GcPlace where
  /-- About to read `keep_running` for the next batch. -/
  | looping
  | claiming
  | inBatch
deriving DecidableEq

/-- A step of the collector in the body of its loop. -/
inductive GcWork where
  | enter
  | claim (order : List String) (fault : Option ClaimFault)
  | record (deleted : List String) (ok : Bool)
  | revert (ok : Bool)
  /-- An exception that ends the sweep. -/
  | throw
deriving DecidableEq

/-- `GetOrphanedChunks`. -/
def GcWork.isClaim : GcWork → Bool
  | .claim _ _ => true
  | _ => false

/-- After the last revert the inner loop goes on. -/
def placeOf : GcPhase → GcPlace
  | .idle => .looping
  | _ => .inBatch

section
variable (n : Nat) (d : ι)

def workGc (keepRunning : Bool) (s : Masters ι) : GcPlace → GcWork → Option (Masters ι × Option GcPlace)
  | .looping, .enter => some (s, if keepRunning then some .claiming else none)
  | .claiming, .claim order fault => (stepMasters n s (.claim d order fault)).map fun s' =>
      (s', match s'.daemon d with
        | .idle => none
        | _ => some .inBatch)
  | .inBatch, .record deleted ok =>
    (stepMasters n s (.record d deleted ok)).map fun s' => (s', some (placeOf (s'.daemon d)))
  | .inBatch, .revert ok => (stepMasters n s (.revert d ok)).map fun s' => (s', some (placeOf (s'.daemon d)))
  -- the batch stays as it is
  | .inBatch, .throw => (stepMasters n s (.crash d)).map fun s' => (s', none)
  | _, _ => none

/-- Whose step it is. -/
def MasterStep.daemon? : MasterStep ι → Option ι
  | .client _ => none
  | .claim d _ _ | .record d _ _ | .revert d _ | .crash d => some d

def gcDaemon : Program (Masters ι) GcPlace GcWork (MasterStep ι) where
  first := .looping
  work := workGc n d
  others s a := if a.daemon? = some d then none else stepMasters n s a
  period := hours 24

/-- What a step does to the fleet. -/
def fleetStep : Label GcWork (MasterStep ι) → Option (MasterStep ι)
  | .work (.claim order fault) => some (.claim d order fault)
  | .work (.record deleted ok) => some (.record d deleted ok)
  | .work (.revert ok) => some (.revert d ok)
  | .work .throw => some (.crash d)
  | .others a => some a
  | _ => none

end

/-! ## What one step can do -/

variable {n : Nat} {d : ι} {keepRunning : Bool} {s s' : Masters ι} {w : GcPlace} {a : GcWork} {next : Option GcPlace}

/-- By the batch that is held before and after. -/
inductive Worked (d : ι) (keepRunning : Bool) (s s' : Masters ι) : GcPlace → GcWork → Option GcPlace → Prop where
  | enter (h : s' = s) : Worked d keepRunning s s' .looping .enter (if keepRunning then some .claiming else none)
  | empty {order : List String} {fault : Option ClaimFault} (h : s'.daemon d = .idle) :
      Worked d keepRunning s s' .claiming (.claim order fault) none
  | claim {order : List String} {fault : Option ClaimFault} {o : OrphanedChunk} {orphans : List OrphanedChunk}
      (h : s'.daemon d = .purging (o :: orphans)) (hsize : (o :: orphans).length ≤ batchSize) :
      Worked d keepRunning s s' .claiming (.claim order fault) (some .inBatch)
  | record {deleted : List String} {ok : Bool} {orphans : List OrphanedChunk} {hashes : List String}
      (h : s.daemon d = .purging orphans) (h' : s'.daemon d = startReverting hashes)
      (hsize : hashes.length ≤ orphans.length) :
      Worked d keepRunning s s' .inBatch (.record deleted ok) (some (placeOf (startReverting hashes)))
  | revert {ok : Bool} {h : String} {rest : List String} (hphase : s.daemon d = .reverting (h :: rest))
      (h' : s'.daemon d = startReverting rest) :
      Worked d keepRunning s s' .inBatch (.revert ok) (some (placeOf (startReverting rest)))
  | throw (h : s'.daemon d = .idle) : Worked d keepRunning s s' .inBatch .throw none

theorem length_orphans (order : List String) (fault : Option ClaimFault) (db : Store) (expiryHours limit : Nat) :
    (getOrphanedChunks order fault db expiryHours limit).2.length ≤ limit := by
  have hclaimed : ((orphanHashes order db expiryHours limit).map (orphanOf db)).length ≤ limit := by
    rw [List.length_map, orphanHashes, List.length_map]
    exact List.length_take_le _ _
  cases fault with
  | none => exact hclaimed
  | some fault =>
    cases fault with
    | query => exact Nat.zero_le _
    | decode row => exact Nat.le_trans (List.length_take_le' _ _) hclaimed
    | commit => exact hclaimed

theorem length_toRevert (success : Bool) (orphans : List OrphanedChunk) (purged : List String) :
    (toRevert success orphans purged).length ≤ orphans.length := by
  unfold toRevert
  split
  · exact Nat.le_trans (List.length_filter_le _ _) (Nat.le_of_eq (List.length_map _))
  · exact Nat.le_of_eq (List.length_map _)

theorem daemon_set_self (s : Masters ι) (d : ι) (db : Store) (phase : GcPhase) : (s.set d db phase).daemon d = phase :=
  Function.update_self ..

/-- A step of the body that the fleet takes. -/
theorem fleet_move {m : MasterStep ι} {goes : Masters ι → Option GcPlace}
    (h : (stepMasters n s m).map (fun s' => (s', goes s')) = some (s', next)) :
    stepMasters n s m = some s' ∧ next = goes s' := by
  obtain ⟨u, hstep, hpair⟩ := Option.map_eq_some_iff.1 h
  obtain ⟨rfl, rfl⟩ := Prod.mk.inj hpair
  exact ⟨hstep, rfl⟩

theorem work_cases (hwork : workGc n d keepRunning s w a = some (s', next)) : Worked d keepRunning s s' w a next := by
  unfold workGc at hwork
  split at hwork
  · cases hwork
    exact .enter rfl
  · rename_i order fault
    obtain ⟨hstep, rfl⟩ := fleet_move hwork
    simp only [stepMasters] at hstep
    split at hstep <;> cases hstep
    have hlength := length_orphans order fault s.db expiryHours batchSize
    cases hclaimed : (getOrphanedChunks order fault s.db expiryHours batchSize).2 with
    | nil =>
      have hphase := daemon_set_self s d (getOrphanedChunks order fault s.db expiryHours batchSize).1 .idle
      simp only [startPurging, hphase]
      exact .empty hphase
    | cons o orphans =>
      rw [hclaimed] at hlength
      have hphase := daemon_set_self s d (getOrphanedChunks order fault s.db expiryHours batchSize).1
        (.purging (o :: orphans))
      simp only [startPurging, hphase]
      exact .claim hphase hlength
  · obtain ⟨hstep, rfl⟩ := fleet_move hwork
    simp only [stepMasters] at hstep
    split at hstep <;> cases hstep
    rw [daemon_set_self]
    exact .record ‹_› (daemon_set_self ..) (length_toRevert _ _ _)
  · obtain ⟨hstep, rfl⟩ := fleet_move hwork
    simp only [stepMasters] at hstep
    split at hstep <;> cases hstep
    rw [daemon_set_self]
    exact .revert ‹_› (daemon_set_self ..)
  · obtain ⟨hstep, rfl⟩ := fleet_move hwork
    cases hstep
    exact .throw (daemon_set_self ..)
  · cases hwork

/-- The others leave the batch alone. -/
theorem daemon_others {a : MasterStep ι} (hothers : (gcDaemon n d).others s a = some s') : s'.daemon d = s.daemon d := by
  simp only [gcDaemon] at hothers
  split at hothers
  · cases hothers
  rename_i hforeign
  have hset : ∀ {e : ι}, some e ≠ some d → ∀ (db : Store) (phase : GcPhase), (s.set e db phase).daemon d = s.daemon d :=
    fun {e} hne db phase => Function.update_of_ne (fun he => hne (congrArg some he.symm)) ..
  cases a with
  | client t =>
    simp only [stepMasters] at hothers
    split at hothers <;> cases hothers
    rfl
  | claim e order fault =>
    simp only [stepMasters] at hothers
    split at hothers <;> cases hothers
    exact hset hforeign _ _
  | record e deleted ok =>
    simp only [stepMasters] at hothers
    split at hothers <;> cases hothers
    exact hset hforeign _ _
  | revert e ok =>
    simp only [stepMasters] at hothers
    split at hothers <;> cases hothers
    exact hset hforeign _ _
  | crash e =>
    cases hothers
    exact hset hforeign _ _

/-! ## The thread and its batch -/

/-- It holds a batch exactly within one, and no batch is too large. -/
structure BatchFits (d : ι) (s : State (Masters ι) GcPlace) : Prop where
  inside : s.place = .body .inBatch → (s.world.daemon d).outstanding ≠ []
  outside : s.place ≠ .body .inBatch → s.world.daemon d = .idle
  size : (s.world.daemon d).outstanding.length ≤ batchSize

omit [DecidableEq ι] in
theorem BatchFits.of_idle {s : State (Masters ι) GcPlace} (hidle : s.world.daemon d = .idle)
    (hplace : s.place ≠ .body .inBatch) : BatchFits d s where
  inside h := absurd h hplace
  outside _ := hidle
  size := by
    rw [hidle]
    exact Nat.zero_le _

omit [DecidableEq ι] in
theorem BatchFits.of_reverting {s : State (Masters ι) GcPlace} {hashes : List String}
    (hphase : s.world.daemon d = startReverting hashes) (hplace : s.place = .body (placeOf (startReverting hashes)))
    (hsize : hashes.length ≤ batchSize) : BatchFits d s := by
  cases hashes with
  | nil => exact .of_idle hphase (by rw [hplace]; exact fun h => by cases h)
  | cons h rest =>
    refine ⟨fun _ => ?_, fun hout => absurd hplace hout, ?_⟩
    · rw [hphase, outstanding_startReverting]
      exact List.cons_ne_nil _ _
    · rw [hphase, outstanding_startReverting]
      exact hsize

variable {s t : State (Masters ι) GcPlace} {a : Label GcWork (MasterStep ι)} {as : List (Label GcWork (MasterStep ι))}

theorem batchFits_step (hfits : BatchFits d s) (hstep : step (gcDaemon n d) s a = some t) : BatchFits d t := by
  have hidle : ∀ {place : Place GcPlace}, s.place = place → place ≠ .body .inBatch → s.world.daemon d = .idle :=
    fun hplace hne => hfits.outside (hplace ▸ hne)
  cases step_cases hstep with
  | clear | tick => exact ⟨hfits.inside, hfits.outside, hfits.size⟩
  | others h =>
    have hsame := daemon_others h
    exact ⟨fun hplace => hsame ▸ hfits.inside hplace, fun hplace => hsame ▸ hfits.outside hplace, hsame ▸ hfits.size⟩
  | notify =>
    by_cases hplace : s.place = .body .inBatch
    · have hsame : s.place.notified = s.place := by rw [hplace]; rfl
      exact ⟨fun h => hfits.inside (hsame.symm.trans h), fun h => hfits.outside fun h' => h (hsame.trans h'), hfits.size⟩
    · refine .of_idle (hfits.outside hplace) ?_
      show s.place.notified ≠ .body .inBatch
      cases h : s.place with
      | body w => exact fun he => hplace (h.trans he)
      | _ => exact fun he => by cases he
  | look h =>
    refine .of_idle (hidle h fun he => by cases he) ?_
    show (if s.keepRunning = true then Place.body GcPlace.looping else .exited) ≠ _
    split <;> exact fun he => by cases he
  | work h hwork =>
    cases work_cases hwork with
    | enter hsame =>
      refine .of_idle (hsame ▸ hidle h fun he => by cases he) ?_
      cases s.keepRunning <;> exact fun he => by cases he
    | empty hphase => exact .of_idle hphase fun he => by cases he
    | throw hphase => exact .of_idle hphase fun he => by cases he
    | claim hphase hsize =>
      refine ⟨fun _ => ?_, fun hout => absurd rfl hout, ?_⟩
      · rw [hphase]
        exact List.cons_ne_nil _ _
      · rw [hphase, GcPhase.outstanding, List.length_map]
        exact hsize
    | record hphase hphase' hsize =>
      refine .of_reverting hphase' rfl (Nat.le_trans hsize ?_)
      have hbatch := hfits.size
      rwa [hphase, GcPhase.outstanding, List.length_map] at hbatch
    | revert hphase hphase' =>
      refine .of_reverting hphase' rfl (Nat.le_trans (Nat.le_succ _) ?_)
      have hbatch := hfits.size
      rwa [hphase, GcPhase.outstanding, List.length_cons] at hbatch
  | lock h | sleep h | timeout h | rouse h =>
    exact .of_idle (hidle h fun he => by cases he) fun he => by cases he
  | check h =>
    refine .of_idle (hidle h fun he => by cases he) ?_
    show (if s.keepRunning = true then Place.settling _ else .top) ≠ _
    split <;> exact fun he => by cases he

theorem batchFits_run {world : Masters ι} (hworld : world.daemon d = .idle)
    (hrun : exec (step (gcDaemon n d)) (.start world) as = some t) : BatchFits d t :=
  exec_inv (fun _ _ _ => batchFits_step) (BatchFits.of_idle hworld fun he => by cases he) hrun

/-! ## Its last steps -/

/-- What is left of a batch. -/
def GcPhase.left : GcPhase → Nat
  | .idle => 0
  | .purging orphans => orphans.length + 1
  | .reverting hashes => hashes.length

/-- With the flag cleared there is no further batch. -/
def workLeft (d : ι) (s : Masters ι) : GcPlace → Nat
  | .looping => 0
  | .claiming => batchSize + 2
  | .inBatch => (s.daemon d).left

omit [DecidableEq ι] in
theorem workLeft_reverting {s : Masters ι} {hashes : List String} (hphase : s.daemon d = startReverting hashes) :
    workLeft d s (placeOf (startReverting hashes)) ≤ hashes.length := by
  cases hashes with
  | nil => exact Nat.le_refl _
  | cons h rest =>
    show (s.daemon d).left ≤ _
    rw [hphase]
    exact Nat.le_refl _

theorem workLeft_step {world world' : Masters ι} {w : GcPlace} {a : GcWork} {next : Option GcPlace}
    (hwork : (gcDaemon n d).work false world w a = some (world', next)) :
    ∀ w' ∈ next, workLeft d world' w' < workLeft d world w := by
  intro w' hw'
  cases work_cases hwork with
  | enter | empty | throw => cases hw'
  | claim hphase hsize =>
    obtain rfl := Option.some.inj hw'
    show (world'.daemon d).left < batchSize + 2
    rw [hphase]
    exact Nat.add_lt_add_right (Nat.lt_succ_of_le hsize) 1
  | record hphase hphase' hsize =>
    obtain rfl := Option.some.inj hw'
    refine Nat.lt_of_le_of_lt (workLeft_reverting hphase') ?_
    show _ < (world.daemon d).left
    rw [hphase]
    exact Nat.lt_succ_of_le hsize
  | revert hphase hphase' =>
    obtain rfl := Option.some.inj hw'
    refine Nat.lt_of_le_of_lt (workLeft_reverting hphase') ?_
    show _ < (world.daemon d).left
    rw [hphase]
    exact Nat.lt_succ_self _

omit [DecidableEq ι] in
theorem toDo_le (hfits : BatchFits d s) : s.toDo (workLeft d) ≤ batchSize + 6 := by
  unfold State.toDo
  split
  · exact Nat.zero_le _
  all_goals try omega
  rename_i w _
  cases w with
  | looping => exact Nat.le_add_left _ _
  | claiming => exact Nat.le_refl _
  | inBatch =>
    have hsize := hfits.size
    simp only [workLeft]
    cases hphase : s.world.daemon d with
    | idle => exact Nat.le_add_left _ _
    | purging orphans =>
      rw [hphase, GcPhase.outstanding, List.length_map] at hsize
      simp only [GcPhase.left]
      omega
    | reverting hashes =>
      rw [hphase, GcPhase.outstanding] at hsize
      simp only [GcPhase.left]
      omega

/-- Whatever it is doing, there is a next step. -/
theorem collector_can_go_on (hfits : BatchFits d s) (hexit : s.place ≠ .exited)
    (hawake : ∀ deadline, s.place ≠ .asleep deadline) :
    ∃ a : Label GcWork (MasterStep ι), a.ofThread = true ∧ (step (gcDaemon n d) s a).isSome := by
  refine can_go_on (fun w hw => ?_) hexit hawake
  cases w with
  | looping => exact ⟨.enter, rfl⟩
  | claiming =>
    have hidle := hfits.outside (by rw [hw]; exact fun he => by cases he)
    exact ⟨.claim [] none, by simp [gcDaemon, workGc, stepMasters, hidle]⟩
  | inBatch =>
    have hbatch := hfits.inside hw
    cases hphase : s.world.daemon d with
    | idle => exact absurd (by rw [hphase]; rfl) hbatch
    | purging orphans => exact ⟨.record [] true, by simp [gcDaemon, workGc, stepMasters, hphase]⟩
    | reverting hashes =>
      cases hashes with
      | nil => exact absurd (by rw [hphase]; rfl) hbatch
      | cons h rest => exact ⟨.revert true, by simp [gcDaemon, workGc, stepMasters, hphase]⟩

/-! ## Claims after the flag -/

/-- The collector claims a batch. -/
def claimsBatch : Label GcWork (MasterStep ι) → Bool
  | .work a => a.isClaim
  | _ => false

/-- It has looked at `keep_running` and is about to claim. -/
def claimsLeft (place : Place GcPlace) : Nat := if place = .body .claiming then 1 else 0

theorem claims_step (hcleared : s.keepRunning = false) (hstep : step (gcDaemon n d) s a = some t) :
    t.keepRunning = false ∧ claimsLeft t.place + (if claimsBatch a then 1 else 0) ≤ claimsLeft s.place := by
  have hnone : ∀ place : Place GcPlace, place ≠ .body .claiming → claimsLeft place + 0 ≤ claimsLeft s.place :=
    fun place hne => by
      rw [claimsLeft, if_neg hne]
      exact Nat.zero_le _
  cases step_cases hstep with
  | clear h => rw [hcleared] at h; cases h
  | tick | others => exact ⟨hcleared, Nat.le_refl _⟩
  | notify =>
    refine ⟨hcleared, ?_⟩
    show claimsLeft s.place.notified + 0 ≤ _
    cases hplace : s.place with
    | body w => exact Nat.le_refl _
    | _ => exact Nat.zero_le _
  | look =>
    refine ⟨hcleared, hnone _ ?_⟩
    rw [hcleared]
    exact fun he => by cases he
  | work h hwork =>
    refine ⟨hcleared, ?_⟩
    rw [hcleared] at hwork
    cases work_cases hwork with
    | enter | throw => exact hnone _ fun he => by cases he
    | empty | claim =>
      rw [h]
      exact Nat.le_refl _
    | record _ _ _ | revert _ _ =>
      refine hnone _ fun he => ?_
      injection he with he
      revert he
      unfold placeOf
      split <;> exact fun he => by cases he
  | check =>
    refine ⟨hcleared, hnone _ ?_⟩
    rw [hcleared]
    exact fun he => by cases he
  | lock | sleep | timeout | rouse => exact ⟨hcleared, hnone _ fun he => by cases he⟩

/-- **A stop takes effect** whatever the collector is doing: it claims one more batch at most, has at most as many steps
as there are for that, and until it has exited or sleeps it can take the next one. -/
theorem collector_stops (n : Nat) (d : ι) {world : Masters ι} (hworld : world.daemon d = .idle)
    {before after : List (Label GcWork (MasterStep ι))} {s t : State (Masters ι) GcPlace}
    (hbefore : exec (step (gcDaemon n d)) (.start world) before = some s) (hcleared : s.keepRunning = false)
    (hafter : exec (step (gcDaemon n d)) s after = some t) :
    after.countP Label.ofThread ≤ batchSize + 6 ∧ after.countP claimsBatch ≤ 1 ∧
      (t.place = .exited ∨ (∃ deadline, t.place = .asleep deadline) ∨
        ∃ a : Label GcWork (MasterStep ι), a.ofThread = true ∧ (step (gcDaemon n d) t a).isSome) := by
  have hfits := batchFits_run hworld hbefore
  have hsteps := toDo_run (workLeft d) (fun _ _ _ _ _ => workLeft_step) (fun u u' b w hothers => by
    cases w with
    | inBatch => exact congrArg GcPhase.left (daemon_others hothers)
    | _ => rfl) hcleared hafter
  have hclaims := exec_budget (fun u : State (Masters ι) GcPlace => claimsLeft u.place) claimsBatch
    (fun _ _ _ => claims_step) hcleared hafter
  refine ⟨?_, Nat.le_trans (Nat.le_trans (Nat.le_add_left _ _) hclaims) ?_, ?_⟩
  · have hbound := toDo_le hfits
    omega
  · unfold claimsLeft
    split <;> decide
  · have hfits' := exec_inv (fun _ _ _ => batchFits_step) hfits hafter
    by_cases hexit : t.place = .exited
    · exact Or.inl hexit
    by_cases hasleep : ∃ deadline, t.place = .asleep deadline
    · exact Or.inr (Or.inl hasleep)
    · exact Or.inr (Or.inr (collector_can_go_on hfits' hexit fun deadline h => hasleep ⟨deadline, h⟩))

/-- **The stop of a master is late** exactly where the notification falls between the collector's look at the flag and
its sleep; without a spurious wakeup it is then over no sooner than 24 hours after the sweep was. -/
theorem collector_late_iff (n : Nat) (d : ι) {world : Masters ι} {before after : List (Label GcWork (MasterStep ι))}
    {s s' t : State (Masters ι) GcPlace} (hbefore : exec (step (gcDaemon n d)) (.start world) before = some s)
    (hnotify : step (gcDaemon n d) s .notify = some s') (hafter : exec (step (gcDaemon n d)) s' after = some t)
    (hexit : t.place = .exited) :
    ((∃ deadline, s.place = .settling deadline) ↔ .timeout ∈ after ∨ .rouse ∈ after) ∧
    ∀ sweeps wait r, before = sweeps ++ .lock :: wait → .lock ∉ wait →
      exec (step (gcDaemon n d)) (.start world) sweeps = some r → (∃ deadline, s.place = .settling deadline) →
      .rouse ∉ after → r.now + hours 24 ≤ t.now := by
  refine ⟨late_iff hnotify hafter hexit, ?_⟩
  rintro sweeps wait r rfl honce hsweeps hsettling hrouse
  exact late_wait hbefore honce hsweeps hsettling hnotify hafter hrouse hexit

/-! ## Nothing is left behind -/

/-- No fault in any of the masters, and the handlers respect the tombstones. -/
def Orderly (d : ι) (s : State (Masters ι) GcPlace) (a : Label GcWork (MasterStep ι)) : Prop :=
  ∀ m ∈ fleetStep d a, FaultFree m ∧ RespectsTombstones s.world m

instance (d : ι) (s : State (Masters ι) GcPlace) (a : Label GcWork (MasterStep ι)) : Decidable (Orderly d s a) :=
  inferInstanceAs (Decidable (∀ m ∈ fleetStep d a, _))

/-- The thread's steps are steps of the fleet, or are none. -/
theorem fleet_step (hstep : step (gcDaemon n d) s a = some t) :
    t.world = s.world ∨ ∃ m, fleetStep d a = some m ∧ stepMasters n s.world m = some t.world := by
  cases step_cases hstep with
  | others h =>
    simp only [gcDaemon] at h
    split at h
    · cases h
    · exact Or.inr ⟨_, rfl, h⟩
  | work h hwork =>
    simp only [gcDaemon] at hwork
    unfold workGc at hwork
    split at hwork
    · cases hwork
      exact Or.inl rfl
    case _ | _ | _ | _ =>
      exact Or.inr ⟨_, rfl, (fleet_move hwork).1⟩
    · cases hwork
  | _ => exact Or.inl rfl

/-- **A master that has stopped leaves no tombstone**, wherever in a batch the stop found it: a row at `-1` is in a batch
of another master. -/
theorem collector_leaves_nothing (n : Nat) (d : ι) {steps : List (Label GcWork (MasterStep ι))}
    {t : State (Masters ι) GcPlace} (hrun : exec (step (gcDaemon n d)) (.start (Masters.init ι)) steps = some t)
    (horderly : EachStep (step (gcDaemon n d)) (Orderly d) (.start (Masters.init ι)) steps) (hexit : t.place = .exited) :
    ∀ h, counter t.world.db h = some (-1) → ∃ e, e ≠ d ∧ h ∈ (t.world.daemon e).outstanding := by
  have hstart : Disciplined (Masters.init ι) ∧ BatchesNodup (Masters.init ι) :=
    ⟨disciplined_init, fun _ => List.nodup_nil⟩
  have hlaw : Disciplined t.world ∧ BatchesNodup t.world := by
    refine EachStep.inv (P := fun s => Disciplined s.world ∧ BatchesNodup s.world) ?_ horderly hstart hrun
    rintro u a v ⟨hdisciplined, hnodup⟩ hcond hstep
    rcases fleet_step hstep with hsame | ⟨m, hm, hfleet⟩
    · rw [hsame]
      exact ⟨hdisciplined, hnodup⟩
    · obtain ⟨hfault, hrespects⟩ := hcond m hm
      have hcases := stepMasters_cases hfleet hfault
      exact ⟨(disciplined_step hcases hnodup hdisciplined).2 hrespects, batchesNodup_step hcases hnodup⟩
  have hidle := (batchFits_run rfl hrun).outside (by rw [hexit]; exact fun he => by cases he)
  intro h hcount
  obtain ⟨e, he⟩ := (hlaw.1.tomb h).1 hcount
  refine ⟨e, ?_, he⟩
  rintro rfl
  rw [hidle] at he
  cases he

/-! ## Heartbeats -/

/-- What one turn of `HeartbeatDaemon` meets. -/
structure HeartbeatRound where
  env : Circumstances
  available : Option Nat
  /-- The request reaches the master. -/
  arrives : Bool

/-- The database is that of the masters the heartbeats go to. -/
def heartbeatDaemon (cfg : MasterConfig) (worker : WorkerIdentity) : Program Store Unit HeartbeatRound MasterEvent where
  first := ()
  work _ db _ round :=
    some (if round.arrives then (handle cfg round.env db (heartbeatRequest worker round.available)).1 else db, none)
  others := stepApi cfg
  period := seconds 5

/-- A worker has at most one heartbeat left to send, and is late by the rest of five seconds where the notification is
lost. -/
theorem heartbeats_stop (cfg : MasterConfig) (worker : WorkerIdentity)
    {before after : List (Label HeartbeatRound MasterEvent)} {db : Store} {s s' t : State Store Unit}
    (hbefore : exec (step (heartbeatDaemon cfg worker)) (.start db) before = some s)
    (hnotify : step (heartbeatDaemon cfg worker) s .notify = some s')
    (hafter : exec (step (heartbeatDaemon cfg worker)) s' after = some t) (hexit : t.place = .exited) :
    after.countP Label.ofThread ≤ 4 ∧ ((∃ deadline, s.place = .settling deadline) ↔ .timeout ∈ after ∨ .rouse ∈ after) ∧
    ∀ rounds wait r, before = rounds ++ .lock :: wait → .lock ∉ wait →
      exec (step (heartbeatDaemon cfg worker)) (.start db) rounds = some r → (∃ deadline, s.place = .settling deadline) →
      .rouse ∉ after → r.now + seconds 5 ≤ t.now := by
  refine ⟨?_, late_iff hnotify hafter hexit, ?_⟩
  · have hsteps := toDo_run (p := heartbeatDaemon cfg worker) (fun _ _ => 0) (fun _ _ _ _ _ hwork w' hw' => by
      cases hwork
      cases hw') (fun _ _ _ _ _ => rfl) (told_of_notify hnotify).1.cleared hafter
    have hbound : s'.toDo (fun _ _ => 0) ≤ 4 := by
      unfold State.toDo
      split <;> simp
    omega
  · rintro rounds wait r rfl honce hrounds hsettling hrouse
    exact late_wait hbefore honce hrounds hsettling hnotify hafter hrouse hexit

/-! ## Three stops -/

/-- Two masters: the other one holds the tombstone of one chunk, and a second chunk has not been referenced for a day. -/
def beforeSweep : List (Label GcWork (MasterStep Bool)) :=
  [.others (.client (.registerWorker "w" 9000 "w" 9000 5)), .others (.client (.addCluster [] "main" [1])),
    .others (.client (.filterMissingChunks ["0a"])), .others (.client (.tick (hours 25))), .others (.claim false [] none),
    .others (.client (.filterMissingChunks ["0b"])), .others (.client (.tick (hours 25)))]

/-- The stop comes before the claim; the worker does not delete the chunk. -/
def stopAtClaim : List (Label GcWork (MasterStep Bool)) :=
  [.look, .work .enter, .clear, .work (.claim [] none), .work (.record [] true), .work (.revert true), .work .enter, .notify,
    .lock, .check, .look]

theorem collector_stops_sample : ∃ s t : State (Masters Bool) GcPlace,
    exec (step (gcDaemon 4 true)) (.start (Masters.init Bool)) (beforeSweep ++ stopAtClaim.take 3) = some s ∧
    exec (step (gcDaemon 4 true)) s (stopAtClaim.drop 3) = some t ∧ (stopAtClaim.drop 3).countP claimsBatch = 1 ∧
    (stopAtClaim.drop 3).countP Label.ofThread ≤ batchSize + 6 ∧ (stopAtClaim.drop 3).countP claimsBatch ≤ 1 := by
  have hclear : (exec (step (gcDaemon 4 true)) (.start (Masters.init Bool)) (beforeSweep ++ stopAtClaim.take 3)).map
      State.keepRunning = some false := by
    decide +kernel
  have hstop : ((exec (step (gcDaemon 4 true)) (.start (Masters.init Bool)) (beforeSweep ++ stopAtClaim.take 3)).bind
      fun s => exec (step (gcDaemon 4 true)) s (stopAtClaim.drop 3)).isSome = true := by
    decide +kernel
  obtain ⟨s, hs, hcleared⟩ := Option.map_eq_some_iff.1 hclear
  rw [hs, Option.bind_some] at hstop
  obtain ⟨t, ht⟩ := Option.isSome_iff_exists.1 hstop
  obtain ⟨hsteps, hclaims, -⟩ := collector_stops 4 true rfl hs hcleared ht
  exact ⟨s, t, hs, ht, by decide, hsteps, hclaims⟩

/-- The notification is lost. -/
def stopAtSleep : List (Label GcWork (MasterStep Unit)) :=
  [.look, .work .enter, .work (.claim [] none), .lock, .check, .clear]

theorem collector_late_iff_sample : ∃ s t : State (Masters Unit) GcPlace,
    exec (step (gcDaemon 4 ())) (.start (Masters.init Unit)) stopAtSleep = some s ∧ t.place = .exited ∧
    ((∃ deadline, s.place = .settling deadline) ↔
      .timeout ∈ ([.sleep, .tick (hours 24), .timeout, .look] : List (Label GcWork (MasterStep Unit))) ∨
      .rouse ∈ ([.sleep, .tick (hours 24), .timeout, .look] : List (Label GcWork (MasterStep Unit)))) := by
  obtain ⟨s, s', t, hs, hnotify, ht, hexit⟩ : ∃ s s' t : State (Masters Unit) GcPlace,
      exec (step (gcDaemon 4 ())) (.start (Masters.init Unit)) stopAtSleep = some s ∧
      step (gcDaemon 4 ()) s .notify = some s' ∧
      exec (step (gcDaemon 4 ())) s' [.sleep, .tick (hours 24), .timeout, .look] = some t ∧ t.place = .exited :=
    ⟨_, _, _, rfl, rfl, rfl, rfl⟩
  exact ⟨s, t, hs, hexit, (collector_late_iff 4 () hs hnotify ht hexit).1⟩

theorem collector_leaves_nothing_sample : ∃ t : State (Masters Bool) GcPlace,
    exec (step (gcDaemon 4 true)) (.start (Masters.init Bool)) (beforeSweep ++ stopAtClaim) = some t ∧
    counter t.world.db "0b" = some 0 ∧ counter t.world.db "0a" = some (-1) ∧
    ∃ e, e ≠ true ∧ "0a" ∈ (t.world.daemon e).outstanding := by
  have hend : (exec (step (gcDaemon 4 true)) (.start (Masters.init Bool)) (beforeSweep ++ stopAtClaim)).map
      (fun t => (decide (t.place = .exited), counter t.world.db "0b", counter t.world.db "0a")) =
        some (true, some 0, some (-1)) := by
    decide +kernel
  have horderly : EachStep (step (gcDaemon 4 true)) (Orderly true) (.start (Masters.init Bool)) (beforeSweep ++ stopAtClaim) := by
    decide +kernel
  obtain ⟨t, ht, hplace⟩ := Option.map_eq_some_iff.1 hend
  obtain ⟨hexit, hcounts⟩ := Prod.mk.inj hplace
  obtain ⟨hkept, htomb⟩ := Prod.mk.inj hcounts
  exact ⟨t, ht, hkept, htomb, collector_leaves_nothing 4 true ht horderly (of_decide_eq_true hexit) "0a" htomb⟩

end StorageEngine
