import Mathlib.Logic.Function.Basic
import StorageEngine.Client.Upload
import StorageEngine.Lib.Transition

/-!
# `ParallelTransferManager::Upload`, step by step

The calling thread and the pool's tasks take their steps in any order. `MainPhase` is the caller's place in
the code, `TaskPhase` a task's; `posted` and `appended` record what was answered and what was passed on.

| here | there (`ParallelTransferManager.cpp`) |
| --- | --- |
| `uploadChunkToWorker`  | `:24-51` |
| `check`, `drain`       | the head of the loop (`:112-121`): one load of the flag, one test of the front future |
| `read`, `enqueue`      | `:126-166`, a node at a time |
| `post`, `log`, `resolve` | the task (`:136-163`): the request with its retries, the critical section, the promise |
| `join`, `flush`        | `:169-178` |
| `leave`                | the flag is only ever taken out of `RUNNING` (`CLI.cpp:20-28`) |

The pool's threads take the tasks in order, sixteen at a time, and the caller waits for one of sixteen permits before
it reads a chunk; here a task may run as soon as it is queued, and the caller may always read on. An exception that
leaves the loop meets a pool that nobody has stopped, and its destructor does not come back (`stuck`).
-/

namespace StorageEngine

open Transition

/-- `TransferState`. Only `RUNNING` lets a transfer go on. -/
inductive TransferState where
  | running | paused | canceled
deriving DecidableEq, Repr

/-- What one attempt comes to; `escaped` is something that is no `std::exception`. -/
inductive PostAnswer where
  | response (status : Nat)
  | noResponse
  | exception
  | escaped
deriving DecidableEq, Repr

/-- The attempts that are left, from `attempt` on; `none` where an exception leaves the function. -/
def postAttempts (answers : Nat → PostAnswer) (attempt : Nat) : Nat → Option Bool
  | 0 => some false
  | left + 1 =>
    match answers attempt with
    | .response status => if status = 200 then some true else postAttempts answers (attempt + 1) left
    | .noResponse | .exception => postAttempts answers (attempt + 1) left
    | .escaped => none

def uploadChunkToWorker (answers : Nat → PostAnswer) : Option Bool := postAttempts answers 0 3

inductive MainPhase where
  | opening
  | looping (k : Nat)
  | draining (k : Nat)
  | reading (k : Nat)
  /-- The next node of the chunk is the `j`-th. -/
  | enqueueing (k j : Nat)
  | joining
  | flushing
  | returned (success : Bool)
  /-- In the destructor of the pool. -/
  | stuck
  | threw
deriving DecidableEq, Repr

/-- The frame of the call is gone, or about to be. -/
def MainPhase.unwound : MainPhase → Bool
  | .stuck | .threw => true
  | _ => false

inductive TaskPhase where
  | queued
  /-- `UploadChunkToWorker` has returned `true`. -/
  | acknowledged
  | logged
  /-- `none` is an exception. -/
  | resolved (value : Option Bool)
deriving DecidableEq, Repr

/-- Where the critical section of a task can throw. -/
inductive LogFault where
  | push | append
deriving DecidableEq, Repr

/-- A task is named by the place of its chunk among the pending ones and the place of its node. -/
abbrev TaskId := Nat × Nat

/-- The state of an `Upload`: its caller, its tasks, and what they share. -/
structure Transfer where
  main : MainPhase
  state : TransferState
  allSucceeded : Bool
  /-- Those not yet read. -/
  futures : List TaskId
  task : TaskId → Option TaskPhase
  pendingDiskWrites : List Int
  posted : TaskId → Option (Nat → PostAnswer)
  /-- The arguments of the calls of `AppendCompletedIndices`. -/
  appended : List (List Int)

/-- Before `OpenStream` (`ParallelTransferManager.cpp:99-107`). -/
def Transfer.init (state : TransferState) : Transfer where
  main := .opening
  state := state
  allSucceeded := true
  futures := []
  task _ := none
  pendingDiskWrites := []
  posted _ := none
  appended := []

/-- One step of the caller, of a task, or of the user (`leave`). -/
inductive TransferStep where
  | leave (target : TransferState)
  | openStream (ok : Bool)
  | check
  | drain
  | read (ok : Bool)
  | enqueue (ok : Bool)
  | join
  | flush (ok : Bool)
  | post (t : TaskId) (answers : Nat → PostAnswer)
  | log (t : TaskId) (fault : Option LogFault)
  | resolve (t : TaskId)

section
variable (pending : List (Int × ChunkRoutingPlan))

/-- The length of `plan.assigned_nodes` (`:132`). -/
def nodeCount (k : Nat) : Nat := (pending[k]?.map fun e => e.2.assignedNodes.length).getD 0

/-- `task.first` (`:124`). -/
def indexOf (k : Nat) : Int := (pending[k]?.map Prod.fst).getD 0

/-- The task is where it is put; the others stay. -/
def Transfer.setTask (s : Transfer) (t : TaskId) (phase : TaskPhase) : Transfer :=
  { s with task := Function.update s.task t (some phase) }

/-- The caller reads a future: an exception leaves the loop. -/
def Transfer.get (s : Transfer) (rest : List TaskId) : Option Bool → Transfer
  | none => { s with main := .stuck }
  | some success => { s with futures := rest, allSucceeded := s.allSucceeded && success }

/-- `none` where the step is not the next one, or the caller waits. After an exception the tasks are left with
references to what is gone; what they do then is not modelled. -/
def stepTransfer (s : Transfer) : TransferStep → Option Transfer
  | .leave target => if target = .running then none else some { s with state := target }
  | .openStream ok =>
    match s.main with
    | .opening => some { s with main := if ok then .looping 0 else .stuck }
    | _ => none
  | .check =>
    match s.main with
    | .looping k =>
      some { s with main := if k < pending.length ∧ s.state = .running then .draining k else .joining }
    | _ => none
  | .drain =>
    match s.main with
    | .draining k =>
      let leaveLoop := { s with main := if s.allSucceeded then .reading k else .joining }
      match s.futures with
      | [] => some leaveLoop
      | t :: rest =>
        match s.task t with
        | some (.resolved value) => some (s.get rest value)
        | _ => some leaveLoop
    | _ => none
  | .read ok =>
    match s.main with
    | .reading k => some { s with main := if ok then .enqueueing k 0 else .stuck }
    | _ => none
  | .enqueue ok =>
    match s.main with
    | .enqueueing k j =>
      if j < nodeCount pending k then
        if ok then
          some { s.setTask (k, j) .queued with main := .enqueueing k (j + 1), futures := s.futures ++ [(k, j)] }
        else some { s with main := .stuck }
      else some { s with main := .looping (k + 1) }
    | _ => none
  | .join =>
    match s.main with
    | .joining =>
      match s.futures with
      | [] => some { s with main := .flushing }
      | t :: rest =>
        match s.task t with
        | some (.resolved value) => some (s.get rest value)
        | _ => none
    | _ => none
  | .flush ok =>
    match s.main with
    | .flushing =>
      -- the pool has been shut down
      let done : MainPhase := .returned (s.allSucceeded && decide (s.state = .running))
      if s.pendingDiskWrites.isEmpty then some { s with main := done }
      else if ok then
        some { s with main := done, appended := s.appended ++ [s.pendingDiskWrites], pendingDiskWrites := [] }
      else some { s with main := .threw, appended := s.appended ++ [s.pendingDiskWrites] }
    | _ => none
  | .post t answers =>
    if s.main.unwound then none
    else
      match s.task t with
      | some .queued =>
        let phase : TaskPhase :=
          match uploadChunkToWorker answers with
          | some true => .acknowledged
          | value => .resolved value
        some { s.setTask t phase with posted := Function.update s.posted t (some answers) }
      | _ => none
  | .log t fault =>
    if s.main.unwound then none
    else
      match s.task t with
      | some .acknowledged =>
        let indices := s.pendingDiskWrites ++ [indexOf pending t.1]
        if fault = some .push then some (s.setTask t (.resolved none))
        else if indices.length < 64 then some { s.setTask t .logged with pendingDiskWrites := indices }
        else if fault = some .append then
          some { s.setTask t (.resolved none) with pendingDiskWrites := indices, appended := s.appended ++ [indices] }
        else some { s.setTask t .logged with pendingDiskWrites := [], appended := s.appended ++ [indices] }
      | _ => none
  | .resolve t =>
    if s.main.unwound then none
    else
      match s.task t with
      | some .logged => some (s.setTask t (.resolved (some true)))
      | _ => none

end

/-! ## One task -/

/-- **`true` is returned only for a 200** within the three attempts. -/
theorem postAttempts_true {answers : Nat → PostAnswer} {left : Nat} : ∀ {attempt : Nat},
    postAttempts answers attempt left = some true →
      ∃ i, attempt ≤ i ∧ i < attempt + left ∧ answers i = .response 200 := by
  induction left with
  | zero =>
    intro attempt h
    cases h
  | succ left ih =>
    intro attempt h
    have hnext : postAttempts answers (attempt + 1) left = some true →
        ∃ i, attempt ≤ i ∧ i < attempt + (left + 1) ∧ answers i = .response 200 := by
      intro h
      obtain ⟨i, hlo, hhi, hi⟩ := ih h
      exact ⟨i, by omega, by omega, hi⟩
    unfold postAttempts at h
    split at h
    · rename_i status hstatus
      split at h
      · rename_i hok
        exact ⟨attempt, by omega, by omega, by rw [hstatus, hok]⟩
      · exact hnext h
    · exact hnext h
    · exact hnext h
    · cases h

theorem uploadChunkToWorker_true {answers : Nat → PostAnswer} (h : uploadChunkToWorker answers = some true) :
    ∃ attempt, attempt < 3 ∧ answers attempt = .response 200 := by
  obtain ⟨i, -, hi, hans⟩ := postAttempts_true h
  exact ⟨i, by omega, hans⟩

/-! ## What a run keeps -/

section
variable (pending : List (Int × ChunkRoutingPlan))

/-- Some attempt of the task was answered with 200, and `UploadChunkToWorker` returned `true`. -/
def Acked (s : Transfer) (t : TaskId) : Prop := ∃ answers, s.posted t = some answers ∧ uploadChunkToWorker answers = some true

/-- The index waits to be written to the log, or was given to it. -/
def Recorded (s : Transfer) (i : Int) : Prop := i ∈ s.pendingDiskWrites ∨ i ∈ s.appended.flatten

/-- The bookkeeping of results and indices. -/
structure Accounted (s : Transfer) : Prop where
  inRange : ∀ t, s.task t ≠ none → t.2 < nodeCount pending t.1
  fresh : ∀ t, s.task t = none ∨ s.task t = some .queued → s.posted t = none
  /-- A future that has been read has counted. -/
  counted : ∀ t phase, s.task t = some phase → t ∈ s.futures ∨ phase = .resolved (some true) ∨ s.allSucceeded = false
  settled : ∀ t phase, s.task t = some phase → t ∈ s.futures ∨ ∃ value, phase = .resolved value
  acked : ∀ t, s.task t = some .acknowledged ∨ s.task t = some .logged ∨ s.task t = some (.resolved (some true)) →
    Acked s t
  logged : ∀ t, s.task t = some .logged ∨ s.task t = some (.resolved (some true)) → Recorded s (indexOf pending t.1)
  sound : ∀ i, Recorded s i → ∃ t, t.2 < nodeCount pending t.1 ∧ indexOf pending t.1 = i ∧ Acked s t

/-- How far the loop has come; `none` once it is left. -/
def MainPhase.frontier : MainPhase → Option (Nat × Nat)
  | .opening => some (0, 0)
  | .looping k | .draining k | .reading k => some (k, 0)
  | .enqueueing k j => some (k, j)
  | _ => none

/-- Every pair of a task and a node is dispatched. -/
def Covered (s : Transfer) : Prop := ∀ t : TaskId, t.2 < nodeCount pending t.1 → s.task t ≠ none

/-- What the caller's place in the code says about the tasks. -/
structure Positioned (s : Transfer) : Prop where
  /-- In the loop: exactly the pairs before the caller's place are dispatched. -/
  reached : ∀ k j, s.main.frontier = some (k, j) → ∀ t : TaskId,
    s.task t ≠ none ↔ t.2 < nodeCount pending t.1 ∧ (t.1 < k ∨ t.1 = k ∧ t.2 < j)
  left : s.main = .joining ∨ s.main = .flushing → Covered pending s ∨ s.allSucceeded = false ∨ s.state ≠ .running
  read : s.main = .flushing ∨ (∃ b, s.main = .returned b) → s.futures = []
  flushed : ∀ b, s.main = .returned b → s.pendingDiskWrites = []
  success : s.main = .returned true → Covered pending s ∧ s.allSucceeded = true

variable {pending} {s : Transfer}

@[simp] theorem setTask_task (t u : TaskId) (phase : TaskPhase) :
    (s.setTask t phase).task u = if u = t then some phase else s.task u := by
  unfold Transfer.setTask
  by_cases hu : u = t
  · subst hu
    simp
  · simp [hu]

theorem setTask_none {t : TaskId} {old new : TaskPhase} (ht : s.task t = some old) (u : TaskId) :
    (s.setTask t new).task u = none ↔ s.task u = none := by
  rw [setTask_task]
  by_cases hu : u = t
  · rw [if_pos hu, hu, ht]
    simp
  · rw [if_neg hu]

/-- `Accounted` does not look at the caller's place or the flag. -/
theorem Accounted.goto (h : Accounted pending s) (main : MainPhase) (state : TransferState) :
    Accounted pending { s with main := main, state := state } :=
  ⟨h.inRange, h.fresh, h.counted, h.settled, h.acked, h.logged, h.sound⟩

theorem Accounted.get (h : Accounted pending s) {t : TaskId} {rest : List TaskId} {value : Option Bool}
    (hf : s.futures = t :: rest) (ht : s.task t = some (.resolved value)) : Accounted pending (s.get rest value) := by
  cases value with
  | none => exact h.goto .stuck s.state
  | some success =>
    refine ⟨h.inRange, h.fresh, fun u phase hu => ?_, fun u phase hu => ?_, h.acked, h.logged, h.sound⟩
    · show u ∈ rest ∨ _ ∨ (s.allSucceeded && success) = false
      rcases h.counted u phase hu with hin | htrue | hfalse
      · rw [hf, List.mem_cons] at hin
        rcases hin with rfl | hin
        · obtain rfl : phase = .resolved (some success) := Option.some.inj (hu.symm.trans ht)
          cases success <;> simp
        · exact .inl hin
      · exact .inr (.inl htrue)
      · exact .inr (.inr (by simp [hfalse]))
    · show u ∈ rest ∨ _
      rcases h.settled u phase hu with hin | hres
      · rw [hf, List.mem_cons] at hin
        rcases hin with rfl | hin
        · exact .inr ⟨_, Option.some.inj (hu.symm.trans ht)⟩
        · exact .inl hin
      · exact .inr hres

theorem Accounted.enqueue (h : Accounted pending s) {k j : Nat} (hj : j < nodeCount pending k)
    (hnew : s.task (k, j) = none) : Accounted pending { s.setTask (k, j) .queued with
      main := .enqueueing k (j + 1), futures := s.futures ++ [(k, j)] } := by
  refine ⟨fun t ht => ?_, fun t ht => ?_, fun t phase ht => ?_, fun t phase ht => ?_, fun t ht => ?_, fun t ht => ?_,
    h.sound⟩
  · simp only [setTask_task] at ht
    split at ht
    · rename_i he
      subst he
      exact hj
    · exact h.inRange t ht
  · simp only [setTask_task] at ht
    split at ht
    · rename_i he
      subst he
      exact h.fresh (k, j) (.inl hnew)
    · exact h.fresh t ht
  · simp only [setTask_task] at ht
    split at ht
    · rename_i he
      exact .inl (by simp [he])
    · exact (h.counted t phase ht).imp_left fun hin => List.mem_append_left _ hin
  · simp only [setTask_task] at ht
    split at ht
    · rename_i he
      exact .inl (by simp [he])
    · exact (h.settled t phase ht).imp_left fun hin => List.mem_append_left _ hin
  · simp only [setTask_task] at ht
    split at ht
    · simp at ht
    · exact h.acked t ht
  · simp only [setTask_task] at ht
    split at ht
    · simp at ht
    · exact h.logged t ht

theorem Accounted.flush (h : Accounted pending s) (writes : List Int) (hsub : ∀ i ∈ writes, i ∈ s.pendingDiskWrites) :
    Accounted pending { s with appended := s.appended ++ [s.pendingDiskWrites], pendingDiskWrites := writes } := by
  have hsame : ∀ i, i ∈ writes ∨ i ∈ (s.appended ++ [s.pendingDiskWrites]).flatten ↔ Recorded s i := by
    intro i
    unfold Recorded
    rw [List.flatten_append, List.mem_append, List.flatten_singleton]
    have hi := hsub i
    tauto
  exact ⟨h.inRange, h.fresh, h.counted, h.settled, h.acked, fun t ht => (hsame _).2 (h.logged t ht),
    fun i hi => h.sound i ((hsame i).1 hi)⟩

/-- A task goes on to its next phase. -/
theorem Accounted.advance (h : Accounted pending s) {t : TaskId} {old new : TaskPhase} {s' : Transfer}
    (ht : s.task t = some old) (hold : ∀ value, old ≠ .resolved value) (hnew : new ≠ .queued)
    (htask : ∀ u, s'.task u = if u = t then some new else s.task u) (hfutures : s'.futures = s.futures)
    (hall : s'.allSucceeded = s.allSucceeded) (hposted : ∀ u, u ≠ t → s'.posted u = s.posted u)
    (hkeep : Acked s t → Acked s' t)
    (hacked : new = .acknowledged ∨ new = .logged ∨ new = .resolved (some true) → Acked s' t)
    (hrec : ∀ i, Recorded s i → Recorded s' i)
    (hlogged : new = .logged ∨ new = .resolved (some true) → Recorded s' (indexOf pending t.1))
    (hsound : ∀ i, Recorded s' i → Recorded s i ∨ i = indexOf pending t.1 ∧ Acked s' t) : Accounted pending s' := by
  -- a task that is not resolved has its future unread
  have hmine : t ∈ s.futures := (h.settled t old ht).resolve_right fun ⟨value, he⟩ => hold value he
  have hrange : t.2 < nodeCount pending t.1 := h.inRange t (by rw [ht]; simp)
  have hmono : ∀ u, Acked s u → Acked s' u := by
    intro u hu
    by_cases he : u = t
    · subst he
      exact hkeep hu
    · unfold Acked
      rw [hposted u he]
      exact hu
  refine ⟨fun u hu => ?_, fun u hu => ?_, fun u phase hu => ?_, fun u phase hu => ?_, fun u hu => ?_, fun u hu => ?_,
    fun i hi => ?_⟩
  · by_cases he : u = t
    · exact he ▸ hrange
    · rw [htask, if_neg he] at hu
      exact h.inRange u hu
  · by_cases he : u = t
    · rw [htask, if_pos he] at hu
      rcases hu with hu | hu
      · cases hu
      · exact absurd (Option.some.inj hu) hnew
    · rw [htask, if_neg he] at hu
      rw [hposted u he]
      exact h.fresh u hu
  · by_cases he : u = t
    · exact .inl (by rw [hfutures, he]; exact hmine)
    · rw [htask, if_neg he] at hu
      rw [hfutures, hall]
      exact h.counted u phase hu
  · by_cases he : u = t
    · exact .inl (by rw [hfutures, he]; exact hmine)
    · rw [htask, if_neg he] at hu
      rw [hfutures]
      exact h.settled u phase hu
  · by_cases he : u = t
    · simp only [htask, if_pos he, Option.some.injEq] at hu
      exact he ▸ hacked hu
    · simp only [htask, if_neg he] at hu
      exact hmono u (h.acked u hu)
  · by_cases he : u = t
    · simp only [htask, if_pos he, Option.some.injEq] at hu
      exact he ▸ hlogged hu
    · simp only [htask, if_neg he] at hu
      exact hrec _ (h.logged u hu)
  · rcases hsound i hi with hi | ⟨hidx, hack⟩
    · obtain ⟨u, hu, hidx, hack⟩ := h.sound i hi
      exact ⟨u, hu, hidx, hmono u hack⟩
    · exact ⟨t, hrange, hidx.symm, hack⟩

theorem Accounted.post (h : Accounted pending s) {t : TaskId} (answers : Nat → PostAnswer)
    (ht : s.task t = some .queued) :
    Accounted pending { s.setTask t (match uploadChunkToWorker answers with
      | some true => .acknowledged
      | value => .resolved value) with posted := Function.update s.posted t (some answers) } := by
  have hfresh := h.fresh t (.inr ht)
  refine h.advance ht (fun value he => by cases he) ?_ (fun u => setTask_task t u _) rfl rfl ?_ ?_ ?_ (fun i hi => hi) ?_
    (fun i hi => .inl hi)
  · split <;> simp
  · intro u hu
    exact Function.update_of_ne hu _ _
  · rintro ⟨answers', hans, -⟩
    rw [hfresh] at hans
    cases hans
  · intro hphase
    refine ⟨answers, Function.update_self .., ?_⟩
    split at hphase
    · assumption
    · rename_i hne
      simp only [reduceCtorEq, TaskPhase.resolved.injEq, false_or] at hphase
      exact absurd hphase hne
  · intro hphase
    split at hphase
    · simp at hphase
    · rename_i hne
      simp only [reduceCtorEq, TaskPhase.resolved.injEq, false_or] at hphase
      exact absurd hphase hne

theorem Accounted.resolve (h : Accounted pending s) {t : TaskId} (ht : s.task t = some .logged) :
    Accounted pending (s.setTask t (.resolved (some true))) := by
  refine h.advance ht (fun value he => by cases he) (by simp) (fun u => setTask_task t u _) rfl rfl (fun u _ => rfl)
    (fun hack => hack) (fun _ => h.acked t (.inr (.inl ht))) (fun i hi => hi) (fun _ => h.logged t (.inl ht))
    (fun i hi => .inl hi)

/-- The critical section: what it writes down is the task's index. -/
theorem Accounted.log (h : Accounted pending s) {t : TaskId} {new : TaskPhase} {writes : List Int}
    {calls : List (List Int)} (ht : s.task t = some .acknowledged) (hnew : new = .logged ∨ new = .resolved none)
    (hrec : ∀ i, Recorded s i → i ∈ writes ∨ i ∈ calls.flatten)
    (hlogged : new = .logged → indexOf pending t.1 ∈ writes ∨ indexOf pending t.1 ∈ calls.flatten)
    (hsound : ∀ i, i ∈ writes ∨ i ∈ calls.flatten → Recorded s i ∨ i = indexOf pending t.1) :
    Accounted pending { s.setTask t new with pendingDiskWrites := writes, appended := calls } := by
  have hack := h.acked t (.inl ht)
  refine h.advance ht (fun value he => by cases he) ?_ (fun u => setTask_task t u _) rfl rfl (fun u _ => rfl)
    (fun hack => hack) (fun _ => hack) hrec ?_ (fun i hi => (hsound i hi).imp_right fun he => ⟨he, hack⟩)
  · rcases hnew with rfl | rfl <;> simp
  · intro hphase
    rcases hnew with rfl | rfl
    · exact hlogged rfl
    · simp at hphase

/-- **One step** keeps the accounts. -/
theorem accounted_step {s' : Transfer} {a : TransferStep} (hstep : stepTransfer pending s a = some s')
    (hpos : Positioned pending s) (h : Accounted pending s) : Accounted pending s' := by
  cases a with
  | leave target =>
    simp only [stepTransfer] at hstep
    split at hstep
    · cases hstep
    · cases hstep
      exact h.goto s.main target
  | openStream ok =>
    simp only [stepTransfer] at hstep
    split at hstep
    · cases hstep
      exact h.goto _ s.state
    · cases hstep
  | check =>
    simp only [stepTransfer] at hstep
    split at hstep
    · cases hstep
      exact h.goto _ s.state
    · cases hstep
  | drain =>
    simp only [stepTransfer] at hstep
    split at hstep
    · split at hstep
      · cases hstep
        exact h.goto _ s.state
      · rename_i t rest hf
        split at hstep
        · rename_i value ht
          cases hstep
          exact h.get hf ht
        · cases hstep
          exact h.goto _ s.state
    · cases hstep
  | read ok =>
    simp only [stepTransfer] at hstep
    split at hstep
    · cases hstep
      exact h.goto _ s.state
    · cases hstep
  | enqueue ok =>
    simp only [stepTransfer] at hstep
    split at hstep
    · rename_i k j hmain
      split at hstep
      · rename_i hj
        split at hstep
        · cases hstep
          refine h.enqueue hj ?_
          have hreached := hpos.reached k j (by rw [hmain]; rfl) (k, j)
          by_contra hne
          have hbefore := (hreached.1 hne).2
          simp at hbefore
        · cases hstep
          exact h.goto _ s.state
      · cases hstep
        exact h.goto _ s.state
    · cases hstep
  | join =>
    simp only [stepTransfer] at hstep
    split at hstep
    · split at hstep
      · cases hstep
        exact h.goto _ s.state
      · rename_i t rest hf
        split at hstep
        · rename_i value ht
          cases hstep
          exact h.get hf ht
        · cases hstep
    · cases hstep
  | flush ok =>
    simp only [stepTransfer] at hstep
    split at hstep
    · split at hstep
      · cases hstep
        exact h.goto _ s.state
      · split at hstep
        · cases hstep
          exact (h.flush [] (by simp)).goto _ s.state
        · cases hstep
          exact (h.flush s.pendingDiskWrites fun i hi => hi).goto _ s.state
    · cases hstep
  | post t answers =>
    simp only [stepTransfer] at hstep
    split at hstep
    · cases hstep
    · split at hstep
      · rename_i ht
        cases hstep
        exact h.post answers ht
      · cases hstep
  | log t fault =>
    simp only [stepTransfer] at hstep
    split at hstep
    · cases hstep
    · split at hstep
      · rename_i ht
        split at hstep
        · cases hstep
          exact h.log ht (.inr rfl) (fun i hi => hi) (fun hl => by cases hl) (fun i hi => .inl hi)
        · split at hstep
          · cases hstep
            refine h.log ht (.inl rfl) (fun i hi => ?_) (fun _ => ?_) fun i hi => ?_
            · exact hi.imp_left fun hi => List.mem_append_left _ hi
            · exact .inl (by simp)
            · rw [List.mem_append, List.mem_singleton] at hi
              unfold Recorded
              tauto
          · split at hstep
            · cases hstep
              refine h.log ht (.inr rfl) (fun i hi => ?_) (fun hl => by cases hl) fun i hi => ?_
              · unfold Recorded at hi
                simp only [List.flatten_append, List.mem_append, List.flatten_singleton, List.mem_singleton]
                tauto
              · simp only [List.flatten_append, List.mem_append, List.flatten_singleton, List.mem_singleton] at hi
                unfold Recorded
                tauto
            · cases hstep
              refine h.log ht (.inl rfl) (fun i hi => ?_) (fun _ => ?_) fun i hi => ?_
              · unfold Recorded at hi
                simp only [List.flatten_append, List.mem_append, List.flatten_singleton, List.mem_singleton]
                tauto
              · simp
              · simp only [List.flatten_append, List.mem_append, List.flatten_singleton, List.mem_singleton,
                  List.not_mem_nil, false_or] at hi
                unfold Recorded
                tauto
      · cases hstep
  | resolve t =>
    simp only [stepTransfer] at hstep
    split at hstep
    · cases hstep
    · split at hstep
      · rename_i ht
        cases hstep
        exact h.resolve ht
      · cases hstep

/-- The steps of a task leave the caller where it is; after the final loop there are none. -/
theorem Positioned.advance (h : Positioned pending s) (hacc : Accounted pending s) {t : TaskId} {old : TaskPhase} {s' : Transfer}
    (ht : s.task t = some old) (hold : ∀ value, old ≠ .resolved value) (hmain : s'.main = s.main)
    (hstate : s'.state = s.state) (hfutures : s'.futures = s.futures) (hall : s'.allSucceeded = s.allSucceeded)
    (htask : ∀ u, s'.task u = none ↔ s.task u = none) : Positioned pending s' := by
  have hmine : t ∈ s.futures := (hacc.settled t old ht).resolve_right fun ⟨value, he⟩ => hold value he
  have hbusy : ∀ b, s.main ≠ .returned b := by
    intro b hb
    rw [h.read (.inr ⟨b, hb⟩)] at hmine
    cases hmine
  have hcov : Covered pending s' ↔ Covered pending s :=
    forall_congr' fun u => imp_congr_right fun _ => not_congr (htask u)
  refine ⟨fun k j hf u => ?_, fun hm => ?_, fun hm => ?_, fun b hm => ?_, fun hm => ?_⟩
  · rw [hmain] at hf
    rw [ne_eq, htask]
    exact h.reached k j hf u
  · rw [hmain] at hm
    rw [hcov, hall, hstate]
    exact h.left hm
  · rw [hmain] at hm
    rw [hfutures]
    exact h.read hm
  · rw [hmain] at hm
    exact absurd hm (hbusy b)
  · rw [hmain] at hm
    exact absurd hm (hbusy true)

/-- The caller moves on within the loop; nothing else changes. -/
theorem Positioned.goto (h : Positioned pending s) (main : MainPhase) (hfront : main.frontier ≠ none)
    (hsame : main.frontier = s.main.frontier) : Positioned pending { s with main := main } := by
  refine ⟨fun k j hf => h.reached k j (hsame ▸ hf), fun hm => ?_, fun hm => ?_, fun b hm => ?_, fun hm => ?_⟩
  · rcases hm with rfl | rfl <;> exact absurd rfl hfront
  · rcases hm with rfl | ⟨b, rfl⟩ <;> exact absurd rfl hfront
  · obtain rfl : main = .returned b := hm
    exact absurd rfl hfront
  · obtain rfl : main = .returned true := hm
    exact absurd rfl hfront

theorem Positioned.unwound (s : Transfer) (pending : List (Int × ChunkRoutingPlan)) {main : MainPhase}
    (hmain : main.unwound = true) : Positioned pending { s with main := main } := by
  refine ⟨fun k j hf => ?_, fun hm => ?_, fun hm => ?_, fun b hm => ?_, fun hm => ?_⟩
  · cases main <;> cases hmain <;> cases hf
  · rcases hm with rfl | rfl <;> cases hmain
  · rcases hm with rfl | ⟨b, rfl⟩ <;> cases hmain
  · obtain rfl : main = .returned b := hm
    cases hmain
  · obtain rfl : main = .returned true := hm
    cases hmain

/-- The loop is left: everything is dispatched, or the call will not succeed. -/
theorem Positioned.join (hleft : Covered pending s ∨ s.allSucceeded = false ∨ s.state ≠ .running) :
    Positioned pending { s with main := .joining } := by
  refine ⟨fun k j hf => (by cases hf), fun _ => hleft, fun hm => ?_, fun b hm => (by cases hm), fun hm => by cases hm⟩
  rcases hm with hm | ⟨b, hm⟩ <;> cases hm

theorem Positioned.get (h : Positioned pending s) {rest : List TaskId} {value : Option Bool}
    (hmain : s.main = .joining ∨ ∃ k, s.main = .draining k) : Positioned pending (s.get rest value) := by
  cases value with
  | none => exact Positioned.unwound s pending rfl
  | some success =>
    have hno : ∀ b, s.main ≠ .returned b := by
      intro b hb
      rw [hb] at hmain
      rcases hmain with hm | ⟨k, hm⟩ <;> cases hm
    have hflush : s.main ≠ .flushing := by
      intro hb
      rw [hb] at hmain
      rcases hmain with hm | ⟨k, hm⟩ <;> cases hm
    refine ⟨h.reached, fun hm => ?_, fun hm => ?_, fun b hm => absurd hm (hno b), fun hm => absurd hm (hno true)⟩
    · rcases h.left hm with hc | hf | hr
      · exact .inl hc
      · refine .inr (.inl ?_)
        show (s.allSucceeded && success) = false
        rw [hf, Bool.false_and]
      · exact .inr (.inr hr)
    · rcases hm with hm | ⟨b, hm⟩
      · exact absurd hm hflush
      · exact absurd hm (hno b)

theorem Positioned.enqueue (h : Positioned pending s) {k j : Nat} (hmain : s.main = .enqueueing k j)
    (hj : j < nodeCount pending k) : Positioned pending { s.setTask (k, j) .queued with
      main := .enqueueing k (j + 1), futures := s.futures ++ [(k, j)] } := by
  refine ⟨fun k' j' hf t => ?_, fun hm => ?_, fun hm => ?_, fun b hm => (by cases hm), fun hm => by cases hm⟩
  · obtain ⟨rfl, rfl⟩ : k = k' ∧ j + 1 = j' := by simpa [MainPhase.frontier] using hf
    have hreached := h.reached k j (by rw [hmain]; rfl) t
    simp only [setTask_task]
    by_cases ht : t = (k, j)
    · subst ht
      simp [hj]
    · rw [if_neg ht, hreached]
      refine and_congr_right fun _ => or_congr_right (and_congr_right fun hk => ?_)
      have hne : t.2 ≠ j := fun he => ht (Prod.ext hk he)
      omega
  · rcases hm with hm | hm <;> cases hm
  · rcases hm with hm | ⟨b, hm⟩ <;> cases hm

theorem nodeCount_pos {k j : Nat} (h : j < nodeCount pending k) : k < pending.length := by
  unfold nodeCount at h
  cases hk : pending[k]? with
  | none => simp [hk] at h
  | some e => exact (List.getElem?_eq_some_iff.1 hk).choose

theorem Positioned.next (h : Positioned pending s) {k j : Nat} (hmain : s.main = .enqueueing k j)
    (hj : ¬ j < nodeCount pending k) : Positioned pending { s with main := .looping (k + 1) } := by
  refine ⟨fun k' j' hf t => ?_, fun hm => ?_, fun hm => ?_, fun b hm => (by cases hm), fun hm => (by cases hm)⟩
  · obtain ⟨rfl, rfl⟩ : k + 1 = k' ∧ 0 = j' := by simpa [MainPhase.frontier] using hf
    rw [h.reached k j (by rw [hmain]; rfl) t]
    refine and_congr_right fun hrange => ?_
    by_cases hk : t.1 = k
    · rw [hk] at hrange
      omega
    · omega
  · rcases hm with hm | hm <;> cases hm
  · rcases hm with hm | ⟨b, hm⟩ <;> cases hm

/-- The end of the list: every pair is before the caller's place. -/
theorem Positioned.covered (h : Positioned pending s) {k : Nat} (hmain : s.main = .looping k) (hk : pending.length ≤ k) :
    Covered pending s := by
  intro t ht
  refine (h.reached k 0 (by rw [hmain]; rfl) t).2 ⟨ht, .inl ?_⟩
  have hlt := nodeCount_pos ht
  omega

theorem Positioned.finish (h : Positioned pending s) (hmain : s.main = .flushing) (calls : List (List Int)) :
    Positioned pending { s with
      main := .returned (s.allSucceeded && decide (s.state = .running)), appended := calls, pendingDiskWrites := [] } := by
  refine ⟨fun k j hf => (by cases hf), fun hm => ?_, fun _ => h.read (.inl hmain), fun b _ => rfl, fun hm => ?_⟩
  · rcases hm with hm | hm <;> cases hm
  · rw [MainPhase.returned.injEq, Bool.and_eq_true, decide_eq_true_eq] at hm
    refine ⟨?_, hm.1⟩
    rcases h.left (.inr hmain) with hc | hf | hr
    · exact hc
    · rw [hm.1] at hf
      cases hf
    · exact absurd hm.2 hr

/-- **One step** keeps the caller's place. -/
theorem positioned_step {s' : Transfer} {a : TransferStep} (hstep : stepTransfer pending s a = some s')
    (hacc : Accounted pending s) (h : Positioned pending s) : Positioned pending s' := by
  cases a with
  | leave target =>
    simp only [stepTransfer] at hstep
    split at hstep
    · cases hstep
    · rename_i hne
      cases hstep
      exact ⟨h.reached, fun _ => .inr (.inr hne), h.read, h.flushed, h.success⟩
  | openStream ok =>
    simp only [stepTransfer] at hstep
    split at hstep
    · rename_i hmain
      cases hstep
      cases ok with
      | true => exact h.goto (.looping 0) (by simp [MainPhase.frontier]) (by rw [hmain]; rfl)
      | false => exact Positioned.unwound s pending rfl
    · cases hstep
  | check =>
    simp only [stepTransfer] at hstep
    split at hstep
    · rename_i k hmain
      cases hstep
      by_cases hgo : k < pending.length ∧ s.state = .running
      · rw [if_pos hgo]
        exact h.goto (.draining k) (by simp [MainPhase.frontier]) (by rw [hmain]; rfl)
      · rw [if_neg hgo]
        refine Positioned.join ?_
        by_cases hk : k < pending.length
        · exact .inr (.inr fun hr => hgo ⟨hk, hr⟩)
        · exact .inl (h.covered hmain (by omega))
    · cases hstep
  | drain =>
    simp only [stepTransfer] at hstep
    split at hstep
    · rename_i k hmain
      have hleave : Positioned pending { s with main := if s.allSucceeded then .reading k else .joining } := by
        by_cases hall : s.allSucceeded = true
        · rw [if_pos hall]
          exact h.goto (.reading k) (by simp [MainPhase.frontier]) (by rw [hmain]; rfl)
        · rw [if_neg hall]
          exact Positioned.join (.inr (.inl (by simpa using hall)))
      split at hstep
      · cases hstep
        exact hleave
      · split at hstep
        · cases hstep
          exact h.get (.inr ⟨k, hmain⟩)
        · cases hstep
          exact hleave
    · cases hstep
  | read ok =>
    simp only [stepTransfer] at hstep
    split at hstep
    · rename_i k hmain
      cases hstep
      cases ok with
      | true => exact h.goto (.enqueueing k 0) (by simp [MainPhase.frontier]) (by rw [hmain]; rfl)
      | false => exact Positioned.unwound s pending rfl
    · cases hstep
  | enqueue ok =>
    simp only [stepTransfer] at hstep
    split at hstep
    · rename_i k j hmain
      split at hstep
      · rename_i hj
        split at hstep
        · cases hstep
          exact h.enqueue hmain hj
        · cases hstep
          exact Positioned.unwound s pending rfl
      · rename_i hj
        cases hstep
        exact h.next hmain hj
    · cases hstep
  | join =>
    simp only [stepTransfer] at hstep
    split at hstep
    · rename_i hmain
      split at hstep
      · rename_i hf
        cases hstep
        exact ⟨fun k j hf => (by cases hf), fun _ => h.left (.inl hmain), fun _ => hf, fun b hm => (by cases hm),
          fun hm => (by cases hm)⟩
      · split at hstep
        · cases hstep
          exact h.get (.inl hmain)
        · cases hstep
    · cases hstep
  | flush ok =>
    simp only [stepTransfer] at hstep
    split at hstep
    · rename_i hmain
      split at hstep
      · rename_i hempty
        cases hstep
        have hfinish := h.finish hmain s.appended
        rw [← List.isEmpty_iff.1 hempty] at hfinish
        exact hfinish
      · split at hstep
        · cases hstep
          exact h.finish hmain _
        · cases hstep
          exact Positioned.unwound { s with appended := s.appended ++ [s.pendingDiskWrites] } pending rfl
    · cases hstep
  | post t answers =>
    simp only [stepTransfer] at hstep
    split at hstep
    · cases hstep
    · split at hstep
      · rename_i ht
        cases hstep
        exact h.advance hacc ht (fun value he => by cases he) rfl rfl rfl rfl (setTask_none ht)
      · cases hstep
  | log t fault =>
    simp only [stepTransfer] at hstep
    split at hstep
    · cases hstep
    · split at hstep
      · rename_i ht
        split at hstep
        · cases hstep
          exact h.advance hacc ht (fun value he => by cases he) rfl rfl rfl rfl (setTask_none ht)
        · split at hstep
          · cases hstep
            exact h.advance hacc ht (fun value he => by cases he) rfl rfl rfl rfl (setTask_none ht)
          · split at hstep
            · cases hstep
              exact h.advance hacc ht (fun value he => by cases he) rfl rfl rfl rfl (setTask_none ht)
            · cases hstep
              exact h.advance hacc ht (fun value he => by cases he) rfl rfl rfl rfl (setTask_none ht)
      · cases hstep
  | resolve t =>
    simp only [stepTransfer] at hstep
    split at hstep
    · cases hstep
    · split at hstep
      · rename_i ht
        cases hstep
        exact h.advance hacc ht (fun value he => by cases he) rfl rfl rfl rfl (setTask_none ht)
      · cases hstep

/-! ## The result -/

theorem accounted_init (state : TransferState) : Accounted pending (Transfer.init state) where
  inRange t ht := absurd rfl ht
  fresh t _ := rfl
  counted t phase ht := by cases ht
  settled t phase ht := by cases ht
  acked t ht := by simp [Transfer.init] at ht
  logged t ht := by simp [Transfer.init] at ht
  sound i hi := by simp [Recorded, Transfer.init] at hi

theorem positioned_init (state : TransferState) : Positioned pending (Transfer.init state) where
  reached k j hf t := by
    obtain ⟨rfl, rfl⟩ : 0 = k ∧ 0 = j := by simpa [Transfer.init, MainPhase.frontier] using hf
    simp [Transfer.init]
  left hm := by rcases hm with hm | hm <;> cases hm
  read hm := by rcases hm with hm | ⟨b, hm⟩ <;> cases hm
  flushed b hm := by cases hm
  success hm := by cases hm

/-- What a run keeps holds at its end. -/
theorem transfer_inv {state : TransferState} {steps : List TransferStep}
    (h : exec (stepTransfer pending) (Transfer.init state) steps = some s) : Accounted pending s ∧ Positioned pending s := by
  have hinv : ∀ (u : Transfer) (a : TransferStep) (v : Transfer), (Accounted pending u ∧ Positioned pending u) →
      stepTransfer pending u a = some v → Accounted pending v ∧ Positioned pending v := by
    rintro u a v ⟨hacc, hpos⟩ hstep
    exact ⟨accounted_step hstep hpos hacc, positioned_step hstep hacc hpos⟩
  exact exec_inv hinv ⟨accounted_init state, positioned_init state⟩ h

end

/-- **Success is reported only when everything was acknowledged.** In every run of `Upload`, whatever the nodes
answer, whatever throws and whenever the flag leaves `RUNNING`: if `true` is returned, every node of every
pending chunk was sent the chunk and answered it with 200, and the index of every chunk that has a node went
to `AppendCompletedIndices`; and whenever the call returns, only indices of chunks that a node acknowledged
did. -/
theorem success_acknowledged (pending : List (Int × ChunkRoutingPlan)) (state : TransferState)
    (steps : List TransferStep) (s : Transfer) (h : exec (stepTransfer pending) (Transfer.init state) steps = some s) :
    (s.main = .returned true → ∀ k task, pending[k]? = some task → ∀ j < task.2.assignedNodes.length,
      (∃ answers, s.posted (k, j) = some answers ∧ uploadChunkToWorker answers = some true ∧
        ∃ attempt, attempt < 3 ∧ answers attempt = .response 200) ∧ task.1 ∈ s.appended.flatten) ∧
    ((∃ b, s.main = .returned b) → ∀ i ∈ s.appended.flatten, ∃ k task, pending[k]? = some task ∧ task.1 = i ∧
      ∃ j < task.2.assignedNodes.length, ∃ answers, s.posted (k, j) = some answers ∧
        uploadChunkToWorker answers = some true ∧ ∃ attempt, attempt < 3 ∧ answers attempt = .response 200) := by
  obtain ⟨hacc, hpos⟩ := transfer_inv h
  constructor
  · intro hmain k task hk j hj
    have hcount : nodeCount pending k = task.2.assignedNodes.length := by simp [nodeCount, hk]
    have hidx : indexOf pending k = task.1 := by simp [indexOf, hk]
    obtain ⟨hcov, hall⟩ := hpos.success hmain
    obtain ⟨phase, hphase⟩ := Option.ne_none_iff_exists'.1 (hcov (k, j) (by rw [hcount]; exact hj))
    have hread := hpos.read (.inr ⟨true, hmain⟩)
    have hdone : phase = .resolved (some true) := by
      rcases hacc.counted (k, j) phase hphase with hin | hdone | hfalse
      · rw [hread] at hin
        cases hin
      · exact hdone
      · rw [hall] at hfalse
        cases hfalse
    subst hdone
    obtain ⟨answers, hans, htrue⟩ := hacc.acked (k, j) (.inr (.inr hphase))
    refine ⟨⟨answers, hans, htrue, uploadChunkToWorker_true htrue⟩, ?_⟩
    rcases hacc.logged (k, j) (.inr hphase) with hin | hin
    · rw [hpos.flushed true hmain] at hin
      cases hin
    · rwa [hidx] at hin
  · intro _ i hi
    obtain ⟨⟨k, j⟩, hj, hidx, answers, hans, htrue⟩ := hacc.sound i (.inr hi)
    obtain ⟨task, htask⟩ : ∃ task, pending[k]? = some task := by
      rw [List.getElem?_eq_getElem (nodeCount_pos hj)]
      exact ⟨_, rfl⟩
    have hcount : nodeCount pending k = task.2.assignedNodes.length := by simp [nodeCount, htask]
    refine ⟨k, task, htask, ?_, j, by rw [← hcount]; exact hj, answers, hans, htrue,
      uploadChunkToWorker_true htrue⟩
    rw [← hidx]
    simp [indexOf, htask]

/-- One chunk for two nodes; the second node answers at its second attempt, before the first. -/
def twoNodes : List (Int × ChunkRoutingPlan) := [(7, ⟨"b", [⟨"localhost", 9081⟩, ⟨"localhost", 9082⟩]⟩)]

/-- One chunk on two nodes; an attempt of the second gets no response. -/
def twoNodesRun : List TransferStep :=
  [.openStream true, .check, .drain, .read true, .enqueue true, .enqueue true,
   .post (0, 1) (fun attempt => if attempt = 0 then .noResponse else .response 200), .enqueue true, .check,
   .log (0, 1) none, .post (0, 0) (fun _ => .response 200), .log (0, 0) none, .resolve (0, 0), .resolve (0, 1),
   .join, .join, .join, .flush true]

theorem success_acknowledged_twoNodes : ∃ s, exec (stepTransfer twoNodes) (Transfer.init .running) twoNodesRun = some s ∧
    s.main = .returned true ∧ 7 ∈ s.appended.flatten := by
  have hrun : (exec (stepTransfer twoNodes) (Transfer.init .running) twoNodesRun).any
      (fun s => s.main == .returned true) = true := by decide +kernel
  obtain ⟨s, hs, hmain⟩ := (Option.any_eq_true ..).1 hrun
  rw [beq_iff_eq] at hmain
  have hsuccess := (success_acknowledged twoNodes .running twoNodesRun s hs).1 hmain 0 _ rfl 0 (by decide)
  exact ⟨s, hs, hmain, hsuccess.2⟩

end StorageEngine
