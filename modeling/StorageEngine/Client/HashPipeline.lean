import StorageEngine.Client.Slicer
import StorageEngine.Lib.ThreadPool
import StorageEngine.Lib.Transition

/-!
# Hashing in parallel

`ComputeHashes` with all its threads, step by step. The calling thread reads the chunks and hands each to a pool; a
semaphore of 32 permits keeps it from reading ahead. A permit is given back by whoever resets the last copy of it, the
task or the caller at the end of its turn (`early`: the task of this turn was first). Then the caller takes the results in
the order of the file. Where a task throws, its exception leaves the loop before `pool.shutdown()`, and the pool is
destroyed with its threads still there (`unwinding`): on Linux the destructor of its condition variable waits for whoever
sleeps on it, and where nobody does, threads that can be joined take the process with them (`terminated`). Two invariants
hold at every step: `Coordinated` says where the permits are and that nobody sleeps who should not, `Filled` that every
chunk is ahead, with a task, or in its future.

| here | there (`LocalFileSlicer.cpp:19-80`) |
| --- | --- |
| `HashPhase`       | where the calling thread is |
| `read`            | the head of the loop; what it reads is `hashedChunks` |
| `acquire`, `rouseMain`, `release` | `Semaphore.hpp:13-27`, in `InFlightPermit` (`:32-37`) |
| `enqueue`, `notify` | `ThreadPool::enqueue` (`httplib.h:10245-10264`), with base threads only |
| `stop`, `notifyAll`, `join` | `ThreadPool::shutdown` (`:10266-10291`) |
| `destroy`         | `~ThreadPool() = default` (`:1546`), which does not call it |
| `look`, `rouse`   | `ThreadPool::worker` (`:10312-10345`) |
| `hash`, `release`, `fulfil` | the task (`:47-65`); `none` is an exception |
-/

namespace StorageEngine

open Transition ThreadPool Extent InputStream

/-- How far a thread of the pool is with a task. -/
inductive HashStage where
  | computing
  | releasing (result : Option String)
  | fulfilling (result : Option String)
deriving DecidableEq, Repr

/-- What a task captures (`:48`), and where it is. -/
structure HashTask where
  index : Nat
  data : Bytes
  stage : HashStage
deriving DecidableEq, Repr

inductive HashPhase where
  | reading (rest : List Bytes)
  | acquiring (data : Bytes) (rest : List Bytes)
  | sleeping (data : Bytes) (rest : List Bytes)
  | enqueueing (data : Bytes) (rest : List Bytes)
  | notifying (rest : List Bytes)
  /-- At the end of the turn. -/
  | leaving (rest : List Bytes)
  | collecting (hashes : List String)
  | stopping (hashes : List String)
  | notifyingAll (hashes : List String)
  | joining (hashes : List String)
  | returned (hashes : List String)
  /-- An exception has left the loop. -/
  | unwinding
  | terminated
deriving DecidableEq, Repr

/-- The calling thread, the semaphore, the pool and the promises. -/
structure HashPipeline where
  main : HashPhase
  permits : Nat
  early : Bool
  pool : Pool HashTask
  /-- The number of futures. -/
  pushed : Nat
  futures : Nat → Option (Option String)

/-- One step of one thread; `i` is a thread of the pool. -/
inductive HashStep where
  | read
  | acquire
  | enqueue
  | notify (i : Nat)
  | leave
  | collect
  | stop
  | notifyAll
  | join
  | destroy
  | look (i : Nat)
  | hash (i : Nat)
  | release (i : Nat)
  | fulfil (i : Nat)
  | rouse (i : Nat)
  | rouseMain
deriving DecidableEq, Repr

/-- A thread that wakes up for no reason. -/
def HashStep.spurious : HashStep → Bool
  | .rouse _ | .rouseMain => true
  | _ => false

/-- `Semaphore in_flight_limiter(32)` (`:28`). -/
def inFlightLimit : Nat := 32

/-- After the pool is made; the chunks are those the loop will read. -/
def HashPipeline.init (threadCount : Nat) (chunks : List Bytes) : HashPipeline where
  main := .reading chunks
  permits := inFlightLimit
  early := false
  pool := .start threadCount
  pushed := 0
  futures _ := none

namespace HashPhase

/-- The calling thread has not left the turn of the last task. -/
def inTurn : HashPhase → Bool
  | .notifying _ | .leaving _ => true
  | _ => false

/-- `notify_one` of the semaphore. -/
def woken : HashPhase → HashPhase
  | .sleeping data rest => .acquiring data rest
  | phase => phase

/-- The call is over, or the process. -/
def ended : HashPhase → Bool
  | .returned _ | .terminated => true
  | _ => false

/-- The call will not return. -/
def doomed : HashPhase → Bool
  | .unwinding | .terminated => true
  | _ => false

end HashPhase

section
variable (hash : Bytes → Option String)

/-- `none` where the thread is not there, or waits. -/
def stepHash (s : HashPipeline) : HashStep → Option HashPipeline
  | .read =>
    match s.main with
    | .reading (data :: rest) => some { s with main := .acquiring data rest }
    | .reading [] => some { s with main := .collecting [] }
    | _ => none
  | .acquire =>
    match s.main with
    | .acquiring data rest =>
      if 0 < s.permits then some { s with main := .enqueueing data rest, permits := s.permits - 1 }
      else some { s with main := .sleeping data rest }
    | _ => none
  | .enqueue =>
    match s.main with
    | .enqueueing data rest =>
      some { s with main := .notifying rest, pool := s.pool.push ⟨s.pushed, data, .computing⟩, pushed := s.pushed + 1 }
    | _ => none
  | .notify i =>
    match s.main with
    | .notifying rest => (s.pool.notifyOne i).map fun pool => { s with main := .leaving rest, pool := pool }
    | _ => none
  | .leave =>
    match s.main with
    | .leaving rest =>
      some { s with main := .reading rest, early := false, permits := if s.early then s.permits + 1 else s.permits }
    | _ => none
  | .collect =>
    match s.main with
    | .collecting hashes =>
      if hashes.length < s.pushed then
        match s.futures hashes.length with
        | some (some h) => some { s with main := .collecting (hashes ++ [h]) }
        | some none => some { s with main := .unwinding }
        | none => none
      else some { s with main := .stopping hashes }
    | _ => none
  | .stop =>
    match s.main with
    | .stopping hashes => some { s with main := .notifyingAll hashes, pool := s.pool.stop }
    | _ => none
  | .notifyAll =>
    match s.main with
    | .notifyingAll hashes => some { s with main := .joining hashes, pool := s.pool.notifyAll }
    | _ => none
  | .join =>
    match s.main with
    | .joining hashes =>
      if s.pool.threads.all fun t => match t with | .exited => true | _ => false then
        some { s with main := .returned hashes }
      else none
    | _ => none
  | .destroy =>
    match s.main with
    | .unwinding => if s.pool.threads.any Phase.isAsleep then none else some { s with main := .terminated }
    | _ => none
  | .look i => if s.main.ended then none else (s.pool.look i).map fun pool => { s with pool := pool }
  | .hash i =>
    if s.main.ended then none
    else
      match s.pool.threads[i]? with
      | some (.running ⟨k, data, .computing⟩) =>
        some { s with pool := s.pool.setThread i (.running ⟨k, data, .releasing (hash data)⟩) }
      | _ => none
  | .release i =>
    if s.main.ended then none
    else
      match s.pool.threads[i]? with
      | some (.running ⟨k, data, .releasing result⟩) =>
        let pool := s.pool.setThread i (.running ⟨k, data, .fulfilling result⟩)
        if s.main.inTurn && k + 1 == s.pushed then some { s with pool := pool, early := true }
        else some { s with pool := pool, permits := s.permits + 1, main := s.main.woken }
      | _ => none
  | .fulfil i =>
    if s.main.ended then none
    else
      match s.pool.threads[i]? with
      | some (.running ⟨k, _, .fulfilling result⟩) =>
        some { s with pool := s.pool.setThread i .awake, futures := Function.update s.futures k (some result) }
      | _ => none
  | .rouse i => if s.main.ended then none else (s.pool.rouse i).map fun pool => { s with pool := pool }
  | .rouseMain =>
    match s.main with
    | .sleeping data rest => some { s with main := .acquiring data rest }
    | _ => none

end

/-! ## What a thread of the pool does -/

section
variable {hash : Bytes → Option String} {s t : HashPipeline} {i : Nat}

theorem stepHash_look (hstep : stepHash hash s (.look i) = some t) :
    ∃ pool, s.pool.look i = some pool ∧ t = { s with pool := pool } := by
  simp only [stepHash] at hstep
  split at hstep
  · cases hstep
  · obtain ⟨pool, hpool, rfl⟩ := Option.map_eq_some_iff.1 hstep
    exact ⟨pool, hpool, rfl⟩

theorem stepHash_rouse (hstep : stepHash hash s (.rouse i) = some t) :
    ∃ pool, s.pool.rouse i = some pool ∧ t = { s with pool := pool } := by
  simp only [stepHash] at hstep
  split at hstep
  · cases hstep
  · obtain ⟨pool, hpool, rfl⟩ := Option.map_eq_some_iff.1 hstep
    exact ⟨pool, hpool, rfl⟩

theorem stepHash_hash (hstep : stepHash hash s (.hash i) = some t) :
    ∃ k data, s.pool.threads[i]? = some (.running ⟨k, data, .computing⟩) ∧
      t = { s with pool := s.pool.setThread i (.running ⟨k, data, .releasing (hash data)⟩) } := by
  simp only [stepHash] at hstep
  split at hstep
  · cases hstep
  · split at hstep <;> cases hstep
    rename_i k data hi
    exact ⟨k, data, hi, rfl⟩

/-- The permit goes back, or the calling thread still has a copy of it. -/
theorem stepHash_release (hstep : stepHash hash s (.release i) = some t) :
    ∃ k data result, s.pool.threads[i]? = some (.running ⟨k, data, .releasing result⟩) ∧
      t = if s.main.inTurn && k + 1 == s.pushed then
          { s with pool := s.pool.setThread i (.running ⟨k, data, .fulfilling result⟩), early := true }
        else { s with
          pool := s.pool.setThread i (.running ⟨k, data, .fulfilling result⟩)
          permits := s.permits + 1
          main := s.main.woken } := by
  simp only [stepHash] at hstep
  split at hstep
  · cases hstep
  · split at hstep
    · rename_i k data result hi
      refine ⟨k, data, result, hi, ?_⟩
      split at hstep <;> cases hstep <;> rename_i hlast
      · rw [if_pos hlast]
      · rw [if_neg hlast]
    · cases hstep

theorem stepHash_fulfil (hstep : stepHash hash s (.fulfil i) = some t) :
    ∃ k data result, s.pool.threads[i]? = some (.running ⟨k, data, .fulfilling result⟩) ∧
      t = { s with pool := s.pool.setThread i .awake, futures := Function.update s.futures k (some result) } := by
  simp only [stepHash] at hstep
  split at hstep
  · cases hstep
  · split at hstep <;> cases hstep
    rename_i k data result hi
    exact ⟨k, data, result, hi, rfl⟩

end

/-! ## Permits -/

/-- The task has not reset its permit. -/
def HashStage.holds : HashStage → Bool
  | .computing | .releasing _ => true
  | .fulfilling _ => false

/-- One permit, where the index is asked for. -/
def HashTask.held (asked : Nat → Bool) (task : HashTask) : Nat :=
  if task.stage.holds && asked task.index then 1 else 0

namespace HashPhase

/-- The caller has pushed a task and not notified anyone of it. -/
def owes : HashPhase → Bool
  | .notifying _ => true
  | _ => false

/-- The pool is stopped, and its threads are not notified of that. -/
def owesAll : HashPhase → Bool
  | .notifyingAll _ => true
  | _ => false

/-- `shutdown` has set its flag. -/
def hasStopped : HashPhase → Bool
  | .notifyingAll _ | .joining _ | .returned _ => true
  | _ => false

/-- In `wait` of the semaphore (`Semaphore.hpp:17-18`). -/
def isSleeping : HashPhase → Bool
  | .sleeping _ _ => true
  | _ => false

/-- The permit that no task has yet. -/
def reserved : HashPhase → Nat
  | .enqueueing _ _ => 1
  | _ => 0

section
variable (phase : HashPhase)

@[simp] theorem woken_owes : phase.woken.owes = phase.owes := by cases phase <;> rfl
@[simp] theorem woken_owesAll : phase.woken.owesAll = phase.owesAll := by cases phase <;> rfl
@[simp] theorem woken_hasStopped : phase.woken.hasStopped = phase.hasStopped := by cases phase <;> rfl
@[simp] theorem woken_isSleeping : phase.woken.isSleeping = false := by cases phase <;> rfl
@[simp] theorem woken_reserved : phase.woken.reserved = phase.reserved := by cases phase <;> rfl
@[simp] theorem woken_inTurn : phase.woken.inTurn = phase.inTurn := by cases phase <;> rfl

end

end HashPhase

namespace HashPipeline

/-- The permits that are out: each belongs to a chunk in memory. -/
def inFlight (s : HashPipeline) : Nat :=
  s.main.reserved + s.early.toNat + s.pool.total (HashTask.held fun _ => true)

/-- The permit of the task of this turn, where the task has it. -/
def current (s : HashPipeline) : Nat := s.pool.total (HashTask.held fun k => k + 1 == s.pushed)

end HashPipeline

/-- What holds between the threads. -/
structure Coordinated (threadCount : Nat) (s : HashPipeline) : Prop where
  sound : Sound s.pool (s.main.owes = true) (s.main.owesAll = true)
  threads : s.pool.threads.length = threadCount
  stopped : s.pool.stopped = s.main.hasStopped
  permits : s.permits + s.inFlight = inFlightLimit
  sleeps : s.main.isSleeping = true → s.permits = 0
  early : s.early = true → s.main.inTurn = true
  turn : s.main.inTurn = true → s.current + s.early.toNat = 1
  old : ∀ task, s.pool.Has task → task.index < s.pushed

theorem coordinated_init (threadCount : Nat) (chunks : List Bytes) :
    Coordinated threadCount (.init threadCount chunks) where
  sound := sound_start threadCount _ _
  threads := List.length_replicate
  stopped := rfl
  permits := by
    show inFlightLimit + (0 + 0 + (Pool.start threadCount).total _) = inFlightLimit
    rw [Pool.total_start]
    rfl
  sleeps h := by cases h
  early h := by cases h
  turn h := by cases h
  old task h := by
    rcases h with h | h
    · cases h
    · cases List.eq_of_mem_replicate h

namespace Coordinated

variable {n : Nat} {s : HashPipeline}

/-- A step of a thread that keeps the permits where they are. -/
theorem withPool (h : Coordinated n s) {pool : Pool HashTask} (futures : Nat → Option (Option String))
    (hsound : Sound pool (s.main.owes = true) (s.main.owesAll = true))
    (hthreads : pool.threads.length = s.pool.threads.length) (hstopped : pool.stopped = s.pool.stopped)
    (htotal : ∀ asked, pool.total (HashTask.held asked) = s.pool.total (HashTask.held asked))
    (hhas : ∀ task, pool.Has task → ∃ task', s.pool.Has task' ∧ task.index = task'.index) :
    Coordinated n { s with pool := pool, futures := futures } where
  sound := hsound
  threads := hthreads.trans h.threads
  stopped := hstopped.trans h.stopped
  permits := by
    have hpermits := h.permits
    unfold HashPipeline.inFlight at hpermits ⊢
    rwa [htotal]
  sleeps := h.sleeps
  early := h.early
  turn hturn := by
    have hone := h.turn hturn
    unfold HashPipeline.current at hone ⊢
    rwa [htotal]
  old task htask := by
    obtain ⟨task', htask', hindex⟩ := hhas task htask
    rw [hindex]
    exact h.old task' htask'

/-- A step of the calling thread in which nothing is taken, given, stopped or notified. -/
theorem withMain (h : Coordinated n s) {phase : HashPhase} (howes : phase.owes = s.main.owes)
    (howesAll : phase.owesAll = s.main.owesAll) (hstopped : phase.hasStopped = s.main.hasStopped)
    (hsleeping : phase.isSleeping = true → s.permits = 0) (hreserved : phase.reserved = s.main.reserved)
    (hturn : phase.inTurn = s.main.inTurn) : Coordinated n { s with main := phase } where
  sound := by rw [howes, howesAll]; exact h.sound
  threads := h.threads
  stopped := h.stopped.trans hstopped.symm
  permits := by
    have hpermits := h.permits
    unfold HashPipeline.inFlight at hpermits ⊢
    rwa [hreserved]
  sleeps := hsleeping
  early := fun he => hturn.trans (h.early he)
  turn ht := h.turn (hturn.symm.trans ht)
  old := h.old

/-- Another thread has done its turn with the task it is at. -/
theorem withTask (h : Coordinated n s) {i : Nat} {task task' : HashTask}
    (hi : s.pool.threads[i]? = some (.running task)) (hindex : task'.index = task.index)
    (hholds : task'.stage.holds = task.stage.holds) :
    Coordinated n { s with pool := s.pool.setThread i (.running task') } := by
  refine h.withPool s.futures (h.sound.setThread trivial (by rw [hi]; rfl)) List.length_set rfl (fun asked => ?_)
    fun other hother => ?_
  · have htotal := Pool.total_setThread (t := .running task') (w := HashTask.held asked) hi
    simp only [Phase.weight, HashTask.held, hindex, hholds] at htotal
    omega
  · rcases Pool.has_of_setThread hother with hold | he
    · exact ⟨other, hold, rfl⟩
    · obtain rfl := Phase.running.inj he
      exact ⟨task, Or.inr (List.mem_iff_getElem?.2 ⟨i, hi⟩), hindex⟩

/-- A permit is given back, by the task or, where the task of this turn was first, not yet. -/
theorem release (h : Coordinated n s) {i k : Nat} {data : Bytes} {result : Option String}
    (hi : s.pool.threads[i]? = some (.running ⟨k, data, .releasing result⟩)) :
    Coordinated n (if s.main.inTurn && k + 1 == s.pushed then
        { s with pool := s.pool.setThread i (.running ⟨k, data, .fulfilling result⟩), early := true }
      else { s with
        pool := s.pool.setThread i (.running ⟨k, data, .fulfilling result⟩)
        permits := s.permits + 1
        main := s.main.woken }) := by
  have hsound := h.sound.setThread (t := .running ⟨k, data, .fulfilling result⟩) trivial (by rw [hi]; rfl)
  have htotal := fun asked => Pool.total_setThread (t := .running ⟨k, data, .fulfilling result⟩)
    (w := HashTask.held asked) hi
  have hold : ∀ task, (s.pool.setThread i (.running ⟨k, data, .fulfilling result⟩)).Has task → task.index < s.pushed := by
    intro task htask
    rcases Pool.has_of_setThread htask with hold | he
    · exact h.old task hold
    · obtain rfl := Phase.running.inj he
      exact h.old ⟨k, data, .releasing result⟩ (Or.inr (List.mem_iff_getElem?.2 ⟨i, hi⟩))
  simp only [Phase.weight, HashTask.held, HashStage.holds, Bool.true_and, Bool.false_and, Bool.false_eq_true, if_false]
    at htotal
  have hpermits := h.permits
  have hall := htotal fun _ => true
  have hcurrent := htotal fun k' => k' + 1 == s.pushed
  have hturn := h.turn
  have hthreads : (s.pool.setThread i (.running ⟨k, data, .fulfilling result⟩)).threads.length = n :=
    List.length_set.trans h.threads
  have hstopped : (s.pool.setThread i (.running ⟨k, data, .fulfilling result⟩)).stopped = s.main.hasStopped := h.stopped
  generalize s.pool.setThread i (.running ⟨k, data, .fulfilling result⟩) = pool
    at hsound hold hall hcurrent hthreads hstopped ⊢
  unfold HashPipeline.inFlight at hpermits
  unfold HashPipeline.current at hturn
  split
  · rename_i hlast
    rw [Bool.and_eq_true] at hlast
    have hone := hturn hlast.1
    simp only [hlast.2, if_true] at hall hcurrent
    have hearly : s.early = false := by
      cases he : s.early
      · rfl
      · rw [he, Bool.toNat_true] at hone
        omega
    rw [hearly, Bool.toNat_false] at hpermits hone
    refine ⟨hsound, hthreads, hstopped, ?_, h.sleeps, fun _ => hlast.1, fun _ => ?_, hold⟩
    · show s.permits + (s.main.reserved + 1 + pool.total (HashTask.held fun _ => true)) = inFlightLimit
      omega
    · show pool.total (HashTask.held fun k' => k' + 1 == s.pushed) + 1 = 1
      omega
  · rename_i hlast
    rw [Bool.and_eq_true, not_and, Bool.not_eq_true] at hlast
    refine ⟨?_, hthreads, ?_, ?_, fun hs => ?_, fun he => ?_, fun ht => ?_, hold⟩
    · simpa using hsound
    · simpa using hstopped
    · show s.permits + 1 + (s.main.woken.reserved + s.early.toNat + pool.total (HashTask.held fun _ => true)) =
        inFlightLimit
      rw [HashPhase.woken_reserved]
      simp only [if_true] at hall
      omega
    · simp at hs
    · simpa using h.early he
    · have hin : s.main.inTurn = true := by simpa using ht
      rw [hlast hin] at hcurrent
      simp only [Bool.false_eq_true, if_false, Nat.add_zero] at hcurrent
      show pool.total (HashTask.held fun k' => k' + 1 == s.pushed) + s.early.toNat = 1
      rw [hcurrent]
      exact hturn hin

end Coordinated

theorem coordinated_step {hash : Bytes → Option String} {n : Nat} (hn : 0 < n) {s t : HashPipeline} {a : HashStep}
    (h : Coordinated n s) (hstep : stepHash hash s a = some t) : Coordinated n t := by
  obtain ⟨main, permits, early, pool, pushed, futures⟩ := s
  have hpermits : permits + (main.reserved + early.toNat + pool.total (HashTask.held fun _ => true)) = inFlightLimit :=
    h.permits
  cases a with
  | read =>
    cases main <;> try cases hstep
    rename_i rest
    cases rest <;> cases hstep <;> exact h.withMain rfl rfl rfl (fun hs => by cases hs) rfl rfl
  | acquire =>
    cases main <;> try cases hstep
    rename_i data rest
    simp only [stepHash] at hstep
    split at hstep <;> cases hstep
    · refine ⟨h.sound, h.threads, h.stopped, ?_, (fun hs => by cases hs), h.early, h.turn, h.old⟩
      show permits - 1 + (1 + early.toNat + pool.total (HashTask.held fun _ => true)) = inFlightLimit
      simp only [HashPhase.reserved] at hpermits
      omega
    · exact h.withMain rfl rfl rfl (fun _ => Nat.eq_zero_of_not_pos ‹_›) rfl rfl
  | enqueue =>
    cases main <;> try cases hstep
    rename_i data rest
    have hearly : early = false := by
      cases early
      · rfl
      · cases h.early rfl
    subst hearly
    have hnone : pool.total (HashTask.held fun k => k + 1 == pushed + 1) = 0 := Pool.total_eq_zero fun task htask => by
      have hlt : task.index < pushed := h.old task htask
      simp [HashTask.held, hlt.ne]
    refine ⟨h.sound.push _ rfl, h.threads, h.stopped, ?_, (fun hs => by cases hs), (fun he => by cases he), fun _ => ?_,
      fun task htask => ?_⟩
    · show permits + (0 + 0 + (pool.push ⟨pushed, data, .computing⟩).total (HashTask.held fun _ => true)) = inFlightLimit
      simp only [Pool.total_push, HashTask.held, HashStage.holds, HashPhase.reserved, Bool.toNat_false] at hpermits ⊢
      simp only [Bool.and_true, if_true]
      omega
    · show (pool.push ⟨pushed, data, .computing⟩).total (HashTask.held fun k => k + 1 == pushed + 1) + 0 = 1
      rw [Pool.total_push, hnone]
      simp [HashTask.held, HashStage.holds]
    · rcases Pool.has_push.1 htask with hold | rfl
      · exact Nat.lt_succ_of_lt (h.old task hold)
      · exact Nat.lt_succ_self _
  | notify i =>
    cases main <;> try cases hstep
    obtain ⟨pool', hpool, rfl⟩ := Option.map_eq_some_iff.1 hstep
    obtain ⟨hthreads, hstopped⟩ := Pool.kept_notifyOne hpool
    have hne : pool.threads ≠ [] := fun hnil => by
      have hlen : pool.threads.length = n := h.threads
      rw [hnil] at hlen
      exact absurd hlen hn.ne
    refine ⟨h.sound.notifyOne h.stopped hne hpool _, hthreads.trans h.threads, hstopped.trans h.stopped, ?_,
      (fun hs => by cases hs), fun _ => rfl, fun _ => ?_, fun task htask => ?_⟩
    · show permits + (0 + early.toNat + pool'.total (HashTask.held fun _ => true)) = inFlightLimit
      rw [(Pool.total_notifyOne hpool).1]
      exact hpermits
    · show pool'.total (HashTask.held fun k => k + 1 == pushed) + early.toNat = 1
      rw [(Pool.total_notifyOne hpool).1]
      exact h.turn rfl
    · exact h.old task ((Pool.has_notifyOne hpool).1 htask)
  | leave =>
    cases main <;> cases hstep
    refine ⟨h.sound, h.threads, h.stopped, ?_, (fun hs => by cases hs), (fun he => by cases he), (fun ht => by cases ht),
      h.old⟩
    show (if early then permits + 1 else permits) + (0 + 0 + pool.total (HashTask.held fun _ => true)) = inFlightLimit
    cases early
    · exact hpermits
    · simp only [HashPhase.reserved, Bool.toNat_true, if_true] at hpermits ⊢
      omega
  | collect =>
    cases main <;> try cases hstep
    simp only [stepHash] at hstep
    split at hstep
    · split at hstep <;> cases hstep <;> exact h.withMain rfl rfl rfl (fun hs => by cases hs) rfl rfl
    · cases hstep
      exact h.withMain rfl rfl rfl (fun hs => by cases hs) rfl rfl
  | stop =>
    cases main <;> cases hstep
    exact ⟨h.sound.stop rfl, h.threads, rfl, hpermits, (fun hs => by cases hs), h.early, (fun ht => by cases ht), h.old⟩
  | notifyAll =>
    cases main <;> cases hstep
    refine ⟨h.sound.notifyAll _, (List.length_map _).trans h.threads, h.stopped, ?_, (fun hs => by cases hs), h.early,
      (fun ht => by cases ht), fun task htask => h.old task (Pool.has_notifyAll.1 htask)⟩
    show permits + (0 + early.toNat + pool.notifyAll.total (HashTask.held fun _ => true)) = inFlightLimit
    rw [Pool.total_notifyAll]
    exact hpermits
  | join =>
    cases main <;> try cases hstep
    simp only [stepHash] at hstep
    split at hstep <;> cases hstep
    exact h.withMain rfl rfl rfl (fun hs => by cases hs) rfl rfl
  | destroy =>
    cases main <;> try cases hstep
    simp only [stepHash] at hstep
    split at hstep <;> cases hstep
    exact h.withMain rfl rfl rfl (fun hs => by cases hs) rfl rfl
  | look i =>
    obtain ⟨pool', hpool, rfl⟩ := stepHash_look hstep
    obtain ⟨hthreads, hstopped⟩ := Pool.kept_look hpool
    exact h.withPool futures (h.sound.look hpool) hthreads hstopped (fun _ => (Pool.total_look hpool).1)
      fun task htask => ⟨task, (Pool.has_look hpool).1 htask, rfl⟩
  | hash i =>
    obtain ⟨k, data, hi, rfl⟩ := stepHash_hash hstep
    exact h.withTask hi rfl rfl
  | release i =>
    obtain ⟨k, data, result, hi, rfl⟩ := stepHash_release hstep
    exact h.release hi
  | fulfil i =>
    obtain ⟨k, data, result, hi, rfl⟩ := stepHash_fulfil hstep
    refine h.withPool _ (h.sound.setThread trivial (by rw [hi]; rfl)) List.length_set rfl (fun asked => ?_)
      fun task htask => ?_
    · exact Pool.total_setThread (t := .awake) (w := HashTask.held asked) hi
    · rcases Pool.has_of_setThread htask with hold | he
      · exact ⟨task, hold, rfl⟩
      · cases he
  | rouse i =>
    obtain ⟨pool', hpool, rfl⟩ := stepHash_rouse hstep
    obtain ⟨hthreads, hstopped⟩ := Pool.kept_rouse hpool
    exact h.withPool futures (h.sound.rouse hpool) hthreads hstopped (fun _ => (Pool.total_rouse hpool).1)
      fun task htask => ⟨task, (Pool.has_rouse hpool).1 htask, rfl⟩
  | rouseMain =>
    cases main <;> cases hstep
    exact h.withMain rfl rfl rfl (fun hs => by cases hs) rfl rfl

/-! ## Results -/

/-- What the task computed, once it has. -/
def HashStage.result : HashStage → Option (Option String)
  | .computing => none
  | .releasing result | .fulfilling result => some result

namespace HashPhase

/-- What has not been handed to a task. -/
def ahead : HashPhase → List Bytes
  | .acquiring data rest | .sleeping data rest | .enqueueing data rest => data :: rest
  | .reading rest | .notifying rest | .leaving rest => rest
  | _ => []

/-- What the caller has taken from the futures. -/
def hashes : HashPhase → List String
  | .collecting hashes | .stopping hashes | .notifyingAll hashes | .joining hashes | .returned hashes => hashes
  | _ => []

/-- The loop that takes the results is over. -/
def collected : HashPhase → Bool
  | .stopping _ | .notifyingAll _ | .joining _ | .returned _ => true
  | _ => false

section
variable (phase : HashPhase)

@[simp] theorem woken_ahead : phase.woken.ahead = phase.ahead := by cases phase <;> rfl
@[simp] theorem woken_hashes : phase.woken.hashes = phase.hashes := by cases phase <;> rfl
@[simp] theorem woken_collected : phase.woken.collected = phase.collected := by cases phase <;> rfl
@[simp] theorem woken_eq_returned {hashes : List String} : phase.woken = .returned hashes ↔ phase = .returned hashes := by
  cases phase <;> simp [woken]
@[simp] theorem woken_doomed : phase.woken.doomed = phase.doomed := by cases phase <;> rfl

end

end HashPhase

/-- The data of a task is a chunk, and what it has come to is the hash of it. -/
def HashTask.Right (hash : Bytes → Option String) (chunks : List Bytes) (task : HashTask) : Prop :=
  chunks[task.index]? = some task.data ∧ ∀ result ∈ task.stage.result, result = hash task.data

/-- Every chunk is ahead, with a task, or in its future. -/
structure Filled (hash : Bytes → Option String) (chunks : List Bytes) (s : HashPipeline) : Prop where
  ahead : s.main.ahead = chunks.drop s.pushed
  pushed : s.pushed ≤ chunks.length
  tasks : ∀ task, s.pool.Has task → task.Right hash chunks
  futures : ∀ k, ∀ result ∈ s.futures k, (chunks[k]?).map hash = some result
  waiting : ∀ k < s.pushed, s.futures k = none → ∃ task, s.pool.Has task ∧ task.index = k
  hashes : s.main.hashes.map some = (chunks.take s.main.hashes.length).map hash
  collected : s.main.collected = true → s.main.hashes.length = chunks.length
  doomed : s.main.doomed = true → none ∈ chunks.map hash

variable {hash : Bytes → Option String} {chunks : List Bytes}

theorem filled_init (n : Nat) : Filled hash chunks (.init n chunks) where
  ahead := rfl
  pushed := Nat.zero_le _
  tasks task h := by
    rcases h with h | h
    · cases h
    · cases List.eq_of_mem_replicate h
  futures k result h := by cases h
  waiting k h := by cases h
  hashes := rfl
  collected h := by cases h
  doomed h := by cases h

namespace Filled

variable {s : HashPipeline}

/-- A step of a thread that has no result yet. -/
theorem withPool (h : Filled hash chunks s) {pool : Pool HashTask} (hhas : ∀ task, pool.Has task ↔ s.pool.Has task) :
    Filled hash chunks { s with pool := pool } where
  ahead := h.ahead
  pushed := h.pushed
  tasks task htask := h.tasks task ((hhas task).1 htask)
  futures := h.futures
  waiting k hk hnone := by
    obtain ⟨task, htask, hindex⟩ := h.waiting k hk hnone
    exact ⟨task, (hhas task).2 htask, hindex⟩
  hashes := h.hashes
  collected := h.collected
  doomed := h.doomed

theorem withMain (h : Filled hash chunks s) {phase : HashPhase} {permits : Nat} {early : Bool}
    (hahead : phase.ahead = s.main.ahead) (hhashes : phase.hashes = s.main.hashes)
    (hcollected : phase.collected = true → phase.hashes.length = chunks.length)
    (hdoomed : phase.doomed = true → none ∈ chunks.map hash) :
    Filled hash chunks { s with main := phase, permits := permits, early := early } where
  ahead := hahead.trans h.ahead
  pushed := h.pushed
  tasks := h.tasks
  futures := h.futures
  waiting := h.waiting
  hashes := by
    show phase.hashes.map some = (chunks.take phase.hashes.length).map hash
    rw [hhashes]
    exact h.hashes
  collected := hcollected
  doomed := hdoomed

/-- The task is further on. -/
theorem withTask (h : Filled hash chunks s) {i : Nat} {task : HashTask} (task' : HashTask)
    (hi : s.pool.threads[i]? = some (.running task)) (hindex : task'.index = task.index)
    (hright : task'.Right hash chunks) : Filled hash chunks { s with pool := s.pool.setThread i (.running task') } where
  ahead := h.ahead
  pushed := h.pushed
  tasks other hother := by
    rcases Pool.has_of_setThread hother with hold | he
    · exact h.tasks other hold
    · obtain rfl := Phase.running.inj he
      exact hright
  futures := h.futures
  waiting k hk hnone := by
    obtain ⟨other, hother, hk⟩ := h.waiting k hk hnone
    by_cases he : other = task
    · exact ⟨task', Pool.has_setThread_self hi, by rw [hindex, ← he, hk]⟩
    · exact ⟨other, Pool.has_setThread_of_ne hi hother he, hk⟩
  hashes := h.hashes
  collected := h.collected
  doomed := h.doomed

/-- The task has kept its promise. -/
theorem fulfil (h : Filled hash chunks s) {i k : Nat} {data : Bytes} {result : Option String}
    (hi : s.pool.threads[i]? = some (.running ⟨k, data, .fulfilling result⟩)) :
    Filled hash chunks { s with
      pool := s.pool.setThread i .awake
      futures := Function.update s.futures k (some result) } where
  ahead := h.ahead
  pushed := h.pushed
  tasks task htask := by
    rcases Pool.has_of_setThread htask with hold | he
    · exact h.tasks task hold
    · cases he
  futures k' result' hresult := by
    have hright := h.tasks _ (Or.inr (List.mem_iff_getElem?.2 ⟨i, hi⟩))
    change result' ∈ Function.update s.futures k (some result) k' at hresult
    rcases eq_or_ne k' k with rfl | hne
    · rw [Function.update_self] at hresult
      obtain rfl := Option.some.inj hresult
      rw [hright.1, Option.map_some, hright.2 result rfl]
    · rw [Function.update_of_ne hne] at hresult
      exact h.futures k' result' hresult
  waiting k' hk hnone := by
    change Function.update s.futures k (some result) k' = none at hnone
    rcases eq_or_ne k' k with rfl | hne
    · rw [Function.update_self] at hnone
      cases hnone
    · rw [Function.update_of_ne hne] at hnone
      obtain ⟨other, hother, hindex⟩ := h.waiting k' hk hnone
      refine ⟨other, Pool.has_setThread_of_ne hi hother fun he => hne ?_, hindex⟩
      rw [← hindex, he]
  hashes := h.hashes
  collected := h.collected
  doomed := h.doomed

/-- The next result, in order. -/
theorem hashes_collect {hs : List String} {result : Option String}
    (hhashes : hs.map some = (chunks.take hs.length).map hash) (hnext : (chunks[hs.length]?).map hash = some result) :
    hs.map some ++ [result] = (chunks.take (hs.length + 1)).map hash := by
  obtain ⟨data, hdata, rfl⟩ := Option.map_eq_some_iff.1 hnext
  rw [List.take_add_one, hdata, hhashes, List.map_append]
  rfl

end Filled

theorem filled_step {s t : HashPipeline} {a : HashStep} (h : Filled hash chunks s) (hstep : stepHash hash s a = some t) :
    Filled hash chunks t := by
  obtain ⟨main, permits, early, pool, pushed, futures⟩ := s
  cases a with
  | read =>
    cases main <;> try cases hstep
    rename_i rest
    cases rest <;> cases hstep <;> exact h.withMain rfl rfl (fun hc => by cases hc) (fun ht => by cases ht)
  | acquire =>
    cases main <;> try cases hstep
    simp only [stepHash] at hstep
    split at hstep <;> cases hstep <;> exact h.withMain rfl rfl (fun hc => by cases hc) (fun ht => by cases ht)
  | enqueue =>
    cases main <;> cases hstep
    rename_i data rest
    have hahead : data :: rest = chunks.drop pushed := h.ahead
    have hlt : pushed < chunks.length := by
      have hlen := congrArg List.length hahead
      rw [List.length_cons, List.length_drop] at hlen
      omega
    rw [List.drop_eq_getElem_cons hlt, List.cons.injEq] at hahead
    have hdata : chunks[pushed]? = some data := by rw [List.getElem?_eq_getElem hlt, hahead.1]
    refine ⟨hahead.2, hlt, fun task htask => ?_, h.futures, fun k hk hnone => ?_, h.hashes, (fun hc => by cases hc),
      (fun ht => by cases ht)⟩
    · rcases Pool.has_push.1 htask with hold | rfl
      · exact h.tasks task hold
      · exact ⟨hdata, fun result hresult => by cases hresult⟩
    · rcases Nat.lt_succ_iff_lt_or_eq.1 hk with hlt | rfl
      · obtain ⟨task, htask, hindex⟩ := h.waiting k hlt hnone
        exact ⟨task, Pool.has_push.2 (Or.inl htask), hindex⟩
      · exact ⟨_, Pool.has_push.2 (Or.inr rfl), rfl⟩
  | notify i =>
    cases main <;> try cases hstep
    obtain ⟨pool', hpool, rfl⟩ := Option.map_eq_some_iff.1 hstep
    exact (h.withPool fun task => Pool.has_notifyOne hpool).withMain rfl rfl (fun hc => by cases hc)
      (fun ht => by cases ht)
  | leave =>
    cases main <;> cases hstep
    exact h.withMain rfl rfl (fun hc => by cases hc) (fun ht => by cases ht)
  | collect =>
    cases main <;> try cases hstep
    rename_i hs
    have hhashes : hs.map some = (chunks.take hs.length).map hash := h.hashes
    have hpushed : pushed ≤ chunks.length := h.pushed
    simp only [stepHash] at hstep
    split at hstep
    · split at hstep <;> cases hstep <;> rename_i hresult
      · have hmore := Filled.hashes_collect hhashes (h.futures _ _ hresult)
        refine ⟨h.ahead, h.pushed, h.tasks, h.futures, h.waiting, ?_, (fun hc => by cases hc), (fun ht => by cases ht)⟩
        show (hs ++ [_]).map some = (chunks.take (hs ++ [_]).length).map hash
        rw [List.map_append, List.length_append]
        exact hmore
      · refine ⟨h.ahead, h.pushed, h.tasks, h.futures, h.waiting, rfl, (fun hc => by cases hc), fun _ => ?_⟩
        obtain ⟨data, hdata, hnone⟩ := Option.map_eq_some_iff.1 (h.futures _ _ hresult)
        exact List.mem_map.2 ⟨data, List.mem_of_getElem? hdata, hnone⟩
    · rename_i hdone
      have hdone : ¬ hs.length < pushed := hdone
      cases hstep
      have hall : chunks.length ≤ pushed := List.drop_eq_nil_iff.1 h.ahead.symm
      refine h.withMain rfl rfl (fun _ => ?_) (fun ht => by cases ht)
      have hlen := congrArg List.length hhashes
      rw [List.length_map, List.length_map, List.length_take] at hlen
      show hs.length = chunks.length
      omega
  | stop =>
    cases main <;> cases hstep
    exact ⟨h.ahead, h.pushed, h.tasks, h.futures, h.waiting, h.hashes, fun _ => h.collected rfl, (fun ht => by cases ht)⟩
  | notifyAll =>
    cases main <;> cases hstep
    exact (h.withPool fun _ => Pool.has_notifyAll).withMain rfl rfl (fun _ => h.collected rfl) (fun ht => by cases ht)
  | join =>
    cases main <;> try cases hstep
    simp only [stepHash] at hstep
    split at hstep <;> cases hstep
    exact h.withMain rfl rfl (fun _ => h.collected rfl) (fun ht => by cases ht)
  | destroy =>
    cases main <;> try cases hstep
    simp only [stepHash] at hstep
    split at hstep <;> cases hstep
    exact h.withMain rfl rfl (fun hc => by cases hc) (fun _ => h.doomed rfl)
  | look i =>
    obtain ⟨pool', hpool, rfl⟩ := stepHash_look hstep
    exact h.withPool fun _ => Pool.has_look hpool
  | hash i =>
    obtain ⟨k, data, hi, rfl⟩ := stepHash_hash hstep
    have hright := h.tasks _ (Or.inr (List.mem_iff_getElem?.2 ⟨i, hi⟩))
    exact h.withTask _ hi rfl ⟨hright.1, fun result hresult => (Option.some.inj hresult).symm⟩
  | release i =>
    obtain ⟨k, data, result, hi, rfl⟩ := stepHash_release hstep
    have hright : HashTask.Right hash chunks ⟨k, data, .fulfilling result⟩ :=
      h.tasks ⟨k, data, .releasing result⟩ (Or.inr (List.mem_iff_getElem?.2 ⟨i, hi⟩))
    have htask := h.withTask ⟨k, data, .fulfilling result⟩ hi rfl hright
    split
    · exact htask.withMain rfl rfl htask.collected htask.doomed
    · refine htask.withMain main.woken_ahead main.woken_hashes (fun hc => ?_) (fun ht => ?_)
      · rw [HashPhase.woken_collected] at hc
        rw [HashPhase.woken_hashes]
        exact h.collected hc
      · rw [HashPhase.woken_doomed] at ht
        exact h.doomed ht
  | fulfil i =>
    obtain ⟨k, data, result, hi, rfl⟩ := stepHash_fulfil hstep
    exact h.fulfil hi
  | rouse i =>
    obtain ⟨pool', hpool, rfl⟩ := stepHash_rouse hstep
    exact h.withPool fun _ => Pool.has_rouse hpool
  | rouseMain =>
    cases main <;> cases hstep
    exact h.withMain rfl rfl (fun hc => by cases hc) (fun ht => by cases ht)

end StorageEngine
