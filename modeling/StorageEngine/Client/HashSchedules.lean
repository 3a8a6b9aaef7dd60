import StorageEngine.Client.HashPipeline

/-!
# Every schedule of the hashing

Main theorems about `ComputeHashes`, over every order of its threads' steps: at most 32 chunks are in memory
(`hashing_bounded`), and the call comes to an end with the hashes of the pieces of the file, in order, unless a hash throws
(`hashing_complete`).
-/

namespace StorageEngine

open Transition ThreadPool Extent InputStream

variable {hash : Bytes → Option String} {chunks : List Bytes}

/-! ## Progress -/

/-- A thread of the pool that is awake can do something. -/
theorem thread_moves {s : HashPipeline} (hrunning : s.main.ended = false) {i : Nat}
    (hi : s.pool.threads[i]? = some .awake ∨ ∃ task, s.pool.threads[i]? = some (.running task)) :
    ∃ a, a.spurious = false ∧ (stepHash hash s a).isSome := by
  rcases hi with hi | ⟨⟨k, data, stage⟩, hi⟩
  · refine ⟨.look i, rfl, ?_⟩
    simp only [stepHash, hrunning, Bool.false_eq_true, if_false, Option.isSome_map, Pool.look, hi]
    cases s.pool.jobs <;> rfl
  · cases stage with
    | computing => exact ⟨.hash i, rfl, by simp [stepHash, hrunning, hi]⟩
    | releasing result =>
      refine ⟨.release i, rfl, ?_⟩
      simp only [stepHash, hrunning, Bool.false_eq_true, if_false, hi]
      split <;> rfl
    | fulfilling result => exact ⟨.fulfil i, rfl, by simp [stepHash, hrunning, hi]⟩

/-- **No deadlock**: until the call is over or an exception has left its loop, someone can go on. -/
theorem hash_progress {n : Nat} {s : HashPipeline} (h : Coordinated n s) (hfilled : Filled hash chunks s)
    (hrunning : s.main.ended = false) (hsafe : s.main.doomed = false) : ∃ a, a.spurious = false ∧ (stepHash hash s a).isSome := by
  obtain ⟨main, permits, early, pool, pushed, futures⟩ := s
  cases main with
  | reading rest => exact ⟨.read, rfl, by cases rest <;> rfl⟩
  | acquiring data rest =>
    refine ⟨.acquire, rfl, ?_⟩
    simp only [stepHash]
    split <;> rfl
  | sleeping data rest =>
    -- the permits are with tasks, and nobody owes the pool a notification
    have hnone : permits = 0 := h.sleeps rfl
    have hearly : early = false := by
      cases early
      · rfl
      · cases h.early rfl
    subst hnone hearly
    have hpermits : 0 + (0 + 0 + pool.total (HashTask.held fun _ => true)) = inFlightLimit := h.permits
    obtain ⟨task, htask, -⟩ := Pool.exists_of_total_pos (p := pool) (w := HashTask.held fun _ => true) (by
      rw [inFlightLimit] at hpermits
      omega)
    obtain ⟨i, hi⟩ := h.sound.busy_of_has htask (fun ho => by cases ho)
    exact thread_moves hrunning hi
  | enqueueing data rest => exact ⟨.enqueue, rfl, rfl⟩
  | notifying rest =>
    by_cases hasleep : pool.threads.any Phase.isAsleep
    · obtain ⟨t, ht, he⟩ := List.any_eq_true.1 hasleep
      obtain ⟨i, hi⟩ := List.mem_iff_getElem?.1 ht
      cases t <;> cases he
      exact ⟨.notify i, rfl, by simp [stepHash, Pool.notifyOne, hasleep, hi]⟩
    · exact ⟨.notify 0, rfl, by simp [stepHash, Pool.notifyOne, hasleep]⟩
  | leaving rest => exact ⟨.leave, rfl, rfl⟩
  | collecting hs =>
    by_cases hlt : hs.length < pushed
    · cases hfuture : futures hs.length with
      | some result =>
        refine ⟨.collect, rfl, ?_⟩
        cases result <;> simp [stepHash, hlt, hfuture]
      | none =>
        obtain ⟨task, htask, -⟩ := hfilled.waiting _ hlt hfuture
        obtain ⟨i, hi⟩ := h.sound.busy_of_has htask (fun ho => by cases ho)
        exact thread_moves hrunning hi
    · exact ⟨.collect, rfl, by simp [stepHash, hlt]⟩
  | stopping hs => exact ⟨.stop, rfl, rfl⟩
  | notifyingAll hs => exact ⟨.notifyAll, rfl, rfl⟩
  | joining hs =>
    by_cases hjoin : (stepHash hash ⟨.joining hs, permits, early, pool, pushed, futures⟩ .join).isSome
    · exact ⟨.join, rfl, hjoin⟩
    · simp only [stepHash] at hjoin
      split at hjoin
      · exact absurd rfl hjoin
      rename_i hall
      rw [List.all_eq_true] at hall
      push Not at hall
      obtain ⟨t, ht, hne⟩ := hall
      obtain ⟨i, hi⟩ := List.mem_iff_getElem?.1 ht
      cases t with
      | awake => exact thread_moves hrunning (Or.inl hi)
      | running task => exact thread_moves hrunning (Or.inr ⟨task, hi⟩)
      | asleep => exact absurd ht (h.sound.roused h.stopped (fun ho => by cases ho))
      | exited => exact absurd rfl hne
  | returned hs => cases hrunning
  | unwinding => cases hsafe
  | terminated => cases hsafe

/-- A sleeping thread of the pool does nothing of itself. -/
theorem asleep_stuck {s : HashPipeline} {i : Nat} (hasleep : ∀ x ∈ s.pool.threads, x = .asleep) :
    stepHash hash s (.look i) = none ∧ stepHash hash s (.hash i) = none ∧ stepHash hash s (.release i) = none ∧
      stepHash hash s (.fulfil i) = none := by
  have hi : s.pool.threads[i]? = none ∨ s.pool.threads[i]? = some .asleep := by
    cases hi : s.pool.threads[i]? with
    | none => exact Or.inl rfl
    | some x => exact Or.inr (congrArg some (hasleep x (List.mem_of_getElem? hi)))
  rcases hi with hi | hi <;> simp [stepHash, Pool.look, hi]

/-- **A hash that throws leaves the call stuck** as soon as all threads of the pool sleep, and not before. -/
theorem unwinding_stuck_iff {n : Nat} (hn : 0 < n) {s : HashPipeline} (h : Coordinated n s) (hmain : s.main = .unwinding) :
    (∀ a, a.spurious = false → stepHash hash s a = none) ↔ ∀ x ∈ s.pool.threads, x = .asleep := by
  have hrunning : s.main.ended = false := by rw [hmain]; rfl
  constructor
  · intro hstuck x hx
    obtain ⟨i, hi⟩ := List.mem_iff_getElem?.1 hx
    have hnone : ¬ ∃ a, a.spurious = false ∧ (stepHash hash s a).isSome := fun ⟨a, ha, hsome⟩ => by
      rw [hstuck a ha] at hsome
      cases hsome
    cases x with
    | awake => exact absurd (thread_moves hrunning (Or.inl hi)) hnone
    | running task => exact absurd (thread_moves hrunning (Or.inr ⟨task, hi⟩)) hnone
    | asleep => rfl
    | exited =>
      have hstopped := h.stopped
      rw [h.sound.stayed hx, hmain] at hstopped
      cases hstopped
  · intro hasleep a ha
    cases a with
    | destroy =>
      obtain ⟨x, hx⟩ := List.exists_mem_of_length_pos (h.threads.symm ▸ hn)
      have hany : s.pool.threads.any Phase.isAsleep = true := List.any_eq_true.2 ⟨x, hx, by rw [hasleep x hx]; rfl⟩
      simp only [stepHash, hmain, hany, if_true]
    | look i => exact (asleep_stuck hasleep).1
    | hash i => exact (asleep_stuck hasleep).2.1
    | release i => exact (asleep_stuck hasleep).2.2.1
    | fulfil i => exact (asleep_stuck hasleep).2.2.2
    | rouse i => cases ha
    | rouseMain => cases ha
    | _ => simp only [stepHash, hmain]

/-- The only thread sleeps, and so does the call in the destructor. -/
example : (exec (stepHash fun _ => none) (.init 1 [[1]])
    [.read, .acquire, .enqueue, .notify 0, .leave, .read, .look 0, .hash 0, .release 0, .fulfil 0, .collect, .look 0]).map
      (fun s => (s.main, stepHash (fun _ => none) s .destroy)) = some (.unwinding, none) := rfl

/-- The way out of an exception does not lead back. -/
theorem doomed_step {s t : HashPipeline} {a : HashStep} (hdoomed : s.main.doomed = true) (hstep : stepHash hash s a = some t) :
    t.main.doomed = true := by
  obtain ⟨main, permits, early, pool, pushed, futures⟩ := s
  cases a with
  | look i =>
    obtain ⟨pool', -, rfl⟩ := stepHash_look hstep
    exact hdoomed
  | hash i =>
    obtain ⟨k, data, -, rfl⟩ := stepHash_hash hstep
    exact hdoomed
  | release i =>
    obtain ⟨k, data, result, -, rfl⟩ := stepHash_release hstep
    split
    · exact hdoomed
    · exact (HashPhase.woken_doomed main).trans hdoomed
  | fulfil i =>
    obtain ⟨k, data, result, -, rfl⟩ := stepHash_fulfil hstep
    exact hdoomed
  | rouse i =>
    obtain ⟨pool', -, rfl⟩ := stepHash_rouse hstep
    exact hdoomed
  | destroy =>
    cases main <;> try cases hstep
    simp only [stepHash] at hstep
    split at hstep <;> cases hstep
    rfl
  | _ => cases main <;> cases hdoomed <;> cases hstep

/-! ## An end -/

/-- The steps a task has before it. -/
def HashTask.effort (task : HashTask) : Nat :=
  match task.stage with
  | .computing => 5
  | .releasing _ => 4
  | .fulfilling _ => 2

/-- The steps the calling thread has before it, and those it makes others take. -/
def HashPhase.effort (pushed threadCount : Nat) : HashPhase → Nat
  | .reading rest => 13 * rest.length + pushed + threadCount + 5
  | .acquiring _ rest => 13 * rest.length + pushed + threadCount + 17
  | .sleeping _ rest => 13 * rest.length + pushed + threadCount + 16
  | .enqueueing _ rest => 13 * rest.length + pushed + threadCount + 15
  | .notifying rest => 13 * rest.length + pushed + threadCount + 8
  | .leaving rest => 13 * rest.length + pushed + threadCount + 6
  | .collecting hashes => (pushed - hashes.length) + threadCount + 4
  | .stopping _ => threadCount + 3
  | .notifyingAll _ => threadCount + 2
  | .joining _ | .unwinding => 1
  | .returned _ | .terminated => 0

theorem HashPhase.effort_woken (phase : HashPhase) (pushed n : Nat) :
    phase.woken.effort pushed n ≤ phase.effort pushed n + 1 := by
  cases phase <;> simp only [woken, effort] <;> omega

/-- A bound on the steps that are left, wakeups for no reason apart. -/
def HashPipeline.effort (s : HashPipeline) : Nat :=
  s.main.effort s.pushed s.pool.threads.length + s.pool.total HashTask.effort + s.pool.alert

/-- **Each step counts down**, but one in which a thread wakes up for no reason. -/
theorem effort_step {s t : HashPipeline} {a : HashStep} (ha : a.spurious = false) (hstep : stepHash hash s a = some t) :
    t.effort + 1 ≤ s.effort := by
  obtain ⟨main, permits, early, pool, pushed, futures⟩ := s
  cases a with
  | read =>
    cases main <;> try cases hstep
    rename_i rest
    cases rest <;> cases hstep <;> simp only [HashPipeline.effort, HashPhase.effort, List.length_cons] <;> omega
  | acquire =>
    cases main <;> try cases hstep
    simp only [stepHash] at hstep
    split at hstep <;> cases hstep <;> simp only [HashPipeline.effort, HashPhase.effort] <;> omega
  | enqueue =>
    cases main <;> cases hstep
    simp only [HashPipeline.effort, HashPhase.effort, Pool.total_push, Pool.alert_push, HashTask.effort,
      Pool.push_threads]
    omega
  | notify i =>
    cases main <;> try cases hstep
    obtain ⟨pool', hpool, rfl⟩ := Option.map_eq_some_iff.1 hstep
    have hthreads : pool'.threads.length = pool.threads.length := (Pool.kept_notifyOne hpool).1
    obtain ⟨htotal, halert⟩ : pool'.total HashTask.effort = pool.total HashTask.effort ∧ pool'.alert ≤ pool.alert + 1 :=
      Pool.total_notifyOne hpool
    simp only [HashPipeline.effort, HashPhase.effort, htotal, hthreads]
    omega
  | leave =>
    cases main <;> cases hstep
    simp only [HashPipeline.effort, HashPhase.effort]
    omega
  | collect =>
    cases main <;> try cases hstep
    simp only [stepHash] at hstep
    split at hstep
    · split at hstep <;> cases hstep <;>
        simp only [HashPipeline.effort, HashPhase.effort, List.length_append, List.length_singleton] <;> omega
    · cases hstep
      simp only [HashPipeline.effort, HashPhase.effort]
      omega
  | stop =>
    cases main <;> cases hstep
    simp only [HashPipeline.effort, HashPhase.effort, Pool.stop, Pool.total, Pool.alert]
    omega
  | notifyAll =>
    cases main <;> cases hstep
    have halert := Pool.alert_notifyAll (p := pool)
    simp only [HashPipeline.effort, HashPhase.effort, Pool.total_notifyAll]
    omega
  | join =>
    cases main <;> try cases hstep
    simp only [stepHash] at hstep
    split at hstep <;> cases hstep
    simp only [HashPipeline.effort, HashPhase.effort]
    omega
  | destroy =>
    cases main <;> try cases hstep
    simp only [stepHash] at hstep
    split at hstep <;> cases hstep
    simp only [HashPipeline.effort, HashPhase.effort]
    omega
  | look i =>
    obtain ⟨pool', hpool, rfl⟩ := stepHash_look hstep
    obtain ⟨htotal, halert⟩ : pool'.total HashTask.effort = pool.total HashTask.effort ∧ pool'.alert + 1 = pool.alert :=
      Pool.total_look hpool
    simp only [HashPipeline.effort, htotal, (Pool.kept_look hpool).1]
    omega
  | hash i =>
    obtain ⟨k, data, hi, rfl⟩ := stepHash_hash hstep
    have htotal := Pool.total_setThread (t := .running ⟨k, data, .releasing (hash data)⟩) (w := HashTask.effort) hi
    have halert := Pool.alert_setThread (t := .running ⟨k, data, .releasing (hash data)⟩) hi
    simp only [HashPipeline.effort, Pool.setThread_threads, List.length_set, Phase.weight, Phase.alert, HashTask.effort]
      at htotal halert ⊢
    omega
  | release i =>
    obtain ⟨k, data, result, hi, rfl⟩ := stepHash_release hstep
    have htotal := Pool.total_setThread (t := .running ⟨k, data, .fulfilling result⟩) (w := HashTask.effort) hi
    have halert := Pool.alert_setThread (t := .running ⟨k, data, .fulfilling result⟩) hi
    have hwoken := main.effort_woken pushed pool.threads.length
    split <;>
      simp only [HashPipeline.effort, Pool.setThread_threads, List.length_set, Phase.weight, Phase.alert, HashTask.effort]
        at htotal halert ⊢ <;>
      omega
  | fulfil i =>
    obtain ⟨k, data, result, hi, rfl⟩ := stepHash_fulfil hstep
    have htotal := Pool.total_setThread (t := .awake) (w := HashTask.effort) hi
    have halert := Pool.alert_setThread (t := .awake) hi
    simp only [HashPipeline.effort, Pool.setThread_threads, List.length_set, Phase.weight, Phase.alert, HashTask.effort]
      at htotal halert ⊢
    omega
  | rouse i => cases ha
  | rouseMain => cases ha

theorem effort_spurious {s t : HashPipeline} {a : HashStep} (ha : a.spurious = true)
    (hstep : stepHash hash s a = some t) : t.effort ≤ s.effort + 1 := by
  obtain ⟨main, permits, early, pool, pushed, futures⟩ := s
  cases a with
  | rouse i =>
    obtain ⟨pool', hpool, rfl⟩ := stepHash_rouse hstep
    obtain ⟨htotal, halert⟩ := Pool.total_rouse (w := HashTask.effort) hpool
    simp only [HashPipeline.effort, htotal, halert, (Pool.kept_rouse hpool).1]
    omega
  | rouseMain =>
    cases main <;> cases hstep
    simp only [HashPipeline.effort, HashPhase.effort]
    omega
  | _ => cases ha

theorem effort_init (n : Nat) : (HashPipeline.init n chunks).effort = 13 * chunks.length + 2 * n + 5 := by
  have htotal := Pool.total_start (w := HashTask.effort) n
  have halert := Pool.alert_start (J := HashTask) n
  have hthreads : (Pool.start n : Pool HashTask).threads.length = n := List.length_replicate
  simp only [HashPipeline.effort, HashPipeline.init, HashPhase.effort, htotal, halert, hthreads]
  omega

/-! ## Every schedule -/

section
variable {n : Nat} {as : List HashStep} {s : HashPipeline}

theorem coordinated_run (hn : 0 < n) (hrun : exec (stepHash hash) (.init n chunks) as = some s) : Coordinated n s :=
  exec_inv (fun _ _ _ h hstep => coordinated_step hn h hstep) (coordinated_init n chunks) hrun

theorem filled_run (hrun : exec (stepHash hash) (.init n chunks) as = some s) : Filled hash chunks s :=
  exec_inv (fun _ _ _ h hstep => filled_step h hstep) (filled_init n) hrun

/-- What is returned are the hashes of all chunks. -/
theorem hashes_of_returned (hrun : exec (stepHash hash) (.init n chunks) as = some s) {hashes : List String}
    (hdone : s.main = .returned hashes) : hashes.map some = chunks.map hash := by
  have hfilled := filled_run hrun
  have hall := hfilled.hashes
  rw [hfilled.collected (by rw [hdone]; rfl), List.take_length, hdone] at hall
  exact hall

end

theorem running_of_step {s t : HashPipeline} {a : HashStep} (hstep : stepHash hash s a = some t) :
    s.main.ended = false := by
  obtain ⟨main, permits, early, pool, pushed, futures⟩ := s
  cases main with
  | returned hashes => cases a <;> cases hstep
  | terminated => cases a <;> cases hstep
  | _ => rfl

/-- When the call returns, the threads of the pool are gone. -/
def HashPipeline.Joined (s : HashPipeline) : Prop :=
  ∀ hashes, s.main = .returned hashes → ∀ x ∈ s.pool.threads, x = .exited

theorem joined_step {s t : HashPipeline} {a : HashStep} (hstep : stepHash hash s a = some t) : t.Joined := by
  intro hashes hdone
  have hrunning := running_of_step hstep
  have hother : s.main ≠ .returned hashes := fun he => by rw [he] at hrunning; cases hrunning
  obtain ⟨main, permits, early, pool, pushed, futures⟩ := s
  cases a with
  | join =>
    cases main <;> try cases hstep
    simp only [stepHash] at hstep
    split at hstep <;> cases hstep
    rename_i hall
    intro x hx
    have hexited := List.all_eq_true.1 hall x hx
    cases x <;> first | rfl | cases hexited
  | look i =>
    obtain ⟨pool', -, rfl⟩ := stepHash_look hstep
    exact absurd hdone hother
  | hash i =>
    obtain ⟨k, data, -, rfl⟩ := stepHash_hash hstep
    exact absurd hdone hother
  | release i =>
    obtain ⟨k, data, result, -, rfl⟩ := stepHash_release hstep
    split at hdone
    · exact absurd hdone hother
    · exact absurd ((HashPhase.woken_eq_returned main).1 hdone) hother
  | fulfil i =>
    obtain ⟨k, data, result, -, rfl⟩ := stepHash_fulfil hstep
    exact absurd hdone hother
  | rouse i =>
    obtain ⟨pool', -, rfl⟩ := stepHash_rouse hstep
    exact absurd hdone hother
  | notify i =>
    cases main <;> try cases hstep
    obtain ⟨pool', -, rfl⟩ := Option.map_eq_some_iff.1 hstep
    cases hdone
  | read =>
    cases main <;> try cases hstep
    rename_i rest
    cases rest <;> cases hstep <;> cases hdone
  | acquire =>
    cases main <;> try cases hstep
    simp only [stepHash] at hstep
    split at hstep <;> (cases hstep; cases hdone)
  | collect =>
    cases main <;> try cases hstep
    simp only [stepHash] at hstep
    split at hstep
    · split at hstep <;> cases hstep <;> cases hdone
    · cases hstep
      cases hdone
  | destroy =>
    cases main <;> try cases hstep
    simp only [stepHash] at hstep
    split at hstep <;> cases hstep
    cases hdone
  | _ =>
    cases main <;> cases hstep
    cases hdone

/-- **No more than 32 chunks are in memory**, whatever the threads do; when the call returns, every permit is back. -/
theorem hashing_bounded {n : Nat} (hn : 0 < n) {as : List HashStep} {s : HashPipeline}
    (hrun : exec (stepHash hash) (.init n chunks) as = some s) :
    s.permits + s.inFlight = inFlightLimit ∧ ∀ hashes, s.main = .returned hashes → s.permits = inFlightLimit := by
  have h := coordinated_run hn hrun
  refine ⟨h.permits, fun hashes hdone => ?_⟩
  have hjoined : s.Joined := exec_inv (fun _ _ _ _ hstep => joined_step hstep) (fun _ hdone => by cases hdone) hrun
  have hgone := hjoined hashes hdone
  -- with all threads gone, nobody would come for a job
  have hempty : ∀ task, ¬ s.pool.Has task := fun task htask => by
    obtain ⟨i, hi⟩ := h.sound.busy_of_has htask (by rw [hdone]; exact Bool.false_ne_true)
    rcases hi with hi | ⟨job, hi⟩
    · cases hgone _ (List.mem_of_getElem? hi)
    · cases hgone _ (List.mem_of_getElem? hi)
  have hearly : s.early = false := by
    cases he : s.early with
    | false => rfl
    | true =>
      have hturn := h.early he
      rw [hdone] at hturn
      cases hturn
  have hpermits := h.permits
  rw [HashPipeline.inFlight, hdone, hearly, Pool.total_eq_zero fun task htask => (hempty task htask).elim] at hpermits
  exact hpermits

/-- Two chunks and one thread, which is done with the first chunk before the caller has left the turn. -/
def sampleHashing : List HashStep :=
  [.read, .acquire, .enqueue, .notify 0, .look 0, .hash 0, .release 0, .leave, .fulfil 0, .read, .look 0, .acquire,
    .enqueue, .notify 0, .leave, .look 0, .hash 0, .release 0, .read, .fulfil 0, .collect, .collect, .collect, .look 0,
    .stop, .notifyAll, .look 0, .join]

/-- Tells a whole chunk from the tail. -/
def sizeHash (data : Bytes) : Option String := some (if data.length = 2 then "two" else "one")

theorem hashing_bounded_sample : ∃ s, exec (stepHash sizeHash) (.init 1 [[1, 2], [3]]) sampleHashing = some s ∧
    s.main = .returned ["two", "one"] ∧ s.permits = inFlightLimit :=
  have hrun : exec (stepHash sizeHash) (.init 1 [[1, 2], [3]]) sampleHashing = some _ := rfl
  ⟨_, hrun, rfl, (hashing_bounded Nat.one_pos hrun).2 _ rfl⟩

/-- **`ComputeHashes` comes to an end**: a run is as long as the file allows, and longer by the times a thread wakes up for
no reason; nobody waits for ever; and what is returned are the hashes of the pieces of the file, in order. Only where a
hash throws does the call not return; it is then stuck once all threads of the pool sleep. -/
theorem hashing_complete {chunkSize : Nat} (hsize : 0 < chunkSize) {content : Bytes} {turns : Nat}
    (hturns : (pieces chunkSize content).length + 2 ≤ turns)
    (hread : hashedChunks chunkSize turns (.opened content) = some chunks) {n : Nat}
    (hn : 0 < n) {as : List HashStep} {s : HashPipeline} (hrun : exec (stepHash hash) (.init n chunks) as = some s) :
    as.countP (!HashStep.spurious ·) ≤ 13 * chunks.length + 2 * n + 5 + as.countP HashStep.spurious ∧
    (s.main.ended = false → s.main.doomed = false → ∃ a, a.spurious = false ∧ (stepHash hash s a).isSome) ∧
    (∀ hashes, s.main = .returned hashes → hashes.map some = (pieces chunkSize content).map hash) ∧
    (s.main.doomed = true → none ∈ (pieces chunkSize content).map hash ∧
      ∀ as' t, exec (stepHash hash) s as' = some t → t.main.doomed = true) ∧
    (s.main = .unwinding → ((∀ a, a.spurious = false → stepHash hash s a = none) ↔ ∀ x ∈ s.pool.threads, x = .asleep)) := by
  obtain rfl : pieces chunkSize content = chunks :=
    Option.some.inj ((hashedChunks_eq hsize content hturns).symm.trans hread)
  have hcoordinated := coordinated_run hn hrun
  have hfilled := filled_run hrun
  refine ⟨?_, hash_progress hcoordinated hfilled, fun hashes hdone => hashes_of_returned hrun hdone, fun hdoomed =>
    ⟨hfilled.doomed hdoomed, fun as' t hmore => exec_inv (fun _ _ _ hd hstep => doomed_step hd hstep) hdoomed hmore⟩,
    unwinding_stuck_iff hn hcoordinated⟩
  have hcount : s.effort + as.countP (!HashStep.spurious ·) ≤
      (HashPipeline.init n _).effort + as.countP HashStep.spurious :=
    exec_countdown (fun _ _ _ ha hstep => effort_step ha hstep) (fun _ _ _ ha hstep => effort_spurious ha hstep) hrun
  rw [effort_init] at hcount
  omega

theorem hashing_complete_sample : ∃ s, exec (stepHash sizeHash) (.init 1 [[1, 2], [3]]) sampleHashing = some s ∧
    s.main = .returned ["two", "one"] ∧ ["two", "one"].map some = (pieces 2 [1, 2, 3]).map sizeHash :=
  have hread : hashedChunks 2 4 (.opened [1, 2, 3]) = some [[1, 2], [3]] := by decide
  have hrun : exec (stepHash sizeHash) (.init 1 [[1, 2], [3]]) sampleHashing = some _ := rfl
  ⟨_, hrun, rfl, (hashing_complete Nat.two_pos (by decide) hread Nat.one_pos hrun).2.2.1 _ rfl⟩

/-- Where no hash throws, the caller has what an upload starts from. -/
theorem returned_eq_computeHashes {sha256 : Bytes → String} {content : Bytes} {n : Nat} {as : List HashStep}
    {s : HashPipeline} (hrun : exec (stepHash fun data => some (sha256 data)) (.init n (pieces chunkSize content)) as = some s)
    {hashes : List String} (hdone : s.main = .returned hashes) : hashes = computeHashes sha256 content := by
  have hall := hashes_of_returned hrun hdone
  rw [← Function.comp_def some sha256, ← List.map_map] at hall
  exact (List.map_injective_iff.2 (Option.some_injective _)) hall

end StorageEngine
