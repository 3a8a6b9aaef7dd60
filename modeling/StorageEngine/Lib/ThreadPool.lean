import Mathlib

/-!
# A pool of threads

A queue of jobs under a mutex, and threads that take jobs off it or sleep on a condition variable. A critical section is
one step, and a thread that goes to sleep gives up the mutex in it. Who adds a job notifies one thread afterwards, without
the mutex, and who stops the pool notifies all; in between a notification is owed (`owed`, `owedAll`). A thread may wake
up for no reason. `Sound` says that no wakeup is lost; each operation has a lemma that keeps it, and by `Sound.busy` a
job that waits has a thread that is awake.
-/

namespace ThreadPool

universe u

variable {J : Type u}

/-- Where a thread of the pool is. -/
inductive Phase (J : Type u) where
  /-- About to lock the mutex. -/
  | awake
  | asleep
  | running (job : J)
  | exited

/-- The queue, the flag of `shutdown` and the threads. -/
structure Pool (J : Type u) where
  jobs : List J
  stopped : Bool
  threads : List (Phase J)

/-- Neither asleep nor gone. -/
def Phase.Working : Phase J → Prop
  | .awake | .running _ => True
  | .asleep | .exited => False

/-- On the condition variable. -/
def Phase.isAsleep : Phase J → Bool
  | .asleep => true
  | _ => false

namespace Pool

/-- All threads before their first look at the queue. -/
def start (n : Nat) : Pool J := ⟨[], false, List.replicate n .awake⟩

/-- A job at the end of the queue. -/
def push (p : Pool J) (job : J) : Pool J := { p with jobs := p.jobs ++ [job] }

/-- The flag is set; nobody is notified yet. -/
def stop (p : Pool J) : Pool J := { p with stopped := true }

/-- One thread moves on. -/
def setThread (p : Pool J) (i : Nat) (t : Phase J) : Pool J := { p with threads := p.threads.set i t }

/-- `notify_one`: the thread `i` wakes up, and nothing happens where none is asleep. -/
def notifyOne (p : Pool J) (i : Nat) : Option (Pool J) :=
  if p.threads.any Phase.isAsleep then
    match p.threads[i]? with
    | some .asleep => some (p.setThread i .awake)
    | _ => none
  else some p

/-- All sleepers wake up. -/
def notifyAll (p : Pool J) : Pool J :=
  { p with threads := p.threads.map fun t => if t.isAsleep then .awake else t }

/-- A thread locks the mutex, and takes a job, leaves, or goes to sleep. -/
def look (p : Pool J) (i : Nat) : Option (Pool J) :=
  match p.threads[i]?, p.jobs with
  | some .awake, job :: jobs => some { p.setThread i (.running job) with jobs := jobs }
  | some .awake, [] => some (p.setThread i (if p.stopped then .exited else .asleep))
  | _, _ => none

/-- A thread wakes up for no reason. -/
def rouse (p : Pool J) (i : Nat) : Option (Pool J) :=
  match p.threads[i]? with
  | some .asleep => some (p.setThread i .awake)
  | _ => none

section
variable (p : Pool J) (i : Nat) (t : Phase J)

@[simp] theorem push_threads (job : J) : (p.push job).threads = p.threads := rfl
@[simp] theorem setThread_jobs : (p.setThread i t).jobs = p.jobs := rfl
@[simp] theorem setThread_stopped : (p.setThread i t).stopped = p.stopped := rfl
@[simp] theorem setThread_threads : (p.setThread i t).threads = p.threads.set i t := rfl

end

end Pool

/-! ## Threads -/

section
variable {ts : List (Phase J)} {i : Nat} {t t' : Phase J}

theorem mem_set_self (h : ts[i]? = some t') : t ∈ ts.set i t := by
  obtain ⟨hlt, -⟩ := List.getElem?_eq_some_iff.1 h
  exact List.mem_iff_getElem?.2 ⟨i, by rw [List.getElem?_set_self hlt]⟩

/-- The other threads are as they were. -/
theorem mem_set_of_ne (h : ts[i]? = some t') {x : Phase J} (hx : x ∈ ts) (hne : x ≠ t') : x ∈ ts.set i t := by
  obtain ⟨j, hj⟩ := List.mem_iff_getElem?.1 hx
  refine List.mem_iff_getElem?.2 ⟨j, ?_⟩
  rw [List.getElem?_set_ne, hj]
  rintro rfl
  exact hne (Option.some.inj (hj.symm.trans h))

/-- A sum over the threads changes by what the one thread counts. -/
theorem sum_set (w : Phase J → Nat) (t' : Phase J) (h : ts[i]? = some t) :
    ((ts.set i t').map w).sum + w t = (ts.map w).sum + w t' := by
  induction ts generalizing i with
  | nil => cases h
  | cons x ts ih =>
    cases i with
    | zero =>
      obtain rfl := Option.some.inj h
      simp only [List.set_cons_zero, List.map_cons, List.sum_cons]
      omega
    | succ i =>
      have hrest := ih (i := i) h
      simp only [List.set_cons_succ, List.map_cons, List.sum_cons]
      omega

end

/-! ## No wakeup is lost -/

structure Sound (p : Pool J) (owed owedAll : Prop) : Prop where
  attended : p.jobs ≠ [] → ¬ owed → ∃ t ∈ p.threads, t.Working
  stayed : Phase.exited ∈ p.threads → p.stopped = true
  roused : p.stopped = true → ¬ owedAll → Phase.asleep ∉ p.threads

theorem sound_start (n : Nat) (owed owedAll : Prop) : Sound (Pool.start n : Pool J) owed owedAll where
  attended h := absurd rfl h
  stayed h := by cases List.eq_of_mem_replicate h
  roused h := by cases h

namespace Sound

variable {p p' : Pool J} {owed owedAll : Prop} {i : Nat}

/-- A job that waits has a thread that comes for it. -/
theorem busy (h : Sound p owed owedAll) (hjobs : p.jobs ≠ []) (howed : ¬ owed) :
    ∃ i : Nat, p.threads[i]? = some .awake ∨ ∃ job, p.threads[i]? = some (.running job) := by
  obtain ⟨t, ht, hworking⟩ := h.attended hjobs howed
  obtain ⟨i, hi⟩ := List.mem_iff_getElem?.1 ht
  cases t with
  | awake => exact ⟨i, Or.inl hi⟩
  | running job => exact ⟨i, Or.inr ⟨job, hi⟩⟩
  | asleep => exact hworking.elim
  | exited => exact hworking.elim

/-- Whoever adds a job owes a notification. -/
theorem push (h : Sound p owed owedAll) (job : J) {owed' : Prop} (howed' : owed') : Sound (p.push job) owed' owedAll where
  attended _ howed := absurd howed' howed
  stayed := h.stayed
  roused := h.roused

theorem stop (h : Sound p owed owedAll) {owedAll' : Prop} (howedAll' : owedAll') : Sound p.stop owed owedAll' where
  attended := h.attended
  stayed _ := rfl
  roused _ howed := absurd howedAll' howed

theorem notifyAll (h : Sound p owed owedAll) (owedAll' : Prop) : Sound p.notifyAll owed owedAll' where
  attended hjobs howed := by
    obtain ⟨t, ht, hworking⟩ := h.attended hjobs howed
    refine ⟨_, List.mem_map.2 ⟨t, ht, rfl⟩, ?_⟩
    cases t <;> trivial
  stayed hexited := by
    obtain ⟨t, ht, he⟩ := List.mem_map.1 hexited
    cases t <;> cases he
    exact h.stayed ht
  roused _ _ hasleep := by
    obtain ⟨t, -, he⟩ := List.mem_map.1 hasleep
    cases t <;> cases he

/-- A thread that wakes up, or does the next thing. -/
theorem setThread (h : Sound p owed owedAll) {t : Phase J} (ht : t.Working) (hi : (p.threads[i]?).isSome) :
    Sound (p.setThread i t) owed owedAll where
  attended _ _ := by
    obtain ⟨t', hi⟩ := Option.isSome_iff_exists.1 hi
    exact ⟨t, mem_set_self hi, ht⟩
  stayed hexited := by
    rcases List.mem_or_eq_of_mem_set hexited with hold | rfl
    · exact h.stayed hold
    · exact ht.elim
  roused hstopped howed hasleep := by
    rcases List.mem_or_eq_of_mem_set hasleep with hold | rfl
    · exact h.roused hstopped howed hold
    · exact ht.elim

theorem rouse (h : Sound p owed owedAll) (hstep : p.rouse i = some p') : Sound p' owed owedAll := by
  unfold Pool.rouse at hstep
  split at hstep
  · rename_i hi
    obtain rfl := Option.some.inj hstep
    exact h.setThread trivial (by rw [hi]; rfl)
  · cases hstep

/-- The notification finds a thread that sleeps, or all are awake. -/
theorem notifyOne (h : Sound p owed owedAll) (hrunning : p.stopped = false) (hthreads : p.threads ≠ [])
    (hstep : p.notifyOne i = some p') (owed' : Prop) : Sound p' owed' owedAll := by
  unfold Pool.notifyOne at hstep
  split at hstep
  · split at hstep
    · rename_i hi
      obtain rfl := Option.some.inj hstep
      refine ⟨fun _ _ => ⟨.awake, mem_set_self hi, trivial⟩, fun hexited => ?_, fun hstopped => ?_⟩
      · rcases List.mem_or_eq_of_mem_set hexited with hold | he
        · exact h.stayed hold
        · cases he
      · rw [Pool.setThread_stopped, hrunning] at hstopped
        cases hstopped
    · cases hstep
  · rename_i hnone
    obtain rfl := Option.some.inj hstep
    refine ⟨fun _ _ => ?_, h.stayed, h.roused⟩
    obtain ⟨t, ht⟩ := List.exists_mem_of_ne_nil _ hthreads
    refine ⟨t, ht, ?_⟩
    cases t with
    | awake => trivial
    | running job => trivial
    | asleep => exact absurd (List.any_eq_true.2 ⟨_, ht, rfl⟩) hnone
    | exited => rw [h.stayed ht] at hrunning; cases hrunning

theorem look (h : Sound p owed owedAll) (hstep : p.look i = some p') : Sound p' owed owedAll := by
  unfold Pool.look at hstep
  split at hstep
  · rename_i job jobs hi hjobs
    obtain rfl := Option.some.inj hstep
    obtain ⟨hattended, hstayed, hroused⟩ := h.setThread (t := .running job) trivial (by rw [hi]; rfl)
    exact ⟨fun _ howed => hattended (by rw [Pool.setThread_jobs, hjobs]; simp) howed, hstayed, hroused⟩
  · rename_i hi hjobs
    obtain rfl := Option.some.inj hstep
    refine ⟨fun hne => absurd hjobs hne, fun hexited => ?_, fun hstopped howed hasleep => ?_⟩
    · rcases List.mem_or_eq_of_mem_set hexited with hold | he
      · exact h.stayed hold
      · split at he
        · assumption
        · cases he
    · rcases List.mem_or_eq_of_mem_set hasleep with hold | he
      · exact h.roused hstopped howed hold
      · rw [if_pos (show p.stopped = true from hstopped)] at he
        cases he
  · cases hstep

end Sound

/-! ## Where the jobs are -/

/-- The job waits, or a thread is at it. -/
def Pool.Has (p : Pool J) (job : J) : Prop := job ∈ p.jobs ∨ .running job ∈ p.threads

namespace Pool

variable {p p' : Pool J} {i : Nat} {job : J}

theorem has_push {job' : J} : (p.push job').Has job ↔ p.Has job ∨ job = job' := by
  unfold Has push
  rw [List.mem_append, List.mem_singleton]
  tauto

theorem has_notifyAll : p.notifyAll.Has job ↔ p.Has job := by
  refine or_congr Iff.rfl ⟨fun h => ?_, fun h => List.mem_map.2 ⟨_, h, rfl⟩⟩
  obtain ⟨t, ht, he⟩ := List.mem_map.1 h
  cases t <;> cases he
  exact ht

/-- A thread that was at nothing is at nothing. -/
theorem has_setThread_idle {t t' : Phase J} (hi : p.threads[i]? = some t') (ht' : ∀ job, t' ≠ .running job)
    (ht : ∀ job, t ≠ .running job) : (p.setThread i t).Has job ↔ p.Has job := by
  refine or_congr Iff.rfl ⟨fun h => ?_, fun h => mem_set_of_ne hi h (Ne.symm (ht' job))⟩
  rcases List.mem_or_eq_of_mem_set h with hold | he
  · exact hold
  · exact absurd he.symm (ht job)

theorem has_rouse (hstep : p.rouse i = some p') : p'.Has job ↔ p.Has job := by
  unfold rouse at hstep
  split at hstep
  · rename_i hi
    obtain rfl := Option.some.inj hstep
    exact has_setThread_idle hi (fun _ h => by cases h) fun _ h => by cases h
  · cases hstep

theorem has_notifyOne (hstep : p.notifyOne i = some p') : p'.Has job ↔ p.Has job := by
  unfold notifyOne at hstep
  split at hstep
  · split at hstep
    · rename_i hi
      obtain rfl := Option.some.inj hstep
      exact has_setThread_idle hi (fun _ h => by cases h) fun _ h => by cases h
    · cases hstep
  · cases hstep
    exact Iff.rfl

theorem has_look (hstep : p.look i = some p') : p'.Has job ↔ p.Has job := by
  unfold look at hstep
  split at hstep
  · rename_i job' jobs hi hjobs
    obtain rfl := Option.some.inj hstep
    unfold Has
    rw [hjobs, List.mem_cons]
    constructor
    · rintro (hold | h)
      · exact Or.inl (Or.inr hold)
      · rcases List.mem_or_eq_of_mem_set h with hold | he
        · exact Or.inr hold
        · exact Or.inl (Or.inl (Phase.running.inj he))
    · rintro ((rfl | hold) | h)
      · exact Or.inr (mem_set_self hi)
      · exact Or.inl hold
      · exact Or.inr (mem_set_of_ne hi h (fun he => by cases he))
  · rename_i hi hjobs
    obtain rfl := Option.some.inj hstep
    exact has_setThread_idle hi (fun _ h => by cases h) fun _ h => by split at h <;> cases h
  · cases hstep

/-- The job a thread is at is gone, and what it is at now is there. -/
theorem has_of_setThread {t : Phase J} (h : (p.setThread i t).Has job) : p.Has job ∨ t = .running job := by
  rcases h with hold | h
  · exact Or.inl (Or.inl hold)
  · rcases List.mem_or_eq_of_mem_set h with hold | he
    · exact Or.inl (Or.inr hold)
    · exact Or.inr he.symm

theorem has_setThread_of_ne {t : Phase J} {job' : J} (hi : p.threads[i]? = some (.running job')) (h : p.Has job)
    (hne : job ≠ job') : (p.setThread i t).Has job :=
  h.imp id fun h => mem_set_of_ne hi h fun he => hne (Phase.running.inj he)

theorem has_setThread_self {job' : J} (hi : p.threads[i]? = some (.running job')) :
    (p.setThread i (.running job)).Has job :=
  Or.inr (mem_set_self hi)

theorem kept_look (hstep : p.look i = some p') : p'.threads.length = p.threads.length ∧ p'.stopped = p.stopped := by
  unfold look at hstep
  split at hstep <;> cases hstep <;> exact ⟨List.length_set, rfl⟩

theorem kept_notifyOne (hstep : p.notifyOne i = some p') :
    p'.threads.length = p.threads.length ∧ p'.stopped = p.stopped := by
  unfold notifyOne at hstep
  split at hstep
  · split at hstep <;> cases hstep
    exact ⟨List.length_set, rfl⟩
  · cases hstep
    exact ⟨rfl, rfl⟩

theorem kept_rouse (hstep : p.rouse i = some p') : p'.threads.length = p.threads.length ∧ p'.stopped = p.stopped := by
  unfold rouse at hstep
  split at hstep <;> cases hstep
  exact ⟨List.length_set, rfl⟩

end Pool

/-- What is in the pool has a thread that comes for it, or is at it. -/
theorem Sound.busy_of_has {p : Pool J} {owed owedAll : Prop} {job : J} (h : Sound p owed owedAll) (hjob : p.Has job)
    (howed : ¬ owed) : ∃ i : Nat, p.threads[i]? = some .awake ∨ ∃ job, p.threads[i]? = some (.running job) := by
  rcases hjob with hwaits | hruns
  · exact h.busy (List.ne_nil_of_mem hwaits) howed
  · obtain ⟨i, hi⟩ := List.mem_iff_getElem?.1 hruns
    exact ⟨i, Or.inr ⟨job, hi⟩⟩

/-! ## Weighing the jobs -/

/-- What the thread's job weighs. -/
def Phase.weight (w : J → Nat) : Phase J → Nat
  | .running job => w job
  | _ => 0

/-- A thread that is about to look. -/
def Phase.alert : Phase J → Nat
  | .awake => 1
  | _ => 0

namespace Pool

/-- The jobs that wait and those that run. -/
def total (w : J → Nat) (p : Pool J) : Nat := (p.jobs.map w).sum + (p.threads.map (Phase.weight w)).sum

/-- The threads that are about to lock the mutex. -/
def alert (p : Pool J) : Nat := (p.threads.map Phase.alert).sum

variable {p p' : Pool J} {i : Nat} {w : J → Nat}

theorem total_start (n : Nat) : (start n : Pool J).total w = 0 := by
  simp [total, start, Phase.weight]

theorem alert_start (n : Nat) : (start n : Pool J).alert = n := by
  simp [alert, start, Phase.alert]

theorem total_push (job : J) : (p.push job).total w = p.total w + w job := by
  simp only [total, push, List.map_append, List.map_cons, List.map_nil, List.sum_append, List.sum_cons, List.sum_nil]
  omega

theorem alert_push (job : J) : (p.push job).alert = p.alert := rfl

theorem total_setThread {t t' : Phase J} (hi : p.threads[i]? = some t') :
    (p.setThread i t).total w + t'.weight w = p.total w + t.weight w := by
  have hsum := sum_set (Phase.weight w) t hi
  simp only [total, setThread_jobs, setThread_threads]
  omega

theorem alert_setThread {t t' : Phase J} (hi : p.threads[i]? = some t') :
    (p.setThread i t).alert + t'.alert = p.alert + t.alert :=
  sum_set Phase.alert t hi

theorem total_notifyAll : p.notifyAll.total w = p.total w := by
  have hsame : ∀ t : Phase J, (if t.isAsleep then Phase.awake else t).weight w = t.weight w := fun t => by
    cases t <;> rfl
  simp only [total, notifyAll, List.map_map, Function.comp_def, hsame]

theorem alert_notifyAll : p.notifyAll.alert ≤ p.threads.length := by
  have hone : ∀ x ∈ p.notifyAll.threads.map Phase.alert, x ≤ 1 := fun x hx => by
    obtain ⟨t, -, rfl⟩ := List.mem_map.1 hx
    cases t <;> simp [Phase.alert]
  have hsum := List.sum_le_card_nsmul _ 1 hone
  simpa [alert, notifyAll] using hsum

theorem total_rouse (hstep : p.rouse i = some p') : p'.total w = p.total w ∧ p'.alert = p.alert + 1 := by
  unfold rouse at hstep
  split at hstep
  · rename_i hi
    obtain rfl := Option.some.inj hstep
    exact ⟨total_setThread (t := .awake) (w := w) hi, alert_setThread (t := .awake) hi⟩
  · cases hstep

theorem total_notifyOne (hstep : p.notifyOne i = some p') : p'.total w = p.total w ∧ p'.alert ≤ p.alert + 1 := by
  unfold notifyOne at hstep
  split at hstep
  · have hrouse : p.rouse i = some p' := by
      unfold rouse
      split at hstep
      · exact hstep
      · cases hstep
    obtain ⟨htotal, halert⟩ := total_rouse (w := w) hrouse
    exact ⟨htotal, Nat.le_of_eq halert⟩
  · cases hstep
    exact ⟨rfl, Nat.le_succ _⟩

/-- Whether it takes a job, leaves or goes to sleep, the thread has had its turn. -/
theorem total_look (hstep : p.look i = some p') : p'.total w = p.total w ∧ p'.alert + 1 = p.alert := by
  unfold look at hstep
  split at hstep
  · rename_i job jobs hi hjobs
    obtain rfl := Option.some.inj hstep
    have hthreads := sum_set (Phase.weight w) (.running job) hi
    refine ⟨?_, alert_setThread (t := .running job) hi⟩
    simp only [total, hjobs, List.map_cons, List.sum_cons, setThread_threads]
    simp only [Phase.weight] at hthreads ⊢
    omega
  · rename_i hi hjobs
    obtain rfl := Option.some.inj hstep
    have hidle : ∀ t : Phase J, t = .exited ∨ t = .asleep →
        (p.setThread i t).total w = p.total w ∧ (p.setThread i t).alert + 1 = p.alert := by
      rintro t (rfl | rfl)
      · exact ⟨total_setThread (t := .exited) (w := w) hi, alert_setThread (t := .exited) hi⟩
      · exact ⟨total_setThread (t := .asleep) (w := w) hi, alert_setThread (t := .asleep) hi⟩
    exact hidle _ (by split <;> simp)
  · cases hstep

theorem total_eq_zero (h : ∀ job, p.Has job → w job = 0) : p.total w = 0 := by
  have hjobs : (p.jobs.map w).sum = 0 := List.sum_eq_zero_iff_forall_eq_nat.2 fun x hx => by
    obtain ⟨job, hjob, rfl⟩ := List.mem_map.1 hx
    exact h job (Or.inl hjob)
  have hthreads : (p.threads.map (Phase.weight w)).sum = 0 := List.sum_eq_zero_iff_forall_eq_nat.2 fun x hx => by
    obtain ⟨t, ht, rfl⟩ := List.mem_map.1 hx
    cases t with
    | running job => exact h job (Or.inr ht)
    | awake => rfl
    | asleep => rfl
    | exited => rfl
  rw [total, hjobs, hthreads]

/-- What weighs something is somewhere. -/
theorem exists_of_total_pos (h : 0 < p.total w) : ∃ job, p.Has job ∧ w job ≠ 0 := by
  by_contra hnone
  push Not at hnone
  exact absurd (total_eq_zero hnone) (Nat.pos_iff_ne_zero.1 h)

end Pool

end ThreadPool
