import StorageEngine.Lib.Transition

/-!
# A background thread that is told to stop

A thread repeats a body of work while a flag is set, and between two rounds it waits on a condition variable, until the
flag is cleared or a period is over. Who stops it clears the flag and then notifies, both without the mutex. So a
notification may fall between the thread's look at the flag and its sleep, and then it is lost: on its way out the
thread needs a timeout or a spurious wakeup exactly in that case (`late_iff`). What else happens in the world, the body's
own steps and those of others, is a parameter.
-/

namespace Daemon

open Transition

universe u v w x

variable {σ : Type u} {ω : Type v} {α : Type w} {β : Type x}

/-- Where the thread is. -/
inductive Place (ω : Type v) where
  /-- About to read the flag for the next round. -/
  | top
  | body (w : ω)
  /-- The round is over. -/
  | rested
  /-- It holds the mutex and is about to read the flag. -/
  | checking (deadline : Nat)
  /-- It has read the flag as set, and holds the mutex until it sleeps. -/
  | settling (deadline : Nat)
  | asleep (deadline : Nat)
  | exited
deriving DecidableEq

/-- What the thread does in a round, what others do to its world, and how long it waits between two rounds. -/
structure Program (σ : Type u) (ω : Type v) (α : Type w) (β : Type x) where
  first : ω
  /-- A step of the body, with the flag it may read; no place is the end of the round. -/
  work : Bool → σ → ω → α → Option (σ × Option ω)
  others : σ → β → Option σ
  period : Nat

/-- The world, the thread's place, the flag and the clock. -/
structure State (σ : Type u) (ω : Type v) where
  world : σ
  place : Place ω
  keepRunning : Bool
  notified : Bool
  now : Nat

/-- Before the first look at the flag. -/
def State.start (world : σ) : State σ ω := ⟨world, .top, true, false, 0⟩

/-- A step of the thread, of whoever stops it, of time or of the others. -/
inductive Label (α : Type w) (β : Type x) where
  | clear
  | notify
  /-- The head of the loop. -/
  | look
  | work (a : α)
  /-- `wait_for` begins: the mutex is locked, the deadline known. -/
  | lock
  | check
  | sleep
  | timeout
  /-- A spurious wakeup. -/
  | rouse
  | tick (d : Nat)
  | others (b : β)
deriving DecidableEq

/-- The thread's own step. -/
def Label.ofThread : Label α β → Bool
  | .look | .work _ | .lock | .check | .sleep | .timeout | .rouse => true
  | _ => false

/-- The thread moves on. -/
def State.goTo (s : State σ ω) (place : Place ω) : State σ ω := { s with place := place }

/-- `notify_all`: a thread that sleeps goes on to look at the flag again. -/
def Place.notified : Place ω → Place ω
  | .asleep deadline => .checking deadline
  | place => place

variable (p : Program σ ω α β)

/-- `none` where the step is not possible. -/
def step (s : State σ ω) : Label α β → Option (State σ ω)
  | .clear => if s.keepRunning then some { s with keepRunning := false } else none
  | .notify => if s.keepRunning || s.notified then none else some { s.goTo s.place.notified with notified := true }
  | .look =>
    match s.place with
    | .top => some (s.goTo (if s.keepRunning then .body p.first else .exited))
    | _ => none
  | .work a =>
    match s.place with
    | .body w => (p.work s.keepRunning s.world w a).map fun next =>
        { s.goTo ((next.2.map Place.body).getD .rested) with world := next.1 }
    | _ => none
  | .lock =>
    match s.place with
    | .rested => some (s.goTo (.checking (s.now + p.period)))
    | _ => none
  | .check =>
    match s.place with
    | .checking deadline => some (s.goTo (if s.keepRunning then .settling deadline else .top))
    | _ => none
  | .sleep =>
    match s.place with
    | .settling deadline => some (s.goTo (.asleep deadline))
    | _ => none
  | .timeout =>
    match s.place with
    | .asleep deadline => if deadline ≤ s.now then some (s.goTo .top) else none
    | _ => none
  | .rouse =>
    match s.place with
    | .asleep deadline => some (s.goTo (.checking deadline))
    | _ => none
  | .tick d => some { s with now := s.now + d }
  | .others b => (p.others s.world b).map fun world => { s with world := world }

variable {p} {s t : State σ ω} {a : Label α β} {as : List (Label α β)}

/-! ## What one step can do -/

/-- The steps by what they need and what they change. -/
inductive Stepped (p : Program σ ω α β) (s : State σ ω) : Label α β → State σ ω → Prop where
  | clear (h : s.keepRunning = true) : Stepped p s .clear { s with keepRunning := false }
  | notify (hcleared : s.keepRunning = false) (hfirst : s.notified = false) :
      Stepped p s .notify { s.goTo s.place.notified with notified := true }
  | look (h : s.place = .top) : Stepped p s .look (s.goTo (if s.keepRunning then .body p.first else .exited))
  | work {a : α} {w : ω} {world : σ} {next : Option ω} (h : s.place = .body w)
      (hwork : p.work s.keepRunning s.world w a = some (world, next)) :
      Stepped p s (.work a) { s.goTo ((next.map Place.body).getD .rested) with world := world }
  | lock (h : s.place = .rested) : Stepped p s .lock (s.goTo (.checking (s.now + p.period)))
  | check {deadline : Nat} (h : s.place = .checking deadline) :
      Stepped p s .check (s.goTo (if s.keepRunning then .settling deadline else .top))
  | sleep {deadline : Nat} (h : s.place = .settling deadline) : Stepped p s .sleep (s.goTo (.asleep deadline))
  | timeout {deadline : Nat} (h : s.place = .asleep deadline) (hdue : deadline ≤ s.now) :
      Stepped p s .timeout (s.goTo .top)
  | rouse {deadline : Nat} (h : s.place = .asleep deadline) : Stepped p s .rouse (s.goTo (.checking deadline))
  | tick (d : Nat) : Stepped p s (.tick d) { s with now := s.now + d }
  | others {b : β} {world : σ} (h : p.others s.world b = some world) : Stepped p s (.others b) { s with world := world }

theorem step_cases (hstep : step p s a = some t) : Stepped p s a t := by
  cases a with
  | clear =>
    simp only [step] at hstep
    split at hstep <;> cases hstep
    exact .clear ‹_›
  | notify =>
    simp only [step] at hstep
    split at hstep <;> cases hstep
    rename_i hflags
    obtain ⟨hcleared, hfirst⟩ : s.keepRunning = false ∧ s.notified = false := by simpa using hflags
    exact .notify hcleared hfirst
  | look =>
    simp only [step] at hstep
    split at hstep <;> cases hstep
    exact .look ‹_›
  | work a =>
    simp only [step] at hstep
    split at hstep
    · obtain ⟨⟨world, next⟩, hwork, rfl⟩ := Option.map_eq_some_iff.1 hstep
      exact .work ‹_› hwork
    · cases hstep
  | lock =>
    simp only [step] at hstep
    split at hstep <;> cases hstep
    exact .lock ‹_›
  | check =>
    simp only [step] at hstep
    split at hstep <;> cases hstep
    exact .check ‹_›
  | sleep =>
    simp only [step] at hstep
    split at hstep <;> cases hstep
    exact .sleep ‹_›
  | timeout =>
    simp only [step] at hstep
    split at hstep
    · split at hstep <;> cases hstep
      exact .timeout ‹_› ‹_›
    · cases hstep
  | rouse =>
    simp only [step] at hstep
    split at hstep <;> cases hstep
    exact .rouse ‹_›
  | tick d =>
    cases hstep
    exact .tick d
  | others b =>
    obtain ⟨world, hworld, rfl⟩ := Option.map_eq_some_iff.1 hstep
    exact .others hworld

/-! ## After the notification -/

/-- The flag is cleared and the notification sent. -/
structure State.Told (s : State σ ω) : Prop where
  cleared : s.keepRunning = false
  notified : s.notified = true

/-- The deadline of a thread that sleeps, or will whatever the flag. -/
def Place.late : Place ω → Option Nat
  | .settling deadline | .asleep deadline => some deadline
  | _ => none

theorem told_step (htold : s.Told) (hstep : step p s a = some t) : t.Told := by
  obtain ⟨hcleared, hnotified⟩ := htold
  cases step_cases hstep with
  | clear h => rw [hcleared] at h; cases h
  | notify _ hfirst => rw [hnotified] at hfirst; cases hfirst
  | _ => exact ⟨hcleared, hnotified⟩

/-- A thread that is not late finds the flag cleared wherever it looks. -/
theorem prompt_step (htold : s.Told) (hprompt : s.place.late = none) (hstep : step p s a = some t) :
    t.place.late = none ∧ a ≠ .timeout ∧ a ≠ .rouse := by
  cases step_cases hstep with
  | clear | tick | others => exact ⟨hprompt, by simp⟩
  | notify _ hfirst => rw [htold.notified] at hfirst; cases hfirst
  | look =>
    rw [htold.cleared]
    exact ⟨rfl, by simp⟩
  | @work _ _ _ next =>
    refine ⟨?_, by simp⟩
    cases next <;> rfl
  | lock => exact ⟨rfl, by simp⟩
  | check =>
    rw [htold.cleared]
    exact ⟨rfl, by simp⟩
  | sleep h | timeout h | rouse h => rw [h] at hprompt; cases hprompt

/-- A late thread stays where it is. -/
theorem late_step (htold : s.Told) {deadline : Nat} (hlate : s.place.late = some deadline)
    (hstep : step p s a = some t) (htimeout : a ≠ .timeout) (hrouse : a ≠ .rouse) : t.place.late = some deadline := by
  cases step_cases hstep with
  | clear | tick | others => exact hlate
  | notify _ hfirst => rw [htold.notified] at hfirst; cases hfirst
  | timeout => exact absurd rfl htimeout
  | rouse => exact absurd rfl hrouse
  | sleep h => rwa [h] at hlate
  | look h | work h | lock h | check h => rw [h] at hlate; cases hlate

theorem now_mono (hstep : step p s a = some t) : s.now ≤ t.now := by
  cases step_cases hstep with
  | tick d => exact Nat.le_add_right _ _
  | _ => exact Nat.le_refl _

theorem now_run (hrun : exec (step p) s as = some t) : s.now ≤ t.now :=
  exec_inv (fun _ _ _ hu hstep => Nat.le_trans hu (now_mono hstep)) (Nat.le_refl s.now) hrun

theorem prompt_run (htold : s.Told) (hprompt : s.place.late = none) (hrun : exec (step p) s as = some t) :
    .timeout ∉ as ∧ .rouse ∉ as := by
  induction as generalizing s with
  | nil => exact ⟨List.not_mem_nil, List.not_mem_nil⟩
  | cons a as ih =>
    obtain ⟨s', hstep, hrun⟩ := exec_cons.1 hrun
    obtain ⟨hprompt', htimeout, hrouse⟩ := prompt_step htold hprompt hstep
    obtain ⟨htimeouts, hrouses⟩ := ih (told_step htold hstep) hprompt' hrun
    exact ⟨fun h => (List.mem_cons.1 h).elim (htimeout ·.symm) htimeouts,
      fun h => (List.mem_cons.1 h).elim (hrouse ·.symm) hrouses⟩

theorem late_run (htold : s.Told) {deadline : Nat} (hlate : s.place.late = some deadline)
    (hrun : exec (step p) s as = some t) (htimeout : .timeout ∉ as) (hrouse : .rouse ∉ as) :
    t.place.late = some deadline := by
  induction as generalizing s with
  | nil =>
    obtain rfl := Option.some.inj hrun
    exact hlate
  | cons a as ih =>
    obtain ⟨s', hstep, hrun⟩ := exec_cons.1 hrun
    rw [List.mem_cons, not_or] at htimeout hrouse
    exact ih (told_step htold hstep) (late_step htold hlate hstep (Ne.symm htimeout.1) (Ne.symm hrouse.1)) hrun
      htimeout.2 hrouse.2

/-- Where nothing wakes it up for no reason, the deadline is over before it goes on. -/
theorem late_until (htold : s.Told) {deadline : Nat} (hlate : s.place.late = some deadline)
    (hrun : exec (step p) s as = some t) (hrouse : .rouse ∉ as) (hexit : t.place = .exited) : deadline ≤ t.now := by
  induction as generalizing s with
  | nil =>
    obtain rfl := Option.some.inj hrun
    rw [hexit] at hlate
    cases hlate
  | cons a as ih =>
    obtain ⟨s', hstep, hrun⟩ := exec_cons.1 hrun
    rw [List.mem_cons, not_or] at hrouse
    by_cases htimeout : a = .timeout
    · subst htimeout
      cases step_cases hstep with
      | timeout h hdue =>
        rw [h] at hlate
        obtain rfl := Option.some.inj hlate
        have hnow := now_run hrun
        exact Nat.le_trans hdue hnow
    · exact ih (told_step htold hstep) (late_step htold hlate hstep htimeout (Ne.symm hrouse.1)) hrun hrouse.2

theorem late_notified {place : Place ω} (h : ¬ ∃ deadline, place = .settling deadline) : place.notified.late = none := by
  cases place with
  | settling deadline => exact absurd ⟨deadline, rfl⟩ h
  | _ => rfl

theorem told_of_notify (hnotify : step p s .notify = some t) : t.Told ∧ t.place = s.place.notified := by
  cases step_cases hnotify with
  | notify hcleared => exact ⟨⟨hcleared, rfl⟩, rfl⟩

/-- **A notification is lost** exactly where it falls between the thread's look at the flag and its sleep: only then is
there a timeout or a spurious wakeup on the way out. -/
theorem late_iff {s' : State σ ω} (hnotify : step p s .notify = some s') (hrun : exec (step p) s' as = some t)
    (hexit : t.place = .exited) : (∃ deadline, s.place = .settling deadline) ↔ .timeout ∈ as ∨ .rouse ∈ as := by
  obtain ⟨htold, hplace⟩ := told_of_notify hnotify
  by_cases hsettling : ∃ deadline, s.place = .settling deadline
  · refine iff_of_true hsettling (Classical.byContradiction fun hneither => ?_)
    obtain ⟨deadline, hsettling⟩ := hsettling
    rw [not_or] at hneither
    rw [hsettling] at hplace
    have hstuck := late_run htold (congrArg Place.late hplace) hrun hneither.1 hneither.2
    rw [hexit] at hstuck
    cases hstuck
  · obtain ⟨htimeout, hrouse⟩ := prompt_run htold ((congrArg Place.late hplace).trans (late_notified hsettling)) hrun
    exact iff_of_false hsettling fun h => h.elim htimeout hrouse

/-! ## The deadline -/

/-- The deadline of the wait the thread is in. -/
def Place.deadline : Place ω → Option Nat
  | .checking deadline | .settling deadline | .asleep deadline => some deadline
  | _ => none

theorem deadline_step {deadline : Nat} (hdeadline : ∀ d ∈ s.place.deadline, d = deadline) (hstep : step p s a = some t)
    (hlock : a ≠ .lock) : ∀ d ∈ t.place.deadline, d = deadline := by
  cases step_cases hstep with
  | clear | tick | others => exact hdeadline
  | lock => exact absurd rfl hlock
  | notify =>
    show ∀ d ∈ s.place.notified.deadline, d = deadline
    cases hplace : s.place with
    | asleep => rwa [hplace] at hdeadline
    | checking | settling => rwa [hplace] at hdeadline
    | _ => exact fun d hd => by cases hd
  | look => split <;> exact fun d hd => by cases hd
  | @work _ _ _ next => cases next <;> exact fun d hd => by cases hd
  | check h =>
    rw [h] at hdeadline
    split
    · exact hdeadline
    · exact fun d hd => by cases hd
  | sleep h | rouse h =>
    rw [h] at hdeadline
    exact hdeadline
  | timeout => exact fun d hd => by cases hd

/-- A wait is over a period after it began. -/
theorem deadline_run {s' : State σ ω} (hlock : step p s .lock = some s') (hrun : exec (step p) s' as = some t)
    (honce : .lock ∉ as) : ∀ d ∈ t.place.deadline, d = s.now + p.period := by
  have hstart : ∀ d ∈ s'.place.deadline, d = s.now + p.period := by
    cases step_cases hlock with
    | lock => exact fun d hd => (Option.some.inj hd).symm
  clear hlock
  induction as generalizing s' with
  | nil =>
    obtain rfl := Option.some.inj hrun
    exact hstart
  | cons a as ih =>
    obtain ⟨u, hstep, hrun⟩ := exec_cons.1 hrun
    rw [List.mem_cons, not_or] at honce
    exact ih hrun honce.2 (deadline_step hstart hstep (Ne.symm honce.1))

/-- A lost notification costs the rest of the period. -/
theorem late_wait {s₀ r s' : State σ ω} {before wait : List (Label α β)}
    (hbefore : exec (step p) s₀ (before ++ .lock :: wait) = some s) (honce : .lock ∉ wait)
    (hr : exec (step p) s₀ before = some r) (hsettling : ∃ deadline, s.place = .settling deadline)
    (hnotify : step p s .notify = some s') (hafter : exec (step p) s' as = some t) (hrouse : .rouse ∉ as)
    (hexit : t.place = .exited) : r.now + p.period ≤ t.now := by
  obtain ⟨deadline, hsettling⟩ := hsettling
  obtain ⟨r', hr', hrest⟩ := exec_append.1 hbefore
  obtain rfl : r' = r := Option.some.inj (hr'.symm.trans hr)
  obtain ⟨r₁, hlock, hwait⟩ := exec_cons.1 hrest
  have hdeadline := deadline_run hlock hwait honce deadline (by rw [hsettling]; rfl)
  obtain ⟨htold, hplace⟩ := told_of_notify hnotify
  rw [hsettling] at hplace
  have huntil := late_until htold (congrArg Place.late hplace) hafter hrouse hexit
  rwa [hdeadline] at huntil

/-! ## How much is left to do -/

section
variable (left : σ → ω → Nat)

/-- The steps to the exit once the flag is cleared, `left` being those of the body. -/
def State.toDo (s : State σ ω) : Nat :=
  match s.place with
  | .exited => 0
  | .top => 1
  | .checking _ => 2
  | .rested | .asleep _ => 3
  | .settling _ => 4
  | .body w => left s.world w + 4

variable {left}

theorem toDo_step (hwork : ∀ world world' w a next, p.work false world w a = some (world', next) →
      ∀ w' ∈ next, left world' w' < left world w)
    (hothers : ∀ world world' b w, p.others world b = some world' → left world' w = left world w)
    (hcleared : s.keepRunning = false) (hstep : step p s a = some t) :
    t.keepRunning = false ∧ t.toDo left + (if a.ofThread then 1 else 0) ≤ s.toDo left := by
  cases step_cases hstep with
  | clear h => rw [hcleared] at h; cases h
  | tick => exact ⟨hcleared, Nat.le_refl _⟩
  | others h =>
    refine ⟨hcleared, ?_⟩
    simp only [State.toDo, Label.ofThread]
    split <;> simp [hothers _ _ _ _ h]
  | notify =>
    refine ⟨hcleared, ?_⟩
    show State.toDo left { s.goTo s.place.notified with notified := true } + 0 ≤ _
    cases hplace : s.place <;> simp [State.toDo, State.goTo, Place.notified, hplace]
  | look h =>
    refine ⟨hcleared, ?_⟩
    simp [State.toDo, State.goTo, h, hcleared, Label.ofThread]
  | @work _ w world next h hnext =>
    refine ⟨hcleared, ?_⟩
    rw [hcleared] at hnext
    have hless := hwork _ _ _ _ _ hnext
    cases next with
    | none => simp [State.toDo, State.goTo, h, Label.ofThread]
    | some w' =>
      have := hless w' rfl
      simp only [State.toDo, State.goTo, h, Label.ofThread, Option.map_some, Option.getD_some, if_true]
      omega
  | lock h | sleep h | rouse h | timeout h =>
    refine ⟨hcleared, ?_⟩
    simp [State.toDo, State.goTo, h, Label.ofThread]
  | check h =>
    refine ⟨hcleared, ?_⟩
    simp [State.toDo, State.goTo, h, hcleared, Label.ofThread]

/-- **The thread comes to its end**: once the flag is cleared, it has that many steps. -/
theorem toDo_run (left : σ → ω → Nat) (hwork : ∀ world world' w a next, p.work false world w a = some (world', next) →
      ∀ w' ∈ next, left world' w' < left world w)
    (hothers : ∀ world world' b w, p.others world b = some world' → left world' w = left world w)
    (hcleared : s.keepRunning = false) (hrun : exec (step p) s as = some t) :
    t.toDo left + as.countP Label.ofThread ≤ s.toDo left :=
  exec_budget (State.toDo left) Label.ofThread (fun _ _ _ => toDo_step hwork hothers) hcleared hrun

end

/-- Until it has left, a thread that is not asleep can go on. -/
theorem can_go_on (hwork : ∀ w, s.place = .body w → ∃ a, (p.work s.keepRunning s.world w a).isSome)
    (hexit : s.place ≠ .exited) (hawake : ∀ deadline, s.place ≠ .asleep deadline) :
    ∃ a : Label α β, a.ofThread = true ∧ (step p s a).isSome := by
  cases hplace : s.place with
  | exited => exact absurd hplace hexit
  | asleep deadline => exact absurd hplace (hawake deadline)
  | top => exact ⟨.look, rfl, by simp [step, hplace]⟩
  | rested => exact ⟨.lock, rfl, by simp [step, hplace]⟩
  | checking => exact ⟨.check, rfl, by simp [step, hplace]⟩
  | settling => exact ⟨.sleep, rfl, by simp [step, hplace]⟩
  | body w =>
    obtain ⟨a, ha⟩ := hwork w hplace
    exact ⟨.work a, rfl, by simpa [step, hplace] using ha⟩

end Daemon
