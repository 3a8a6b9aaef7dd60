import Mathlib.Data.List.Infix

/-!
# Runs of a labelled transition system

`step s a` is the state after the step labelled `a`, `none` where `a` cannot be taken. A label
carries every choice the environment makes, so that `step` is a function and a run is a list of
labels. `Always` and `EachStep` speak about all states and all steps of a run; the two run rules
(`EachStep.inv`, `always_iff_eachStep`) turn a fact about one step into a fact about every run.
-/

namespace Transition

universe u v

variable {σ : Type u} {α : Type v} (step : σ → α → Option σ)

/-- The state after the labels, in order. -/
def exec : σ → List α → Option σ
  | s, [] => some s
  | s, a :: as => (step s a).bind (exec · as)

/-- `P` holds in every state the run passes through, the first and the last included. -/
def Always (P : σ → Prop) : σ → List α → Prop
  | s, [] => P s
  | s, a :: as => P s ∧ ∀ t, step s a = some t → Always P t as

/-- Every step the run takes meets `C`, a condition on the state before it and its label. -/
def EachStep (C : σ → α → Prop) : σ → List α → Prop
  | _, [] => True
  | s, a :: as => ∀ t, step s a = some t → C s a ∧ EachStep C t as

variable {step}

theorem exec_cons {s t : σ} {a : α} {as : List α} :
    exec step s (a :: as) = some t ↔ ∃ s', step s a = some s' ∧ exec step s' as = some t := by
  simp [exec, Option.bind_eq_some_iff]

theorem exec_append {as bs : List α} {s t : σ} :
    exec step s (as ++ bs) = some t ↔ ∃ s', exec step s as = some s' ∧ exec step s' bs = some t := by
  induction as generalizing s with
  | nil => simp [exec]
  | cons a as ih =>
    simp only [List.cons_append, exec_cons, ih]
    constructor
    · rintro ⟨s1, h1, s2, h2, h3⟩; exact ⟨s2, ⟨s1, h1, h2⟩, h3⟩
    · rintro ⟨s2, ⟨s1, h1, h2⟩, h3⟩; exact ⟨s1, h1, s2, h2, h3⟩

/-- A condition that can be evaluated can be evaluated along a run. -/
instance EachStep.decidable {C : σ → α → Prop} [∀ s a, Decidable (C s a)] :
    ∀ (s : σ) (as : List α), Decidable (EachStep step C s as)
  | _, [] => .isTrue trivial
  | s, a :: as =>
    match h : step s a with
    | none => .isTrue fun t ht => by rw [h] at ht; cases ht
    | some t =>
      have : Decidable (EachStep step C t as) := EachStep.decidable t as
      decidable_of_iff (C s a ∧ EachStep step C t as)
        ⟨fun hc t' ht' => by rw [h, Option.some.injEq] at ht'; exact ht' ▸ hc, fun hc => hc t h⟩

/-! ## Invariants -/

/-- The run rule: what every step meeting `C` keeps holds at the end of a run of such steps. -/
theorem EachStep.inv {C : σ → α → Prop} {P : σ → Prop}
    (hstep : ∀ s a t, P s → C s a → step s a = some t → P t) :
    ∀ {as : List α} {s t : σ}, EachStep step C s as → P s → exec step s as = some t → P t
  | [], s, t, _, hi, ht => by simp only [exec, Option.some.injEq] at ht; exact ht ▸ hi
  | a :: as, s, t, hc, hi, ht => by
    obtain ⟨s', hs', ht⟩ := exec_cons.1 ht
    obtain ⟨hca, hcs⟩ := hc s' hs'
    exact EachStep.inv hstep hcs (hstep s a s' hi hca hs') ht

theorem eachStep_true : ∀ (as : List α) (s : σ), EachStep step (fun _ _ => True) s as
  | [], _ => trivial
  | _ :: as, _ => fun t _ => ⟨trivial, eachStep_true as t⟩

/-- What every step keeps holds at the end of every run. -/
theorem exec_inv {Inv : σ → Prop} (hstep : ∀ s a t, Inv s → step s a = some t → Inv t)
    {as : List α} {s t : σ} (hi : Inv s) (ht : exec step s as = some t) : Inv t :=
  EachStep.inv (fun s a t hi _ => hstep s a t hi) (eachStep_true as s) hi ht

theorem EachStep.append {C : σ → α → Prop} {as bs : List α} {s : σ} :
    EachStep step C s (as ++ bs) ↔
      EachStep step C s as ∧ ∀ t, exec step s as = some t → EachStep step C t bs := by
  induction as generalizing s with
  | nil => simp [EachStep, exec]
  | cons a as ih =>
    simp only [List.cons_append, EachStep, ih, exec_cons]
    constructor
    · intro h
      refine ⟨fun t ht => ⟨(h t ht).1, (h t ht).2.1⟩, ?_⟩
      rintro t ⟨s', hs', ht⟩
      exact (h s' hs').2.2 t ht
    · rintro ⟨h1, h2⟩ t ht
      exact ⟨(h1 t ht).1, (h1 t ht).2, fun u hu => h2 u ⟨t, ht, hu⟩⟩

theorem EachStep.mono {C D : σ → α → Prop} (hcd : ∀ s a, C s a → D s a) :
    ∀ {as : List α} {s : σ}, EachStep step C s as → EachStep step D s as
  | [], _, _ => trivial
  | a :: _, s, h => fun t ht => ⟨hcd s a (h t ht).1, EachStep.mono hcd (h t ht).2⟩

theorem EachStep.and {C D : σ → α → Prop} :
    ∀ {as : List α} {s : σ}, EachStep step C s as → EachStep step D s as →
      EachStep step (fun s a => C s a ∧ D s a) s as
  | [], _, _, _ => trivial
  | _ :: _, _, hc, hd => fun t ht => ⟨⟨(hc t ht).1, (hd t ht).1⟩, EachStep.and (hc t ht).2 (hd t ht).2⟩

/-- A run all of whose steps meet `C` has no step that does not. -/
theorem eachStep_iff {C : σ → α → Prop} {as : List α} {s : σ} :
    EachStep step C s as ↔ ∀ pre a post t t', as = pre ++ a :: post → exec step s pre = some t →
      step t a = some t' → C t a := by
  constructor
  · rintro h pre a post t t' rfl ht ht'
    exact ((EachStep.append.1 h).2 t ht t' ht').1
  · intro h
    induction as generalizing s with
    | nil => trivial
    | cons a as ih =>
      refine fun t ht => ⟨h [] a as s t rfl rfl ht, ih fun pre b post u u' has hu hu' => ?_⟩
      exact h (a :: pre) b post u u' (by rw [has]; rfl) (exec_cons.2 ⟨t, ht, hu⟩) hu'

/-- What holds at the end of a run and not at its start came with one of its steps. -/
theorem exec_turn {P : σ → Prop} : ∀ {as : List α} {s t : σ}, exec step s as = some t → ¬ P s → P t →
    ∃ pre a post s' s'', as = pre ++ a :: post ∧ exec step s pre = some s' ∧ step s' a = some s'' ∧ ¬ P s' ∧ P s''
  | [], s, t, ht, hs, hp => by
    simp only [exec, Option.some.injEq] at ht
    exact absurd (ht ▸ hp) hs
  | a :: as, s, t, ht, hs, hp => by
    obtain ⟨s', hs', ht⟩ := exec_cons.1 ht
    by_cases hp' : P s'
    · exact ⟨[], a, as, s, s', rfl, rfl, hs', hs, hp'⟩
    · obtain ⟨pre, b, post, u, u', rfl, hpre, hturn⟩ := exec_turn ht hp' hp
      exact ⟨a :: pre, b, post, u, u', rfl, exec_cons.2 ⟨s', hs', hpre⟩, hturn⟩

/-- **A run comes to an end** where every step counts down, but the free ones, which give back one at most. -/
theorem exec_countdown {potential : σ → Nat} {free : α → Bool}
    (hcounted : ∀ s a t, free a = false → step s a = some t → potential t + 1 ≤ potential s)
    (hfree : ∀ s a t, free a = true → step s a = some t → potential t ≤ potential s + 1) :
    ∀ {as : List α} {s t : σ}, exec step s as = some t →
      potential t + as.countP (!free ·) ≤ potential s + as.countP free
  | [], s, t, ht => by
    simp only [exec, Option.some.injEq] at ht
    simp [ht]
  | a :: as, s, t, ht => by
    obtain ⟨s', hs', ht⟩ := exec_cons.1 ht
    have hrest := exec_countdown hcounted hfree ht
    cases ha : free a with
    | false =>
      have hone := hcounted s a s' ha hs'
      simp only [List.countP_cons, ha, Bool.not_false, if_true, Bool.false_eq_true, if_false]
      omega
    | true =>
      have hone := hfree s a s' ha hs'
      simp only [List.countP_cons, ha, Bool.not_true, if_true, Bool.false_eq_true, if_false]
      omega

/-- **A run has no more counted steps than its budget** where each takes one off it and none gives any back. -/
theorem exec_budget {C : σ → Prop} (potential : σ → Nat) (counted : α → Bool)
    (hstep : ∀ s a t, C s → step s a = some t → C t ∧ potential t + (if counted a then 1 else 0) ≤ potential s) :
    ∀ {as : List α} {s t : σ}, C s → exec step s as = some t → potential t + as.countP counted ≤ potential s
  | [], s, t, _, ht => by
    simp only [exec, Option.some.injEq] at ht
    simp [ht]
  | a :: as, s, t, hc, ht => by
    obtain ⟨s', hs', ht⟩ := exec_cons.1 ht
    obtain ⟨hc', hone⟩ := hstep s a s' hc hs'
    have hrest := exec_budget potential counted hstep hc' ht
    rw [List.countP_cons]
    omega

/-- `Always` is about the end states of the run's prefixes. -/
theorem always_iff_prefix {P : σ → Prop} {as : List α} {s : σ} :
    Always step P s as ↔ ∀ pre t, pre <+: as → exec step s pre = some t → P t := by
  induction as generalizing s with
  | nil =>
    constructor
    · intro h pre t hpre ht
      rw [List.prefix_nil.1 hpre] at ht
      simp only [exec, Option.some.injEq] at ht
      exact ht ▸ h
    · intro h; exact h [] s (List.prefix_refl _) rfl
  | cons a as ih =>
    simp only [Always, ih]
    constructor
    · rintro ⟨hs, h⟩ pre t hpre ht
      rcases pre with - | ⟨b, pre⟩
      · simp only [exec, Option.some.injEq] at ht; exact ht ▸ hs
      · obtain ⟨rfl, htail⟩ := List.cons_prefix_cons.1 hpre
        obtain ⟨s', hs', ht⟩ := exec_cons.1 ht
        exact h s' hs' pre t htail ht
    · intro h
      refine ⟨h [] s List.nil_prefix rfl, fun s' hs' pre t hpre ht => ?_⟩
      exact h (a :: pre) t (List.cons_prefix_cons.2 ⟨rfl, hpre⟩) (exec_cons.2 ⟨s', hs', ht⟩)

/-- The exact run rule: where, over steps that meet `A`, `J` is kept while all is well and one step keeps
`P` exactly when it meets `C`, the states of a run of such steps all have `P` exactly when its steps all
meet `C`. -/
theorem Always.iff_eachStep {P J : σ → Prop} {A C : σ → α → Prop}
    (hJ : ∀ s a t, J s → P s → A s a → C s a → step s a = some t → J t)
    (hstep : ∀ s a t, J s → P s → A s a → step s a = some t → (P t ↔ C s a)) :
    ∀ {as : List α} {s : σ}, EachStep step A s as → J s → P s → (Always step P s as ↔ EachStep step C s as)
  | [], s, _, _, hp => by simp [Always, EachStep, hp]
  | a :: as, s, ha, hj, hp => by
    simp only [Always, EachStep, hp, true_and]
    refine forall_congr' fun t => forall_congr' fun ht => ?_
    obtain ⟨has, hat⟩ := ha t ht
    have hstep' := hstep s a t hj hp has ht
    by_cases hc : C s a
    · rw [Always.iff_eachStep hJ hstep hat (hJ s a t hj hp has hc ht) (hstep'.2 hc)]
      simp [hc]
    · have hpt : ¬ P t := fun h => hc (hstep'.1 h)
      simp only [hc, false_and, iff_false]
      cases as with
      | nil => exact hpt
      | cons b bs => exact fun h => hpt h.1

/-- The same with a `J` that every step keeps. -/
theorem always_iff_eachStep {P J : σ → Prop} {A C : σ → α → Prop}
    (hJ : ∀ s a t, J s → A s a → step s a = some t → J t)
    (hstep : ∀ s a t, J s → P s → A s a → step s a = some t → (P t ↔ C s a)) {as : List α} {s : σ}
    (ha : EachStep step A s as) (hj : J s) (hp : P s) : Always step P s as ↔ EachStep step C s as :=
  Always.iff_eachStep (fun s a t hj _ ha _ ht => hJ s a t hj ha ht) hstep ha hj hp

end Transition
