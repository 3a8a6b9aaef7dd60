import Mathlib.Data.List.Count
import Mathlib.Algebra.BigOperators.Group.List.Basic
import Mathlib.Algebra.Order.Ring.Nat

/-!
# Reference counting

Holders keep lists of objects, a list may hold an object several times. `refs hs x` is the number
of references to `x` in all holdings. A counter `c : Option Int` (`none` = the object is not
registered) may be reclaimed at `some 0`, so what a counter owes its object is `Covers`: it is at
least the number of references while there is one. The rules below say which changes of counter and
references keep `Covers`; `Exact` is the stronger "equal".
-/

namespace RefCount

universe u

variable {α : Type u} [BEq α]

/-- References to `x` over all holdings. -/
def refs (hs : List (List α)) (x : α) : Nat := (hs.map (List.count x)).sum

@[simp] theorem refs_nil (x : α) : refs [] x = 0 := rfl

@[simp] theorem refs_cons (h : List α) (hs : List (List α)) (x : α) :
    refs (h :: hs) x = h.count x + refs hs x := by
  simp [refs]

@[simp] theorem refs_append (hs gs : List (List α)) (x : α) :
    refs (hs ++ gs) x = refs hs x + refs gs x := by
  simp [refs]

theorem count_le_refs {h : List α} {hs : List (List α)} (hm : h ∈ hs) (x : α) :
    h.count x ≤ refs hs x := by
  induction hs with
  | nil => simp at hm
  | cons g gs ih =>
    rw [refs_cons]
    rcases List.mem_cons.1 hm with rfl | hm
    · omega
    · have := ih hm; omega

theorem refs_pos [LawfulBEq α] {hs : List (List α)} {x : α} : 0 < refs hs x ↔ ∃ h ∈ hs, x ∈ h := by
  induction hs with
  | nil => simp
  | cons h hs ih =>
    rw [refs_cons, Nat.add_pos_iff_pos_or_pos, ih, List.count_pos_iff]
    simp

/-- Dropping the holdings that meet `p` splits the references. -/
theorem refs_filter_add {β : Type*} (f : β → List α) (p : β → Bool) (bs : List β) (x : α) :
    refs ((bs.filter p).map f) x + refs ((bs.filter fun b => !p b).map f) x = refs (bs.map f) x := by
  induction bs with
  | nil => rfl
  | cons b bs ih =>
    cases hp : p b <;> simp only [List.filter_cons, hp, Bool.not_false, Bool.not_true, Bool.false_eq_true,
      ↓reduceIte, List.map_cons, refs_cons] <;> omega

/-! ## Counters -/

/-- The counter is at least the number of references, while there is one. -/
def Covers (r : Nat) (c : Option Int) : Prop := 0 < r → ∃ n, c = some n ∧ (r : Int) ≤ n

/-- The counter of a registered object is the number of references. -/
def Exact (r : Nat) (c : Option Int) : Prop := ∀ n, c = some n → n = r

theorem covers_zero (c : Option Int) : Covers 0 c := fun h => absurd h (Nat.lt_irrefl 0)

theorem Covers.some_iff {r : Nat} {n : Int} : Covers r (some n) ↔ 0 < r → (r : Int) ≤ n := by
  simp [Covers]

/-- `k` new references, each counted. -/
theorem Covers.acquire {r : Nat} {n : Int} (h : Covers r (some n)) (hn : 0 ≤ n) (k : Nat) :
    Covers (r + k) (some (n + k)) := by
  rw [Covers.some_iff] at h ⊢
  rcases Nat.eq_zero_or_pos r with rfl | hr <;> omega

/-- The counter goes down by no more than the references do. -/
theorem Covers.release {r r' : Nat} {n : Int} {d : Nat} (h : Covers r (some n)) (hd : r' + d ≤ r) :
    Covers r' (some (n - d)) := by
  rw [Covers.some_iff] at h ⊢
  omega

/-- A referenced object is registered above zero. -/
theorem Covers.pos {r : Nat} {c : Option Int} (h : Covers r c) (hr : 0 < r) : ∃ n, c = some n ∧ 0 < n := by
  obtain ⟨n, hn, hle⟩ := h hr
  exact ⟨n, hn, by omega⟩

theorem Covers.refs_eq_zero {r : Nat} {n : Int} (h : Covers r (some n)) (hn : n ≤ 0) : r = 0 := by
  rw [Covers.some_iff] at h
  omega

end RefCount
