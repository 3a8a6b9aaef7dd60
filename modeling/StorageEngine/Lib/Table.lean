import Mathlib.Algebra.Order.Ring.Nat
import Mathlib.Data.List.Nodup

/-!
# Keyed tables

A table is a list of rows under a primary key, and carries the proof that no key occurs twice.
The operations are the row-level effects of SQL statements: `updateWhere` is
`UPDATE … SET … WHERE`, `deleteWhere` is `DELETE … WHERE`, `insertNew` is
`INSERT … ON CONFLICT DO NOTHING`, `insert?` is a plain `INSERT` (`none` = unique violation),
`put` writes one row whatever was there. Each has one `get?` lemma; later proofs use only those.
-/

namespace Relational

universe u v

/-- A table with a primary key. -/
structure Table (κ : Type u) (ρ : Type v) where
  rows : List (κ × ρ)
  /-- The primary key. -/
  nodup : (rows.map Prod.fst).Nodup

namespace Table

variable {κ : Type u} {ρ : Type v}

/-- No row. -/
def empty : Table κ ρ := ⟨[], List.nodup_nil⟩

/-- `UPDATE … SET row := f row WHERE p`. -/
def updateWhere (t : Table κ ρ) (p : κ → ρ → Bool) (f : ρ → ρ) : Table κ ρ where
  rows := t.rows.map fun e => (e.1, if p e.1 e.2 then f e.2 else e.2)
  nodup := by rw [List.map_map]; exact t.nodup

/-- `DELETE … WHERE p`. -/
def deleteWhere (t : Table κ ρ) (p : κ → ρ → Bool) : Table κ ρ where
  rows := t.rows.filter fun e => !p e.1 e.2
  nodup := t.nodup.sublist (List.filter_sublist.map _)

/-- `SELECT … WHERE p`, in the order the rows are stored. -/
def select (t : Table κ ρ) (p : κ → ρ → Bool) : List (κ × ρ) := t.rows.filter fun e => p e.1 e.2

/-- Only the rows that are there matter to a condition. -/
theorem updateWhere_congr {t : Table κ ρ} {p q : κ → ρ → Bool} (f : ρ → ρ) (h : ∀ e ∈ t.rows, p e.1 e.2 = q e.1 e.2) :
    t.updateWhere p f = t.updateWhere q f := by
  unfold updateWhere
  congr 1
  exact List.map_congr_left fun e he => by rw [h e he]

theorem deleteWhere_congr {t : Table κ ρ} {p q : κ → ρ → Bool} (h : ∀ e ∈ t.rows, p e.1 e.2 = q e.1 e.2) :
    t.deleteWhere p = t.deleteWhere q := by
  unfold deleteWhere
  congr 1
  exact List.filter_congr fun e he => by rw [h e he]

variable [DecidableEq κ]

/-- The row under a key. -/
def get? (t : Table κ ρ) (k : κ) : Option ρ := (t.rows.find? fun e => e.1 == k).map Prod.snd

theorem get?_eq_none {t : Table κ ρ} {k : κ} : t.get? k = none ↔ k ∉ t.rows.map Prod.fst := by
  simp only [get?, Option.map_eq_none_iff, List.find?_eq_none, List.mem_map, not_exists, not_and, beq_iff_eq]

/-- `INSERT … ON CONFLICT DO NOTHING`. -/
def insertNew (t : Table κ ρ) (k : κ) (r : ρ) : Table κ ρ :=
  if h : t.get? k = none then
    ⟨t.rows ++ [(k, r)], by
      rw [List.map_append, List.nodup_append]
      refine ⟨t.nodup, by simp, fun a ha b hb => ?_⟩
      rintro rfl
      exact get?_eq_none.1 h (by simp_all)⟩
  else t

/-- A plain `INSERT`: `none` is the unique violation. -/
def insert? (t : Table κ ρ) (k : κ) (r : ρ) : Option (Table κ ρ) :=
  if t.get? k = none then some (t.insertNew k r) else none

/-- Writes the row under `k`, inserting it if there was none. -/
def put (t : Table κ ρ) (k : κ) (r : ρ) : Table κ ρ :=
  (t.insertNew k r).updateWhere (fun j _ => j == k) (fun _ => r)

/-! ## What a lookup finds after each operation -/

theorem mem_rows {t : Table κ ρ} {k : κ} {r : ρ} : (k, r) ∈ t.rows ↔ t.get? k = some r := by
  obtain ⟨rows, hnd⟩ := t
  simp only [get?]
  induction rows with
  | nil => simp
  | cons e es ih =>
    obtain ⟨j, s⟩ := e
    simp only [List.map_cons, List.nodup_cons] at hnd
    by_cases hj : j = k
    · subst hj
      have hout : (j, r) ∉ es := fun h => hnd.1 (List.mem_map.2 ⟨_, h, rfl⟩)
      simp [hout, eq_comm]
    · rw [List.find?_cons_of_neg (by simpa using hj), ← ih hnd.2]
      simp [Ne.symm hj]

theorem mem_select {t : Table κ ρ} {p : κ → ρ → Bool} {k : κ} {r : ρ} :
    (k, r) ∈ t.select p ↔ t.get? k = some r ∧ p k r = true := by
  simp [select, mem_rows]

/-- A row of the table is selected exactly when its key is among the selected keys. -/
theorem mem_selected_keys {t : Table κ ρ} {p : κ → ρ → Bool} {e : κ × ρ} (he : e ∈ t.rows) :
    e.1 ∈ (t.select p).map Prod.fst ↔ p e.1 e.2 = true := by
  constructor
  · intro h
    obtain ⟨⟨k, r⟩, hd, hk⟩ := List.mem_map.1 h
    obtain ⟨hr, hp⟩ := mem_select.1 hd
    have hk' : k = e.1 := hk
    subst hk'
    have hrow := mem_rows.1 (show (e.1, e.2) ∈ t.rows from he)
    rw [hr, Option.some.injEq] at hrow
    rwa [← hrow]
  · intro hp
    exact List.mem_map.2 ⟨e, List.mem_filter.2 ⟨he, hp⟩, rfl⟩

@[simp] theorem get?_empty (k : κ) : (empty : Table κ ρ).get? k = none := rfl

@[simp] theorem get?_updateWhere (t : Table κ ρ) (p : κ → ρ → Bool) (f : ρ → ρ) (k : κ) :
    (t.updateWhere p f).get? k = (t.get? k).map fun r => if p k r then f r else r := by
  cases h : t.get? k with
  | none =>
    rw [Option.map_none, get?_eq_none]
    simpa [updateWhere, List.map_map] using get?_eq_none.1 h
  | some r =>
    rw [Option.map_some, ← mem_rows]
    exact List.mem_map.2 ⟨(k, r), mem_rows.2 h, rfl⟩

theorem isSome_updateWhere (t : Table κ ρ) (p : κ → ρ → Bool) (f : ρ → ρ) (k : κ) :
    ((t.updateWhere p f).get? k).isSome = (t.get? k).isSome := by
  rw [get?_updateWhere, Option.isSome_map]

@[simp] theorem get?_deleteWhere (t : Table κ ρ) (p : κ → ρ → Bool) (k : κ) :
    (t.deleteWhere p).get? k = (t.get? k).filter fun r => !p k r := by
  ext r
  rw [← mem_rows, Option.filter_eq_some_iff, ← mem_rows]
  simp [deleteWhere]

theorem rows_insertNew_of_none {t : Table κ ρ} {k : κ} (h : t.get? k = none) (r : ρ) :
    (t.insertNew k r).rows = t.rows ++ [(k, r)] := by
  simp [insertNew, h]

theorem insertNew_of_some {t : Table κ ρ} {k : κ} {s : ρ} (h : t.get? k = some s) (r : ρ) :
    t.insertNew k r = t := by
  simp [insertNew, h]

@[simp] theorem get?_insertNew (t : Table κ ρ) (k : κ) (r : ρ) (j : κ) :
    (t.insertNew k r).get? j = if j = k then some ((t.get? k).getD r) else t.get? j := by
  cases h : t.get? k with
  | some s =>
    rw [insertNew_of_some h]
    split
    · next e => subst e; exact h
    · rfl
  | none =>
    have hmem : ∀ s, (t.insertNew k r).get? j = some s ↔ t.get? j = some s ∨ (j = k ∧ s = r) := by
      intro s
      rw [← mem_rows, ← mem_rows, rows_insertNew_of_none h]
      simp
    ext s
    rw [hmem]
    split
    · next e => subst e; simp [h, eq_comm]
    · next e => simp [e]

@[simp] theorem get?_put (t : Table κ ρ) (k : κ) (r : ρ) (j : κ) :
    (t.put k r).get? j = if j = k then some r else t.get? j := by
  unfold put
  rw [get?_updateWhere, get?_insertNew]
  by_cases e : j = k
  · simp [e]
  · cases t.get? j <;> simp [e]

theorem insert?_eq_some {t t' : Table κ ρ} {k : κ} {r : ρ} :
    t.insert? k r = some t' ↔ t.get? k = none ∧ t' = t.insertNew k r := by
  unfold insert?
  split <;> simp_all [eq_comm]

end Table

end Relational
