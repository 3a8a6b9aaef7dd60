import Mathlib.Data.Fintype.Basic
import StorageEngine.Lib.Transition

/-!
# Transactions under READ COMMITTED

Transactions `ι` run their statements one at a time over a shared state. A statement sees the committed
state with its own transaction's writes on top; a write locks the rows it changes until its transaction
ends, and a statement that would change a row locked by another transaction waits. A commit applies the
writes to the committed state, an abort drops them.

`System` is the program text: what a write does, which rows it locks, what the statement at a position
does. `env` moves change the committed state from outside (a clock).
-/

namespace ReadCommitted

open Transition

universe u

/-- What a statement does. -/
inductive Reply (W L R : Type u) where
  /-- It would change a locked row. -/
  | wait
  | go (writes : List W) (next : L)
  | commit (r : R)
  | abort (r : R)

/-- A transaction before its next statement, with what it has written, or its end. -/
inductive Progress (W L R : Type u) where
  | active (pos : L) (writes : List W)
  | done (r : R)
deriving DecidableEq

structure System (S K W L R E : Type u) where
  effect : W → S → S
  rows : W → List K
  /-- The statement at a position, on the state it sees and the rows the others have locked. -/
  stmt : L → S → (K → Bool) → Reply W L R
  env : E → S → S

/-- The committed state and all transactions. -/
structure Config (ι S W L R : Type u) where
  committed : S
  txn : ι → Progress W L R

/-- A statement of a transaction, or something else that happens to the state. -/
inductive Move (ι E : Type u) where
  | stmt (i : ι)
  | env (e : E)
deriving DecidableEq

variable {ι S K W L R E : Type u} [DecidableEq ι] [Fintype ι] [DecidableEq K] (sys : System S K W L R E)

/-- The state with a transaction's writes on top. -/
def System.view (writes : List W) (s : S) : S := writes.foldl (fun s w => sys.effect w s) s

/-- What an open transaction holds. -/
def System.locks : Progress W L R → List K
  | .active _ writes => writes.flatMap sys.rows
  | .done _ => []

/-- The row is locked by a transaction other than `i`. -/
def System.lockedFor (c : Config ι S W L R) (i : ι) (k : K) : Bool :=
  decide (∃ j, j ≠ i ∧ k ∈ sys.locks (c.txn j))

/-- A statement sees what is committed and its own writes. -/
def System.step (c : Config ι S W L R) : Move ι E → Option (Config ι S W L R)
  | .env e => some { c with committed := sys.env e c.committed }
  | .stmt i =>
    match c.txn i with
    | .done _ => none
    | .active pos writes =>
      match sys.stmt pos (sys.view writes c.committed) (sys.lockedFor c i) with
      | .wait => none
      | .go new next => some { c with txn := Function.update c.txn i (.active next (writes ++ new)) }
      | .commit r => some ⟨sys.view writes c.committed, Function.update c.txn i (.done r)⟩
      | .abort r => some { c with txn := Function.update c.txn i (.done r) }

/-- Every transaction has ended. -/
def Complete (c : Config ι S W L R) : Prop := ∀ i, ∃ r, c.txn i = .done r

variable {sys}

omit [DecidableEq ι] [Fintype ι] [DecidableEq K] in
@[simp] theorem view_nil (s : S) : sys.view [] s = s := rfl

omit [DecidableEq ι] [Fintype ι] [DecidableEq K] in
theorem view_append (ws vs : List W) (s : S) : sys.view (ws ++ vs) s = sys.view vs (sys.view ws s) :=
  List.foldl_append

/-- **What a move can have done.** -/
theorem step_cases {c c' : Config ι S W L R} {m : Move ι E} (h : sys.step c m = some c') :
    (∃ e, m = .env e ∧ c' = { c with committed := sys.env e c.committed }) ∨
    ∃ i pos writes, m = .stmt i ∧ c.txn i = .active pos writes ∧
      ((∃ new next, sys.stmt pos (sys.view writes c.committed) (sys.lockedFor c i) = .go new next ∧
          c' = { c with txn := Function.update c.txn i (.active next (writes ++ new)) }) ∨
       (∃ r, sys.stmt pos (sys.view writes c.committed) (sys.lockedFor c i) = .commit r ∧
          c' = ⟨sys.view writes c.committed, Function.update c.txn i (.done r)⟩) ∨
       (∃ r, sys.stmt pos (sys.view writes c.committed) (sys.lockedFor c i) = .abort r ∧
          c' = { c with txn := Function.update c.txn i (.done r) })) := by
  cases m with
  | env e =>
    simp only [System.step, Option.some.injEq] at h
    exact Or.inl ⟨e, rfl, h.symm⟩
  | stmt i =>
    simp only [System.step] at h
    split at h
    · cases h
    · rename_i pos writes ht
      refine Or.inr ⟨i, pos, writes, rfl, ht, ?_⟩
      split at h
      · cases h
      · rename_i new next hs; exact Or.inl ⟨new, next, hs, (Option.some.inj h).symm⟩
      · rename_i r hs; exact Or.inr (Or.inl ⟨r, hs, (Option.some.inj h).symm⟩)
      · rename_i r hs; exact Or.inr (Or.inr ⟨r, hs, (Option.some.inj h).symm⟩)

end ReadCommitted
