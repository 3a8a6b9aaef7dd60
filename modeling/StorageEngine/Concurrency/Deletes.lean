import StorageEngine.Concurrency.Statements
import StorageEngine.Metadata.Spec

/-!
# Concurrent deletions of one file

Any number of `DeleteFile(u, f)` sessions over an arbitrary store. The array is read by a plain `SELECT`,
and nothing looks at how many rows the `DELETE` hit: every session whose `SELECT` finds a row goes on to
decrement and to return `true`. So the references are released once exactly when no session reads while
another one that has found a row is still open (`deletes_release_once_iff`).
-/

namespace StorageEngine

open Relational ReadCommitted Transition

variable {ι : Type} [DecidableEq ι] [Fintype ι]

/-- The sessions at their beginning, each with the query plan of its `SELECT`. -/
def deletesFrom (db : Store) (order : ι → List Int) (u : Int) (f : String) : Sessions ι :=
  ⟨db, fun i => .active (.deleteSelect (order i) u f) []⟩

/-- The rows of the name whose list has the hash. -/
def holders (db : Store) (u : Int) (f : String) (h : String) : Nat :=
  ((db.files.select (isFile u f)).filter fun e => e.2.chunks.contains (some h)).length

/-- `DeleteFile` has returned `true`. -/
def returnedTrue (t : Progress RowWrite Position Result) : Bool := t == .done (.deleted true)

/-- One session returns `true`, and every count has gone down by at most one for each deleted row that
lists it. -/
structure ReleasedOnce (db : Store) (u : Int) (f : String) (c : Sessions ι) : Prop where
  winner : ∃ i, returnedTrue (c.txn i) ∧ ∀ j, returnedTrue (c.txn j) → j = i
  decrements : ∀ h m m', counter db h = some m → counter c.committed h = some m' → m - m' ≤ holders db u f h

/-- Before its `SELECT`. -/
def isSelecting : Progress RowWrite Position Result → Bool
  | .active (.deleteSelect ..) _ => true
  | _ => false

/-- The session has found a row and is still open. -/
def isUnderway : Progress RowWrite Position Result → Bool
  | .active (.deleteUpdate ..) _ | .active (.deleteRows ..) _ | .active .deleteCommit _ => true
  | _ => false

/-- No session reads the name while another one that has found it is open. -/
def SelectsAlone (c : Sessions ι) : Move ι Nat → Prop
  | .stmt i => isSelecting (c.txn i) → ∀ j, isUnderway (c.txn j) = false
  | .env _ => True

instance (c : Sessions ι) (m : Move ι Nat) : Decidable (SelectsAlone c m) := by
  cases m <;> unfold SelectsAlone <;> infer_instance

/-! ## What a session can be -/

/-- Some session has returned `true`. -/
def Won (c : Sessions ι) : Prop := ∃ i, returnedTrue (c.txn i)

/-- The store has a row of the name. -/
def HasName (db : Store) (u : Int) (f : String) : Prop := ∃ id r, db.files.get? id = some r ∧ isFile u f id r = true

/-- How far a `DeleteFile` is, and what it has read. -/
inductive DeleteStage (db : Store) (u : Int) (f : String) (won : Prop) : Progress RowWrite Position Result → Prop where
  | select (order : List Int) : DeleteStage db u f won (.active (.deleteSelect order u f) [])
  | found (id : Int) (r : FileRow) (hr : db.files.get? id = some r) (hn : isFile u f id r = true) :
      DeleteStage db u f won (.active (.deleteUpdate u f r.chunks) [])
  | updated (id : Int) (r : FileRow) (hashes : List String) (hr : db.files.get? id = some r)
      (hn : isFile u f id r = true) (hs : ∀ h ∈ hashes, some h ∈ r.chunks) :
      DeleteStage db u f won (.active (.deleteRows u f) [.decrement hashes])
  | removed (id : Int) (r : FileRow) (hashes : List String) (ids : List Int) (hr : db.files.get? id = some r)
      (hn : isFile u f id r = true) (hs : ∀ h ∈ hashes, some h ∈ r.chunks)
      (hids : won ∨ ∀ id r, db.files.get? id = some r → isFile u f id r = true → id ∈ ids) :
      DeleteStage db u f won (.active .deleteCommit [.decrement hashes, .removeFiles ids])
  | won (h : HasName db u f) : DeleteStage db u f won (.done (.deleted true))
  | lost (h : won ∨ ¬ HasName db u f) : DeleteStage db u f won (.done (.deleted false))

/-- Until one of them has committed the `files` rows stay; then the name is gone. -/
structure DeleteInv (db : Store) (u : Int) (f : String) (c : Sessions ι) : Prop where
  stage : ∀ i, DeleteStage db u f (Won c) (c.txn i)
  before : ¬ Won c → c.committed.files = db.files
  after : Won c → ¬ HasName c.committed u f

theorem DeleteStage.mono {db : Store} {u : Int} {f : String} {p q : Prop} {t : Progress RowWrite Position Result}
    (hpq : p → q) (h : DeleteStage db u f p t) : DeleteStage db u f q t := by
  cases h with
  | select order => exact .select order
  | found id r hr hn => exact .found id r hr hn
  | updated id r hashes hr hn hs => exact .updated id r hashes hr hn hs
  | removed id r hashes ids hr hn hs hids => exact .removed id r hashes ids hr hn hs (hids.imp_left hpq)
  | won h => exact .won h
  | lost h => exact .lost (h.imp_left hpq)

omit [DecidableEq ι] [Fintype ι] in
theorem deleteInv_init (db : Store) (order : ι → List Int) (u : Int) (f : String) :
    DeleteInv db u f (deletesFrom db order u f) where
  stage i := .select (order i)
  before _ := rfl
  after := by
    rintro ⟨i, hi⟩
    simp [returnedTrue, deletesFrom] at hi

/-- What a statement does, in terms of the stages. -/
inductive DeleteStep (db : Store) (u : Int) (f : String) (c : Sessions ι) (i : ι) : Sessions ι → Prop where
  | reads {t : Progress RowWrite Position Result} (hsel : isSelecting (c.txn i) = true) (hw : ¬ Won c)
      (ht : DeleteStage db u f (Won c) t) (hu : isUnderway t = true) :
      DeleteStep db u f c i { c with txn := Function.update c.txn i t }
  | advances {t : Progress RowWrite Position Result} (hun : isUnderway (c.txn i) = true)
      (ht : DeleteStage db u f (Won c) t) (hu : isUnderway t = true) :
      DeleteStep db u f c i { c with txn := Function.update c.txn i t }
  | loses (hsel : isSelecting (c.txn i) = true) (hl : Won c ∨ ¬ HasName db u f) :
      DeleteStep db u f c i { c with txn := Function.update c.txn i (.done (.deleted false)) }
  | commits {id : Int} {r : FileRow} {hashes : List String} {ids : List Int} (hun : isUnderway (c.txn i) = true)
      (hr : db.files.get? id = some r) (hn : isFile u f id r = true) (hs : ∀ h ∈ hashes, some h ∈ r.chunks)
      (hids : Won c ∨ ∀ id r, db.files.get? id = some r → isFile u f id r = true → id ∈ ids) :
      DeleteStep db u f c i ⟨(RowWrite.removeFiles ids).effect ((RowWrite.decrement hashes).effect c.committed),
        Function.update c.txn i (.done (.deleted true))⟩

/-- **Every statement of a run is one of the four.** -/
theorem delete_step {n : Nat} {db : Store} {u : Int} {f : String} {c c' : Sessions ι} {i : ι}
    (hi : DeleteInv db u f c) (h : (sessions n).step c (.stmt i) = some c') : DeleteStep db u f c i c' := by
  rcases step_cases h with ⟨e, he, -⟩ | ⟨j, pos, writes, hj, ht, hor⟩
  · cases he
  obtain rfl : i = j := by cases hj; rfl
  have hst := hi.stage i
  rw [ht] at hst
  cases hst with
  | select order =>
    have hsel : isSelecting (c.txn i) = true := by rw [ht]; rfl
    simp only [sessions, view_nil, statement] at hor
    cases hrows : fileRows order c.committed u f with
    | nil =>
      simp only [hrows, reduceCtorEq, false_and, exists_false, false_or, Reply.abort.injEq, exists_eq_left'] at hor
      subst hor
      refine .loses hsel ?_
      by_cases hw : Won c
      · exact Or.inl hw
      · right
        rintro ⟨id, r, hr, hn⟩
        rw [← hi.before hw] at hr
        have hm : r ∈ fileRows order c.committed u f := mem_fileRows.2 ⟨id, hr, isFile_iff.1 hn⟩
        rw [hrows] at hm
        cases hm
    | cons first rest =>
      simp only [hrows, Reply.go.injEq, reduceCtorEq, false_and, exists_false, or_false] at hor
      obtain ⟨_, _, ⟨rfl, rfl⟩, rfl⟩ := hor
      obtain ⟨id, hid, hname⟩ := mem_fileRows.1 (show first ∈ fileRows order c.committed u f by rw [hrows]; simp)
      have hw : ¬ Won c := fun hw => hi.after hw ⟨id, first, hid, isFile_iff.2 hname⟩
      rw [hi.before hw] at hid
      exact .reads hsel hw (.found id first hid (isFile_iff.2 hname)) rfl
  | found id r hr hn =>
    have hun : isUnderway (c.txn i) = true := by rw [ht]; rfl
    simp only [sessions, view_nil, statement, lockRows] at hor
    split at hor
    · simp at hor
    · simp only [Reply.go.injEq, reduceCtorEq, false_and, exists_false, or_false] at hor
      obtain ⟨_, _, ⟨rfl, rfl⟩, rfl⟩ := hor
      refine .advances hun (.updated id r _ hr hn fun k hk => ?_) rfl
      obtain ⟨e, he, rfl⟩ := List.mem_map.1 hk
      simpa using (Table.mem_select.1 he).2
  | updated id r hashes hr hn hs =>
    have hun : isUnderway (c.txn i) = true := by rw [ht]; rfl
    simp only [sessions, statement, lockRows] at hor
    split at hor
    · simp at hor
    · simp only [Reply.go.injEq, reduceCtorEq, false_and, exists_false, or_false] at hor
      obtain ⟨_, _, ⟨rfl, rfl⟩, rfl⟩ := hor
      refine .advances hun (.removed id r hashes _ hr hn hs ?_) rfl
      by_cases hw : Won c
      · exact Or.inl hw
      · right
        intro id' r' hr' hn'
        rw [← hi.before hw] at hr'
        exact List.mem_map.2 ⟨(id', r'), Table.mem_select.2 ⟨hr', hn'⟩, rfl⟩
  | removed id r hashes ids hr hn hs hids =>
    have hun : isUnderway (c.txn i) = true := by rw [ht]; rfl
    simp only [sessions, statement, Reply.commit.injEq, reduceCtorEq, false_and, exists_false, false_or, or_false,
      exists_eq_left'] at hor
    subst hor
    exact .commits hun hr hn hs hids

/-! ## The invariant -/

theorem not_returnedTrue_of_underway {t : Progress RowWrite Position Result} (h : isUnderway t = true) :
    returnedTrue t = false := by
  unfold isUnderway at h
  split at h
  · rfl
  · rfl
  · rfl
  · cases h

theorem not_returnedTrue_of_selecting {t : Progress RowWrite Position Result} (h : isSelecting t = true) :
    returnedTrue t = false := by
  unfold isSelecting at h
  split at h
  · rfl
  · cases h

omit [Fintype ι] in
theorem won_update {c : Sessions ι} {i : ι} {t : Progress RowWrite Position Result} (hi : returnedTrue (c.txn i) = false)
    (ht : returnedTrue t = false) : Won { c with txn := Function.update c.txn i t } ↔ Won c := by
  refine exists_congr fun j => ?_
  simp only [Function.update_apply]
  split
  · rename_i hj
    rw [hj, hi, ht]
  · exact Iff.rfl

omit [Fintype ι] in
/-- A session that goes from one open or losing stage to another. -/
theorem DeleteInv.update {db : Store} {u : Int} {f : String} {c : Sessions ι} {i : ι}
    {t : Progress RowWrite Position Result} (hi : DeleteInv db u f c) (hci : returnedTrue (c.txn i) = false)
    (hct : returnedTrue t = false) (ht : DeleteStage db u f (Won c) t) :
    DeleteInv db u f { c with txn := Function.update c.txn i t } := by
  have hwon := won_update hci hct
  refine ⟨fun j => ?_, fun hw => hi.before fun h => hw (hwon.2 h), fun hw => hi.after (hwon.1 hw)⟩
  refine DeleteStage.mono hwon.2 ?_
  simp only [Function.update_apply]
  split
  · exact ht
  · exact hi.stage j

omit [Fintype ι] in
theorem DeleteInv.step {db : Store} {u : Int} {f : String} {c c' : Sessions ι} {i : ι} (hi : DeleteInv db u f c)
    (h : DeleteStep db u f c i c') : DeleteInv db u f c' := by
  cases h with
  | reads hsel hw ht hu => exact hi.update (not_returnedTrue_of_selecting hsel) (not_returnedTrue_of_underway hu) ht
  | advances hun ht hu => exact hi.update (not_returnedTrue_of_underway hun) (not_returnedTrue_of_underway hu) ht
  | loses hsel hl => exact hi.update (not_returnedTrue_of_selecting hsel) rfl (.lost hl)
  | @commits id r hashes ids hun hr hn hs hids =>
    have hwon : Won (⟨(RowWrite.removeFiles ids).effect ((RowWrite.decrement hashes).effect c.committed),
        Function.update c.txn i (.done (.deleted true))⟩ : Sessions ι) := ⟨i, by simp [returnedTrue]⟩
    refine ⟨fun j => ?_, fun hw => absurd hwon hw, fun _ => ?_⟩
    · simp only [Function.update_apply]
      split
      · exact .won ⟨id, r, hr, hn⟩
      · exact (hi.stage j).mono fun _ => hwon
    · rintro ⟨k, r', hk, hname⟩
      simp only [RowWrite.effect, Table.get?_deleteWhere, Option.filter_eq_some_iff] at hk
      by_cases hw : Won c
      · exact hi.after hw ⟨k, r', hk.1, hname⟩
      · have hmem := (hids.resolve_left hw) k r' (hi.before hw ▸ hk.1) hname
        simp [hmem] at hk

/-- Time passing changes no row. -/
theorem DeleteInv.move {n : Nat} {db : Store} {u : Int} {f : String} {c c' : Sessions ι} {m : Move ι Nat}
    (hi : DeleteInv db u f c) (h : (sessions n).step c m = some c') : DeleteInv db u f c' := by
  cases m with
  | env d =>
    simp only [System.step, Option.some.injEq] at h
    subst h
    exact ⟨hi.stage, hi.before, hi.after⟩
  | stmt i => exact hi.step (delete_step hi h)

theorem deleteInv_run {n : Nat} {db : Store} {order : ι → List Int} {u : Int} {f : String} {moves : List (Move ι Nat)}
    {c : Sessions ι} (h : exec (sessions n).step (deletesFrom db order u f) moves = some c) : DeleteInv db u f c :=
  exec_inv (fun _ _ _ hi hst => hi.move hst) (deleteInv_init db order u f) h

/-! ## Sessions that have found the row -/

/-- Its `SELECT` has found the name. -/
def hasFound (t : Progress RowWrite Position Result) : Bool := isUnderway t || returnedTrue t

/-- No two sessions have found the row. -/
def AtMostOne (c : Sessions ι) : Prop := ∀ i j, hasFound (c.txn i) = true → hasFound (c.txn j) = true → i = j

theorem not_found_of_selecting {t : Progress RowWrite Position Result} (h : isSelecting t = true) : hasFound t = false := by
  have hr := not_returnedTrue_of_selecting h
  have hu : isUnderway t = false := by
    unfold isSelecting at h
    split at h
    · rfl
    · cases h
  simp [hasFound, hu, hr]

theorem found_of_underway {t : Progress RowWrite Position Result} (h : isUnderway t = true) : hasFound t = true := by
  simp [hasFound, h]

omit [Fintype ι] in
theorem txn_update_of_ne {c : Sessions ι} {i j : ι} {s : Store} {t : Progress RowWrite Position Result} (h : j ≠ i) :
    (⟨s, Function.update c.txn i t⟩ : Sessions ι).txn j = c.txn j := Function.update_of_ne h _ _

omit [Fintype ι] in
/-- Other sessions stay as they are. -/
theorem DeleteStep.other {db : Store} {u : Int} {f : String} {c c' : Sessions ι} {i j : ι}
    (h : DeleteStep db u f c i c') (hj : j ≠ i) : c'.txn j = c.txn j := by
  cases h <;> exact txn_update_of_ne hj

omit [Fintype ι] in
theorem DeleteStep.found_mono {db : Store} {u : Int} {f : String} {c c' : Sessions ι} {i j : ι}
    (h : DeleteStep db u f c i c') (hj : hasFound (c.txn j) = true) : hasFound (c'.txn j) = true := by
  by_cases hji : j = i
  · subst hji
    cases h with
    | reads hsel _ _ _ => rw [not_found_of_selecting hsel] at hj; cases hj
    | advances hun ht hu => simpa using found_of_underway hu
    | loses hsel _ => rw [not_found_of_selecting hsel] at hj; cases hj
    | commits => simp [hasFound, returnedTrue]
  · rw [h.other hji]
    exact hj

omit [DecidableEq ι] [Fintype ι] in
theorem DeleteInv.hasName {db : Store} {u : Int} {f : String} {c : Sessions ι} (hi : DeleteInv db u f c) {j : ι}
    (hj : isUnderway (c.txn j) = true) : HasName db u f := by
  have hst := hi.stage j
  generalize c.txn j = t at hst hj
  cases hst with
  | select order => cases hj
  | found id r hr hn => exact ⟨id, r, hr, hn⟩
  | updated id r hashes hr hn hs => exact ⟨id, r, hr, hn⟩
  | removed id r hashes ids hr hn hs hids => exact ⟨id, r, hr, hn⟩
  | won h => cases hj
  | lost h => cases hj

omit [Fintype ι] in
/-- A session that reads while another is underway leaves two that have found the row. -/
theorem two_found {db : Store} {u : Int} {f : String} {c c' : Sessions ι} {i : ι} (hi : DeleteInv db u f c)
    (h : DeleteStep db u f c i c') (hbad : ¬ SelectsAlone c (.stmt i)) : ¬ AtMostOne c' := by
  simp only [SelectsAlone, Classical.not_imp, not_forall, Bool.not_eq_false] at hbad
  obtain ⟨hsel, j, hj⟩ := hbad
  intro hone
  have hji : j ≠ i := by
    rintro rfl
    have hno := not_found_of_selecting hsel
    rw [found_of_underway hj] at hno
    cases hno
  have hfj : hasFound (c'.txn j) = true := h.found_mono (found_of_underway hj)
  cases h with
  | reads _ hw ht hu => exact hji (hone j i hfj (by simpa using found_of_underway hu))
  | advances hun _ _ =>
    have hno := not_found_of_selecting hsel
    rw [found_of_underway hun] at hno
    cases hno
  | loses _ hl =>
    -- the row has gone since `j` read it: somebody else has returned
    obtain ⟨k, hk⟩ := hl.resolve_right fun hno => hno (hi.hasName hj)
    have hki : k ≠ i := by
      rintro rfl
      rw [not_returnedTrue_of_selecting hsel] at hk
      cases hk
    have hfk : hasFound (c.txn k) = true := by simp [hasFound, hk]
    have hjk := hone j k hfj (by rw [txn_update_of_ne hki]; exact hfk)
    rw [← hjk, not_returnedTrue_of_underway hj] at hk
    cases hk
  | commits hun _ _ _ _ =>
    have hno := not_found_of_selecting hsel
    rw [found_of_underway hun] at hno
    cases hno

omit [Fintype ι] in
theorem AtMostOne.step {db : Store} {u : Int} {f : String} {c c' : Sessions ι} {i : ι} (hone : AtMostOne c)
    (h : DeleteStep db u f c i c') (hc : SelectsAlone c (.stmt i)) : AtMostOne c' := by
  -- apart from a session that reads, those that have found the row had found it before
  have hback : ∀ j, hasFound (c'.txn j) = true → hasFound (c.txn j) = true ∨ (j = i ∧ isSelecting (c.txn i) = true ∧ ¬ Won c) := by
    intro j hj
    by_cases hji : j = i
    · subst hji
      cases h with
      | reads hsel hw _ _ => exact Or.inr ⟨rfl, hsel, hw⟩
      | advances hun _ _ => exact Or.inl (found_of_underway hun)
      | loses _ _ => simp [hasFound, returnedTrue, isUnderway] at hj
      | commits hun _ _ _ _ => exact Or.inl (found_of_underway hun)
    · rw [h.other hji] at hj
      exact Or.inl hj
  have halone : isSelecting (c.txn i) = true → ¬ Won c → ∀ j, hasFound (c.txn j) = true → False := by
    intro hsel hw j hj
    simp only [hasFound, hc hsel j, Bool.false_or] at hj
    exact hw ⟨j, hj⟩
  intro j k hj hk
  rcases hback j hj with hj' | ⟨rfl, hsel, hw⟩ <;> rcases hback k hk with hk' | ⟨rfl, hsel', hw'⟩
  · exact hone j k hj' hk'
  · exact absurd hj' fun h => halone hsel' hw' j h
  · exact absurd hk' fun h => halone hsel hw k h
  · rfl

/-! ## Counts -/

/-- The committed counts are those of the start, and after the winner's commit one session's decrements
away from them. -/
structure ReleasedBy (db : Store) (u : Int) (f : String) (c : Sessions ι) : Prop where
  before : ¬ Won c → c.committed.chunks = db.chunks
  after : Won c → ∃ id r hashes, db.files.get? id = some r ∧ isFile u f id r = true ∧
    (∀ h ∈ hashes, some h ∈ r.chunks) ∧ c.committed.chunks = ((RowWrite.decrement hashes).effect db).chunks

omit [Fintype ι] in
theorem ReleasedBy.update {db : Store} {u : Int} {f : String} {c : Sessions ι} {i : ι}
    {t : Progress RowWrite Position Result} (hr : ReleasedBy db u f c) (hci : returnedTrue (c.txn i) = false)
    (hct : returnedTrue t = false) : ReleasedBy db u f { c with txn := Function.update c.txn i t } := by
  have hwon := won_update hci hct
  exact ⟨fun hw => hr.before fun h => hw (hwon.2 h), fun hw => hr.after (hwon.1 hw)⟩

omit [Fintype ι] in
theorem ReleasedBy.step {db : Store} {u : Int} {f : String} {c c' : Sessions ι} {i : ι} (hr : ReleasedBy db u f c)
    (hone : AtMostOne c) (h : DeleteStep db u f c i c') : ReleasedBy db u f c' := by
  cases h with
  | reads hsel hw ht hu => exact hr.update (not_returnedTrue_of_selecting hsel) (not_returnedTrue_of_underway hu)
  | advances hun ht hu => exact hr.update (not_returnedTrue_of_underway hun) (not_returnedTrue_of_underway hu)
  | loses hsel hl => exact hr.update (not_returnedTrue_of_selecting hsel) rfl
  | @commits id r hashes ids hun hrow hn hs hids =>
    have hw : ¬ Won c := by
      rintro ⟨k, hk⟩
      have hki := hone k i (by simp [hasFound, hk]) (found_of_underway hun)
      rw [hki, not_returnedTrue_of_underway hun] at hk
      cases hk
    refine ⟨fun hw' => absurd ⟨i, by simp [returnedTrue]⟩ hw', fun _ => ⟨id, r, hashes, hrow, hn, hs, ?_⟩⟩
    simp only [RowWrite.effect, hr.before hw]

omit [DecidableEq ι] [Fintype ι] in
theorem ReleasedBy.decrements {db : Store} {u : Int} {f : String} {c : Sessions ι} (hr : ReleasedBy db u f c)
    (h : String) (m m' : Int) (hm : counter db h = some m) (hm' : counter c.committed h = some m') :
    m - m' ≤ holders db u f h := by
  by_cases hw : Won c
  · obtain ⟨id, r, hashes, hrow, hn, hs, hchunks⟩ := hr.after hw
    unfold counter at hm hm'
    rw [hchunks] at hm'
    simp only [RowWrite.effect, Table.get?_updateWhere, Option.map_map, Option.map_eq_some_iff] at hm hm'
    obtain ⟨row, hrow', rfl⟩ := hm
    obtain ⟨row', hrow'', rfl⟩ := hm'
    obtain rfl : row = row' := Option.some.inj (hrow'.symm.trans hrow'')
    by_cases hh : h ∈ hashes
    · have hpos : 0 < holders db u f h := by
        refine List.length_pos_of_mem (a := (id, r)) (List.mem_filter.2 ⟨Table.mem_select.2 ⟨hrow, hn⟩, ?_⟩)
        simpa using hs h hh
      simp only [Function.comp_apply, List.contains_eq_mem, hh, decide_true, ↓reduceIte]
      omega
    · simp only [Function.comp_apply, List.contains_eq_mem, hh, decide_false, Bool.false_eq_true, ↓reduceIte]
      omega
  · unfold counter at hm hm'
    rw [hr.before hw, hm, Option.some.injEq] at hm'
    omega

/-! ## Runs -/

/-- What the good runs keep. -/
structure GoodDeletes (db : Store) (u : Int) (f : String) (c : Sessions ι) : Prop where
  inv : DeleteInv db u f c
  one : AtMostOne c
  released : ReleasedBy db u f c

theorem GoodDeletes.move {n : Nat} {db : Store} {u : Int} {f : String} {c c' : Sessions ι} {m : Move ι Nat}
    (hg : GoodDeletes db u f c) (hc : SelectsAlone c m) (h : (sessions n).step c m = some c') :
    GoodDeletes db u f c' := by
  cases m with
  | env d =>
    simp only [System.step, Option.some.injEq] at h
    subst h
    exact ⟨⟨hg.inv.stage, hg.inv.before, hg.inv.after⟩, hg.one, ⟨hg.released.before, hg.released.after⟩⟩
  | stmt i =>
    have hstep := delete_step hg.inv h
    exact ⟨hg.inv.step hstep, hg.one.step hstep hc, hg.released.step hg.one hstep⟩

theorem found_mono_run {n : Nat} {db : Store} {u : Int} {f : String} {j : ι} {moves : List (Move ι Nat)} {c c' : Sessions ι}
    (hi : DeleteInv db u f c) (hj : hasFound (c.txn j) = true) (h : exec (sessions n).step c moves = some c') :
    hasFound (c'.txn j) = true := by
  have hstep : ∀ a m b, (DeleteInv db u f a ∧ hasFound (a.txn j) = true) → (sessions n).step a m = some b →
      DeleteInv db u f b ∧ hasFound (b.txn j) = true := by
    rintro a m b ⟨ha, hja⟩ hst
    refine ⟨ha.move hst, ?_⟩
    cases m with
    | env d =>
      simp only [System.step, Option.some.injEq] at hst
      subst hst
      exact hja
    | stmt i => exact (delete_step ha hst).found_mono hja
  exact (exec_inv hstep ⟨hi, hj⟩ h).2

omit [DecidableEq ι] [Fintype ι] in
/-- Once a session has ended, having found the row is having returned `true`. -/
theorem returnedTrue_of_complete {c : Sessions ι} (hdone : Complete c) {j : ι} (hj : hasFound (c.txn j) = true) :
    returnedTrue (c.txn j) = true := by
  obtain ⟨r, hr⟩ := hdone j
  simpa [hasFound, hr, isUnderway] using hj

/-- **Concurrent deletes.** At the end of any interleaving of the statements of any number of deletions, the
file has been released once exactly when it was there, somebody deleted it, and no session read its row
while another one that had read it was still open. -/
theorem deletes_release_once_iff (n : Nat) (db : Store) (order : ι → List Int) (u : Int) (f : String)
    (moves : List (Move ι Nat)) (c : Sessions ι) (h : exec (sessions n).step (deletesFrom db order u f) moves = some c)
    (hdone : Complete c) :
    ReleasedOnce db u f c ↔
      HasName db u f ∧ Nonempty ι ∧ EachStep (sessions n).step SelectsAlone (deletesFrom db order u f) moves := by
  constructor
  · rintro ⟨⟨i, hi, huniq⟩, -⟩
    have hinv := deleteInv_run h
    refine ⟨?_, ⟨i⟩, eachStep_iff.2 fun pre m post t t' hsplit hpre hst => ?_⟩
    · obtain ⟨r, hr⟩ := hdone i
      have hst := hinv.stage i
      rw [hr] at hst hi
      cases hst with
      | won hname => exact hname
      | lost _ => cases hi
    · cases m with
      | env d => trivial
      | stmt j =>
        by_contra hbad
        have hinv₁ := deleteInv_run hpre
        have htwo := two_found hinv₁ (delete_step hinv₁ hst) hbad
        -- both have returned `true` in the end
        have hpost : exec (sessions n).step t' post = some c := by
          rw [hsplit, exec_append] at h
          obtain ⟨t₁, ht₁, h⟩ := h
          obtain rfl : t = t₁ := Option.some.inj (hpre.symm.trans ht₁)
          obtain ⟨t₂, ht₂, h⟩ := exec_cons.1 h
          obtain rfl : t' = t₂ := Option.some.inj (hst.symm.trans ht₂)
          exact h
        have hinv' := hinv₁.move hst
        refine htwo fun a b ha hb => ?_
        have hra := returnedTrue_of_complete hdone (found_mono_run hinv' ha hpost)
        have hrb := returnedTrue_of_complete hdone (found_mono_run hinv' hb hpost)
        exact (huniq a hra).trans (huniq b hrb).symm
  · rintro ⟨hname, ⟨i⟩, hc⟩
    have hstart : GoodDeletes db u f (deletesFrom db order u f) := by
      refine ⟨deleteInv_init db order u f, fun a b ha _ => ?_, fun _ => rfl, fun ⟨a, ha⟩ => ?_⟩
      · simp [hasFound, isUnderway, returnedTrue, deletesFrom] at ha
      · simp [returnedTrue, deletesFrom] at ha
    have hg := EachStep.inv (fun _ _ _ hg hcs hst => hg.move hcs hst) hc hstart h
    have hwon : Won c := by
      obtain ⟨r, hr⟩ := hdone i
      have hst := hg.inv.stage i
      rw [hr] at hst
      cases hst with
      | won _ => exact ⟨i, by rw [hr]; rfl⟩
      | lost hl => exact hl.resolve_right fun hno => hno hname
    obtain ⟨w, hw⟩ := hwon
    refine ⟨⟨w, hw, fun j hj => hg.one j w (by simp [hasFound, hj]) (by simp [hasFound, hw])⟩, hg.released.decrements⟩

/-- A user's file, its chunk shared with another file. -/
def sharedStore : Store :=
  { Store.empty with
    files := ((Table.empty).put 1 ⟨1, "a", 10, [some "c0"]⟩).put 2 ⟨2, "b", 10, [some "c0"]⟩
    chunks := (Table.empty).put "c0" ⟨[1], 2, 0⟩ }

/-- Two masters run the same request, one after the other. -/
def serialDeletes : List (Move (Fin 2) Nat) :=
  [.stmt 0, .stmt 0, .stmt 0, .stmt 0, .env 1, .stmt 1]

theorem serialDeletes_release_once : ∃ c, exec (sessions 4).step (deletesFrom sharedStore (fun _ => []) 1 "a") serialDeletes =
    some c ∧ ReleasedOnce sharedStore 1 "a" c := by
  have hfacts : ((exec (sessions 4).step (deletesFrom sharedStore (fun _ => []) 1 "a") serialDeletes).map fun c =>
      (c.txn 0, c.txn 1)) = some (.done (.deleted true), .done (.deleted false)) := by decide +kernel
  obtain ⟨c, hc, he⟩ := Option.map_eq_some_iff.1 hfacts
  rw [Prod.mk.injEq] at he
  have hdone : Complete c := by
    intro i
    match i with
    | 0 => exact ⟨_, he.1⟩
    | 1 => exact ⟨_, he.2⟩
  exact ⟨c, hc, (deletes_release_once_iff 4 sharedStore (fun _ => []) 1 "a" serialDeletes c hc hdone).2
    ⟨⟨1, _, rfl, rfl⟩, ⟨0⟩, by decide +kernel⟩⟩

/-- The same requests, both reading before either writes. -/
def racingDeletes : List (Move (Fin 2) Nat) :=
  [.stmt 0, .stmt 1, .stmt 0, .stmt 0, .stmt 0, .stmt 1, .stmt 1, .stmt 1]

/-- Both return `true`, and the reference of the other file is gone. -/
theorem racingDeletes_release_twice :
    ∃ c, exec (sessions 4).step (deletesFrom sharedStore (fun _ => []) 1 "a") racingDeletes = some c ∧ Complete c ∧
      ¬ ReleasedOnce sharedStore 1 "a" c ∧ counter c.committed "c0" = some 0 := by
  have hfacts : ((exec (sessions 4).step (deletesFrom sharedStore (fun _ => []) 1 "a") racingDeletes).map fun c =>
      (c.txn 0, c.txn 1, counter c.committed "c0")) =
      some (.done (.deleted true), .done (.deleted true), some 0) := by decide +kernel
  obtain ⟨c, hc, he⟩ := Option.map_eq_some_iff.1 hfacts
  simp only [Prod.mk.injEq] at he
  refine ⟨c, hc, fun i => ?_, fun hr => ?_, he.2.2⟩
  · match i with
    | 0 => exact ⟨_, he.1⟩
    | 1 => exact ⟨_, he.2.1⟩
  · obtain ⟨w, -, huniq⟩ := hr.winner
    have h01 : (0 : Fin 2) = 1 := (huniq 0 (by rw [he.1]; rfl)).trans (huniq 1 (by rw [he.2.1]; rfl)).symm
    exact absurd h01 (by decide)

end StorageEngine
