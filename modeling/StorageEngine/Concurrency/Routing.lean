import Mathlib.Data.Fintype.Option
import StorageEngine.Concurrency.Layout
import StorageEngine.Metadata.References

/-!
# Upload plans and the rows they are for

The plan of a new hash is that of its route, read by one statement; the row is written by a later `INSERT`,
which does nothing where another session's row is there by then. The cluster may have been replaced in between,
so the row that wins may list other workers than the plan. Where no upload-init that was overtaken so commits,
every plan returned names the workers of its row (`plans_placed_iff`).
-/

namespace StorageEngine

open Relational ReadCommitted Transition

/-- The same endpoints, in any order. -/
def SameEndpoints (a b : List NodeInfo) : Prop := (∀ info ∈ a, info ∈ b) ∧ ∀ info ∈ b, info ∈ a

instance (a b : List NodeInfo) : Decidable (SameEndpoints a b) :=
  inferInstanceAs (Decidable ((∀ info ∈ a, info ∈ b) ∧ ∀ info ∈ b, info ∈ a))

theorem SameEndpoints.refl (a : List NodeInfo) : SameEndpoints a a := ⟨fun _ h => h, fun _ h => h⟩

/-- Every plan an upload-init has returned names the workers its row lists. -/
def PlansPlaced {ι : Type} (c : LayoutSessions ι) : Prop :=
  ∀ i plans, c.txn i = .done (.upload (.plans plans)) → ∀ plan ∈ plans,
    ∃ nodes, nodesAt c.committed plan.hash = some nodes ∧
      SameEndpoints plan.assignedNodes (endpoints c.committed nodes)

/-- An `INSERT` stores its hash as it is, and a row it finds lists the workers of the route. -/
def MeetsOwnRow (db : Store) : LayoutPosition → Prop
  | .upload (.filterInsert _ hash activeNodes _ _ _) => ∀ key ∈ varchar 64 hash, key = hash ∧
      ∀ row ∈ db.chunks.get? key, SameEndpoints (endpoints db row.nodes) (endpoints db activeNodes)
  | _ => True

instance (db : Store) : (pos : LayoutPosition) → Decidable (MeetsOwnRow db pos)
  | .upload (.filterInsert _ hash activeNodes _ _ _) => inferInstanceAs (Decidable (∀ key ∈ varchar 64 hash,
      key = hash ∧ ∀ row ∈ db.chunks.get? key, SameEndpoints (endpoints db row.nodes) (endpoints db activeNodes)))
  | .upload (.deleteSelect ..) | .upload (.deleteUpdate ..) | .upload (.deleteRows ..) | .upload .deleteCommit
  | .upload (.filterSelect ..) | .upload (.filterRoute ..) | .upload (.filterRefresh ..) | .upload (.claimUpdate ..)
  | .upload (.claimCommit ..) | .addVerify .. | .addInsert .. | .addCount .. | .addBootstrap .. | .addReassign ..
  | .addCommit | .replaceCheck .. | .replaceVerify .. | .replaceReadOnly .. | .replaceNodes .. | .replaceCommit =>
    .isTrue trivial

/-- The commit of an upload-init comes next. -/
def AtCommit : Progress LayoutWrite LayoutPosition LayoutResult → Bool
  | .active (.upload (.filterSelect _ [] _)) _ => true
  | _ => false

/-- The sessions, and those an `INSERT` of which met another row than its own. -/
structure LayoutHistory (ι : Type) where
  sessions : LayoutSessions ι
  overtaken : List ι

/-- A session is noted when its `INSERT` meets another row than its own. -/
def noteOvertaken {ι : Type} (n : Nat) (t : LayoutHistory ι) : Move ι Nat → List ι
  | .stmt i =>
    match t.sessions.txn i with
    | .active pos ws =>
      if MeetsOwnRow ((layout n).view ws t.sessions.committed) pos then t.overtaken else i :: t.overtaken
    | .done _ => t.overtaken
  | .env _ => t.overtaken

section
variable {ι : Type} [DecidableEq ι] [Fintype ι]

/-- A statement, with the note of it. -/
def stepLayout (n : Nat) (t : LayoutHistory ι) (m : Move ι Nat) : Option (LayoutHistory ι) :=
  ((layout n).step t.sessions m).map fun c => ⟨c, noteOvertaken n t m⟩

/-- No upload-init that was overtaken commits. -/
def OvertakenGivesUp (t : LayoutHistory ι) : Move ι Nat → Prop
  | .stmt i => AtCommit (t.sessions.txn i) = true → i ∉ t.overtaken
  | .env _ => True

omit [Fintype ι] in
instance (t : LayoutHistory ι) : (m : Move ι Nat) → Decidable (OvertakenGivesUp t m)
  | .stmt i => inferInstanceAs (Decidable (AtCommit (t.sessions.txn i) = true → i ∉ t.overtaken))
  | .env _ => .isTrue trivial

end

/-! ## What a statement of an upload-init does -/

/-- What a statement of `FilterMissingChunks` reads and writes. -/
inductive InitMove (db : Store) (locked : RowKey → Bool) : Position → List RowWrite → Position → Prop where
  | unknown {began : Option Nat} {hash : String} {rest : List String} {plans : List ChunkRoutingPlan}
      (hrow : db.chunks.get? hash = none) : InitMove db locked (.filterSelect began (hash :: rest) plans) []
        (.filterRoute (began.getD db.now) hash rest plans)
  | known {began : Option Nat} {hash : String} {rest : List String} {plans : List ChunkRoutingPlan} {row : ChunkRow}
      (hrow : db.chunks.get? hash = some row) : InitMove db locked (.filterSelect began (hash :: rest) plans) []
        (.filterRefresh (began.getD db.now) hash row.refCount (nodeData db row.nodes) rest plans)
  | route {began : Nat} {hash : String} {rest : List String} {plans : List ChunkRoutingPlan} {activeNodes : List Int}
      {nodes : List NodeInfo} (hnodes : nodeData db activeNodes = some nodes) :
      InitMove db locked (.filterRoute began hash rest plans) [] (.filterInsert began hash activeNodes nodes rest plans)
  | insert {began : Nat} {hash key : String} {rest : List String} {plans : List ChunkRoutingPlan}
      {activeNodes : List Int} {nodes : List NodeInfo} (hkey : varchar 64 hash = some key)
      (hfree : locked (.chunk key) = false) (hrow : db.chunks.get? key = none) :
      InitMove db locked (.filterInsert began hash activeNodes nodes rest plans)
        [.insertChunk key ⟨activeNodes, 0, began⟩] (.filterSelect (some began) rest (plans ++ [⟨hash, nodes⟩]))
  | conflict {began : Nat} {hash key : String} {rest : List String} {plans : List ChunkRoutingPlan}
      {activeNodes : List Int} {nodes : List NodeInfo} {row : ChunkRow} (hkey : varchar 64 hash = some key)
      (hrow : db.chunks.get? key = some row) :
      InitMove db locked (.filterInsert began hash activeNodes nodes rest plans) []
        (.filterSelect (some began) rest (plans ++ [⟨hash, nodes⟩]))
  | refresh {began : Nat} {hash : String} {refCount : Int} {nodes : Option (List NodeInfo)} {rest : List String}
      {plans more : List ChunkRoutingPlan} {new : List RowWrite} (hnew : ∀ w ∈ new, w = .refresh hash began)
      (hmore : ∀ plan ∈ more, plan.hash = hash ∧ plan.assignedNodes ∈ nodes) :
      InitMove db locked (.filterRefresh began hash refCount nodes rest plans) new
        (.filterSelect (some began) rest (plans ++ more))

/-- The statements of an upload-init. -/
def Position.ofInit : Position → Bool
  | .filterSelect .. | .filterRoute .. | .filterInsert .. | .filterRefresh .. => true
  | _ => false

theorem refreshTurn_go {began : Nat} {db : Store} {locked : RowKey → Bool} {hash : String} {refCount : Int}
    {nodes : Option (List NodeInfo)} {rest : List String} {plans : List ChunkRoutingPlan} {new : List RowWrite}
    {next : Position} (h : refreshTurn began db locked hash refCount nodes rest plans = .go new next) :
    InitMove db locked (.filterRefresh began hash refCount nodes rest plans) new next := by
  have hupdate : ∀ more : List ChunkRoutingPlan, (∀ plan ∈ more, plan.hash = hash ∧ plan.assignedNodes ∈ nodes) →
      (if (db.chunks.get? hash).isSome then
          lockRows locked (.refresh hash began) (.filterSelect (some began) rest (plans ++ more))
        else (.go [] (.filterSelect (some began) rest (plans ++ more)) : Answer)) = .go new next →
      InitMove db locked (.filterRefresh began hash refCount nodes rest plans) new next := by
    intro more hmore h
    split at h
    · unfold lockRows at h
      split at h
      · cases h
      · cases h
        exact .refresh (by simp) hmore
    · cases h
      exact .refresh (by simp) hmore
  unfold refreshTurn at h
  simp only at h
  split at h
  · cases nodes with
    | none => cases h
    | some infos => exact hupdate [⟨hash, infos⟩] (by simp) h
  · exact hupdate [] (by simp) (by simpa using h)

/-- **One statement of an upload-init**, where it neither waits nor ends the session. -/
theorem initMove_of_go {n : Nat} {pos next : Position} {db : Store} {locked : RowKey → Bool} {new : List RowWrite}
    (hpos : pos.ofInit = true) (h : statement n pos db locked = .go new next) : InitMove db locked pos new next := by
  cases pos with
  | filterSelect began todo plans =>
    cases todo with
    | nil => cases h
    | cons hash rest =>
      simp only [statement, filterTurn] at h
      split at h
      · rename_i hrow
        cases h
        exact .unknown hrow
      · rename_i row hrow
        split at h
        · cases h
        · cases h
          exact .known hrow
  | filterRoute began hash rest plans =>
    simp only [statement, routeTurn] at h
    split at h
    · cases h
    · rename_i cluster hcluster
      split at h
      · cases h
      · rename_i nodes hnodes
        cases h
        exact .route hnodes
  | filterInsert began hash activeNodes nodes rest plans =>
    simp only [statement, insertTurn] at h
    split at h
    · cases h
    · rename_i key hkey
      split at h
      · cases h
      · rename_i hfree
        split at h
        · rename_i hsome
          obtain ⟨row, hrow⟩ := Option.isSome_iff_exists.1 hsome
          cases h
          exact .conflict hkey hrow
        · rename_i hnone
          cases h
          exact .insert hkey (by simpa using hfree) (by simpa using hnone)
  | filterRefresh began hash refCount nodes rest plans => exact refreshTurn_go h
  | _ => cases hpos

/-- Only the last `SELECT` ends an upload-init with plans. -/
theorem init_commit {n : Nat} {pos : Position} {db : Store} {locked : RowKey → Bool} {r : Result}
    (hpos : pos.ofInit = true) (h : statement n pos db locked = .commit r) :
    ∃ began plans, pos = .filterSelect began [] plans ∧ r = .plans plans := by
  cases pos with
  | filterSelect began todo plans =>
    cases todo with
    | nil =>
      cases h
      exact ⟨began, plans, rfl, rfl⟩
    | cons hash rest =>
      simp only [statement, filterTurn] at h
      split at h
      · cases h
      · split at h <;> cases h
  | filterRoute began hash rest plans =>
    simp only [statement, routeTurn] at h
    split at h
    · cases h
    · split at h <;> cases h
  | filterInsert began hash activeNodes nodes rest plans =>
    simp only [statement, insertTurn] at h
    split at h
    · cases h
    · split at h
      · cases h
      · split at h <;> cases h
  | filterRefresh began hash refCount nodes rest plans =>
    simp only [statement, refreshTurn, lockRows] at h
    repeat' split at h
    all_goals cases h
  | _ => cases hpos

theorem init_abort {n : Nat} {pos : Position} {db : Store} {locked : RowKey → Bool} {r : Result}
    (hpos : pos.ofInit = true) (h : statement n pos db locked = .abort r) : ∃ e, r = .raised e := by
  cases pos with
  | filterSelect began todo plans =>
    cases todo with
    | nil => cases h
    | cons hash rest =>
      simp only [statement, filterTurn] at h
      repeat' split at h
      all_goals cases h
      exact ⟨_, rfl⟩
  | filterRoute began hash rest plans =>
    simp only [statement, routeTurn] at h
    repeat' split at h
    all_goals cases h
    all_goals exact ⟨_, rfl⟩
  | filterInsert began hash activeNodes nodes rest plans =>
    simp only [statement, insertTurn] at h
    repeat' split at h
    all_goals cases h
    exact ⟨_, rfl⟩
  | filterRefresh began hash refCount nodes rest plans =>
    simp only [statement, refreshTurn, lockRows] at h
    repeat' split at h
    all_goals cases h
    exact ⟨_, rfl⟩
  | _ => cases hpos

/-! ## Where a session stands -/

/-- The plans a call has so far. -/
def plansOf : LayoutPosition → List ChunkRoutingPlan
  | .upload (.filterSelect _ _ plans) | .upload (.filterRoute _ _ _ plans)
  | .upload (.filterInsert _ _ _ _ _ plans) | .upload (.filterRefresh _ _ _ _ _ plans) => plans
  | _ => []

section
variable (E : List Int → List NodeInfo) (stored : String → Option (List Int))

/-- The plan names the workers of the stored row. -/
def OnRow (plan : ChunkRoutingPlan) : Prop :=
  ∃ nodes, stored plan.hash = some nodes ∧ SameEndpoints plan.assignedNodes (E nodes)

/-- The stored row lists other workers, or there can be none. -/
def OffRow (plan : ChunkRoutingPlan) : Prop :=
  (∃ nodes, stored plan.hash = some nodes ∧ ¬ SameEndpoints plan.assignedNodes (E nodes)) ∨
    (64 < plan.hash.length ∧ stored plan.hash = none)

/-- An upload-init nobody has overtaken. -/
structure OnRoute (pos : Position) : Prop where
  ofInit : pos.ofInit = true
  plans : ∀ plan ∈ plansOf (.upload pos), OnRow E stored plan
  unknown : ∀ began hash rest plans, pos = .filterRoute began hash rest plans → 64 < hash.length → stored hash = none
  routed : ∀ began hash activeNodes nodes rest plans, pos = .filterInsert began hash activeNodes nodes rest plans →
    (64 < hash.length → stored hash = none) ∧ nodes = E activeNodes
  known : ∀ began hash refCount infos rest plans, pos = .filterRefresh began hash refCount (some infos) rest plans →
    ∃ nodes, stored hash = some nodes ∧ infos = E nodes

end

/-- Stored node arrays stay, and no overlong hash gets one. -/
structure Grows (stored stored' : String → Option (List Int)) : Prop where
  keeps : ∀ h nodes, stored h = some nodes → stored' h = some nodes
  overlong : ∀ h, 64 < h.length → stored h = none → stored' h = none

theorem Grows.refl (stored : String → Option (List Int)) : Grows stored stored := ⟨fun _ _ h => h, fun _ _ h => h⟩

section
variable {E : List Int → List NodeInfo} {stored stored' : String → Option (List Int)}

theorem OnRow.grow {plan : ChunkRoutingPlan} (h : OnRow E stored plan) (hg : Grows stored stored') :
    OnRow E stored' plan := by
  obtain ⟨nodes, hn, hs⟩ := h
  exact ⟨nodes, hg.keeps _ _ hn, hs⟩

theorem OffRow.grow {plan : ChunkRoutingPlan} (h : OffRow E stored plan) (hg : Grows stored stored') :
    OffRow E stored' plan := by
  rcases h with ⟨nodes, hn, hs⟩ | ⟨hl, hn⟩
  · exact Or.inl ⟨nodes, hg.keeps _ _ hn, hs⟩
  · exact Or.inr ⟨hl, hg.overlong _ hl hn⟩

theorem OffRow.not_onRow {plan : ChunkRoutingPlan} (h : OffRow E stored plan) : ¬ OnRow E stored plan := by
  rintro ⟨nodes, hn, hs⟩
  rcases h with ⟨nodes', hn', hs'⟩ | ⟨-, hn'⟩
  · rw [hn, Option.some.injEq] at hn'
    exact hs' (hn' ▸ hs)
  · rw [hn] at hn'
    cases hn'

theorem OnRoute.grow {pos : Position} (h : OnRoute E stored pos) (hg : Grows stored stored') : OnRoute E stored' pos where
  ofInit := h.ofInit
  plans plan hm := (h.plans plan hm).grow hg
  unknown began hash rest plans hp hl := hg.overlong _ hl (h.unknown began hash rest plans hp hl)
  routed began hash activeNodes nodes rest plans hp :=
    (h.routed began hash activeNodes nodes rest plans hp).imp_left fun hn hl => hg.overlong _ hl (hn hl)
  known began hash refCount infos rest plans hp := by
    obtain ⟨nodes, hn, he⟩ := h.known began hash refCount infos rest plans hp
    exact ⟨nodes, hg.keeps _ _ hn, he⟩

/-- Between two hashes only the plans count. -/
theorem onRoute_select {began : Option Nat} {todo : List String} {plans : List ChunkRoutingPlan}
    (h : ∀ plan ∈ plans, OnRow E stored plan) : OnRoute E stored (.filterSelect began todo plans) where
  ofInit := rfl
  plans := h
  unknown _ _ _ _ hp := by cases hp
  routed _ _ _ _ _ _ hp := by cases hp
  known _ _ _ _ _ _ hp := by cases hp

end

/-- The node arrays of a view after a statement. -/
def storedAfter (db : Store) (new : List LayoutWrite) (hash : String) : Option (List Int) :=
  (nodesAt db hash).or (newNodes new hash)

theorem newNodes_insert (key : String) (row : ChunkRow) (hash : String) :
    newNodes [.row (.insertChunk key row)] hash = if hash = key then some row.nodes else none := by
  simp only [newNodes, List.findSome?_singleton, LayoutWrite.newNodes]

theorem newNodes_refresh {hash : String} {began : Nat} {new : List RowWrite} (h : ∀ w ∈ new, w = .refresh hash began)
    (k : String) : newNodes (new.map .row) k = none := by
  unfold newNodes
  rw [List.findSome?_eq_none_iff]
  intro w hw
  obtain ⟨v, hv, rfl⟩ := List.mem_map.1 hw
  rw [h v hv]
  rfl

theorem growsAfter {db : Store} {new : List LayoutWrite} (h : ∀ k nodes, newNodes new k = some nodes → k.length ≤ 64) :
    Grows (nodesAt db) (storedAfter db new) where
  keeps k nodes hk := by rw [storedAfter, hk, Option.some_or]
  overlong k hl hk := by
    rw [storedAfter, hk, Option.none_or]
    cases hn : newNodes new k with
    | none => rfl
    | some nodes => exact absurd (h k nodes hn) (by omega)

/-- The plans of a session that a statement does not end stay. -/
theorem InitMove.plansOf_sub {db : Store} {locked : RowKey → Bool} {pos next : Position} {new : List RowWrite}
    (h : InitMove db locked pos new next) : ∀ plan ∈ plansOf (.upload pos), plan ∈ plansOf (.upload next) := by
  intro plan hm
  cases h with
  | unknown _ | known _ | route _ => exact hm
  | insert _ _ _ | conflict _ _ | refresh _ _ => exact List.mem_append_left _ hm

/-- New node arrays are those of the `INSERT`. -/
theorem InitMove.newNodes_some {db : Store} {locked : RowKey → Bool} {pos next : Position} {new : List RowWrite}
    (h : InitMove db locked pos new next) {k : String} {nodes : List Int}
    (hk : newNodes (new.map .row) k = some nodes) :
    k.length ≤ 64 ∧ locked (.chunk k) = false ∧ nodesAt db k = none := by
  cases h with
  | unknown _ | known _ | route _ | conflict _ _ => cases hk
  | refresh hnew _ =>
    rw [newNodes_refresh hnew] at hk
    cases hk
  | @insert began hash key _ _ _ _ hkey hfree hrow =>
    rw [List.map_singleton, newNodes_insert] at hk
    split at hk
    · rename_i he
      subst he
      exact ⟨(varchar_overlong hkey).1, hfree, by rw [nodesAt, hrow]; rfl⟩
    · cases hk

/-- **A statement of an upload-init that nobody has overtaken**, and does not by it. -/
theorem InitMove.onRoute {db : Store} {locked : RowKey → Bool} {pos next : Position} {new : List RowWrite}
    (h : InitMove db locked pos new next) (hon : OnRoute (endpoints db) (nodesAt db) pos)
    (hmeets : MeetsOwnRow db (.upload pos)) :
    OnRoute (endpoints db) (storedAfter db (new.map .row)) next := by
  have hgrow : Grows (nodesAt db) (storedAfter db (new.map .row)) := growsAfter fun k nodes hk => (h.newNodes_some hk).1
  have hold := fun plan hm => (hon.plans plan hm).grow hgrow
  cases h with
  | @unknown began hash rest plans hrow =>
    refine ⟨rfl, hold, ?_, ?_, ?_⟩
    · intro _ _ _ _ hp hl
      cases hp
      exact hgrow.overlong _ hl (by rw [nodesAt, hrow]; rfl)
    · intro _ _ _ _ _ _ hp; cases hp
    · intro _ _ _ _ _ _ hp; cases hp
  | @known began hash rest plans row hrow =>
    refine ⟨rfl, hold, ?_, ?_, ?_⟩
    · intro _ _ _ _ hp; cases hp
    · intro _ _ _ _ _ _ hp; cases hp
    · intro _ _ _ infos _ _ hp
      obtain ⟨-, rfl, -, hdata, -, -⟩ := Position.filterRefresh.inj hp
      exact ⟨row.nodes, hgrow.keeps _ _ (by rw [nodesAt, hrow]; rfl), mem_of_nodeData hdata⟩
  | @route began hash rest plans activeNodes nodes hnodes =>
    refine ⟨rfl, hold, ?_, ?_, ?_⟩
    · intro _ _ _ _ hp; cases hp
    · intro _ _ _ _ _ _ hp
      cases hp
      exact ⟨fun hl => hgrow.overlong _ hl (hon.unknown _ _ _ _ rfl hl), mem_of_nodeData hnodes⟩
    · intro _ _ _ _ _ _ hp; cases hp
  | @insert began hash key rest plans activeNodes nodes hkey hfree hrow =>
    refine onRoute_select fun plan hm => ?_
    rcases List.mem_append.1 hm with hm | hm
    · exact hold plan hm
    · rw [List.mem_singleton] at hm
      obtain ⟨rfl, -⟩ := hmeets key hkey
      refine ⟨activeNodes, ?_, ?_⟩
      · rw [hm, storedAfter, nodesAt, hrow, List.map_singleton, newNodes_insert, if_pos rfl]
        rfl
      · rw [hm, (hon.routed _ _ _ _ _ _ rfl).2]
        exact .refl _
  | @conflict began hash key rest plans activeNodes nodes row hkey hrow =>
    refine onRoute_select fun plan hm => ?_
    rcases List.mem_append.1 hm with hm | hm
    · exact hold plan hm
    · rw [List.mem_singleton] at hm
      obtain ⟨rfl, hsame⟩ := hmeets key hkey
      refine ⟨row.nodes, hgrow.keeps _ _ (by rw [hm, nodesAt, hrow]; rfl), ?_⟩
      rw [hm, (hon.routed _ _ _ _ _ _ rfl).2]
      have hrows := hsame row hrow
      exact ⟨hrows.2, hrows.1⟩
  | @refresh began hash refCount infos rest plans more new hnew hmore =>
    refine onRoute_select fun plan hm => ?_
    rcases List.mem_append.1 hm with hm | hm
    · exact hold plan hm
    · obtain ⟨hhash, hinfos⟩ := hmore plan hm
      obtain rfl := Option.mem_def.1 hinfos
      obtain ⟨nodes, hn, he⟩ := hon.known _ _ _ _ _ _ rfl
      exact ⟨nodes, hgrow.keeps _ _ (hhash ▸ hn), he ▸ .refl _⟩

/-- **The `INSERT` that is overtaken** leaves a plan for another row. -/
theorem InitMove.overtaken {db : Store} {locked : RowKey → Bool} {pos next : Position} {new : List RowWrite}
    (h : InitMove db locked pos new next) (hon : OnRoute (endpoints db) (nodesAt db) pos)
    (hmeets : ¬ MeetsOwnRow db (.upload pos)) :
    ∃ plan ∈ plansOf (.upload next), OffRow (endpoints db) (storedAfter db (new.map .row)) plan := by
  have hgrow : Grows (nodesAt db) (storedAfter db (new.map .row)) := growsAfter fun k nodes hk => (h.newNodes_some hk).1
  cases h with
  | unknown _ | known _ | route _ | refresh _ _ => exact absurd trivial hmeets
  | @insert began hash key rest plans activeNodes nodes hkey hfree hrow =>
    have hcut : key ≠ hash := by
      rintro rfl
      refine hmeets fun k hk => ?_
      obtain rfl := Option.some.inj (hkey.symm.trans hk)
      exact ⟨rfl, fun row hr => by rw [Option.mem_def, hrow] at hr; cases hr⟩
    have hlong : 64 < hash.length := by
      by_contra hle
      exact hcut ((varchar_overlong hkey).2 (by omega))
    exact ⟨⟨hash, nodes⟩, List.mem_append_right _ (List.mem_singleton_self _),
      .inr ⟨hlong, hgrow.overlong _ hlong ((hon.routed _ _ _ _ _ _ rfl).1 hlong)⟩⟩
  | @conflict began hash key rest plans activeNodes nodes row hkey hrow =>
    refine ⟨⟨hash, nodes⟩, List.mem_append_right _ (List.mem_singleton_self _), ?_⟩
    obtain ⟨hnone, hnodes⟩ := hon.routed _ _ _ _ _ _ rfl
    by_cases hlong : 64 < hash.length
    · exact .inr ⟨hlong, hgrow.overlong _ hlong (hnone hlong)⟩
    · obtain rfl := (varchar_overlong hkey).2 (by omega)
      refine .inl ⟨row.nodes, hgrow.keeps _ _ (by rw [nodesAt, hrow]; rfl), fun hsame => hmeets fun k hk => ?_⟩
      obtain rfl := Option.some.inj (hkey.symm.trans hk)
      refine ⟨rfl, fun r hr => ?_⟩
      obtain rfl := Option.some.inj (hrow.symm.trans hr)
      rw [hnodes] at hsame
      exact ⟨hsame.2, hsame.1⟩

/-! ## All sessions -/

theorem uploadAnswer_go {a : Answer} {new : List LayoutWrite} {next : LayoutPosition} (h : uploadAnswer a = .go new next) :
    ∃ ws pos, a = .go ws pos ∧ new = ws.map .row ∧ next = .upload pos := by
  cases a with
  | go ws pos =>
    cases h
    exact ⟨ws, pos, rfl, rfl, rfl⟩
  | _ => cases h

theorem uploadAnswer_commit {a : Answer} {r : LayoutResult} (h : uploadAnswer a = .commit r) :
    ∃ r', a = .commit r' ∧ r = .upload r' := by
  cases a with
  | commit r' =>
    cases h
    exact ⟨r', rfl, rfl⟩
  | _ => cases h

theorem uploadAnswer_abort {a : Answer} {r : LayoutResult} (h : uploadAnswer a = .abort r) :
    ∃ r', a = .abort r' ∧ r = .upload r' := by
  cases a with
  | abort r' =>
    cases h
    exact ⟨r', rfl, rfl⟩
  | _ => cases h

/-- The cluster calls create no chunk row and stay cluster calls. -/
theorem cluster_go {n : Nat} {pos next : LayoutPosition} {db : Store} {locked : LayoutKey → Bool}
    {new : List LayoutWrite} (hpos : ∀ p, pos ≠ .upload p) (h : layoutStatement n pos db locked = .go new next) :
    (∀ k, newNodes new k = none) ∧ ∀ p, next ≠ .upload p := by
  cases pos with
  | upload p => exact absurd rfl (hpos p)
  | addInsert order clusterId name nodes =>
    simp only [layoutStatement, clusterInsert] at h
    repeat' split at h
    all_goals cases h
    exact ⟨fun _ => rfl, by simp⟩
  | addReassign order newClusterId target current =>
    cases current with
    | nil =>
      cases h
      exact ⟨fun _ => rfl, by simp⟩
    | cons owner rest =>
      simp only [layoutStatement, lockLayout] at h
      repeat' split at h
      all_goals cases h
      all_goals exact ⟨fun _ => rfl, by simp⟩
  | addCommit => cases h
  | replaceCommit => cases h
  | _ =>
    simp only [layoutStatement, lockLayout] at h
    repeat' split at h
    all_goals cases h
    all_goals exact ⟨fun _ => rfl, by simp⟩

/-- They return no plans. -/
theorem cluster_ends {n : Nat} {pos : LayoutPosition} {db : Store} {locked : LayoutKey → Bool} {r : LayoutResult}
    (hpos : ∀ p, pos ≠ .upload p)
    (h : layoutStatement n pos db locked = .commit r ∨ layoutStatement n pos db locked = .abort r) :
    ∀ r', r ≠ .upload r' := by
  cases pos with
  | upload p => exact absurd rfl (hpos p)
  | addReassign order newClusterId target current =>
    cases current <;> simp only [layoutStatement, lockLayout] at h
    all_goals repeat' split at h
    all_goals simp at h
  | _ =>
    simp only [layoutStatement, clusterInsert, lockLayout] at h
    repeat' split at h
    all_goals simp at h
    all_goals simp [← h]

section
variable {ι : Type}

/-- No two open sessions insert the same hash, and no stored one. -/
def Alone (c : LayoutSessions ι) : Prop :=
  ∀ i pos ws, c.txn i = .active pos ws → ∀ k nodes, newNodes ws k = some nodes →
    k.length ≤ 64 ∧ nodesAt c.committed k = none ∧
      ∀ j pos' ws', j ≠ i → c.txn j = .active pos' ws' → newNodes ws' k = none

/-- The plans of an upload-init are on its chunks' rows, or it was overtaken and one of them is not. -/
def SessionOK (late : Prop) (db : Store) : Progress LayoutWrite LayoutPosition LayoutResult → Prop
  | .active (.upload pos) ws => pos.ofInit = true ∧ (¬ late → OnRoute (endpoints db) (storedAfter db ws) pos) ∧
      (late → ∃ plan ∈ plansOf (.upload pos), OffRow (endpoints db) (storedAfter db ws) plan)
  | _ => True

/-- So it is with every session, and no two insert the same hash. -/
structure LayoutInv (t : LayoutHistory ι) : Prop where
  alone : Alone t.sessions
  each : ∀ i, SessionOK (i ∈ t.overtaken) t.sessions.committed (t.sessions.txn i)

theorem layoutInv_init (db : Store) (calls : ι → LayoutCall) : LayoutInv ⟨layoutFrom db calls, []⟩ where
  alone i pos ws ht k nodes hk := by
    cases ht
    cases hk
  each i := by
    simp only [layoutFrom]
    cases calls i with
    | filterMissingChunks hashes => exact ⟨rfl, fun _ => onRoute_select (by simp), by simp⟩
    | addCluster order clusterId name nodes => trivial
    | replaceCluster clusterId nodes => trivial

theorem SessionOK.grow {late : Prop} {db db' : Store} {t : Progress LayoutWrite LayoutPosition LayoutResult}
    (h : SessionOK late db t) (he : endpoints db' = endpoints db)
    (hg : ∀ pos ws, t = .active pos ws → Grows (storedAfter db ws) (storedAfter db' ws)) : SessionOK late db' t := by
  cases t with
  | done r => trivial
  | active pos ws =>
    cases pos with
    | upload pos =>
      obtain ⟨hinit, hon, hoff⟩ := h
      refine ⟨hinit, fun ho => he ▸ (hon ho).grow (hg _ _ rfl), fun ho => ?_⟩
      obtain ⟨plan, hm, hp⟩ := hoff ho
      exact ⟨plan, hm, he ▸ hp.grow (hg _ _ rfl)⟩
    | _ => trivial

end

theorem nodesAt_layout (n : Nat) (ws : List LayoutWrite) (db : Store) :
    nodesAt ((layout n).view ws db) = storedAfter db ws := funext (nodesAt_view n ws db)

theorem endpoints_layout (n : Nat) (ws : List LayoutWrite) (db : Store) :
    endpoints ((layout n).view ws db) = endpoints db := funext (endpoints_view n ws db)

theorem storedAfter_view (n : Nat) (ws new : List LayoutWrite) (db : Store) :
    storedAfter ((layout n).view ws db) new = storedAfter db (ws ++ new) := by
  funext k
  rw [storedAfter, nodesAt_view, storedAfter, newNodes_append, Option.or_assoc]

/-- A session holds the lock of what it inserts. -/
theorem locks_newNodes {ws : List LayoutWrite} {k : String} {nodes : List Int} (h : newNodes ws k = some nodes) :
    LayoutKey.row (.chunk k) ∈ ws.flatMap LayoutWrite.rows := by
  obtain ⟨w, hw, hk⟩ := List.exists_of_findSome?_eq_some h
  refine List.mem_flatMap.2 ⟨w, hw, ?_⟩
  unfold LayoutWrite.newNodes at hk
  split at hk
  · split at hk
    · rename_i he
      subst he
      simp [LayoutWrite.rows, RowWrite.rows]
    · cases hk
  · cases hk

section
variable {n : Nat} {late : Prop} {db : Store} {locked : LayoutKey → Bool} {pos : LayoutPosition} {ws : List LayoutWrite}

/-- **One statement of a session** that goes on. -/
theorem SessionOK.go {new : List LayoutWrite} {next : LayoutPosition} (hok : SessionOK late db (.active pos ws))
    (h : layoutStatement n pos ((layout n).view ws db) locked = .go new next) :
    (∀ k nodes, newNodes new k = some nodes →
      k.length ≤ 64 ∧ locked (.row (.chunk k)) = false ∧ storedAfter db ws k = none) ∧
    SessionOK (late ∨ ¬ MeetsOwnRow ((layout n).view ws db) pos) db (.active next (ws ++ new)) ∧
    AtCommit (.active pos ws) = false := by
  by_cases hup : ∃ p, pos = .upload p
  · obtain ⟨pos, rfl⟩ := hup
    obtain ⟨hinit, hon, hoff⟩ := hok
    obtain ⟨new, next, hgo, rfl, rfl⟩ := uploadAnswer_go h
    have hmove := initMove_of_go hinit hgo
    have hnew : ∀ k nodes, newNodes (new.map .row) k = some nodes →
        k.length ≤ 64 ∧ locked (.row (.chunk k)) = false ∧ storedAfter db ws k = none := by
      intro k nodes hk
      have hsome := hmove.newNodes_some hk
      rwa [nodesAt_view] at hsome
    rw [← nodesAt_layout n, ← endpoints_layout n ws] at hon
    refine ⟨hnew, ⟨?_, fun ho => ?_, fun ho => ?_⟩, ?_⟩
    · cases hmove <;> rfl
    · rw [not_or, not_not] at ho
      have hnext := hmove.onRoute (hon ho.1) ho.2
      rwa [storedAfter_view, endpoints_layout] at hnext
    · by_cases hlate : late
      · obtain ⟨plan, hm, hp⟩ := hoff hlate
        refine ⟨plan, hmove.plansOf_sub plan hm, hp.grow ?_⟩
        rw [← storedAfter_view n, ← nodesAt_layout n]
        exact growsAfter fun k nodes hk => (hnew k nodes hk).1
      · have hnext := hmove.overtaken (hon hlate) (ho.resolve_left hlate)
        rwa [storedAfter_view, endpoints_layout] at hnext
    · cases hmove <;> rfl
  · have hpos : ∀ p, pos ≠ .upload p := fun p he => hup ⟨p, he⟩
    obtain ⟨hnone, hnext⟩ := cluster_go hpos h
    refine ⟨fun k nodes hk => absurd (hk.symm.trans (hnone k)) (by simp), ?_, ?_⟩
    · cases next with
      | upload p => exact absurd rfl (hnext p)
      | _ => trivial
    · cases pos with
      | upload p => exact absurd rfl (hpos p)
      | _ => rfl

/-- **The commit of a session**: with plans exactly where an upload-init is at its end. -/
theorem SessionOK.commit {r : LayoutResult} (hok : SessionOK late db (.active pos ws))
    (h : layoutStatement n pos ((layout n).view ws db) locked = .commit r) :
    (∃ plans, r = .upload (.plans plans) ∧ AtCommit (.active pos ws) = true ∧
      ((∀ plan ∈ plans, OnRow (endpoints db) (storedAfter db ws) plan) ↔ ¬ late)) ∨
    (∀ r', r ≠ .upload r') ∧ AtCommit (.active pos ws) = false := by
  by_cases hup : ∃ p, pos = .upload p
  · obtain ⟨pos, rfl⟩ := hup
    obtain ⟨hinit, hon, hoff⟩ := hok
    obtain ⟨r', hcommit, rfl⟩ := uploadAnswer_commit h
    obtain ⟨began, plans, rfl, rfl⟩ := init_commit hinit hcommit
    refine Or.inl ⟨plans, rfl, rfl, fun hall ho => ?_, fun ho => (hon ho).plans⟩
    obtain ⟨plan, hm, hp⟩ := hoff ho
    exact hp.not_onRow (hall plan hm)
  · have hpos : ∀ p, pos ≠ .upload p := fun p he => hup ⟨p, he⟩
    refine Or.inr ⟨cluster_ends hpos (Or.inl h), ?_⟩
    cases pos with
    | upload p => exact absurd rfl (hpos p)
    | _ => rfl

/-- An error gives no plans, and is not met at the commit. -/
theorem SessionOK.abort {r : LayoutResult} (hok : SessionOK late db (.active pos ws))
    (h : layoutStatement n pos ((layout n).view ws db) locked = .abort r) :
    (∀ plans, r ≠ .upload (.plans plans)) ∧ AtCommit (.active pos ws) = false := by
  by_cases hup : ∃ p, pos = .upload p
  · obtain ⟨pos, rfl⟩ := hup
    obtain ⟨r', habort, rfl⟩ := uploadAnswer_abort h
    obtain ⟨e, rfl⟩ := init_abort hok.1 habort
    refine ⟨by simp, ?_⟩
    cases pos with
    | filterSelect began todo plans =>
      cases todo with
      | nil => cases habort
      | cons hash rest => rfl
    | _ => rfl
  · have hpos : ∀ p, pos ≠ .upload p := fun p he => hup ⟨p, he⟩
    refine ⟨fun plans => cluster_ends hpos (Or.inr h) _, ?_⟩
    cases pos with
    | upload p => exact absurd rfl (hpos p)
    | _ => rfl

end

section
variable {ι : Type} [DecidableEq ι] [Fintype ι] {n : Nat} {c : LayoutSessions ι} {i : ι} {pos : LayoutPosition}
  {ws : List LayoutWrite}

omit [Fintype ι] in
/-- A session that ends inserts nothing any more; what it has stored nobody else inserts. -/
theorem Alone.ended (h : Alone c) (ht : c.txn i = .active pos ws) {db : Store} (r : LayoutResult)
    (hdb : ∀ k, nodesAt db k = nodesAt c.committed k ∨ nodesAt db k = storedAfter c.committed ws k) :
    Alone ⟨db, Function.update c.txn i (.done r)⟩ := by
  intro j pos' ws' htj k nodes hk
  have hj : j ≠ i := by
    rintro rfl
    simp at htj
  simp only [Function.update_of_ne hj] at htj
  obtain ⟨hshort, hnone, hothers⟩ := h j pos' ws' htj k nodes hk
  refine ⟨hshort, ?_, fun l pos'' ws'' hl htl => ?_⟩
  · rcases hdb k with he | he
    · exact he.trans hnone
    · refine he.trans ?_
      rw [storedAfter, hnone, hothers i pos ws hj.symm ht, Option.none_or]
  · have hli : l ≠ i := by
      rintro rfl
      simp at htl
    simp only [Function.update_of_ne hli] at htl
    exact hothers l pos'' ws'' hl htl

theorem Alone.go (h : Alone c) (ht : c.txn i = .active pos ws) {new : List LayoutWrite} {next : LayoutPosition}
    (hnew : ∀ k nodes, newNodes new k = some nodes → k.length ≤ 64 ∧
      (layout n).lockedFor c i (.row (.chunk k)) = false ∧ storedAfter c.committed ws k = none) :
    Alone { c with txn := Function.update c.txn i (.active next (ws ++ new)) } := by
  -- nobody else holds the lock of what is new
  have hfree : ∀ k nodes, newNodes new k = some nodes → ∀ j pos' ws', j ≠ i → c.txn j = .active pos' ws' →
      newNodes ws' k = none := by
    intro k nodes hk j pos' ws' hj htj
    cases hn : newNodes ws' k with
    | none => rfl
    | some nodes' =>
      have hlock := (hnew k nodes hk).2.1
      simp only [System.lockedFor, decide_eq_false_iff_not, not_exists, not_and] at hlock
      refine absurd ?_ (hlock j hj)
      rw [htj]
      exact locks_newNodes hn
  intro j pos' ws' htj k nodes hk
  by_cases hj : j = i
  · subst hj
    simp only [Function.update_self, Progress.active.injEq] at htj
    obtain ⟨rfl, rfl⟩ := htj
    rw [newNodes_append] at hk
    cases hold : newNodes ws k with
    | some nodes' =>
      obtain ⟨hshort, hnone, hothers⟩ := h j pos ws ht k nodes' hold
      refine ⟨hshort, hnone, fun l pos'' ws'' hl htl => ?_⟩
      simp only [Function.update_of_ne hl] at htl
      exact hothers l pos'' ws'' hl htl
    | none =>
      rw [hold, Option.none_or] at hk
      obtain ⟨hshort, -, hnone⟩ := hnew k nodes hk
      refine ⟨hshort, ?_, fun l pos'' ws'' hl htl => ?_⟩
      · rwa [storedAfter, hold, Option.or_none] at hnone
      · simp only [Function.update_of_ne hl] at htl
        exact hfree k nodes hk l pos'' ws'' hl htl
  · simp only [Function.update_of_ne hj] at htj
    obtain ⟨hshort, hnone, hothers⟩ := h j pos' ws' htj k nodes hk
    refine ⟨hshort, hnone, fun l pos'' ws'' hl htl => ?_⟩
    by_cases hli : l = i
    · subst hli
      simp only [Function.update_self, Progress.active.injEq] at htl
      obtain ⟨-, rfl⟩ := htl
      rw [newNodes_append, hothers l pos ws hl ht, Option.none_or]
      cases hn : newNodes new k with
      | none => rfl
      | some nodes' =>
        have hnone' := hfree k nodes' hn j pos' ws' hj htj
        rw [hk] at hnone'
        cases hnone'
    · simp only [Function.update_of_ne hli] at htl
      exact hothers l pos'' ws'' hl htl

omit [DecidableEq ι] [Fintype ι] in
/-- Another session's progress, where the committed rows only grow. -/
theorem SessionOK.other {late : Prop} {t : Progress LayoutWrite LayoutPosition LayoutResult} {db db' : Store}
    (h : SessionOK late db t) (he : endpoints db' = endpoints db)
    (hrows : ∀ pos ws, t = .active pos ws → ∀ k, nodesAt db' k = nodesAt db k ∨ newNodes ws k = none)
    (hgrow : Grows (nodesAt db) (nodesAt db')) : SessionOK late db' t := by
  refine h.grow he fun pos ws ht => ⟨fun k nodes hk => ?_, fun k hl hk => ?_⟩
  · rcases hrows pos ws ht k with hsame | hnone
    · rwa [storedAfter, hsame]
    · rw [storedAfter, hnone, Option.or_none] at hk ⊢
      exact hgrow.keeps _ _ hk
  · rw [storedAfter, Option.or_eq_none_iff] at hk ⊢
    exact ⟨hgrow.overlong _ hl hk.1, hk.2⟩

omit [DecidableEq ι] [Fintype ι] in
theorem mem_noteOvertaken {t : LayoutHistory ι} (ht : t.sessions.txn i = .active pos ws) (j : ι) :
    j ∈ noteOvertaken n t (.stmt i) ↔
      j ∈ t.overtaken ∨ j = i ∧ ¬ MeetsOwnRow ((layout n).view ws t.sessions.committed) pos := by
  simp only [noteOvertaken, ht]
  split
  · rename_i hm
    simp [hm]
  · rename_i hm
    simp [hm, or_comm]

omit [DecidableEq ι] [Fintype ι] in
/-- Committed rows only grow. -/
theorem Alone.grows (h : Alone c) (ht : c.txn i = .active pos ws) :
    Grows (nodesAt c.committed) (nodesAt ((layout n).view ws c.committed)) := by
  rw [nodesAt_layout]
  exact growsAfter fun k nodes hk => (h i pos ws ht k nodes hk).1

/-- **One move** of the sessions. -/
theorem LayoutInv.step {t t' : LayoutHistory ι} {m : Move ι Nat} (hi : LayoutInv t) (hp : PlansPlaced t.sessions)
    (h : stepLayout n t m = some t') : LayoutInv t' ∧ (PlansPlaced t'.sessions ↔ OvertakenGivesUp t m) := by
  obtain ⟨c', hstep, rfl⟩ := Option.map_eq_some_iff.1 h
  obtain ⟨c, late⟩ := t
  rcases step_cases hstep with ⟨d, rfl, rfl⟩ | ⟨i, pos, ws, rfl, ht, hor⟩
  · exact ⟨⟨hi.alone, fun j => (hi.each j).grow rfl fun _ _ _ => .refl _⟩, iff_of_true hp trivial⟩
  have ht : c.txn i = .active pos ws := ht
  have hok : SessionOK (i ∈ late) c.committed (c.txn i) := hi.each i
  rw [ht] at hok
  have hother : ∀ j, j ≠ i → (j ∈ noteOvertaken n ⟨c, late⟩ (.stmt i) ↔ j ∈ late) := fun j hj => by
    simp [mem_noteOvertaken (t := ⟨c, late⟩) (n := n) ht, hj]
  rcases hor with ⟨new, next, hgo, rfl⟩ | ⟨r, hcommit, rfl⟩ | ⟨r, habort, rfl⟩
  · obtain ⟨hnew, hnext, hat⟩ := hok.go hgo
    refine ⟨⟨hi.alone.go ht hnew, fun j => ?_⟩, iff_of_true (fun j plans hj => ?_) fun ha => ?_⟩
    · by_cases hj : j = i
      · subst hj
        simp only [Function.update_self]
        rwa [mem_noteOvertaken (t := ⟨c, late⟩) ht, eq_self, true_and]
      · simp only [Function.update_of_ne hj, hother j hj]
        exact hi.each j
    · have hji : j ≠ i := by
        rintro rfl
        simp at hj
      simp only [Function.update_of_ne hji] at hj
      exact hp j plans hj
    · simp only [ht, hat] at ha
      cases ha
  · have hgrow := hi.alone.grows (n := n) ht
    have hinv : LayoutInv ⟨⟨(layout n).view ws c.committed, Function.update c.txn i (.done r)⟩,
        noteOvertaken n ⟨c, late⟩ (.stmt i)⟩ := by
      refine ⟨hi.alone.ended ht r fun k => Or.inr (nodesAt_view n ws c.committed k), fun j => ?_⟩
      by_cases hj : j = i
      · subst hj
        simp only [Function.update_self]
        trivial
      · simp only [Function.update_of_ne hj, hother j hj]
        refine (hi.each j).other (endpoints_layout n ws _) (fun pos' ws' htj k => ?_) hgrow
        cases hk : newNodes ws' k with
        | none => exact Or.inr rfl
        | some nodes =>
          refine Or.inl ?_
          obtain ⟨-, hnone, hothers⟩ := hi.alone j pos' ws' htj k nodes hk
          rw [nodesAt_view, hothers i pos ws (Ne.symm hj) ht, Option.or_none]
    refine ⟨hinv, ?_⟩
    have hold : ∀ j plans, j ≠ i → c.txn j = .done (.upload (.plans plans)) → ∀ plan ∈ plans,
        OnRow (endpoints c.committed) (storedAfter c.committed ws) plan := by
      intro j plans _ hj plan hm
      rw [← nodesAt_layout n]
      exact OnRow.grow (hp j plans hj plan hm) hgrow
    have hplaced : PlansPlaced (⟨(layout n).view ws c.committed, Function.update c.txn i (.done r)⟩ : LayoutSessions ι) ↔
        ∀ plans, r = .upload (.plans plans) → ∀ plan ∈ plans,
          OnRow (endpoints c.committed) (storedAfter c.committed ws) plan := by
      simp only [PlansPlaced, nodesAt_layout, endpoints_layout]
      constructor
      · intro hall plans hr
        exact hall i plans (by rw [Function.update_self, hr])
      · intro hall j plans hj
        by_cases hji : j = i
        · subst hji
          rw [Function.update_self, Progress.done.injEq] at hj
          exact hall plans hj
        · rw [Function.update_of_ne hji] at hj
          exact hold j plans hji hj
    rw [hplaced]
    simp only [OvertakenGivesUp, ht]
    rcases hok.commit hcommit with ⟨plans, rfl, hat, hiff⟩ | ⟨hno, hat⟩
    · simp only [hat, forall_const, ← hiff, LayoutResult.upload.injEq, Result.plans.injEq, forall_eq']
    · simp only [hat, Bool.false_eq_true, false_implies, iff_true]
      exact fun plans hr => absurd hr (hno _)
  · obtain ⟨hno, hat⟩ := hok.abort habort
    refine ⟨⟨hi.alone.ended ht r fun k => Or.inl rfl, fun j => ?_⟩, iff_of_true (fun j plans hj => ?_) fun ha => ?_⟩
    · by_cases hj : j = i
      · subst hj
        simp only [Function.update_self]
        trivial
      · simp only [Function.update_of_ne hj, hother j hj]
        exact hi.each j
    · by_cases hji : j = i
      · subst hji
        simp only [Function.update_self, Progress.done.injEq] at hj
        exact absurd hj (hno plans)
      · simp only [Function.update_of_ne hji] at hj
        exact hp j plans hj
    · simp only [ht, hat] at ha
      cases ha

/-- **Plans agree with the rows** in every state of a run exactly when no upload-init that was overtaken commits
in it. -/
theorem plans_placed_iff (n : Nat) (db : Store) (calls : ι → LayoutCall) (moves : List (Move ι Nat)) :
    Always (stepLayout n) (fun t => PlansPlaced t.sessions) ⟨layoutFrom db calls, []⟩ moves ↔
      EachStep (stepLayout n) OvertakenGivesUp ⟨layoutFrom db calls, []⟩ moves := by
  refine Always.iff_eachStep (fun s m t hi hp _ _ h => (hi.step hp h).1)
    (fun s m t hi hp _ h => (hi.step hp h).2) (eachStep_true moves _) (layoutInv_init db calls) ?_
  intro i plans hi
  cases hi

end

/-- One cluster of one of two workers, no chunks. -/
def oneCluster : Store :=
  { Store.empty with
    workers := (Table.empty.put 1 ⟨"worker1", 9080, "localhost", 9081, 1000, .active, 0⟩).put 2
      ⟨"worker2", 9080, "localhost", 9082, 1000, .active, 0⟩
    clusters := Table.empty.put 1 ⟨"c", [1]⟩
    shardMap := (List.range 4).foldl (fun m b => m.put b 1) Table.empty }

/-- Two inits of one hash, and the replacement of the worker. -/
def initsAndReplacement : Option Bool → LayoutCall
  | some _ => .filterMissingChunks [sampleHash]
  | none => .replaceCluster 1 [2]

/-- The first init reads its route, the cluster is replaced, the second init runs, the first goes on. -/
def replacedBehindRoute : List (Move (Option Bool) Nat) :=
  List.replicate 2 (.stmt (some true)) ++ List.replicate 5 (.stmt none) ++ List.replicate 4 (.stmt (some false)) ++
    List.replicate 2 (.stmt (some true))

/-- The first init is told to upload to a worker that the row does not list. -/
theorem replacedBehindRoute_misplaced : ¬ ∀ (db : Store) (calls : Option Bool → LayoutCall)
    (moves : List (Move (Option Bool) Nat)), Always (layout 4).step PlansPlaced (layoutFrom db calls) moves := by
  intro hall
  have hfacts : (exec (layout 4).step (layoutFrom oneCluster initsAndReplacement) replacedBehindRoute).any (fun c =>
      c.txn (some true) == .done (.upload (.plans [⟨sampleHash, [⟨"localhost", 9081⟩]⟩])) &&
        nodesAt c.committed sampleHash == some [2] &&
        endpoints c.committed [2] == [⟨"localhost", 9082⟩]) = true := by decide +kernel
  obtain ⟨c, hrun, hc⟩ := (Option.any_eq_true ..).1 hfacts
  rw [Bool.and_eq_true, Bool.and_eq_true, beq_iff_eq, beq_iff_eq, beq_iff_eq] at hc
  obtain ⟨⟨hdone, hrow⟩, hends⟩ := hc
  have hplaced := always_iff_prefix.1 (hall oneCluster initsAndReplacement replacedBehindRoute) _ c (List.prefix_refl _) hrun
  obtain ⟨nodes, hnodes, hsame⟩ := hplaced _ _ hdone _ (List.mem_singleton_self _)
  obtain rfl := Option.some.inj (hrow.symm.trans hnodes)
  rw [hends] at hsame
  exact absurd hsame (by decide)

end StorageEngine
