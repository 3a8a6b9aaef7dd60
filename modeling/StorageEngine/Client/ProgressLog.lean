import StorageEngine.Client.State
import StorageEngine.Lib.Transition

/-!
# Whose progress the log records

Manifest and log share nothing but their base name. `appended` is what the log should hold: the indices
appended since the manifest file was last written. A leftover log is picked up by the next manifest of the
name, so `LoadUploadManifest` is right in every state of a run exactly when every manifest is saved where no
old index is left in its range (`CleanSave`).
-/

namespace StorageEngine

open Transition

/-- The transfer files of every base name. -/
structure Workspace where
  files : String → TransferFiles
  /-- By base name: the indices appended since the manifest was written. -/
  appended : String → List Int

/-- No transfer state at all. -/
def Workspace.init : Workspace := ⟨fun _ => .none, fun _ => []⟩

/-- `SaveUploadManifest`, `AppendCompletedIndices` and `DeleteUploadManifest`, each with what its files do. -/
inductive SessionCall where
  | save (manifest : UploadManifest) (io : WriteOutcome)
  | append (filepath : String) (newIndices : List Int) (io : WriteOutcome)
  | delete (filepath : String) (io : RemoveOutcome)
deriving DecidableEq

/-- What a call makes of the files of one base name, and of the indices appended there. -/
def SessionCall.applyTo (t : TransferFiles) (appended : List Int) : SessionCall → TransferFiles × List Int
  | .save m io => (t.saveUploadManifest m io, if io = .failed then appended else [])
  | .append _ newIndices io => (t.appendCompletedIndices newIndices io, if io = .done then appended ++ newIndices else appended)
  | .delete _ io => (t.deleteUploadManifest io, appended)

/-- The base name of `GetManifestFilename` (`LocalStateManager.cpp:36-40`). -/
def SessionCall.name : SessionCall → String
  | .save m _ => filename m.filepath
  | .append filepath _ _ | .delete filepath _ => filename filepath

/-- A call touches the files of its base name only. -/
def stepWorkspace (s : Workspace) (c : SessionCall) : Option Workspace :=
  let res := c.applyTo (s.files c.name) (s.appended c.name)
  some ⟨Function.update s.files c.name res.1, Function.update s.appended c.name res.2⟩

/-- `LoadUploadManifest` marks only chunks that were appended after the manifest it returns was saved. -/
def LoadsOwn (t : TransferFiles) (appended : List Int) : Prop :=
  ∀ manifestOpens logOpens m, t.loadUploadManifest manifestOpens logOpens = some m →
    ∀ i : Nat, m.completedChunks[i]? = some true → (i : Int) ∈ appended

/-- So for every base name. -/
def LoadsOwnProgress (s : Workspace) : Prop := ∀ name, LoadsOwn (s.files name) (s.appended name)

/-- A manifest that is written finds no logged index in the range of its chunks. -/
def CleanSave (s : Workspace) : SessionCall → Prop
  | .save m .done => ∀ i ∈ ((s.files (filename m.filepath)).log.getD []), ¬ (0 ≤ i ∧ i < m.chunkHashes.length)
  | _ => True

instance (s : Workspace) : (c : SessionCall) → Decidable (CleanSave s c)
  | .save m .done => inferInstanceAs (Decidable (∀ i ∈ ((s.files (filename m.filepath)).log.getD []), _))
  | .save _ .failed | .save _ .crashed | .append .. | .delete .. => .isTrue trivial

/-- Without a readable manifest nothing is loaded; with one, the log's indices in its range are marked. -/
theorem loadsOwn_iff {t : TransferFiles} {appended : List Int} : LoadsOwn t appended ↔
    ∀ m, t.manifest = some (some m) → ∀ i : Nat, i < m.chunkHashes.length → (i : Int) ∈ t.log.getD [] →
      (i : Int) ∈ appended := by
  constructor
  · intro h m hm i hi hlog
    refine h true true _ (TransferFiles.loadUploadManifest_eq_some.2 ⟨rfl, m, hm, rfl⟩) i ?_
    exact (TransferFiles.getElem?_markCompleted ..).2 ⟨hi, hlog⟩
  · intro h manifestOpens logOpens m hload i hi
    obtain ⟨-, m₀, hm₀, rfl⟩ := TransferFiles.loadUploadManifest_eq_some.1 hload
    obtain ⟨hlt, hmem⟩ := (TransferFiles.getElem?_markCompleted ..).1 hi
    cases logOpens with
    | false => cases hmem
    | true => exact h m₀ hm₀ i hlt hmem

/-- **One call** on the files of its name. -/
theorem loadsOwn_call {t : TransferFiles} {appended : List Int} (h : LoadsOwn t appended) (c : SessionCall) :
    LoadsOwn (c.applyTo t appended).1 (c.applyTo t appended).2 ↔
      ∀ m, c = .save m .done → ∀ i ∈ t.log.getD [], ¬ (0 ≤ i ∧ i < m.chunkHashes.length) := by
  rw [loadsOwn_iff] at h ⊢
  cases c with
  | save m io =>
    cases io with
    | failed =>
      refine iff_of_true h ?_
      rintro m' ⟨⟩
    | crashed =>
      refine iff_of_true ?_ ?_
      · rintro m' ⟨⟩
      · rintro m' ⟨⟩
    | done =>
      constructor
      · rintro hall m' ⟨⟩ i hi ⟨h0, hlt⟩
        obtain ⟨k, rfl⟩ := Int.eq_ofNat_of_zero_le h0
        exact List.not_mem_nil (hall m rfl k (by omega) hi)
      · rintro hclean m' ⟨⟩ i hi hlog
        exact absurd ⟨by omega, by omega⟩ (hclean m rfl i hlog)
  | append filepath newIndices io =>
    refine iff_of_true (fun m hm i hi hlog => ?_) ?_
    · cases io with
      | failed => exact h m hm i hi hlog
      | crashed => exact h m hm i hi hlog
      | done =>
        rcases List.mem_append.1 hlog with hold | hnew
        · exact List.mem_append_left _ (h m hm i hi hold)
        · exact List.mem_append_right _ hnew
    · rintro m' ⟨⟩
  | delete filepath io =>
    refine iff_of_true (fun m hm i hi hlog => ?_) ?_
    · simp only [SessionCall.applyTo, TransferFiles.deleteUploadManifest] at hm hlog ⊢
      split at hm
      · cases hm
      split at hlog
      · cases hlog
      exact h m hm i hi hlog
    · rintro m' ⟨⟩

theorem loadsOwnProgress_step {s s' : Workspace} {c : SessionCall} (h : LoadsOwnProgress s)
    (hstep : stepWorkspace s c = some s') : LoadsOwnProgress s' ↔ CleanSave s c := by
  simp only [stepWorkspace, Option.some.injEq] at hstep
  subst hstep
  have hclean : CleanSave s c ↔
      ∀ m, c = .save m .done → ∀ i ∈ (s.files c.name).log.getD [], ¬ (0 ≤ i ∧ i < m.chunkHashes.length) := by
    constructor
    · rintro hc m rfl
      exact hc
    · intro hc
      cases c with
      | save m io =>
        cases io with
        | done => exact hc m rfl
        | _ => trivial
      | _ => trivial
  rw [hclean, ← loadsOwn_call (h c.name) c]
  constructor
  · intro hall
    simpa using hall c.name
  · intro hname name
    by_cases he : name = c.name
    · subst he
      simpa using hname
    · simpa [he] using h name

/-- **The progress log belongs to the current manifest**, in every state of a run exactly when every manifest is
saved over a log without an index in its range. -/
theorem own_progress_iff (calls : List SessionCall) :
    Always stepWorkspace LoadsOwnProgress .init calls ↔ EachStep stepWorkspace CleanSave .init calls := by
  refine always_iff_eachStep (J := fun _ => True) (A := fun _ _ => True) (fun _ _ _ _ _ _ => trivial)
    (fun s c s' _ h _ hstep => loadsOwnProgress_step h hstep) (eachStep_true calls _) trivial ?_
  intro name
  refine loadsOwn_iff.2 ?_
  rintro m ⟨⟩

/-- Two files of two chunks, the second in another directory. The first upload commits, and its log stays. -/
def leftoverLog : List SessionCall :=
  [.save ⟨"/home/ann/a", 1048577, 5, 100, ["x", "y"], [false, false]⟩ .done, .append "/home/ann/a" [0, 1] .done,
   .delete "/home/ann/a" ⟨true, false, false⟩,
   .save ⟨"/tmp/a", 2097152, 6, 200, ["u", "v"], [false, false]⟩ .done]

/-- A resume of the second file skips both its chunks. -/
theorem leftoverLog_marks : ¬ ∀ calls, Always stepWorkspace LoadsOwnProgress .init calls := by
  intro h
  have hfacts : (exec stepWorkspace .init leftoverLog).any (fun s =>
      ((s.files "a").loadUploadManifest true true).map UploadManifest.completedChunks == some [true, true] &&
        s.appended "a" == []) = true := by decide +kernel
  obtain ⟨s, hs, he⟩ := (Option.any_eq_true ..).1 hfacts
  rw [Bool.and_eq_true, beq_iff_eq, beq_iff_eq] at he
  obtain ⟨m, hm, hbits⟩ := Option.map_eq_some_iff.1 he.1
  have hown := always_iff_prefix.1 (h leftoverLog) _ s (List.prefix_refl _) hs "a" true true m hm 0 (by rw [hbits]; rfl)
  rw [he.2] at hown
  cases hown

end StorageEngine
