import Mathlib.Logic.Function.Basic
import StorageEngine.Metadata.Store

/-!
# The client's transfer state

`LocalStateManager` keeps two files for an upload, under the base name of its path: the manifest and the
progress log. None of its calls reports that a file could not be opened or removed, and the process may end
between two file operations; each call takes what happened as an argument.

| here | there (`LocalStateManager.cpp`) |
| --- | --- |
| `filename`               | `std::filesystem::path(filepath).filename()` |
| `UploadManifest`         | `common/models.hpp:43-52`, without the counter nothing uses |
| `hasActiveUpload`        | `HasActiveUpload` (`:42-48`) |
| `appendCompletedIndices` | `AppendCompletedIndices` (`:50-66`) |
| `loadUploadManifest`     | `LoadUploadManifest` (`:68-107`), `none` where it throws |
| `saveUploadManifest`     | `SaveUploadManifest` (`:109-128`) |
| `deleteUploadManifest`   | `DeleteUploadManifest` (`:130-141`) |
-/

namespace StorageEngine

/-- What follows the last `/`. -/
def filename (filepath : String) : String :=
  String.ofList (filepath.toList.reverse.takeWhile (· != '/')).reverse

structure UploadManifest where
  filepath : String
  totalSize : Int
  tempModifiedTimestamp : Int
  sessionTimestamp : Int
  chunkHashes : List String
  completedChunks : List Bool
deriving DecidableEq, Repr

/-- `UploadManifest()`. -/
def UploadManifest.empty : UploadManifest := ⟨"", 0, 0, 0, [], []⟩

/-- The two files of one base name. -/
structure TransferFiles where
  /-- `some none` is a file that was opened and not written. -/
  manifest : Option (Option UploadManifest)
  log : Option (List Int)
deriving DecidableEq, Repr

def TransferFiles.none : TransferFiles := ⟨Option.none, Option.none⟩

/-- A write: the file does not open, the process ends after opening it, or all goes well. -/
inductive WriteOutcome where
  | failed | crashed | done
deriving DecidableEq, Repr

/-- Two removals, each of which may fail; the process may end between them. -/
structure RemoveOutcome where
  manifestRemoved : Bool
  crashed : Bool
  logRemoved : Bool
deriving DecidableEq, Repr

/-- Both files go, and no process ends in between. -/
def RemoveOutcome.done : RemoveOutcome := ⟨true, false, true⟩

namespace TransferFiles

def hasActiveUpload (t : TransferFiles) : Bool := t.manifest.isSome

/-- Opening for writing truncates; completed chunks are not part of the file. -/
def saveUploadManifest (t : TransferFiles) (m : UploadManifest) : WriteOutcome → TransferFiles
  | .failed => t
  | .crashed => { t with manifest := some Option.none }
  | .done => { t with manifest := some (some m) }

def appendCompletedIndices (t : TransferFiles) (newIndices : List Int) : WriteOutcome → TransferFiles
  | .failed => t
  | .crashed => { t with log := some (t.log.getD []) }
  | .done => { t with log := some (t.log.getD [] ++ newIndices) }

def deleteUploadManifest (t : TransferFiles) (io : RemoveOutcome) : TransferFiles where
  manifest := if io.manifestRemoved then Option.none else t.manifest
  log := if !io.crashed && io.logRemoved then Option.none else t.log

/-- The bits of `n` chunks after the lines of the log; an index out of range is skipped. -/
def markCompleted (n : Nat) (log : List Int) : List Bool :=
  log.foldl (fun bits i => if 0 ≤ i ∧ i.toNat < bits.length then bits.set i.toNat true else bits) (List.replicate n false)

/-- `manifestOpens` and `logOpens` tell whether the two files open for reading. -/
def loadUploadManifest (t : TransferFiles) (manifestOpens logOpens : Bool) : Option UploadManifest :=
  if manifestOpens then
    t.manifest.join.map fun m =>
      { m with completedChunks := markCompleted m.chunkHashes.length (if logOpens then t.log.getD [] else []) }
  else Option.none

/-! ## Which chunks a log marks -/

theorem getElem?_markCompleted_foldl (log : List Int) (bits : List Bool) (k : Nat) :
    (log.foldl (fun bits i => if 0 ≤ i ∧ i.toNat < bits.length then bits.set i.toNat true else bits) bits)[k]? =
      some true ↔ bits[k]? = some true ∨ k < bits.length ∧ (k : Int) ∈ log := by
  induction log generalizing bits with
  | nil => simp
  | cons i log ih =>
    rw [List.foldl_cons, ih]
    split
    · rename_i hi
      rw [List.getElem?_set, List.length_set, List.mem_cons]
      by_cases hk : i.toNat = k
      · have hki : (k : Int) = i := by omega
        simp [hk, hki, hk ▸ hi.2]
      · have hki : (k : Int) ≠ i := by omega
        simp [hk, hki]
    · rename_i hi
      have hki : (k : Int) = i → ¬ k < bits.length := fun h hlt => hi (by omega)
      rw [List.mem_cons]
      tauto

/-- **A chunk is marked exactly when the log lists its index.** -/
theorem getElem?_markCompleted (n : Nat) (log : List Int) (k : Nat) :
    (markCompleted n log)[k]? = some true ↔ k < n ∧ (k : Int) ∈ log := by
  rw [markCompleted, getElem?_markCompleted_foldl, List.length_replicate]
  refine or_iff_right fun h => ?_
  rw [List.getElem?_replicate] at h
  split at h <;> cases h

theorem length_markCompleted (n : Nat) (log : List Int) : (markCompleted n log).length = n := by
  have hfold : ∀ bits : List Bool, (log.foldl (fun bits i =>
      if 0 ≤ i ∧ i.toNat < bits.length then bits.set i.toNat true else bits) bits).length = bits.length := by
    induction log with
    | nil => simp
    | cons i log ih =>
      intro bits
      rw [List.foldl_cons, ih]
      split <;> simp
  rw [markCompleted, hfold, List.length_replicate]

theorem loadUploadManifest_eq_some {t : TransferFiles} {manifestOpens logOpens : Bool} {m : UploadManifest} :
    t.loadUploadManifest manifestOpens logOpens = some m ↔ manifestOpens = true ∧ ∃ m₀, t.manifest = some (some m₀) ∧
      m = { m₀ with
        completedChunks := markCompleted m₀.chunkHashes.length (if logOpens then t.log.getD [] else []) } := by
  unfold loadUploadManifest
  cases manifestOpens with
  | false => simp
  | true => simp [Option.join_eq_some_iff, eq_comm]

end TransferFiles

end StorageEngine
