import StorageEngine.Client.Upload
import StorageEngine.Lib.Json

/-!
# The transfer files, byte by byte

`uploadWrites` is what a call of `UploadFile` does to its two files up to the commit request, one byte after the
other; a process that ends there has done a beginning of it. An outcome tells here only whether a file opens, or
goes. Read as manifest and log, the bytes are the transfer files of `TransferFiles`.

| here | there (`LocalStateManager.cpp`) |
| --- | --- |
| `manifestText`               | `SaveUploadManifest` (`:119-127`): `dump(4)` of an object, whose keys are in order |
| `readManifest`               | `LoadUploadManifest` (`:77-87`); `>>` takes the object and leaves what follows it |
| `logText`                    | `AppendCompletedIndices` (`:61-64`) |
| `readLog`                    | `LoadUploadManifest` (`:92-104`): `>>` of an `int` until it fails |
-/

namespace StorageEngine

open Extent Reading

/-! ## The manifest -/

/-- The members of `manifest_json`, in the order of its keys. -/
def manifestMembers (m : UploadManifest) : List (String × Json.Value) :=
  [("chunk_hashes", .strs m.chunkHashes), ("filepath", .str m.filepath), ("session_timestamp", .int m.sessionTimestamp),
   ("temp_modified_timestamp", .int m.tempModifiedTimestamp), ("total_size", .int m.totalSize)]

def manifestText (m : UploadManifest) : Bytes := Json.writeObject 4 (manifestMembers m)

/-- `none` where it throws. -/
def readManifest (text : Bytes) : Option UploadManifest := do
  let (members, _) ← Json.object text
  let filepath ← (← Json.memberAt members "filepath").getString
  let totalSize ← (← Json.memberAt members "total_size").getInt
  let tempModifiedTimestamp ← (← Json.memberAt members "temp_modified_timestamp").getInt
  let sessionTimestamp ← ((Json.memberAt members "session_timestamp").getD (.int 0)).getInt
  let chunkHashes ← (← Json.memberAt members "chunk_hashes").getStrings
  return ⟨filepath, totalSize, tempModifiedTimestamp, sessionTimestamp, chunkHashes, []⟩

/-- **A saved manifest** is read as it was, but for its bits. -/
theorem readManifest_manifestText (m : UploadManifest) :
    readManifest (manifestText m) = some { m with completedChunks := [] } := by
  have hread : Json.object (manifestText m) = some (manifestMembers m, []) := by
    simpa [manifestText] using Json.object_writeObject 4 (manifestMembers m) []
  simp only [readManifest, hread]
  rfl

/-- What is read has no bits yet. -/
theorem readManifest_bits {p : Bytes} {m : UploadManifest} (h : readManifest p = some m) : m.completedChunks = [] := by
  simp only [readManifest, Option.bind_eq_bind, Option.bind_eq_some_iff, Option.pure_def, Option.some.injEq] at h
  repeat obtain ⟨_, h⟩ := h
  rfl

/-- **A beginning of a manifest** is no manifest. -/
theorem readManifest_beginning {m : UploadManifest} {p : Bytes} (hp : p <+: manifestText m) (hne : p ≠ manifestText m) :
    readManifest p = none := by
  simp only [readManifest, Json.object_beginning hp hne]
  rfl

/-! ## The log -/

def logText (indices : List Int) : Bytes := indices.flatMap fun i => Json.writeNumber i ++ [Json.newline]

/-- Where the reading of an `int` is. -/
inductive IntScan where
  | between
  | signed (negative : Bool)
  | digits (negative : Bool) (value : Nat)
deriving DecidableEq, Repr

/-- With the first byte; `none` where no number can begin. -/
def IntScan.start (b : UInt8) : Option IntScan :=
  if isSpace b then some .between
  else if b = 0x2d then some (.signed true)
  else if b = 0x2b then some (.signed false)
  else if isDigit b then some (.digits false (b.toNat - 0x30))
  else none

/-- An `int`. -/
def IntRange (i : Int) : Prop := -2147483648 ≤ i ∧ i ≤ 2147483647

instance (i : Int) : Decidable (IntRange i) := inferInstanceAs (Decidable (_ ∧ _))

/-- The number that ends here, if it is one and in range. -/
def IntScan.value : IntScan → Option Int
  | .digits negative v =>
    let i : Int := if negative then -(v : Int) else v
    if IntRange i then some i else none
  | _ => none

/-- The loop over `log_file >> completed_index`, a byte at a time. -/
def scanInts : IntScan → Bytes → List Int
  | st, [] => st.value.toList
  | .between, b :: s =>
    match IntScan.start b with
    | none => []
    | some st => scanInts st s
  | .signed negative, b :: s => if isDigit b then scanInts (.digits negative (b.toNat - 0x30)) s else []
  | .digits negative v, b :: s =>
    if isDigit b then scanInts (.digits negative (10 * v + (b.toNat - 0x30))) s
    else
      match (IntScan.digits negative v).value, IntScan.start b with
      | none, _ => []
      | some i, none => [i]
      | some i, some st => i :: scanInts st s

def readLog (text : Bytes) : List Int := scanInts .between text

theorem scanInts_digits (negative : Bool) {ds : Bytes} (hds : ∀ b ∈ ds, isDigit b = true) (v : Nat) (s : Bytes) :
    scanInts (.digits negative v) (ds ++ s) =
      scanInts (.digits negative (ds.foldl (fun v d => 10 * v + (d.toNat - 0x30)) v)) s := by
  induction ds generalizing v with
  | nil => rfl
  | cons d ds ih =>
    obtain ⟨hd, hds⟩ := List.forall_mem_cons.1 hds
    rw [List.cons_append, scanInts, if_pos hd, ih hds, List.foldl_cons]

/-- The end of a line ends the number. -/
theorem scanInts_newline {negative : Bool} {v : Nat} {i : Int} (hi : i = if negative then -(v : Int) else v) (hrange : IntRange i)
    (s : Bytes) : scanInts (.digits negative v) (Json.newline :: s) = i :: scanInts .between s := by
  have hvalue : (IntScan.digits negative v).value = some i := by
    rw [IntScan.value, ← hi, if_pos hrange]
  have hstart : IntScan.start Json.newline = some .between := rfl
  have hdigit : isDigit Json.newline = false := rfl
  simp only [scanInts, hdigit, hvalue, hstart, Bool.false_eq_true, if_false]

theorem start_digit {d : UInt8} (hdigit : isDigit d = true) : IntScan.start d = some (.digits false (d.toNat - 0x30)) := by
  obtain ⟨hlow, hhigh⟩ := isDigit_iff.1 hdigit
  have hne : ∀ c : UInt8, (c.toNat < 0x30 ∨ 0x39 < c.toNat) → d ≠ c := by
    rintro c hc rfl
    omega
  simp [IntScan.start, isSpace_of_isDigit hdigit, hne 0x2d (by decide), hne 0x2b (by decide), hdigit]

theorem scanInts_line {i : Int} (hrange : IntRange i) (s : Bytes) :
    scanInts .between (Json.writeNumber i ++ Json.newline :: s) = i :: scanInts .between s := by
  obtain ⟨d, ds, hd, hdigit, -⟩ := decimal_cons i.natAbs
  have hall : ∀ b ∈ ds, isDigit b = true := fun b hb => isDigit_of_mem_decimal (hd ▸ List.mem_cons_of_mem d hb)
  have hvalue : ds.foldl (fun v b => 10 * v + (b.toNat - 0x30)) (d.toNat - 0x30) = i.natAbs := by
    have hwhole := digitsValue_decimal i.natAbs
    rw [hd, digitsValue, List.foldl_cons] at hwhole
    simpa using hwhole
  unfold Json.writeNumber
  split
  · rename_i hneg
    have hstart : IntScan.start Json.minus = some (.signed true) := rfl
    rw [hd, List.cons_append, scanInts, hstart]
    simp only
    rw [List.cons_append, scanInts, if_pos hdigit, scanInts_digits true hall, hvalue,
      scanInts_newline (by rw [if_pos rfl]; omega) hrange]
  · rename_i hpos
    rw [hd, List.cons_append, scanInts, start_digit hdigit]
    simp only
    rw [scanInts_digits false hall, hvalue, scanInts_newline (by rw [if_neg Bool.false_ne_true]; omega) hrange]

/-- **Whole lines** are read one by one. -/
theorem scanInts_logText {indices : List Int} (h : ∀ i ∈ indices, IntRange i) (s : Bytes) :
    scanInts .between (logText indices ++ s) = indices ++ scanInts .between s := by
  induction indices with
  | nil => rfl
  | cons i indices ih =>
    obtain ⟨hi, hrest⟩ := List.forall_mem_cons.1 h
    rw [logText, List.flatMap_cons, List.append_assoc, List.append_assoc, List.singleton_append, scanInts_line hi,
      List.cons_append, ← ih hrest]
    rfl

theorem logText_append (indices newIndices : List Int) :
    logText (indices ++ newIndices) = logText indices ++ logText newIndices := List.flatMap_append

theorem readLog_logText {indices : List Int} (h : ∀ i ∈ indices, IntRange i) : readLog (logText indices) = indices := by
  simpa [readLog, scanInts, IntScan.value] using scanInts_logText h []

/-! ## The two files -/

/-- The two files of a base name as they lie on the disk. -/
structure TransferBytes where
  manifest : Option Bytes
  log : Option Bytes
deriving DecidableEq, Repr

/-- What the bytes say. -/
def TransferBytes.files (t : TransferBytes) : TransferFiles := ⟨t.manifest.map readManifest, t.log.map readLog⟩

/-- What a process does to these files, a byte at a time. -/
inductive DiskWrite where
  | removeManifest | removeLog | openManifest | openLog
  | putManifest (b : UInt8)
  | putLog (b : UInt8)
deriving DecidableEq, Repr

/-- The manifest is truncated as it opens, the log is not. -/
def TransferBytes.write (t : TransferBytes) : DiskWrite → TransferBytes
  | .removeManifest => { t with manifest := none }
  | .removeLog => { t with log := none }
  | .openManifest => { t with manifest := some [] }
  | .openLog => { t with log := some (t.log.getD []) }
  | .putManifest b => { t with manifest := t.manifest.map (· ++ [b]) }
  | .putLog b => { t with log := t.log.map (· ++ [b]) }

/-- The files after the writes, in order. -/
def TransferBytes.after (t : TransferBytes) (ws : List DiskWrite) : TransferBytes := ws.foldl TransferBytes.write t

/-- `DeleteUploadManifest`. -/
def deleteWrites (io : RemoveOutcome) : List DiskWrite :=
  (if io.manifestRemoved then [.removeManifest] else []) ++ if io.logRemoved then [.removeLog] else []

/-- `SaveUploadManifest`; a file that does not open is left alone. -/
def saveWrites (m : UploadManifest) (io : WriteOutcome) : List DiskWrite :=
  if io = .failed then [] else .openManifest :: (manifestText m).map .putManifest

/-- `AppendCompletedIndices`, the same way. -/
def appendWrites (newIndices : List Int) (io : WriteOutcome) : List DiskWrite :=
  if io = .failed then [] else .openLog :: (logText newIndices).map .putLog

/-- What `resume` does away with. -/
def resumeWrites (t : TransferFiles) (f : LocalFile) (ev : UploadEvents) : List DiskWrite :=
  match t.loadUploadManifest ev.manifestOpens ev.logOpens with
  | none => []
  | some m =>
    if m.totalSize ≠ (f.content.length : Int) ∨ m.tempModifiedTimestamp ≠ f.modified ∨
        82800 < ev.now - m.sessionTimestamp then deleteWrites ev.removeStale
    else []

section
variable (sha256 : Bytes → String)

/-- What `blueprint` saves. -/
def blueprintWrites (t : TransferFiles) (m : UploadManifest) (filepath : String) (f : LocalFile) (ev : UploadEvents) :
    List DiskWrite :=
  if m.chunkHashes.isEmpty then
    match blueprint sha256 t m filepath f ev with
    | none => []
    | some (_, m') => saveWrites m' ev.save
  else []

/-- The batches of the progress log. -/
def logWrites (indices : List Int) (io : Nat → WriteOutcome) : List DiskWrite :=
  (pieces 64 indices).zipIdx.flatMap fun b => appendWrites b.1 (io b.2)

/-- Up to the commit request. -/
def uploadWrites (t : TransferFiles) (filepath : String) (ev : UploadEvents) : List DiskWrite :=
  match ev.found, ev.seen .start with
  | some false, some f =>
    match resume t f ev with
    | none => []
    | some (t', m) =>
      resumeWrites t f ev ++ blueprintWrites sha256 t' m filepath f ev ++
        logWrites ((uploadFile sha256 t filepath ev).acked.map fun e => (e.1.1 : Int)) ev.transfer.io
  | _, _ => []

end

namespace TransferBytes

@[simp] theorem after_nil (t : TransferBytes) : t.after [] = t := rfl

@[simp] theorem after_cons (t : TransferBytes) (w : DiskWrite) (ws : List DiskWrite) : t.after (w :: ws) = (t.write w).after ws :=
  rfl

theorem after_append (t : TransferBytes) (ws ws' : List DiskWrite) : t.after (ws ++ ws') = (t.after ws).after ws' :=
  List.foldl_append

theorem after_putManifest (text p : Bytes) (log : Option Bytes) :
    (⟨some p, log⟩ : TransferBytes).after (text.map .putManifest) = ⟨some (p ++ text), log⟩ := by
  induction text generalizing p with
  | nil => simp
  | cons b text ih => simp [write, ih]

theorem after_putLog (text p : Bytes) (manifest : Option Bytes) :
    (⟨manifest, some p⟩ : TransferBytes).after (text.map .putLog) = ⟨manifest, some (p ++ text)⟩ := by
  induction text generalizing p with
  | nil => simp
  | cons b text ih => simp [write, ih]

/-! ## The bytes refine the files -/

theorem files_delete (t : TransferBytes) {io : RemoveOutcome} (h : io.crashed = false) :
    (t.after (deleteWrites io)).files = t.files.deleteUploadManifest io := by
  obtain ⟨manifestRemoved, crashed, logRemoved⟩ := io
  obtain rfl : crashed = false := h
  cases manifestRemoved <;> cases logRemoved <;> rfl

theorem after_saveWrites (t : TransferBytes) (m : UploadManifest) :
    t.after (saveWrites m .done) = ⟨some (manifestText m), t.log⟩ := by
  rw [saveWrites, if_neg (by decide), after_cons]
  exact after_putManifest (manifestText m) [] t.log

/-- The bits of a manifest are not saved. -/
theorem files_save (t : TransferBytes) (m : UploadManifest) {io : WriteOutcome} (h : io ≠ .crashed) :
    (t.after (saveWrites m io)).files = t.files.saveUploadManifest { m with completedChunks := [] } io := by
  cases io with
  | failed => rfl
  | crashed => exact absurd rfl h
  | done =>
    rw [after_saveWrites, files, Option.map_some, readManifest_manifestText]
    rfl

theorem files_log (t : TransferBytes) : t.files.log.getD [] = readLog (t.log.getD []) := by
  obtain ⟨manifest, log⟩ := t
  cases log <;> rfl

theorem after_appendWrites (t : TransferBytes) (newIndices : List Int) {io : WriteOutcome} (h : io ≠ .failed) :
    t.after (appendWrites newIndices io) = ⟨t.manifest, some (t.log.getD [] ++ logText newIndices)⟩ := by
  rw [appendWrites, if_neg h, after_cons, write]
  exact after_putLog _ _ t.manifest

/-- The log is made of lines. -/
def WholeLines (t : TransferBytes) : Prop := ∃ old, t.log.getD [] = logText old ∧ ∀ i ∈ old, IntRange i

/-- Lines are added to whole lines. -/
theorem files_append {t : TransferBytes} (hlines : t.WholeLines) {newIndices : List Int} (hnew : ∀ i ∈ newIndices, IntRange i)
    {io : WriteOutcome} (h : io ≠ .crashed) :
    (t.after (appendWrites newIndices io)).files = t.files.appendCompletedIndices newIndices io ∧
      (t.after (appendWrites newIndices io)).WholeLines := by
  obtain ⟨old, hlog, hold⟩ := hlines
  cases io with
  | failed => exact ⟨rfl, old, hlog, hold⟩
  | crashed => exact absurd rfl h
  | done =>
    have hboth : ∀ i ∈ old ++ newIndices, IntRange i := fun i hi => (List.mem_append.1 hi).elim (hold i) (hnew i)
    have hfiles : t.files.log.getD [] = old := by
      rw [files_log, hlog, readLog_logText hold]
    rw [after_appendWrites t newIndices (by decide), hlog, ← logText_append]
    refine ⟨?_, old ++ newIndices, rfl, hboth⟩
    rw [files, Option.map_some, readLog_logText hboth, TransferFiles.appendCompletedIndices, hfiles]
    rfl

theorem files_logWrites {t : TransferBytes} (h : t.WholeLines) {indices : List Int} (hindices : ∀ i ∈ indices, IntRange i)
    {io : Nat → WriteOutcome} (hio : ∀ k, io k ≠ .crashed) :
    (t.after (logWrites indices io)).files = appendBatches t.files io indices := by
  have hbatches : ∀ (bs : List (List Int × Nat)) (t : TransferBytes), t.WholeLines → (∀ b ∈ bs, ∀ i ∈ b.1, IntRange i) →
      (t.after (bs.flatMap fun b => appendWrites b.1 (io b.2))).files =
        bs.foldl (fun t b => t.appendCompletedIndices b.1 (io b.2)) t.files := by
    intro bs
    induction bs with
    | nil => exact fun t _ _ => rfl
    | cons b bs ih =>
      intro t ht hbs
      obtain ⟨hb, hbs⟩ := List.forall_mem_cons.1 hbs
      obtain ⟨hfiles, hlines⟩ := files_append ht hb (hio b.2)
      rw [List.flatMap_cons, after_append, List.foldl_cons, ← hfiles]
      exact ih _ hlines hbs
  exact hbatches _ t h fun b hb i hi => hindices i (mem_of_mem_batch hb hi)

/-! ## One call -/

theorem files_resumeWrites {t : TransferBytes} {f : LocalFile} {ev : UploadEvents} {t₁ : TransferFiles} {m₁ : UploadManifest}
    (h : resume t.files f ev = some (t₁, m₁)) (hio : ev.removeStale.crashed = false) :
    (t.after (resumeWrites t.files f ev)).files = t₁ := by
  unfold resume at h
  unfold resumeWrites
  split at h
  · obtain ⟨m, hload, he⟩ := Option.map_eq_some_iff.1 h
    rw [hload]
    simp only
    split at he
    · rename_i hstale
      rw [if_pos hstale, files_delete t hio]
      exact (Prod.mk.inj he).1
    · rename_i hsame
      rw [if_neg hsame]
      exact (Prod.mk.inj he).1
  · rename_i hactive
    have hnone : t.files.loadUploadManifest ev.manifestOpens ev.logOpens = none := by
      simp only [TransferFiles.hasActiveUpload, Option.not_isSome_iff_eq_none] at hactive
      simp [TransferFiles.loadUploadManifest, hactive]
    rw [hnone]
    exact (Prod.mk.inj (Option.some.inj h)).1

theorem wholeLines_of_log {t t' : TransferBytes} (h : t.WholeLines) (hlog : t'.log = t.log ∨ t'.log = none) :
    t'.WholeLines := by
  rcases hlog with hsame | hgone
  · rwa [WholeLines, hsame]
  · exact ⟨[], by rw [hgone]; rfl, by simp⟩

theorem log_resumeWrites (t : TransferBytes) (files : TransferFiles) (f : LocalFile) (ev : UploadEvents) :
    (t.after (resumeWrites files f ev)).log = t.log ∨ (t.after (resumeWrites files f ev)).log = none := by
  have hdelete : (t.after (deleteWrites ev.removeStale)).log = t.log ∨ (t.after (deleteWrites ev.removeStale)).log = none := by
    unfold deleteWrites
    split <;> split
    · exact Or.inr rfl
    · exact Or.inl rfl
    · exact Or.inr rfl
    · exact Or.inl rfl
  unfold resumeWrites
  split
  · exact Or.inl rfl
  split
  · exact hdelete
  · exact Or.inl rfl

theorem log_saveWrites (t : TransferBytes) (m : UploadManifest) (io : WriteOutcome) : (t.after (saveWrites m io)).log = t.log := by
  unfold saveWrites
  split
  · rfl
  · rw [after_cons, write, after_putManifest]

end TransferBytes

/-- Without the bits of the manifest, which are not saved. -/
def TransferFiles.bare (t : TransferFiles) : TransferFiles :=
  { t with manifest := t.manifest.map (Option.map fun m => { m with completedChunks := [] }) }

namespace TransferBytes

theorem bare_files (t : TransferBytes) : t.files.bare = t.files := by
  obtain ⟨manifest, log⟩ := t
  cases manifest with
  | none => rfl
  | some p =>
    cases hread : readManifest p with
    | none => simp [files, TransferFiles.bare, hread]
    | some m =>
      have hbits := readManifest_bits hread
      simp only [files, TransferFiles.bare, hread, Option.map_some]
      rw [← hbits]

theorem bare_deleteUploadManifest (t : TransferFiles) (io : RemoveOutcome) :
    (t.deleteUploadManifest io).bare = t.bare.deleteUploadManifest io := by
  unfold TransferFiles.deleteUploadManifest TransferFiles.bare
  simp only
  congr 1
  split <;> rfl

theorem bare_appendBatches (t : TransferFiles) (io : Nat → WriteOutcome) (indices : List Int) :
    (appendBatches t io indices).bare = appendBatches t.bare io indices := by
  unfold appendBatches
  induction (pieces 64 indices).zipIdx generalizing t with
  | nil => rfl
  | cons b bs ih =>
    rw [List.foldl_cons, List.foldl_cons, ih]
    cases io b.2 <;> rfl

theorem files_blueprintWrites {sha256 : Bytes → String} {t : TransferBytes} {m₁ m₂ : UploadManifest} {filepath : String}
    {f : LocalFile} {ev : UploadEvents} {t₂ : TransferFiles} (h : blueprint sha256 t.files m₁ filepath f ev = some (t₂, m₂))
    (hio : ev.save ≠ .crashed) : (t.after (blueprintWrites sha256 t.files m₁ filepath f ev)).files = t₂.bare := by
  unfold blueprintWrites
  rw [h]
  rcases blueprint_cases h with ⟨hne, rfl, rfl⟩ | ⟨g, hempty, -, rfl, -⟩
  · rw [if_neg fun he => hne (List.isEmpty_iff.1 he), after_nil, bare_files]
  · rw [if_pos (List.isEmpty_iff.2 hempty)]
    simp only
    rw [files_save t m₂ hio]
    cases ev.save with
    | failed => exact (bare_files t).symm
    | crashed | done => rfl

theorem log_blueprintWrites (sha256 : Bytes → String) (t : TransferBytes) (files : TransferFiles) (m : UploadManifest)
    (filepath : String) (f : LocalFile) (ev : UploadEvents) :
    (t.after (blueprintWrites sha256 files m filepath f ev)).log = t.log := by
  unfold blueprintWrites
  split
  · split
    · rfl
    · exact log_saveWrites ..
  · rfl

@[simp] theorem logWrites_nil (io : Nat → WriteOutcome) : logWrites [] io = [] := by
  rw [logWrites, pieces_nil (by decide)]
  rfl

@[simp] theorem appendBatches_nil (t : TransferFiles) (io : Nat → WriteOutcome) : appendBatches t io [] = t := by
  rw [appendBatches, pieces_nil (by decide)]
  rfl

/-- **The bytes refine the files**: where no process ends within a write, what the writes of a call leave is what
`UploadFile` leaves, before the removal that follows a commit. -/
theorem files_uploadWrites {sha256 : Bytes → String} {t : TransferBytes} (hlines : t.WholeLines) {filepath : String}
    {ev : UploadEvents} (hremove : ev.removeStale.crashed = false) (hsave : ev.save ≠ .crashed)
    (hlog : ∀ k, ev.transfer.io k ≠ .crashed)
    (hindices : ∀ e ∈ (uploadFile sha256 t.files filepath ev).acked, IntRange (e.1.1 : Int)) :
    (uploadFile sha256 t.files filepath ev).transfers.bare = (t.after (uploadWrites sha256 t.files filepath ev)).files ∨
      (uploadFile sha256 t.files filepath ev).ended = .returned true ∧
        (uploadFile sha256 t.files filepath ev).transfers.bare =
          (t.after (uploadWrites sha256 t.files filepath ev)).files.deleteUploadManifest ev.removeDone := by
  have hwrites : ∀ {f t₁ m₁}, ev.found = some false → ev.seen .start = some f → resume t.files f ev = some (t₁, m₁) →
      uploadWrites sha256 t.files filepath ev =
        resumeWrites t.files f ev ++ blueprintWrites sha256 t₁ m₁ filepath f ev ++
          logWrites ((uploadFile sha256 t.files filepath ev).acked.map fun e => (e.1.1 : Int)) ev.transfer.io := by
    intro f t₁ m₁ hfound hstart hresume
    simp only [uploadWrites, hfound, hstart, hresume]
  -- the files once the manifest is saved
  have hsaved : ∀ {f t₁ m₁ t₂ m₂}, resume t.files f ev = some (t₁, m₁) →
      blueprint sha256 t₁ m₁ filepath f ev = some (t₂, m₂) →
      ((t.after (resumeWrites t.files f ev)).after (blueprintWrites sha256 t₁ m₁ filepath f ev)).files = t₂.bare ∧
        ((t.after (resumeWrites t.files f ev)).after (blueprintWrites sha256 t₁ m₁ filepath f ev)).WholeLines := by
    intro f t₁ m₁ t₂ m₂ hresume hblueprint
    have hlines₁ := wholeLines_of_log hlines (log_resumeWrites t t.files f ev)
    obtain rfl := files_resumeWrites hresume hremove
    exact ⟨files_blueprintWrites hblueprint hsave,
      wholeLines_of_log hlines₁ (Or.inl (log_blueprintWrites sha256 _ _ m₁ filepath f ev))⟩
  have hpath := uploadFile_path sha256 t.files filepath ev
  generalize uploadFile sha256 t.files filepath ev = out at hpath hwrites hindices ⊢
  cases hpath with
  | refused hwhy hended hout =>
    left
    have hnone : uploadWrites sha256 t.files filepath ev = [] := by
      unfold uploadWrites
      split
      · rename_i f hfound hstart
        rw [hwhy hfound f hstart]
      · rfl
    rw [hout, hnone, after_nil]
    exact bare_files t
  | @unreadable f t₁ m₁ hfound hstart hresume hblueprint hout =>
    left
    have hnone : blueprintWrites sha256 t₁ m₁ filepath f ev = [] := by
      unfold blueprintWrites
      rw [hblueprint]
      split <;> rfl
    obtain rfl := files_resumeWrites hresume hremove
    rw [hwrites hfound hstart hresume, hnone, hout, after_append, after_append, after_nil]
    simp [UploadResult.stopped, bare_files]
  | @uninitialized f t₁ t₂ m₁ m₂ hfound hstart hresume hblueprint hinit hout =>
    left
    rw [hwrites hfound hstart hresume, hout, after_append, after_append]
    simp [UploadResult.stopped, (hsaved hresume hblueprint).1]
  | @transferred f t₁ t₂ m₁ m₂ plans up hfound hstart hresume hblueprint hinit hout =>
    obtain ⟨hfiles, hlines₂⟩ := hsaved hresume hblueprint
    have hup : up.transfers = appendBatches t₂ ev.transfer.io (out.acked.map fun e => (e.1.1 : Int)) := by
      rw [hout.acked]
      rcases hout.tried with rfl | ⟨g, -, rfl⟩
      · exact (appendBatches_nil ..).symm
      · rfl
    have hafter : (t.after (uploadWrites sha256 t.files filepath ev)).files = up.transfers.bare := by
      rw [hwrites hfound hstart hresume, after_append, after_append, files_logWrites hlines₂ ?_ hlog, hfiles, hup,
        bare_appendBatches]
      intro i hi
      obtain ⟨e, he, rfl⟩ := List.mem_map.1 hi
      exact hindices e he
    rw [hafter]
    rcases hout.ended with ⟨-, htransfers, -⟩ | ⟨hended, htransfers, -⟩
    · exact Or.inl (by rw [htransfers])
    · exact Or.inr ⟨hended, by rw [htransfers, bare_deleteUploadManifest]⟩

end TransferBytes

end StorageEngine
