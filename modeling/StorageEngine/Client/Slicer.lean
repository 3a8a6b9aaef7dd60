import StorageEngine.Client.Upload
import StorageEngine.Lib.InputStream

/-!
# The file slicer

`ComputeHashes` reads a file from its beginning on a stream of its own; `ReadChunk` takes chunks by index off one
stream that stays open. The threads of `ComputeHashes` hash what its loop has read, and their results are taken in the
order of the file.

| here | there (`LocalFileSlicer.cpp`) |
| --- | --- |
| `hashedChunks`    | the loop of `ComputeHashes` (`:35-66`), `none` where it does not end within the turns |
| `openStream`      | `OpenStream` (`:82-90`); opening clears the error state |
| `closeStream`     | `CloseStream` (`:106-112`) |
| `readChunk`       | `ReadChunk` (`:92-104`) |
-/

namespace StorageEngine

open Extent InputStream

def hashedChunks (chunkSize : Nat) : Nat → Stream UInt8 → Option (List Bytes)
  | 0, _ => none
  | turns + 1, file =>
    let (got, file') := file.read chunkSize
    if !file'.failbit || 0 < got.length then (hashedChunks chunkSize turns file').map (got :: ·) else some []

/-- `LocalFileSlicer`: the stream that stays open between two reads. -/
structure Slicer where
  /-- `none` is closed. -/
  fileStream : Option (Stream UInt8)
  currentChunkSize : Nat
deriving DecidableEq, Repr

namespace Slicer

def closeStream (s : Slicer) : Slicer := { s with fileStream := none }

def openStream (s : Slicer) (file : Option Bytes) (chunkSize : Nat) : Except String Slicer :=
  match file with
  | none => .error "Failed to open file stream."
  | some content => .ok { s.closeStream with fileStream := some (.opened content), currentChunkSize := chunkSize }

/-- A closed stream gives nothing. -/
def readChunk (s : Slicer) (index : Int) (chunkSize : Nat) : Bytes × Slicer :=
  match s.fileStream with
  | none => ([], s)
  | some stream =>
    let (got, stream') := (stream.seekg (index * chunkSize)).read chunkSize
    (got, { s with fileStream := some stream' })

/-- One call after the other. -/
def readChunks (chunkSize : Nat) : Slicer → List Int → List Bytes
  | _, [] => []
  | s, i :: is => (s.readChunk i chunkSize).1 :: readChunks chunkSize (s.readChunk i chunkSize).2 is

end Slicer

/-! ## The first pass -/

theorem getElem?_pieces_lt {chunkSize : Nat} {content : Bytes} {i : Nat} (hi : i < (pieces chunkSize content).length) :
    (pieces chunkSize content)[i]? = some (slice content (i * chunkSize) chunkSize) := by
  rw [getElem?_pieces, if_pos hi]

theorem lt_pieces_iff {chunkSize : Nat} (h : 0 < chunkSize) {content : Bytes} {i : Nat} :
    i < (pieces chunkSize content).length ↔ i * chunkSize < content.length := by
  refine ⟨mul_lt_of_lt_pieces h, fun hlt => ?_⟩
  rw [length_pieces, Nat.lt_iff_add_one_le, Nat.le_div_iff_mul_le h, Nat.succ_mul]
  omega

/-- The chunks from the `i`-th on. -/
theorem hashedChunks_from {chunkSize : Nat} (h : 0 < chunkSize) (content : Bytes) {n i turns : Nat}
    (hn : (pieces chunkSize content).length - i ≤ n) (hi : i * chunkSize ≤ content.length) (hturns : n + 2 ≤ turns) :
    hashedChunks chunkSize turns (.atOffset content (i * chunkSize)) = some ((pieces chunkSize content).drop i) := by
  induction n generalizing i turns with
  | zero =>
    obtain ⟨turns, rfl⟩ : ∃ k, turns = k + 1 := ⟨turns - 1, by omega⟩
    have hend : ¬ i * chunkSize < content.length := fun hlt => by
      have hin := (lt_pieces_iff h).2 hlt
      omega
    obtain ⟨hgot, hfail⟩ := Stream.read_short (show content.length < i * chunkSize + chunkSize by omega) h
    have hnil : slice content (i * chunkSize) chunkSize = [] := by
      rw [← List.length_eq_zero_iff, length_slice]
      omega
    rw [hashedChunks]
    simp only [hgot, hfail, hnil, Bool.not_true, List.length_nil, Nat.lt_irrefl, decide_false, Bool.or_self,
      Bool.false_eq_true, if_false]
    rw [List.drop_of_length_le (by omega)]
  | succ n ih =>
    obtain ⟨turns, rfl⟩ : ∃ k, turns = k + 1 := ⟨turns - 1, by omega⟩
    by_cases hin : i < (pieces chunkSize content).length
    · have hstart := (lt_pieces_iff h).1 hin
      have hdrop : (pieces chunkSize content).drop i =
          slice content (i * chunkSize) chunkSize :: (pieces chunkSize content).drop (i + 1) := by
        rw [List.drop_eq_getElem_cons hin]
        congr 1
        exact Option.some.inj ((List.getElem?_eq_getElem hin).symm.trans (getElem?_pieces_lt hin))
      rw [hashedChunks, hdrop]
      by_cases hwhole : i * chunkSize + chunkSize ≤ content.length
      · have hnext : hashedChunks chunkSize turns (.atOffset content ((i + 1) * chunkSize)) =
            some ((pieces chunkSize content).drop (i + 1)) := ih (by omega) (by rwa [Nat.succ_mul]) (by omega)
        rw [Nat.succ_mul] at hnext
        simp only [Stream.read_whole hwhole, hnext]
        simp [Stream.atOffset]
      · -- the last turn but one: a short chunk, and then nothing
        obtain ⟨hgot, hfail⟩ := Stream.read_short (show content.length < i * chunkSize + chunkSize by omega) h
        have hpos : 0 < (slice content (i * chunkSize) chunkSize).length := by
          rw [length_slice]
          omega
        have hlast : (pieces chunkSize content).drop (i + 1) = [] := by
          refine List.drop_of_length_le (Nat.not_lt.1 fun hlt => ?_)
          have hmore := (lt_pieces_iff h).1 hlt
          rw [Nat.succ_mul] at hmore
          omega
        obtain ⟨turns, rfl⟩ : ∃ k, turns = k + 1 := ⟨turns - 1, by omega⟩
        obtain ⟨hnone, hfail'⟩ := Stream.read_failed hfail chunkSize
        have hrest : hashedChunks chunkSize (turns + 1) ((Stream.atOffset content (i * chunkSize)).read chunkSize).2 = some [] := by
          rw [hashedChunks]
          simp only [hnone, hfail', Bool.not_true, List.length_nil, Nat.lt_irrefl, decide_false, Bool.or_self,
            Bool.false_eq_true, if_false]
        simp only [hgot, hrest, hlast, hpos, decide_true, Bool.or_true, if_true, Option.map_some]
    · exact ih (by omega) hi (by omega)

/-- **The first pass** ends and has read the pieces of the file. -/
theorem hashedChunks_eq {chunkSize : Nat} (h : 0 < chunkSize) (content : Bytes) {turns : Nat}
    (hturns : (pieces chunkSize content).length + 2 ≤ turns) :
    hashedChunks chunkSize turns (.opened content) = some (pieces chunkSize content) := by
  have hall := hashedChunks_from h content (i := 0) (Nat.le_refl _) (by omega) hturns
  rwa [Nat.zero_mul, Stream.atOffset_zero, List.drop_zero] at hall

/-! ## The second pass -/

namespace Slicer

/-- A stream with no error, at any place. -/
def Ready (s : Slicer) (content : Bytes) : Prop := ∃ pos, s.fileStream = some (.atOffset content pos)

/-- The stream is in its failed state. -/
def Failed (s : Slicer) : Prop := ∃ stream, s.fileStream = some stream ∧ stream.failbit = true

theorem openStream_ready {s s' : Slicer} {content : Bytes} {chunkSize : Nat} (h : s.openStream (some content) chunkSize = .ok s') :
    s'.Ready content := by
  obtain rfl := Except.ok.inj h
  exact ⟨0, rfl⟩

variable {s : Slicer} {content : Bytes} {chunkSize : Nat}

/-- **A read from a ready stream** gives the chunk, and leaves it ready exactly when the chunk was not short. -/
theorem readChunk_ready (h : s.Ready content) (hsize : 0 < chunkSize) (i : Nat) :
    (s.readChunk i chunkSize).1 = slice content (i * chunkSize) chunkSize ∧
      if i * chunkSize + chunkSize ≤ content.length then (s.readChunk i chunkSize).2.Ready content
      else (s.readChunk i chunkSize).2.Failed := by
  obtain ⟨pos, hstream⟩ := h
  have hseek := Stream.seekg_at content pos
    (Int.mul_nonneg (Int.natCast_nonneg i) (Int.natCast_nonneg chunkSize))
  have hoffset : ((i : Int) * chunkSize).toNat = i * chunkSize := by
    rw [← Int.natCast_mul, Int.toNat_natCast]
  rw [hoffset] at hseek
  unfold readChunk
  simp only [hstream, hseek]
  split
  · rename_i hwhole
    rw [Stream.read_whole hwhole]
    exact ⟨rfl, _, rfl⟩
  · rename_i hshort
    obtain ⟨hgot, hfail⟩ := Stream.read_short (show content.length < i * chunkSize + chunkSize by omega) hsize
    exact ⟨hgot, _, rfl, hfail⟩

/-- Nothing is read any more. -/
theorem readChunks_failed (h : s.Failed) (is : List Int) : readChunks chunkSize s is = is.map fun _ => [] := by
  induction is generalizing s with
  | nil => rfl
  | cons i is ih =>
    obtain ⟨stream, hstream, hfail⟩ := h
    obtain ⟨hnone, hfail'⟩ := Stream.read_failed (Stream.seekg_failed hfail (i * chunkSize)) chunkSize
    rw [readChunks, List.map_cons, ih ⟨((stream.seekg (i * chunkSize)).read chunkSize).2, ?_, hfail'⟩]
    · congr 1
      unfold readChunk
      simp only [hstream, hnone]
    · unfold readChunk
      simp only [hstream]

/-- **The reads of a transfer** are those of `uploadTasks`. -/
theorem readChunks_eq (h : s.Ready content) (is : List Nat) :
    readChunks StorageEngine.chunkSize s (is.map fun i : Nat => (i : Int)) = StorageEngine.readChunks content false is := by
  induction is generalizing s with
  | nil => rfl
  | cons i is ih =>
    obtain ⟨hgot, hnext⟩ := readChunk_ready (s := s) h chunkSize_pos i
    have hlen := length_slice content (i * StorageEngine.chunkSize) StorageEngine.chunkSize
    rw [List.map_cons, readChunks, StorageEngine.readChunks]
    refine List.cons_eq_cons.2 ⟨hgot, ?_⟩
    split at hnext
    · rename_i hwhole
      rw [ih hnext, decide_eq_false (show ¬ (slice content (i * StorageEngine.chunkSize) StorageEngine.chunkSize).length <
        StorageEngine.chunkSize by omega)]
    · rename_i hshort
      have hpos := chunkSize_pos
      rw [readChunks_failed hnext, decide_eq_true (show (slice content (i * StorageEngine.chunkSize)
        StorageEngine.chunkSize).length < StorageEngine.chunkSize by omega), List.map_map]
      have hfailed : ∀ js : List Nat, StorageEngine.readChunks content true js = js.map fun _ => [] := by
        intro js
        induction js with
        | nil => rfl
        | cons j js ih => rw [StorageEngine.readChunks, ih, List.map_cons]
      exact (hfailed is).symm

/-- Each read gives the chunk that was hashed. -/
def ReadsHashed (chunkSize : Nat) (s : Slicer) (hashed : List Bytes) (indices : List Int) : Prop :=
  (readChunks chunkSize s indices).map some = indices.map fun i => hashed[i.toNat]?

theorem readsHashed_iff (h : s.Ready content) (hsize : 0 < chunkSize) {indices : List Int}
    (hin : ∀ i ∈ indices, 0 ≤ i ∧ i.toNat < (pieces chunkSize content).length) :
    s.ReadsHashed chunkSize (pieces chunkSize content) indices ↔
      ∀ i ∈ indices.dropLast, i.toNat * chunkSize + chunkSize ≤ content.length := by
  unfold ReadsHashed
  induction indices generalizing s with
  | nil => simp [readChunks]
  | cons i is ih =>
    obtain ⟨⟨hpos, hi⟩, hrest⟩ := List.forall_mem_cons.1 hin
    obtain ⟨hgot, hnext⟩ := readChunk_ready h hsize i.toNat
    rw [Int.toNat_of_nonneg hpos] at hgot hnext
    rw [readChunks, List.map_cons, List.map_cons, hgot, getElem?_pieces_lt hi]
    refine (List.cons_eq_cons.trans (and_iff_right rfl)).trans ?_
    split at hnext
    · rename_i hwhole
      rw [ih hnext hrest]
      cases is with
      | nil => simp
      | cons j js =>
        rw [List.dropLast_cons_of_ne_nil (List.cons_ne_nil j js), List.forall_mem_cons]
        exact (and_iff_right hwhole).symm
    · rename_i hshort
      cases is with
      | nil => simp [readChunks]
      | cons j js =>
        -- what is read after a short chunk is empty, and no chunk is
        refine iff_of_false (fun hsame => ?_) fun hall => hshort ?_
        · rw [readChunks_failed hnext, List.map_cons, List.map_cons, List.map_cons] at hsame
          obtain ⟨hempty, -⟩ := List.cons_eq_cons.1 hsame
          have hlong := (length_of_mem_pieces hsize hempty.symm).2.1
          exact absurd hlong (Nat.lt_irrefl 0)
        · refine hall i ?_
          rw [List.dropLast_cons_of_ne_nil (List.cons_ne_nil j js)]
          exact List.mem_cons_self

end Slicer

/-- **The second pass reads what the first pass hashed** exactly when the file is a whole number of chunks, or its short
tail is read last. -/
theorem second_pass_iff {chunkSize : Nat} (hsize : 0 < chunkSize) (content : Bytes) {slicer slicer' : Slicer}
    (hopen : slicer.openStream (some content) chunkSize = .ok slicer') :
    ∃ hashed, (∀ turns, content.length + 2 ≤ turns → hashedChunks chunkSize turns (.opened content) = some hashed) ∧
      ∀ indices : List Int, (∀ i ∈ indices, 0 ≤ i ∧ i.toNat < hashed.length) →
        (slicer'.ReadsHashed chunkSize hashed indices ↔
          content.length % chunkSize = 0 ∨ ((content.length / chunkSize : Nat) : Int) ∉ indices.dropLast) := by
  have hlen : (pieces chunkSize content).length ≤ content.length := by
    by_contra hlong
    have hlast : content.length * chunkSize < content.length := (lt_pieces_iff hsize).1 (by omega)
    have hmul := Nat.le_mul_of_pos_right content.length hsize
    omega
  refine ⟨pieces chunkSize content, fun turns hturns => hashedChunks_eq hsize content (by omega), fun indices hin => ?_⟩
  rw [Slicer.readsHashed_iff (Slicer.openStream_ready hopen) hsize hin]
  have hdiv := Nat.div_add_mod content.length chunkSize
  have hmod := Nat.mod_lt content.length hsize
  rw [Nat.mul_comm] at hdiv
  -- a chunk of the file is short exactly when it is the tail
  have hshort : ∀ i ∈ indices.dropLast, i.toNat * chunkSize + chunkSize ≤ content.length ↔
      (content.length % chunkSize = 0 ∨ i ≠ ((content.length / chunkSize : Nat) : Int)) := by
    intro i hi
    obtain ⟨hpos, hlt⟩ := hin i (List.mem_of_mem_dropLast hi)
    have hstart := (lt_pieces_iff hsize).1 hlt
    generalize content.length / chunkSize = q at hdiv ⊢
    rcases Nat.lt_trichotomy i.toNat q with hless | heq | hmore
    · have hmul := Nat.mul_le_mul_right chunkSize (Nat.succ_le_of_lt hless)
      rw [Nat.succ_mul] at hmul
      exact iff_of_true (by omega) (Or.inr (by omega))
    · rw [heq] at hstart ⊢
      refine iff_of_false (by omega) ?_
      rintro (hzero | hne)
      · omega
      · exact hne (by omega)
    · have hmul := Nat.mul_le_mul_right chunkSize (Nat.succ_le_of_lt hmore)
      rw [Nat.succ_mul] at hmul
      omega
  constructor
  · intro hall
    by_contra hnot
    obtain ⟨htail, hread⟩ := not_or.1 hnot
    exact ((hshort _ (not_not.1 hread)).1 (hall _ (not_not.1 hread))).elim htail fun hne => hne rfl
  · rintro (hzero | hnotin) i hi
    · exact (hshort i hi).2 (Or.inl hzero)
    · refine (hshort i hi).2 (Or.inr ?_)
      rintro rfl
      exact hnotin hi

/-- The tail is read last. -/
theorem second_pass_tailLast : hashedChunks 2 7 (.opened [1, 2, 3, 4, 5]) = some [[1, 2], [3, 4], [5]] ∧
    Slicer.ReadsHashed 2 ⟨some (.opened [1, 2, 3, 4, 5]), 2⟩ [[1, 2], [3, 4], [5]] [1, 0, 1, 2] := by
  have hopen : (⟨none, 0⟩ : Slicer).openStream (some [1, 2, 3, 4, 5]) 2 = .ok ⟨some (.opened [1, 2, 3, 4, 5]), 2⟩ := rfl
  obtain ⟨hashed, hfirst, hsecond⟩ := second_pass_iff (by decide) [1, 2, 3, 4, 5] hopen
  have hread : hashedChunks 2 7 (.opened [1, 2, 3, 4, 5]) = some [[1, 2], [3, 4], [5]] := by decide
  obtain rfl := Option.some.inj ((hfirst 7 (by decide)).symm.trans hread)
  exact ⟨hread, (hsecond [1, 0, 1, 2] (by decide)).2 (Or.inr (by decide))⟩

/-- After the tail of the file its first chunk reads as nothing. -/
theorem tailFirst_empty : ¬ ∀ (chunkSize : Nat) (content : Bytes) (slicer slicer' : Slicer) (hashed : List Bytes)
    (turns : Nat) (indices : List Int), 0 < chunkSize → slicer.openStream (some content) chunkSize = .ok slicer' →
    hashedChunks chunkSize turns (.opened content) = some hashed → (∀ i ∈ indices, 0 ≤ i ∧ i.toNat < hashed.length) →
    slicer'.ReadsHashed chunkSize hashed indices := by
  intro h
  have hreads := h 2 [1, 2, 3] ⟨none, 0⟩ ⟨some (.opened [1, 2, 3]), 2⟩ [[1, 2], [3]] 5 [1, 0] (by decide) rfl
    (by decide) (by decide)
  exact absurd hreads (by unfold Slicer.ReadsHashed; decide)

end StorageEngine
