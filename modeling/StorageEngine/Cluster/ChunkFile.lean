import Mathlib.Data.Fintype.Basic
import Mathlib.Logic.Function.Basic
import StorageEngine.Cluster.Encryption
import StorageEngine.Lib.Transition

/-!
# One chunk file, step by step

`SaveChunk` rewrites `<hash>.bin` in place: it truncates the file when it opens it and fills it again with a
ciphertext of its own. The file operations of any number of `SaveChunk` and `LoadChunk` calls of one hash and
payload interleave; a call that has the file open keeps it through a removal of the name.

| here | there (`LocalDiskStorage.hpp`) |
| --- | --- |
| `BlockCipher`         | `EncryptBytes` with its random IV, `DecryptBytes` (`crypto.hpp`); `none` where it throws |
| `refuse`              | encryption fails, no space, the file does not open (`:66-92`) |
| `openSave`, `write`   | the `ofstream` (`:84`) and the bytes that reach the file (`:94-97`) |
| `finish`              | `flush` and `good`, what the call returns (`:97-106`) |
| `openLoad`, `read`    | the `ifstream` and its size (`:114-121`), the read and the decryption (`:123-138`) |
| `delete`              | `DeleteChunk` (`:142-158`) |
-/

namespace StorageEngine

open Extent Transition

/-- Decryption inverts encryption on complete ciphertexts; nothing is said about others. -/
structure BlockCipher where
  encrypt : Iv → Bytes → Bytes
  decrypt : Bytes → Option Bytes
  decrypt_encrypt : ∀ iv data, decrypt (encrypt iv data) = some data

/-- A `SaveChunk` that has the file open: its file, its ciphertext, and how much of it is written. -/
structure ChunkWriter where
  inode : Nat
  ciphertext : Bytes
  written : Nat
deriving DecidableEq

/-- A `LoadChunk` that has the file open. It is `due` to return the payload if the chunk was saved when it
began, and is not deleted meanwhile. -/
structure ChunkReader where
  inode : Nat
  size : Nat
  due : Bool
deriving DecidableEq

/-- The file of one hash, and the calls that have it open. -/
structure ChunkFile (ω ρ : Type) where
  /-- The file under the name, if any. -/
  name : Option Nat
  content : Nat → Bytes
  nextInode : Nat
  writers : ω → Option ChunkWriter
  readers : ρ → Option ChunkReader
  /-- A `SaveChunk` has returned `true`, and no `DeleteChunk` was called since. -/
  saved : Bool
  /-- What the due loads returned. -/
  loaded : List Bytes

/-- Nothing was saved. -/
def ChunkFile.init (ω ρ : Type) : ChunkFile ω ρ := ⟨none, fun _ => [], 0, fun _ => none, fun _ => none, false, []⟩

/-- One file operation of one call. -/
inductive FileStep (ω ρ : Type) where
  | refuse (w : ω)
  | openSave (w : ω) (iv : Iv)
  /-- The next `count` bytes reach the file. -/
  | write (w : ω) (count : Nat)
  | finish (w : ω) (success : Bool)
  | openLoad (r : ρ)
  | read (r : ρ)
  /-- The removal fails or succeeds. -/
  | delete (removed : Bool)
deriving DecidableEq

variable {ω ρ : Type} [DecidableEq ω] [DecidableEq ρ]

/-- What `LoadChunk` makes of the bytes it read. -/
def loadChunk (cipher : BlockCipher) (size : Nat) (data : Bytes) : Bytes :=
  if data.length < size then [] else (cipher.decrypt data).getD []

/-- `none` where the call is not there. -/
def stepFile (cipher : BlockCipher) (data : Bytes) (s : ChunkFile ω ρ) : FileStep ω ρ → Option (ChunkFile ω ρ)
  | .refuse w => if s.writers w = none then some s else none
  | .openSave w iv =>
    if s.writers w = none then
      let inode := s.name.getD s.nextInode
      some { s with
        name := some inode
        content := Function.update s.content inode []
        nextInode := if s.name = none then s.nextInode + 1 else s.nextInode
        writers := Function.update s.writers w (some ⟨inode, cipher.encrypt iv data, 0⟩) }
    else none
  | .write w count =>
    match s.writers w with
    | some x =>
      let bytes := (x.ciphertext.drop x.written).take count
      some { s with
        content := Function.update s.content x.inode (writeAt 0 (s.content x.inode) x.written bytes)
        writers := Function.update s.writers w (some { x with written := x.written + bytes.length }) }
    | none => none
  | .finish w success =>
    match s.writers w with
    | some x =>
      -- with bytes outstanding the stream is not good
      if success ∧ x.written ≠ x.ciphertext.length then none
      else some { s with writers := Function.update s.writers w none, saved := s.saved || success }
    | none => none
  | .openLoad r =>
    if s.readers r = none then
      match s.name with
      | some inode =>
        some { s with readers := Function.update s.readers r (some ⟨inode, (s.content inode).length, s.saved⟩) }
      | none => some { s with loaded := if s.saved then [] :: s.loaded else s.loaded }
    else none
  | .read r =>
    match s.readers r with
    | some x =>
      let out := loadChunk cipher x.size ((s.content x.inode).take x.size)
      some { s with
        readers := Function.update s.readers r none
        loaded := if x.due then out :: s.loaded else s.loaded }
    | none => none
  | .delete removed =>
    some { s with
      name := if removed then none else s.name
      saved := false
      readers := fun r => (s.readers r).map fun x => { x with due := false } }

/-- Every load of the saved chunk has returned the payload. -/
def LoadsReturn (data : Bytes) (s : ChunkFile ω ρ) : Prop := ∀ b ∈ s.loaded, b = data

/-- Nobody has the file open for writing. -/
def ChunkFile.Unwritten (s : ChunkFile ω ρ) : Prop := ∀ w, s.writers w = none

/-- No `SaveChunk` opens the file while another one writes or a load of the saved chunk reads it, none fails once
it has opened the file of a saved chunk, no load of a saved chunk begins while one writes, and no file is
removed while one writes. -/
def Undisturbed (s : ChunkFile ω ρ) : FileStep ω ρ → Prop
  | .openSave _ _ => s.Unwritten ∧ ∀ r, ∀ x ∈ s.readers r, x.due = false
  | .finish _ success => success = false → s.saved = false
  | .openLoad _ => s.saved = true → s.Unwritten
  | .delete removed => removed = true → s.Unwritten
  | _ => True

/-! ## What undisturbed steps keep -/

/-- The file under the name holds a complete ciphertext of the payload. -/
def Complete (cipher : BlockCipher) (data : Bytes) (s : ChunkFile ω ρ) (inode : Nat) : Prop :=
  ∃ iv, s.content inode = cipher.encrypt iv data

/-- A writer has the file to itself; without one a saved file is complete. -/
structure FileInv (cipher : BlockCipher) (data : Bytes) (s : ChunkFile ω ρ) : Prop where
  one : ∀ w w' x x', s.writers w = some x → s.writers w' = some x' → w = w'
  /-- The writer's file is the one under the name, and holds what it has written. -/
  writer : ∀ w x, s.writers w = some x → s.name = some x.inode ∧
    s.content x.inode = x.ciphertext.take x.written ∧ x.written ≤ x.ciphertext.length ∧
    ∃ iv, x.ciphertext = cipher.encrypt iv data
  saved : s.saved = true → s.Unwritten → ∃ inode, s.name = some inode ∧ Complete cipher data s inode
  reader : ∀ r x, s.readers r = some x → x.due = true → s.Unwritten ∧ Complete cipher data s x.inode ∧
    x.size = (s.content x.inode).length
  loaded : LoadsReturn data s

variable {cipher : BlockCipher} {data : Bytes} {s t : ChunkFile ω ρ}

omit [DecidableEq ω] [DecidableEq ρ] in
theorem fileInv_init : FileInv cipher data (ChunkFile.init ω ρ) where
  one w w' x x' hw := by cases hw
  writer w x hw := by cases hw
  saved h := by cases h
  reader r x hr := by cases hr
  loaded b hb := by cases hb

omit [DecidableEq ω] [DecidableEq ρ] in
/-- A complete ciphertext is loaded as the payload. -/
theorem loadChunk_complete {inode size : Nat} (h : Complete cipher data s inode) (hsize : size = (s.content inode).length) :
    loadChunk cipher size ((s.content inode).take size) = data := by
  obtain ⟨iv, hiv⟩ := h
  rw [hsize, List.take_length, loadChunk, if_neg (Nat.lt_irrefl _), hiv, cipher.decrypt_encrypt]
  rfl

omit [DecidableEq ρ] in
/-- With one writer, that writer's call ends every disturbance. -/
theorem FileInv.unwritten_update (hi : FileInv cipher data s) {w : ω} {x : ChunkWriter} (hw : s.writers w = some x) :
    ∀ w', Function.update s.writers w none w' = none := by
  intro w'
  by_cases he : w' = w
  · rw [he, Function.update_self]
  · rw [Function.update_of_ne he]
    cases hx : s.writers w' with
    | none => rfl
    | some y => exact absurd (hi.one w' w y x hx hw) he

theorem FileInv.openSave (hi : FileInv cipher data s) {w : ω} {iv : Iv} (hc : Undisturbed s (.openSave w iv))
    (h : stepFile cipher data s (.openSave w iv) = some t) : FileInv cipher data t := by
  obtain ⟨hfree, hreaders⟩ := hc
  simp only [stepFile, if_pos (hfree w), Option.some.injEq] at h
  subst h
  have hmine : ∀ w' x, Function.update s.writers w (some ⟨s.name.getD s.nextInode, cipher.encrypt iv data, 0⟩) w' = some x →
      w' = w ∧ x = ⟨s.name.getD s.nextInode, cipher.encrypt iv data, 0⟩ := by
    intro w' x hx
    by_cases he : w' = w
    · subst he
      rw [Function.update_self, Option.some.injEq] at hx
      exact ⟨rfl, hx.symm⟩
    · rw [Function.update_of_ne he, hfree w'] at hx
      cases hx
  refine ⟨fun w₁ w₂ x₁ x₂ h₁ h₂ => ?_, fun w' x hx => ?_, fun _ hfree' => ?_, fun r x hr hdue => ?_, hi.loaded⟩
  · rw [(hmine w₁ x₁ h₁).1, (hmine w₂ x₂ h₂).1]
  · obtain ⟨-, rfl⟩ := hmine w' x hx
    refine ⟨rfl, ?_, Nat.zero_le _, iv, rfl⟩
    rw [List.take_zero]
    exact Function.update_self ..
  · have hw := hfree' w
    dsimp only at hw
    rw [Function.update_self] at hw
    cases hw
  · rw [hreaders r x hr] at hdue
    cases hdue

theorem FileInv.write (hi : FileInv cipher data s) {w : ω} {count : Nat}
    (h : stepFile cipher data s (.write w count) = some t) : FileInv cipher data t := by
  simp only [stepFile] at h
  split at h
  · rename_i x hw
    cases h
    obtain ⟨hname, hcontent, hle, hiv⟩ := hi.writer w x hw
    have hmine : ∀ w' y, s.writers w' = some y → w' = w := fun w' y hy => hi.one w' w y x hy hw
    have hbusy : ¬ ChunkFile.Unwritten s := fun hfree => by
      rw [hfree w] at hw
      cases hw
    refine ⟨fun w₁ w₂ x₁ x₂ h₁ h₂ => ?_, fun w' y hy => ?_, fun _ hfree => ?_, fun r y hr hdue => ?_, hi.loaded⟩
    · have honly : ∀ w' z, Function.update s.writers w
          (some { x with written := x.written + ((x.ciphertext.drop x.written).take count).length }) w' = some z →
          w' = w := by
        intro w' z hz
        by_contra he
        rw [Function.update_of_ne he] at hz
        exact he (hmine w' z hz)
      rw [honly w₁ x₁ h₁, honly w₂ x₂ h₂]
    · by_cases he : w' = w
      · subst he
        dsimp only at hy
        rw [Function.update_self, Option.some.injEq] at hy
        subst hy
        refine ⟨hname, ?_, ?_, hiv⟩
        · show Function.update s.content x.inode _ x.inode = _
          rw [Function.update_self, hcontent]
          exact writeAt_take 0 hle count
        · simp only [List.length_take, List.length_drop]
          omega
      · dsimp only at hy
        rw [Function.update_of_ne he] at hy
        exact absurd (hmine w' y hy) he
    · have hw' := hfree w
      dsimp only at hw'
      rw [Function.update_self] at hw'
      cases hw'
    · exact absurd (hi.reader r y hr hdue).1 hbusy
  · cases h

theorem FileInv.finish (hi : FileInv cipher data s) {w : ω} {success : Bool} (hc : Undisturbed s (.finish w success))
    (h : stepFile cipher data s (.finish w success) = some t) : FileInv cipher data t := by
  simp only [stepFile] at h
  split at h
  · rename_i x hw
    split at h
    · cases h
    rename_i hall
    cases h
    obtain ⟨hname, hcontent, -, iv, hct⟩ := hi.writer w x hw
    have hfree := hi.unwritten_update hw
    have hbusy : ¬ ChunkFile.Unwritten s := fun hun => by
      rw [hun w] at hw
      cases hw
    refine ⟨fun w₁ w₂ x₁ x₂ h₁ => ?_, fun w' y hy => ?_, fun hsaved _ => ?_, fun r y hr hdue => ?_, hi.loaded⟩
    · dsimp only at h₁
      rw [hfree w₁] at h₁
      cases h₁
    · dsimp only at hy
      rw [hfree w'] at hy
      cases hy
    · refine ⟨x.inode, hname, iv, ?_⟩
      cases success with
      | true =>
        have hlen : x.written = x.ciphertext.length := by simpa using hall
        rw [hcontent, hlen, List.take_length, hct]
      | false =>
        rw [Bool.or_false, hc rfl] at hsaved
        cases hsaved
    · exact absurd (hi.reader r y hr hdue).1 hbusy
  · cases h

theorem FileInv.openLoad (hi : FileInv cipher data s) {r : ρ} (hc : Undisturbed s (.openLoad r : FileStep ω ρ))
    (h : stepFile cipher data s (.openLoad r) = some t) : FileInv cipher data t := by
  simp only [stepFile] at h
  split at h
  · split at h
    · rename_i inode hname
      cases h
      refine ⟨hi.one, hi.writer, hi.saved, fun r' x hr hdue => ?_, hi.loaded⟩
      by_cases he : r' = r
      · subst he
        dsimp only at hr
        rw [Function.update_self, Option.some.injEq] at hr
        subst hr
        obtain ⟨inode', hname', hcomplete⟩ := hi.saved hdue (hc hdue)
        obtain rfl : inode = inode' := Option.some.inj (hname.symm.trans hname')
        exact ⟨hc hdue, hcomplete, rfl⟩
      · dsimp only at hr
        rw [Function.update_of_ne he] at hr
        exact hi.reader r' x hr hdue
    · rename_i hname
      cases h
      refine ⟨hi.one, hi.writer, hi.saved, hi.reader, ?_⟩
      have hno : s.saved = false := by
        by_contra hsaved
        have hs : s.saved = true := by simpa using hsaved
        obtain ⟨inode, hname', -⟩ := hi.saved hs (hc hs)
        rw [hname] at hname'
        cases hname'
      rw [hno]
      exact hi.loaded
  · cases h

theorem FileInv.read (hi : FileInv cipher data s) {r : ρ} (h : stepFile cipher data s (.read r : FileStep ω ρ) = some t) :
    FileInv cipher data t := by
  simp only [stepFile] at h
  split at h
  · rename_i x hr
    cases h
    refine ⟨hi.one, hi.writer, hi.saved, fun r' y hy hdue => ?_, ?_⟩
    · by_cases he : r' = r
      · subst he
        dsimp only at hy
        rw [Function.update_self] at hy
        cases hy
      · dsimp only at hy
        rw [Function.update_of_ne he] at hy
        exact hi.reader r' y hy hdue
    · cases hdue : x.due with
      | false => simpa [LoadsReturn] using hi.loaded
      | true =>
        obtain ⟨-, hcomplete, hsize⟩ := hi.reader r x hr hdue
        have hout := loadChunk_complete hcomplete hsize
        intro b hb
        rcases List.mem_cons.1 hb with rfl | hb
        · exact hout
        · exact hi.loaded b hb
  · cases h

omit [DecidableEq ω] [DecidableEq ρ] in
/-- After a `DeleteChunk` nothing is promised; a file that is gone has no writer. -/
theorem FileInv.deleted (hi : FileInv cipher data s) {removed : Bool} (hc : removed = true → s.Unwritten) :
    FileInv cipher data { s with
      name := if removed then none else s.name
      saved := false
      readers := fun r => (s.readers r).map fun x => { x with due := false } } where
  one := hi.one
  writer w x hw := by
    cases removed with
    | false => exact hi.writer w x hw
    | true =>
      rw [hc rfl w] at hw
      cases hw
  saved hs := by cases hs
  reader r x hr hdue := by
    obtain ⟨y, -, rfl⟩ := Option.map_eq_some_iff.1 hr
    cases hdue
  loaded := hi.loaded

/-- **One step.** -/
theorem FileInv.step (hi : FileInv cipher data s) {a : FileStep ω ρ} (hc : Undisturbed s a)
    (h : stepFile cipher data s a = some t) : FileInv cipher data t := by
  cases a with
  | refuse w =>
    simp only [stepFile] at h
    split at h
    · cases h; exact hi
    · cases h
  | openSave w iv => exact hi.openSave hc h
  | write w count => exact hi.write h
  | finish w success => exact hi.finish hc h
  | openLoad r => exact hi.openLoad hc h
  | read r => exact hi.read h
  | delete removed =>
    cases h
    exact hi.deleted hc

/-- **A stored chunk stays readable** in every run whose steps are undisturbed. -/
theorem saved_chunk_readable (cipher : BlockCipher) (data : Bytes) (steps : List (FileStep ω ρ))
    (hc : EachStep (stepFile cipher data) Undisturbed (ChunkFile.init ω ρ) steps) :
    Always (stepFile cipher data) (LoadsReturn data) (ChunkFile.init ω ρ) steps := by
  refine always_iff_prefix.2 fun pre s hpre hs => ?_
  obtain ⟨rest, rfl⟩ := hpre
  have hinv : FileInv cipher data s :=
    EachStep.inv (fun _ _ _ hi hcs hst => hi.step hcs hst) (EachStep.append.1 hc).1 fileInv_init hs
  exact hinv.loaded

/-- The files of a key. -/
def Evp.AesCbc.blockCipher {evp : Evp} (haes : evp.AesCbc) (key : AesKey) : BlockCipher where
  encrypt iv data := iv.1 ++ ((evp.encryptUpdate key iv data).getD [] ++ (evp.encryptFinal key iv data).getD [])
  decrypt file := (splitIv file).bind fun parts =>
    (evp.decryptUpdate key parts.1 parts.2).bind fun front => (evp.decryptFinal key parts.1 parts.2).map (front ++ ·)
  decrypt_encrypt iv data := by
    obtain ⟨blocks, last, hblocks, hlast, -, -⟩ := haes.encrypts key iv data
    obtain ⟨front, rest, hfront, hrest, happ⟩ := haes.decrypts key iv data blocks last hblocks hlast
    simp only [hblocks, hlast, Option.getD_some, splitIv_append, Option.bind_some, hfront, hrest, Option.map_some, happ]

/-- AES-256-CBC as far as the runs need it. -/
def sampleCipher : BlockCipher := sampleEvp_aesCbc.blockCipher sampleKey

instance [Fintype ω] (s : ChunkFile ω ρ) : Decidable s.Unwritten :=
  inferInstanceAs (Decidable (∀ w, s.writers w = none))

instance [Fintype ω] [Fintype ρ] (s : ChunkFile ω ρ) : (a : FileStep ω ρ) → Decidable (Undisturbed s a)
  | .openSave _ _ => inferInstanceAs (Decidable (s.Unwritten ∧ ∀ r, ∀ x ∈ s.readers r, x.due = false))
  | .finish _ success => inferInstanceAs (Decidable (success = false → s.saved = false))
  | .openLoad _ => inferInstanceAs (Decidable (s.saved = true → s.Unwritten))
  | .delete removed => inferInstanceAs (Decidable (removed = true → s.Unwritten))
  | .refuse _ | .write _ _ | .read _ => .isTrue trivial

/-- Saved in two pieces, loaded, saved again under another IV, refused once, loaded. -/
def savedTwice : List (FileStep Unit Unit) :=
  [.openSave () sampleIv, .write () 20, .write () 12, .finish () true, .openLoad (), .read (),
   .openSave () otherIv, .write () 32, .finish () true, .refuse (), .openLoad (), .read ()]

theorem savedTwice_readable : Always (stepFile sampleCipher [97]) (LoadsReturn [97]) (ChunkFile.init Unit Unit) savedTwice :=
  saved_chunk_readable sampleCipher [97] savedTwice (by decide +kernel)

/-- A load that comes between a second `SaveChunk`'s truncation and its write. -/
def loadedInBetween : List (FileStep Unit Unit) :=
  [.openSave () sampleIv, .write () 32, .finish () true, .openSave () otherIv, .openLoad (), .read ()]

theorem loadedInBetween_empty : ¬ ∀ (cipher : BlockCipher) (data : Bytes) (steps : List (FileStep Unit Unit)),
    Always (stepFile cipher data) (LoadsReturn data) (ChunkFile.init Unit Unit) steps := by
  intro h
  have hfacts : (exec (stepFile sampleCipher [97]) (ChunkFile.init Unit Unit) loadedInBetween).any
      (fun s => s.loaded == [[]]) = true := by decide +kernel
  obtain ⟨s, hs, he⟩ := (Option.any_eq_true ..).1 hfacts
  rw [beq_iff_eq] at he
  have hreturn := always_iff_prefix.1 (h sampleCipher [97] loadedInBetween) _ s (List.prefix_refl _) hs [] (by simp [he])
  cases hreturn

end StorageEngine
