import StorageEngine.Client.Upload
import StorageEngine.Lib.Transition

/-!
# Which file a resumed upload commits

Manifests are kept by base name, and `UploadFile` takes up the one it finds if size and modification time are
those of its file. `source` is what the code does not keep: the bytes each manifest's list was computed from.
Where every resumed manifest was made from a file with the chunk hashes of the present one, every call that
succeeds commits its own file, and only there (`resume_commits_right_iff`).
-/

namespace StorageEngine

open Transition

/-- The client's transfer files, with where their lists come from. -/
structure ClientState where
  files : String → TransferFiles
  /-- By base name: what the list of the saved manifest was computed from. -/
  source : String → Bytes
  /-- Of the calls that returned `true` on a file that stayed as it was: the list, and the file. -/
  commits : List (List String × Bytes)

/-- No transfer state, no commits. -/
def ClientState.init : ClientState := ⟨fun _ => .none, fun _ => [], []⟩

/-- A call of `UploadFile`, and what it meets. -/
structure UploadCall where
  filepath : String
  events : UploadEvents

/-- The file is the same at every look. -/
def UploadEvents.Unmodified (ev : UploadEvents) : Prop :=
  ev.seen .hashing = ev.seen .start ∧ ev.seen .beforeTransfer = ev.seen .start ∧ ev.seen .transfer = ev.seen .start ∧
    ev.seen .afterTransfer = ev.seen .start

instance (ev : UploadEvents) : Decidable ev.Unmodified :=
  inferInstanceAs (Decidable (ev.seen .hashing = ev.seen .start ∧ ev.seen .beforeTransfer = ev.seen .start ∧
    ev.seen .transfer = ev.seen .start ∧ ev.seen .afterTransfer = ev.seen .start))

/-- The bytes behind the manifest that the call saves, if it saves one. -/
def savedContent (t : TransferFiles) (ev : UploadEvents) : Option Bytes :=
  if ev.found = some false ∧ ev.save = .done then
    (ev.seen .start).bind fun f => (resume t f ev).bind fun r =>
      if r.2.chunkHashes.isEmpty then (ev.seen .hashing).map LocalFile.content else none
  else none

/-- A call is noted if it returned `true` and the file stayed as it was. -/
def noteUpload (s : ClientState) (ev : UploadEvents) (res : UploadResult) : List (List String × Bytes) :=
  match res.ended, res.committed, ev.seen .start with
  | .returned true, some (_, hashes), some f => if ev.Unmodified then (hashes, f.content) :: s.commits else s.commits
  | _, _, _ => s.commits

section
variable (sha256 : Bytes → String)

/-- A call works on the files of its base name. -/
def stepClient (s : ClientState) (c : UploadCall) : Option ClientState :=
  let name := filename c.filepath
  let res := uploadFile sha256 (s.files name) c.filepath c.events
  some ⟨Function.update s.files name res.transfers,
    Function.update s.source name ((savedContent (s.files name) c.events).getD (s.source name)), noteUpload s c.events res⟩

/-- What was committed is what `ComputeHashes` makes of the file. -/
def CommitsRight (s : ClientState) : Prop := ∀ e ∈ s.commits, e.1 = computeHashes sha256 e.2

/-- A successful call on a file that stays as it is resumes only a manifest of the same chunk hashes. -/
def ResumesSource (s : ClientState) (c : UploadCall) : Prop :=
  let name := filename c.filepath
  (uploadFile sha256 (s.files name) c.filepath c.events).ended = .returned true → c.events.Unmodified →
    ∀ f ∈ c.events.seen .start, ∀ r ∈ resume (s.files name) f c.events, r.2.chunkHashes ≠ [] →
      computeHashes sha256 (s.source name) = computeHashes sha256 f.content

end

/-! ## One call -/

variable {sha256 : Bytes → String}

/-- The saved manifest's list is that of its source. -/
def FromSource (sha256 : Bytes → String) (t : TransferFiles) (source : Bytes) : Prop :=
  ∀ m, t.manifest = some (some m) → m.chunkHashes = computeHashes sha256 source

theorem FromSource.of_manifest {t t' : TransferFiles} {source : Bytes} (h : FromSource sha256 t source)
    (ht : t'.manifest = t.manifest ∨ t'.manifest = none) : FromSource sha256 t' source := by
  intro m hm
  rcases ht with ht | ht
  · exact h m (ht ▸ hm)
  · rw [hm] at ht
    cases ht

theorem savedContent_eq {t t₁ : TransferFiles} {ev : UploadEvents} {f : LocalFile} {m₁ : UploadManifest}
    (hfound : ev.found = some false) (hstart : ev.seen .start = some f) (hresume : resume t f ev = some (t₁, m₁)) :
    savedContent t ev =
      if ev.save = .done ∧ m₁.chunkHashes = [] then (ev.seen .hashing).map LocalFile.content else none := by
  unfold savedContent
  rw [hstart]
  simp only [hfound, true_and, Option.bind_some, hresume, List.isEmpty_iff]
  by_cases hsave : ev.save = .done <;> simp [hsave]

/-- What is resumed left the manifest alone, or removed it. -/
theorem FromSource.resumed {t t₁ : TransferFiles} {ev : UploadEvents} {f : LocalFile} {m₁ : UploadManifest} {source : Bytes}
    (h : FromSource sha256 t source) (hresume : resume t f ev = some (t₁, m₁)) :
    FromSource sha256 t₁ source ∧ (m₁.chunkHashes ≠ [] → m₁.chunkHashes = computeHashes sha256 source) := by
  rcases resume_cases hresume with ⟨rfl, ⟨rfl, -⟩ | rfl⟩ | ⟨rfl, hload, -⟩
  · exact ⟨h, fun hne => absurd rfl hne⟩
  · refine ⟨h.of_manifest ?_, fun hne => absurd rfl hne⟩
    simp only [TransferFiles.deleteUploadManifest]
    split
    · exact Or.inr rfl
    · exact Or.inl rfl
  · refine ⟨h, fun _ => ?_⟩
    obtain ⟨-, m₀, hm₀, rfl⟩ := TransferFiles.loadUploadManifest_eq_some.1 hload
    exact h m₀ hm₀

/-- **One call**: the saved manifest and its source stay together. -/
theorem fromSource_upload {t : TransferFiles} {source : Bytes} (h : FromSource sha256 t source) (filepath : String)
    (ev : UploadEvents) :
    FromSource sha256 (uploadFile sha256 t filepath ev).transfers ((savedContent t ev).getD source) := by
  have hblue : ∀ {f t₁ m₁ t₂ m₂}, ev.found = some false → ev.seen .start = some f → resume t f ev = some (t₁, m₁) →
      blueprint sha256 t₁ m₁ filepath f ev = some (t₂, m₂) → FromSource sha256 t₂ ((savedContent t ev).getD source) := by
    intro f t₁ m₁ t₂ m₂ hfound hstart hresume hblueprint
    rw [savedContent_eq hfound hstart hresume]
    obtain ⟨hres, -⟩ := h.resumed hresume
    rcases blueprint_cases hblueprint with ⟨hne, rfl, rfl⟩ | ⟨g, hempty, hg, rfl, hm₂⟩
    · rwa [if_neg fun hs => hne hs.2]
    · cases hsave : ev.save with
      | failed =>
        rw [if_neg fun hs => by cases hs.1]
        exact hres
      | crashed =>
        intro m hm
        cases hm
      | done =>
        rw [if_pos ⟨rfl, hempty⟩, hg]
        intro m hm
        obtain rfl := Option.some.inj (Option.some.inj hm)
        rw [hm₂]
        rfl
  cases uploadFile_path sha256 t filepath ev with
  | refused hwhy hended hout =>
    have hnone : savedContent t ev = none := by
      unfold savedContent
      split
      · rename_i hs
        cases hstart : ev.seen .start with
        | none => rfl
        | some f => simp [hwhy hs.1 f hstart]
      · rfl
    rw [hout, hnone]
    exact h
  | unreadable hfound hstart hresume hblueprint hout =>
    rw [hout, savedContent_eq hfound hstart hresume]
    have hnone : ev.seen .hashing = none := by
      unfold blueprint at hblueprint
      split at hblueprint
      · simpa using hblueprint
      · cases hblueprint
    rw [hnone, Option.map_none, ite_self, Option.getD_none]
    exact (h.resumed hresume).1
  | uninitialized hfound hstart hresume hblueprint hinit hout =>
    rw [hout]
    exact hblue hfound hstart hresume hblueprint
  | transferred hfound hstart hresume hblueprint hinit hout =>
    exact (hblue hfound hstart hresume hblueprint).of_manifest hout.manifest

/-- **What a successful call commits**: the list it resumed, or that of the file it read. -/
theorem committed_of_true {t : TransferFiles} {filepath : String} {ev : UploadEvents}
    (htrue : (uploadFile sha256 t filepath ev).ended = .returned true) : ∃ f t₁ m₁ size hashes, ev.seen .start = some f ∧
      resume t f ev = some (t₁, m₁) ∧ (uploadFile sha256 t filepath ev).committed = some (size, hashes) ∧
      (m₁.chunkHashes ≠ [] ∧ hashes = m₁.chunkHashes ∨
        ∃ g, m₁.chunkHashes = [] ∧ ev.seen .hashing = some g ∧ hashes = computeHashes sha256 g.content) := by
  cases uploadFile_path sha256 t filepath ev with
  | refused hwhy hended hout => exact absurd htrue hended
  | unreadable hfound hstart hresume hblueprint hout =>
    rw [hout] at htrue
    cases htrue
  | uninitialized hfound hstart hresume hblueprint hinit hout =>
    rw [hout] at htrue
    cases htrue
  | @transferred f t₁ t₂ m₁ m₂ plans up hfound hstart hresume hblueprint hinit hout =>
    obtain ⟨-, -, hcommitted, -⟩ := hout.ended.resolve_left fun hfalse => hfalse.1 htrue
    refine ⟨f, t₁, m₁, _, _, hstart, hresume, hcommitted, ?_⟩
    rcases blueprint_cases hblueprint with ⟨hne, rfl, rfl⟩ | ⟨g, hempty, hg, rfl, hm₂⟩
    · exact Or.inl ⟨hne, rfl⟩
    · exact Or.inr ⟨g, hempty, hg, by rw [hm₂]⟩

/-- **One call of the client.** -/
theorem commitsRight_step {s s' : ClientState} {c : UploadCall} (hsource : ∀ name, FromSource sha256 (s.files name) (s.source name))
    (h : CommitsRight sha256 s) (hstep : stepClient sha256 s c = some s') :
    CommitsRight sha256 s' ↔ ResumesSource sha256 s c := by
  simp only [stepClient, Option.some.injEq] at hstep
  subst hstep
  unfold CommitsRight ResumesSource noteUpload
  simp only
  by_cases htrue : (uploadFile sha256 (s.files (filename c.filepath)) c.filepath c.events).ended = .returned true
  · obtain ⟨f, t₁, m₁, size, hashes, hstart, hresume, hcommitted, hlist⟩ := committed_of_true htrue
    rw [htrue, hcommitted, hstart]
    simp only [true_implies, Option.mem_def, Option.some.injEq, forall_eq', hresume]
    by_cases hsame : c.events.Unmodified
    · have hold : ∀ e ∈ s.commits, e.1 = computeHashes sha256 e.2 := h
      simp only [hsame, if_true, true_implies, List.mem_cons, forall_eq_or_imp]
      rw [and_iff_left hold]
      rcases hlist with ⟨hne, rfl⟩ | ⟨g, hempty, hg, rfl⟩
      · rw [((hsource _).resumed hresume).2 hne]
        exact ⟨fun he _ => he, fun he => he (by rwa [← ((hsource _).resumed hresume).2 hne])⟩
      · obtain rfl := Option.some.inj (hg.symm.trans (hsame.1.trans hstart))
        exact iff_of_true rfl fun hne => absurd hempty hne
    · simp only [hsame, if_false, false_implies, iff_true]
      exact h
  · refine iff_of_true ?_ fun ht => absurd ht htrue
    split
    · rename_i hended _ _
      exact absurd hended htrue
    · exact h

/-- **A resume commits the right file**, in every state of a run, exactly when no successful call on an unmodified
file resumes a manifest made from a file with other chunk hashes. -/
theorem resume_commits_right_iff (sha256 : Bytes → String) (calls : List UploadCall) :
    Always (stepClient sha256) (CommitsRight sha256) .init calls ↔
      EachStep (stepClient sha256) (ResumesSource sha256) .init calls := by
  refine always_iff_eachStep (J := fun s => ∀ name, FromSource sha256 (s.files name) (s.source name)) (A := fun _ _ => True)
    (fun s c s' hsource _ hstep name => ?_) (fun s c s' hsource h _ hstep => commitsRight_step hsource h hstep)
    (eachStep_true calls _) ?_ ?_
  · simp only [stepClient, Option.some.injEq] at hstep
    subst hstep
    by_cases hname : name = filename c.filepath
    · subst hname
      simpa using fromSource_upload (hsource _) c.filepath c.events
    · simpa [hname] using hsource name
  · intro name m hm
    cases hm
  · intro e he
    cases he

/-- SHA-256 of the chunks `a` and `b`. -/
def sampleDigests (body : Bytes) : String :=
  if body = [98] then "3e23e8160039594a33894f6564e1b1348bbd7a0088d42c4acb73eeaed59c009d" else sampleSha256 body

/-- The chunk is uploaded to one worker that does not answer. -/
def failedUpload (file : LocalFile) : UploadEvents where
  found := some false
  seen _ := some file
  now := 100
  manifestOpens := true
  logOpens := true
  removeStale := .done
  save := .done
  init hashes := some (hashes.map fun h => ⟨h, [⟨"localhost", 9081⟩]⟩)
  transfer := ⟨1, fun _ _ => false, [], fun _ => .done, true⟩
  commit _ _ := true
  removeDone := .done

/-- The master has every chunk. -/
def knownUpload (file : LocalFile) : UploadEvents := { failedUpload file with init := fun _ => some [] }

/-- Two files of one byte with one name and one time, in two directories. -/
def sameBaseName : List UploadCall :=
  [⟨"/home/ann/a", failedUpload ⟨[97], 5⟩⟩, ⟨"/tmp/a", knownUpload ⟨[98], 5⟩⟩]

/-- The second call succeeds, and has committed the first file. -/
theorem sameBaseName_commits : ¬ ∀ calls, Always (stepClient sampleDigests) (CommitsRight sampleDigests) .init calls := by
  intro hall
  have hfacts : (exec (stepClient sampleDigests) .init sameBaseName).any (fun s =>
      s.commits == [([sampleHash], [98])]) = true := by decide +kernel
  obtain ⟨s, hrun, hs⟩ := (Option.any_eq_true ..).1 hfacts
  have hright := always_iff_prefix.1 (hall sameBaseName) _ s (List.prefix_refl _) hrun
  have hone := hright ([sampleHash], [98]) (by rw [beq_iff_eq.1 hs]; exact List.mem_singleton_self _)
  exact absurd hone (by decide +kernel)

end StorageEngine
