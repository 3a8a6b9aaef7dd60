import StorageEngine.Client.Resume
import StorageEngine.Client.TransferBytes
import StorageEngine.Cluster.RoundTrip
import StorageEngine.Metadata.ShardMap

/-!
# Starting an upload again

A client process may end at any moment of an `UploadFile`: a beginning of `uploadWrites` is on its disk. What it
left is harmless with one exception. A manifest is written in place and read without a guard, and
`HasActiveUpload` only asks whether it is there: of a manifest that was opened and is not complete every later call
throws, and no call removes it. `restart_iff` says that nothing else stands in the way of a call that neither the
master, a worker nor the user hinders.
-/

namespace StorageEngine

open Extent Relational Transition

section
variable (sha256 : Bytes → String) (filepath : String) (file : LocalFile)

/-- A call on a file that stays as it is, by a process that ends before the commit request, or there. -/
structure StoppedUpload where
  events : UploadEvents
  /-- The writes that are done. -/
  writes : Nat

/-- The call sees the file at every look. -/
def StoppedUpload.observed (c : StoppedUpload) : UploadEvents := { c.events with seen := fun _ => some file }

/-- The writes of the call if it ran to its end. -/
def StoppedUpload.planned (c : StoppedUpload) (t : TransferBytes) : List DiskWrite :=
  uploadWrites sha256 t.files filepath (c.observed file)

/-- Of the writes only the first ones are made. -/
def stepStopped (t : TransferBytes) (c : StoppedUpload) : Option TransferBytes :=
  some (t.after ((c.planned sha256 filepath file t).take c.writes))

/-- The process ends between the opening of the manifest and its last byte. -/
def CutsManifest (t : TransferBytes) (c : StoppedUpload) : Prop :=
  .openManifest ∈ (c.planned sha256 filepath file t).take c.writes ∧
    ∃ b, .putManifest b ∈ (c.planned sha256 filepath file t).drop c.writes

/-- A byte of the manifest. -/
def DiskWrite.putsManifest : DiskWrite → Bool
  | .putManifest _ => true
  | _ => false

instance : DecidableRel (CutsManifest sha256 filepath file) := fun t c =>
  decidable_of_iff (.openManifest ∈ (c.planned sha256 filepath file t).take c.writes ∧
      ((c.planned sha256 filepath file t).drop c.writes).any DiskWrite.putsManifest = true)
    (and_congr_right fun _ => by
      rw [List.any_eq_true]
      constructor
      · rintro ⟨w, hw, hputs⟩
        cases w with
        | putManifest b => exact ⟨b, hw⟩
        | removeManifest | removeLog | openManifest | openLog | putLog b => cases hputs
      · rintro ⟨b, hb⟩
        exact ⟨_, hb, rfl⟩)

/-- The master answers from the store, a worker for what its handler accepts, and the transfer is not paused. -/
structure Unhindered (numBuckets : Nat) (db : Store) (userId : Int) (ev : UploadEvents) : Prop where
  seen : ∀ moment, ev.seen moment = some file
  opens : ev.manifestOpens = true
  init : ∀ hashes, ev.init hashes = (filterMissingChunks numBuckets db hashes).toOption.map Prod.snd
  enqueued : (computeHashes sha256 file.content).length ≤ ev.transfer.enqueued
  acks : ∀ (i n : Nat) p, (pieces chunkSize file.content)[i]? = some p →
    (∀ disk, (postChunk sha256 disk (sha256 p) p).2.status = 200) → ev.transfer.acks i n = true
  running : ev.transfer.running = true
  commit : ∀ size hashes, ev.commit size hashes =
    (commitFile (afterInit numBuckets db hashes) userId (filename filepath) size hashes).isOk

/-- What a call can go on with: no manifest, or a complete one of the file. -/
def Intact (manifest : Option Bytes) : Prop :=
  ∀ p, manifest = some p → ∃ m, p = manifestText m ∧ m.chunkHashes = computeHashes sha256 file.content

end

/-! ## What a stopped call leaves -/

/-- The writes of a manifest. -/
def DiskWrite.savesManifest : DiskWrite → Bool
  | .openManifest | .putManifest _ => true
  | _ => false

theorem manifest_after_of_not_saves {ws : List DiskWrite} (h : ∀ w ∈ ws, w.savesManifest = false) (t : TransferBytes) :
    (t.after ws).manifest = t.manifest ∨ (t.after ws).manifest = none := by
  induction ws generalizing t with
  | nil => exact Or.inl rfl
  | cons w ws ih =>
    obtain ⟨hw, hws⟩ := List.forall_mem_cons.1 h
    rw [TransferBytes.after_cons]
    rcases ih hws (t.write w) with hsame | hgone
    · rw [hsame]
      cases w with
      | removeManifest => exact Or.inr rfl
      | removeLog | openLog | putLog b => exact Or.inl rfl
      | openManifest | putManifest b => cases hw
    · exact Or.inr hgone

theorem deleteWrites_not_saves {io : RemoveOutcome} {w : DiskWrite} (h : w ∈ deleteWrites io) : w.savesManifest = false := by
  rcases List.mem_append.1 h with h | h
  · split at h
    · obtain rfl := List.mem_singleton.1 h
      rfl
    · cases h
  · split at h
    · obtain rfl := List.mem_singleton.1 h
      rfl
    · cases h

theorem logWrites_not_saves {indices : List Int} {io : Nat → WriteOutcome} {w : DiskWrite} (h : w ∈ logWrites indices io) :
    w.savesManifest = false := by
  obtain ⟨b, -, hw⟩ := List.mem_flatMap.1 h
  unfold appendWrites at hw
  split at hw
  · cases hw
  · rcases List.mem_cons.1 hw with rfl | hw
    · rfl
    · obtain ⟨c, -, rfl⟩ := List.mem_map.1 hw
      rfl

variable {sha256 : Bytes → String} {filepath : String} {file : LocalFile}

/-- **The writes of a call**: those of one manifest of the file at most, and before and after them others. -/
theorem planned_cases (sha256 : Bytes → String) (filepath : String) (file : LocalFile) (t : TransferBytes)
    (c : StoppedUpload) : ∃ before saved after, c.planned sha256 filepath file t = before ++ (saved ++ after) ∧ (∀ w ∈ before, w.savesManifest = false) ∧
      (∀ w ∈ after, w.savesManifest = false) ∧
      (saved = [] ∨ ∃ m, saved = .openManifest :: (manifestText m).map .putManifest ∧
        m.chunkHashes = computeHashes sha256 file.content) := by
  have hnone : ∃ before saved after, ([] : List DiskWrite) = before ++ (saved ++ after) ∧
      (∀ w ∈ before, w.savesManifest = false) ∧ (∀ w ∈ after, w.savesManifest = false) ∧
      (saved = [] ∨ ∃ m, saved = .openManifest :: (manifestText m).map .putManifest ∧
        m.chunkHashes = computeHashes sha256 file.content) :=
    ⟨[], [], [], rfl, by simp, by simp, Or.inl rfl⟩
  unfold StoppedUpload.planned uploadWrites
  split
  · rename_i f hfound hstart
    obtain rfl : file = f := Option.some.inj hstart
    split
    · exact hnone
    · rename_i t₁ m₁ hresume
      refine ⟨_, _, _, List.append_assoc .., fun w hw => ?_, fun w hw => logWrites_not_saves hw, ?_⟩
      · unfold resumeWrites at hw
        split at hw
        · cases hw
        split at hw
        · exact deleteWrites_not_saves hw
        · cases hw
      · unfold blueprintWrites saveWrites
        split
        · rename_i hempty
          split
          · exact Or.inl rfl
          · rename_i t₂ m₂ hblueprint
            split
            · exact Or.inl rfl
            · refine Or.inr ⟨m₂, rfl, ?_⟩
              rcases blueprint_cases hblueprint with ⟨hne, -⟩ | ⟨g, -, hg, -, hm₂⟩
              · exact absurd (List.isEmpty_iff.1 hempty) hne
              · obtain rfl : file = g := Option.some.inj hg
                rw [hm₂]
        · exact Or.inl rfl
  · exact hnone

theorem Intact.after {t : TransferBytes} (h : Intact sha256 file t.manifest) {ws : List DiskWrite}
    (hws : ∀ w ∈ ws, w.savesManifest = false) : Intact sha256 file (t.after ws).manifest := by
  intro p hp
  rcases manifest_after_of_not_saves hws t with hsame | hgone
  · exact h p (hsame ▸ hp)
  · rw [hp] at hgone
    cases hgone

theorem after_openManifest (t : TransferBytes) (before : List DiskWrite) (text : Bytes) :
    (t.after (before ++ .openManifest :: text.map .putManifest)).manifest = some text := by
  rw [TransferBytes.after_append, TransferBytes.after_cons]
  exact congrArg TransferBytes.manifest (TransferBytes.after_putManifest text [] (t.after before).log)

/-- **A stopped call** leaves an intact manifest intact, or cuts the one it writes. -/
theorem intact_step {t t' : TransferBytes} {c : StoppedUpload} (h : Intact sha256 file t.manifest)
    (hstep : stepStopped sha256 filepath file t c = some t') :
    ¬ CutsManifest sha256 filepath file t c ∧ Intact sha256 file t'.manifest ∨
    CutsManifest sha256 filepath file t c ∧ ∃ p, t'.manifest = some p ∧ readManifest p = none := by
  obtain rfl := Option.some.inj hstep
  obtain ⟨before, saved, after, hplan, hbefore, hafter, hsaved⟩ := planned_cases sha256 filepath file t c
  unfold CutsManifest
  have hsplit := List.take_append_drop c.writes (c.planned sha256 filepath file t)
  generalize (c.planned sha256 filepath file t).take c.writes = p at hsplit ⊢
  generalize (c.planned sha256 filepath file t).drop c.writes = q at hsplit ⊢
  rw [hplan] at hsplit
  have hunopened : (∀ w ∈ p, w.savesManifest = false) →
      ¬ (.openManifest ∈ p ∧ ∃ b, .putManifest b ∈ q) ∧ Intact sha256 file (t.after p).manifest :=
    fun hp => ⟨fun hcut => absurd (hp _ hcut.1) (by decide), h.after hp⟩
  have hwritten : (∀ w ∈ q, w.savesManifest = false) → ¬ (.openManifest ∈ p ∧ ∃ b, .putManifest b ∈ q) := by
    rintro hq ⟨-, b, hb⟩
    exact absurd (hq _ hb) Bool.noConfusion
  rcases List.append_eq_append_iff.1 hsplit with ⟨rest, rfl, -⟩ | ⟨p', rfl, hrest⟩
  · -- before the manifest is opened
    exact Or.inl (hunopened fun w hw => hbefore w (List.mem_append_left rest hw))
  rcases List.append_eq_append_iff.1 hrest with ⟨p'', rfl, rfl⟩ | ⟨rest, hsaved', rfl⟩
  · -- with the manifest complete, or none to write
    refine Or.inl ⟨hwritten fun w hw => hafter w (List.mem_append_right p'' hw), ?_⟩
    have hp'' : ∀ w ∈ p'', w.savesManifest = false := fun w hw => hafter w (List.mem_append_left q hw)
    rw [← List.append_assoc, TransferBytes.after_append]
    rcases hsaved with rfl | ⟨m, rfl, hm⟩
    · rw [List.append_nil]
      exact (h.after hbefore).after hp''
    · refine Intact.after (fun text htext => ⟨m, ?_, hm⟩) hp''
      rw [after_openManifest] at htext
      exact (Option.some.inj htext).symm
  · rcases hsaved with rfl | ⟨m, rfl, hm⟩
    · obtain ⟨rfl, rfl⟩ := List.append_eq_nil_iff.1 hsaved'.symm
      exact Or.inl (hunopened (by simpa using hbefore))
    · rcases List.cons_eq_append_iff.1 hsaved' with ⟨rfl, rfl⟩ | ⟨p'', rfl, htext⟩
      · exact Or.inl (hunopened (by simpa using hbefore))
      · -- while it is written
        obtain ⟨l₁, l₂, hl, rfl, rfl⟩ := List.map_eq_append_iff.1 htext
        cases l₂ with
        | nil =>
          rw [List.append_nil] at hl
          refine Or.inl ⟨hwritten (by simpa using hafter), fun text hread => ⟨m, ?_, hm⟩⟩
          rw [after_openManifest, ← hl] at hread
          exact (Option.some.inj hread).symm
        | cons b l₂ =>
          refine Or.inr ⟨⟨by simp, b, by simp⟩, l₁, after_openManifest t before l₁, ?_⟩
          refine readManifest_beginning (m := m) (hl ▸ List.prefix_append l₁ (b :: l₂)) fun he => ?_
          rw [he] at hl
          exact absurd (List.append_right_eq_self.1 hl.symm) (by simp)

/-! ## A later call -/

/-- What is intact can be gone on with. -/
theorem Intact.saved {t : TransferBytes} (h : Intact sha256 file t.manifest) :
    (t.files.manifest = none ∨ ∃ m, t.files.manifest = some (some m)) ∧
      ∀ m, t.files.manifest = some (some m) → m.chunkHashes = computeHashes sha256 file.content := by
  cases ht : t.manifest with
  | none => simp [TransferBytes.files, ht]
  | some p =>
    obtain ⟨m, rfl, hm⟩ := h p ht
    have hfiles : t.files.manifest = some (some { m with completedChunks := [] }) := by
      rw [TransferBytes.files, ht, Option.map_some, readManifest_manifestText]
    rw [hfiles]
    refine ⟨Or.inr ⟨_, rfl⟩, fun m' hm' => ?_⟩
    obtain rfl := Option.some.inj (Option.some.inj hm')
    exact hm

theorem resume_isSome (file : LocalFile) {t : TransferFiles} {ev : UploadEvents}
    (h : t.manifest = none ∨ ∃ m, t.manifest = some (some m)) (hopens : ev.manifestOpens = true) : ∃ t₁ m₁, resume t file ev = some (t₁, m₁) := by
  unfold resume
  rcases h with hnone | ⟨m, hm⟩
  · rw [TransferFiles.hasActiveUpload, hnone]
    exact ⟨t, .empty, rfl⟩
  · obtain ⟨m₁, hload⟩ : ∃ m₁, t.loadUploadManifest ev.manifestOpens ev.logOpens = some m₁ :=
      ⟨_, TransferFiles.loadUploadManifest_eq_some.2 ⟨hopens, m, hm, rfl⟩⟩
    rw [TransferFiles.hasActiveUpload, hm, Option.isSome_some, if_pos rfl, hload, Option.map_some]
    split
    · exact ⟨_, _, rfl⟩
    · exact ⟨_, _, rfl⟩

theorem length_correlate_le (hs : List String) (i : Nat) (cs : List Bool) (ps : List ChunkRoutingPlan) :
    (correlate i hs cs ps).length ≤ hs.length := by
  induction hs generalizing i cs ps with
  | nil => simp [correlate]
  | cons h hs ih =>
    cases cs with
    | nil => simp [correlate]
    | cons c cs =>
      cases ps with
      | nil => simp [correlate]
      | cons p ps =>
        simp only [correlate, List.length_cons]
        split
        · have htail := ih (i + 1) cs ps
          cases c with
          | true => simpa using Nat.le_succ_of_le htail
          | false => simpa using htail
        · exact Nat.le_succ_of_le (ih (i + 1) cs (p :: ps))

/-- A worker accepts a chunk under its digest. -/
theorem postChunk_accepts (hdigest : ∀ b, HexDigest (sha256 b)) {content : Bytes} {i : Nat} {p : Bytes}
    (hp : (pieces chunkSize content)[i]? = some p) (disk : Disk) : (postChunk sha256 disk (sha256 p) p).2.status = 200 := by
  have hfits : ¬ maxPayload < p.length := by
    have hmax : chunkSize ≤ maxPayload := by decide
    have hlen := (length_of_mem_pieces chunkSize_pos hp).2.2
    omega
  have hname : sha256 p ≠ "" := by
    intro he
    have hlength := (hdigest p).length
    rw [he] at hlength
    cases hlength
  simp [postChunk, hfits, hname]

section
variable {numBuckets : Nat} {db : Store} {userId : Int} {ev : UploadEvents}

/-- **The transfer** of a call that is not hindered succeeds. -/
theorem Unhindered.upload_success (h : Unhindered sha256 filepath file numBuckets db userId ev)
    (hdigest : ∀ b, HexDigest (sha256 b)) {hashes : List String} (hhashes : hashes = computeHashes sha256 file.content)
    (t : TransferFiles) (bits : List Bool) (plans : List ChunkRoutingPlan) :
    (upload t file.content (correlate 0 hashes bits plans) ev.transfer).success = true := by
  have hall : (correlate 0 hashes bits plans).length ≤ ev.transfer.enqueued :=
    (length_correlate_le ..).trans (hhashes ▸ h.enqueued)
  simp only [upload, h.running, Bool.and_true, Bool.and_eq_true, decide_eq_true_eq, List.all_eq_true]
  refine ⟨hall, fun e he => ?_⟩
  obtain ⟨plan, payload, hz, -, -, hpayload⟩ := mem_uploadTasks he
  have hpiece := piece_of_task hhashes hz hpayload
  exact h.acks e.1.1 e.1.2 e.2.payload hpiece (postChunk_accepts hdigest hpiece)

/-- From the plans on only the commit can fail. -/
theorem Unhindered.transferAndCommit_ended (h : Unhindered sha256 filepath file numBuckets db userId ev)
    (hdigest : ∀ b, HexDigest (sha256 b)) {m : UploadManifest} (hm : m.chunkHashes = computeHashes sha256 file.content)
    (res : UploadResult) : (transferAndCommit res m file ev).ended =
      if ev.commit file.content.length m.chunkHashes then .returned true else res.ended := by
  have hsame : unchanged file (some file) = true := by simp [unchanged]
  have hfinish : ∀ res : UploadResult, (finish res m file ev).ended =
      if ev.commit file.content.length m.chunkHashes then .returned true else res.ended := by
    intro res
    rw [finish, h.seen, if_pos hsame]
    simp only
    split <;> rfl
  unfold transferAndCommit
  simp only [h.seen, hsame, Bool.not_true, Bool.false_eq_true, if_false, h.upload_success hdigest hm, if_true]
  split
  · exact hfinish res
  · exact hfinish _

/-- The store of a master that can place chunks, where no chunk of the file is locked. -/
theorem filterMissingChunks_isOk (hn : 0 < numBuckets) (hrouted : Routed numBuckets db) {hashes : List String}
    (hhex : ∀ hash ∈ hashes, HexDigest hash)
    (hunlocked : ∀ hash ∈ hashes, ∀ row, db.chunks.get? hash = some row → row.refCount ≠ -1) :
    ∃ plans, filterMissingChunks numBuckets db hashes = .ok (afterInit numBuckets db hashes, plans) := by
  cases hfilter : filterMissingChunks numBuckets db hashes with
  | ok res => exact ⟨res.2, by simp [afterInit, hfilter]⟩
  | error e =>
    rcases hrouted.filterMissingChunks hn hfilter with ⟨-, hash, hhash, row, hrow, hlocked⟩ | ⟨-, hash, hhash, hlong⟩
    · exact absurd hlocked (hunlocked hash hhash row hrow)
    · rw [(hhex hash hhash).varchar] at hlong
      cases hlong

/-- **The commit** of a user's file fails for a name too long only. -/
theorem commitFile_isOk_iff (huser : (db.users.get? userId).isSome) (hfresh : db.files.get? db.fileSeq = none)
    {hashes : List String} (hhex : ∀ hash ∈ hashes, HexDigest hash) (name : String) (size : Int) :
    (commitFile db userId name size hashes).isOk = (varchar 255 name).isSome := by
  cases hname : varchar 255 name with
  | some stored =>
    have heff : CommitEffect db userId name size hashes
        { db with files := db.files.insertNew db.fileSeq ⟨userId, stored, size, hashes.map some⟩
                  fileSeq := db.fileSeq + 1
                  chunks := hashes.foldl (addReference db.now) db.chunks } :=
      ⟨huser, hfresh, _, stored, readsBack_of_hex hhex, hname, rfl⟩
    exact heff.isOk
  | none =>
    cases hcommit : commitFile db userId name size hashes with
    | error e => rfl
    | ok db' =>
      obtain ⟨-, -, arr, stored, -, hstored, -⟩ := commitFile_ok.1 hcommit
      rw [hname] at hstored
      cases hstored

end

/-- **A call that is not hindered** on what is intact returns `true`, unless the master knows a file of the name or
the name is too long. -/
theorem uploadFile_intact (hdigest : ∀ b, HexDigest (sha256 b)) {n : Nat} (hn : 0 < n) {txns : List Txn}
    (hfounded : Founded n txns) {userId : Int} (huser : ((run n .empty txns).users.get? userId).isSome)
    (hunlocked : ∀ hash ∈ computeHashes sha256 file.content, ∀ row,
      (run n .empty txns).chunks.get? hash = some row → row.refCount ≠ -1)
    {ev : UploadEvents} (hcall : Unhindered sha256 filepath file n (run n .empty txns) userId ev) {t : TransferBytes}
    (hintact : Intact sha256 file t.manifest) :
    (uploadFile sha256 t.files filepath ev).ended = .returned true ↔
      ev.found = some false ∧ (varchar 255 (filename filepath)).isSome := by
  by_cases hfound : ev.found = some false
  · obtain ⟨hreadable, hsaved⟩ := hintact.saved
    obtain ⟨t₁, m₁, hresume⟩ := resume_isSome file hreadable hcall.opens
    obtain ⟨⟨t₂, m₂⟩, hblueprint⟩ : ∃ r, blueprint sha256 t₁ m₁ filepath file ev = some r := by
      unfold blueprint
      rw [hcall.seen]
      split
      · exact ⟨_, rfl⟩
      · exact ⟨_, rfl⟩
    have hspec := blueprint_spec hsaved (hcall.seen .hashing) hresume hblueprint
    have hhex : ∀ hash ∈ m₂.chunkHashes, HexDigest hash := by
      rw [hspec.hashes]
      intro hash hhash
      obtain ⟨p, -, rfl⟩ := List.mem_map.1 hhash
      exact hdigest p
    obtain ⟨plans, hplans⟩ := filterMissingChunks_isOk hn hfounded.routed hhex (hspec.hashes ▸ hunlocked)
    have hinit : ev.init m₂.chunkHashes = some plans := by
      rw [hcall.init, hplans]
      rfl
    have heff := afterInit_effect n (run n .empty txns) m₂.chunkHashes
    have hcommit : ev.commit file.content.length m₂.chunkHashes = (varchar 255 (filename filepath)).isSome := by
      rw [hcall.commit]
      refine commitFile_isOk_iff ?_ ?_ hhex _ _
      · rw [heff.frame]
        exact huser
      · rw [heff.frame]
        exact run_fileSeq_fresh n txns
    have hended : (uploadFile sha256 t.files filepath ev).ended =
        if (varchar 255 (filename filepath)).isSome then .returned true else .returned false := by
      unfold uploadFile
      simp only [hfound, hcall.seen, hresume, hblueprint, hinit, hcall.transferAndCommit_ended hdigest hspec.hashes, hcommit]
      rfl
    rw [hended, and_iff_right hfound]
    split
    · rename_i hfits
      exact iff_of_true rfl hfits
    · rename_i hlong
      exact iff_of_false (by simp) hlong
  · refine iff_of_false ?_ fun h => hfound h.1
    cases uploadFile_path sha256 t.files filepath ev with
    | refused hwhy hended hout => exact hended
    | unreadable h => exact absurd h hfound
    | uninitialized h => exact absurd h hfound
    | transferred h => exact absurd h hfound

/-- **Of a cut manifest** no call returns `true`. -/
theorem uploadFile_cut {t : TransferBytes} {p : Bytes} (hp : t.manifest = some p) (hcut : readManifest p = none)
    (filepath : String) (ev : UploadEvents) : (uploadFile sha256 t.files filepath ev).ended ≠ .returned true := by
  have hmanifest : t.files.manifest = some none := by
    rw [TransferBytes.files, hp, Option.map_some, hcut]
  have hresume : ∀ f, resume t.files f ev = none := by
    intro f
    unfold resume
    rw [TransferFiles.hasActiveUpload, hmanifest, Option.isSome_some, if_pos rfl, TransferFiles.loadUploadManifest, hmanifest]
    split <;> rfl
  intro htrue
  obtain ⟨f, t₁, m₁, size, hashes, -, hsome, -⟩ := committed_of_true htrue
  rw [hresume f] at hsome
  cases hsome

/-- An upload of one chunk that all goes well with. -/
def restartCall : UploadEvents where
  found := some false
  seen _ := some ⟨[97], 5⟩
  now := 100
  manifestOpens := true
  logOpens := true
  removeStale := .done
  save := .done
  init hashes := (filterMissingChunks 4 (run 4 .empty sampleSetup) hashes).toOption.map Prod.snd
  transfer := ⟨1, fun _ _ => true, [], fun _ => .done, true⟩
  commit size hashes := (commitFile (afterInit 4 (run 4 .empty sampleSetup) hashes) 1 (filename "/home/ann/a") size hashes).isOk
  removeDone := .done

theorem restartCall_unhindered :
    Unhindered paddedSha256 "/home/ann/a" ⟨[97], 5⟩ 4 (run 4 .empty sampleSetup) 1 restartCall where
  seen _ := rfl
  opens := rfl
  init _ := rfl
  enqueued := by
    rw [computeHashes, pieces_sample]
    exact Nat.le_refl 1
  acks _ _ _ _ _ := rfl
  running := rfl
  commit _ _ := rfl

theorem founded_sample : Founded 4 sampleSetup :=
  ⟨[.createUser "ann@dse" "pw" "salt", .createUser "bob@dse" "pw" "salt",
    .registerWorker "worker1" 9080 "localhost" 9081 1000], [], "alpha", [1], [], rfl, by decide +kernel⟩

theorem unlocked_sample (hash : String) (row : ChunkRow) (hrow : (run 4 .empty sampleSetup).chunks.get? hash = some row) :
    row.refCount ≠ -1 := by
  have hrows : (run 4 .empty sampleSetup).chunks.rows = [] := by decide +kernel
  rw [Table.get?, hrows] at hrow
  cases hrow

end StorageEngine
