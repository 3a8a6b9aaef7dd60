import StorageEngine.Client.Upload
import StorageEngine.Lib.Transition

/-!
# Which replicas a resumed upload reaches

Attempts at one file whose hashes have fixed nodes, on a local disk that works. `acked` is what the log does not
say: the nodes that acknowledged a chunk since the manifest was made. An index is logged as soon as one node has the
chunk (`ParallelTransferManager.cpp:144-152`) and is not sent again, so a node that gave up in one attempt is passed
over in the next. Where the nodes of a chunk answer alike, every attempt that returns `true` leaves each chunk it
was asked for on all its nodes (`replicated`).
-/

namespace StorageEngine

open Transition

/-- What an attempt at an upload meets, besides the file and its nodes. -/
structure UploadAttempt where
  found : Option Bool
  now : Int
  /-- The positions the master reports missing; `none` where `InitializeUpload` throws. -/
  missing : Option (Nat → Bool)
  transfer : TransferEvents
  commit : Bool

/-- The plans of the missing hashes, in the order of the list. -/
def missingPlans (assigned : String → List NodeInfo) (missing : Nat → Bool) (hashes : List String) :
    List ChunkRoutingPlan :=
  (hashes.zipIdx.filter fun e => missing e.2).map fun e => ⟨e.1, assigned e.1⟩

/-- The plans of what is missing name the assigned nodes; the files of the state open and are written. -/
def UploadAttempt.events (file : LocalFile) (assigned : String → List NodeInfo) (a : UploadAttempt) : UploadEvents where
  found := a.found
  seen _ := some file
  now := a.now
  manifestOpens := true
  logOpens := true
  removeStale := .done
  save := .done
  init hashes := a.missing.map fun missing => missingPlans assigned missing hashes
  transfer := { a.transfer with io := fun _ => .done }
  commit _ _ := a.commit
  removeDone := .done

/-- The transfer state on the client's disk, and what the attempts so far have come to. -/
structure ReplicaState where
  transfers : TransferFiles
  /-- Who acknowledged what in this session. -/
  acked : List (NodeInfo × String)
  /-- Of the last attempt, where it returned `true`: the plans of what was missing. -/
  reported : Option (List ChunkRoutingPlan)

/-- No transfer state. -/
def ReplicaState.init : ReplicaState := ⟨.none, [], none⟩

/-- The attempt computes the list anew. -/
def startsSession (t : TransferFiles) (file : LocalFile) (ev : UploadEvents) : Bool :=
  ev.found = some false && (resume t file ev).any fun r => r.2.chunkHashes.isEmpty

section
variable (sha256 : Bytes → String) (filepath : String) (file : LocalFile) (assigned : String → List NodeInfo)

/-- A session that starts anew forgets who acknowledged before. -/
def stepReplica (s : ReplicaState) (a : UploadAttempt) : Option ReplicaState :=
  let ev := a.events file assigned
  let res := uploadFile sha256 s.transfers filepath ev
  some ⟨res.transfers,
    (if startsSession s.transfers file ev then [] else s.acked) ++ res.acked.map (fun e => (e.2.node, e.2.hash)),
    if res.ended = .returned true then some res.missing else none⟩

end

/-- Every node of every chunk that was missing has acknowledged it. -/
def Replicated (s : ReplicaState) : Prop :=
  ∀ plans ∈ s.reported, ∀ plan ∈ plans, ∀ node ∈ plan.assignedNodes, (node, plan.hash) ∈ s.acked

/-- The nodes of a chunk all acknowledge it, or none does. -/
def AnswerAlike (sha256 : Bytes → String) (file : LocalFile) (assigned : String → List NodeInfo) (_ : ReplicaState)
    (a : UploadAttempt) : Prop :=
  ∀ e ∈ (computeHashes sha256 file.content).zipIdx, ∀ n < (assigned e.1).length, ∀ n' < (assigned e.1).length,
    a.transfer.acks e.2 n = a.transfer.acks e.2 n'

instance (sha256 : Bytes → String) (file : LocalFile) (assigned : String → List NodeInfo) (s : ReplicaState)
    (a : UploadAttempt) : Decidable (AnswerAlike sha256 file assigned s a) :=
  inferInstanceAs (Decidable (∀ e ∈ (computeHashes sha256 file.content).zipIdx, ∀ n < (assigned e.1).length,
    ∀ n' < (assigned e.1).length, a.transfer.acks e.2 n = a.transfer.acks e.2 n'))

/-! ## What the log stands for -/

variable {sha256 : Bytes → String} {filepath : String} {file : LocalFile} {assigned : String → List NodeInfo}

/-- Every logged index is that of a chunk all of whose nodes have acknowledged it. -/
def LogReplicated (sha256 : Bytes → String) (file : LocalFile) (assigned : String → List NodeInfo) (t : TransferFiles)
    (acked : List (NodeInfo × String)) : Prop :=
  ∀ (k : Nat) (h : String), (k : Int) ∈ t.log.getD [] → (computeHashes sha256 file.content)[k]? = some h →
    ∀ node ∈ assigned h, (node, h) ∈ acked

/-- The manifest is that of the file, and without one there is no log. -/
structure SessionOf (sha256 : Bytes → String) (file : LocalFile) (assigned : String → List NodeInfo)
    (t : TransferFiles) (acked : List (NodeInfo × String)) : Prop where
  hashes : ∀ m, t.manifest = some (some m) → m.chunkHashes = computeHashes sha256 file.content
  noLog : t.manifest = none → t.log = none
  logged : LogReplicated sha256 file assigned t acked

theorem missingPlans_sublist (assigned : String → List NodeInfo) (missing : Nat → Bool) (hashes : List String) :
    ((missingPlans assigned missing hashes).map ChunkRoutingPlan.hash).Sublist hashes := by
  have hmap : (missingPlans assigned missing hashes).map ChunkRoutingPlan.hash =
      (hashes.zipIdx.filter fun e => missing e.2).map Prod.fst := by
    simp [missingPlans]
  rw [hmap]
  have hsub : (hashes.zipIdx.filter fun e => missing e.2).Sublist hashes.zipIdx := List.filter_sublist
  simpa using hsub.map Prod.fst

theorem assignedNodes_of_missing {missing : Nat → Bool} {hashes : List String} {plan : ChunkRoutingPlan}
    (h : plan ∈ missingPlans assigned missing hashes) : plan.assignedNodes = assigned plan.hash := by
  obtain ⟨e, -, rfl⟩ := List.mem_map.1 h
  rfl

/-- **Before the master is asked**: a resumed manifest comes with its log, a new one without. -/
theorem SessionOf.prepared {t t₁ t₂ : TransferFiles} {m₁ m₂ : UploadManifest} {acked : List (NodeInfo × String)}
    {a : UploadAttempt} (h : SessionOf sha256 file assigned t acked) (hfound : a.found = some false)
    (hresume : resume t file (a.events file assigned) = some (t₁, m₁))
    (hblueprint : blueprint sha256 t₁ m₁ filepath file (a.events file assigned) = some (t₂, m₂)) :
    SessionOf sha256 file assigned t₂ (if startsSession t file (a.events file assigned) then [] else acked) ∧
      t₂.manifest ≠ none := by
  have hspec := blueprint_spec h.hashes rfl hresume hblueprint
  have hstarts : startsSession t file (a.events file assigned) = m₁.chunkHashes.isEmpty := by
    unfold startsSession
    rw [hresume]
    simp [UploadAttempt.events, hfound]
  rw [hstarts]
  rcases blueprint_cases hblueprint with ⟨hne, rfl, rfl⟩ | ⟨g, hempty, -, rfl, -⟩
  · rw [if_neg (by simpa using hne)]
    rcases resume_cases hresume with ⟨rfl, -⟩ | ⟨rfl, hload, -⟩
    · exact absurd rfl hne
    · obtain ⟨-, m₀, hm₀, -⟩ := TransferFiles.loadUploadManifest_eq_some.1 hload
      exact ⟨h, by simp [hm₀]⟩
  · have hsaved : (t₁.saveUploadManifest m₂ (a.events file assigned).save).manifest ≠ none := by
      simp [TransferFiles.saveUploadManifest, UploadAttempt.events]
    have hnew : t₁.log = none ∨ computeHashes sha256 file.content = [] := by
      rcases resume_cases hresume with ⟨rfl, ⟨rfl, hnone⟩ | rfl⟩ | ⟨rfl, hload, -⟩
      · exact Or.inl (h.noLog hnone)
      · exact Or.inl rfl
      · obtain ⟨-, m₀, hm₀, rfl⟩ := TransferFiles.loadUploadManifest_eq_some.1 hload
        exact Or.inr ((h.hashes m₀ hm₀).symm.trans hempty)
    rw [if_pos (by simpa using hempty)]
    refine ⟨⟨hspec.saved, fun hnone => absurd hnone hsaved, fun k hash hk hhash => ?_⟩, hsaved⟩
    rcases hnew with hlog | hnil
    · simp [TransferFiles.saveUploadManifest, UploadAttempt.events, hlog] at hk
    · simp [hnil] at hhash

/-! ## One attempt -/

/-- What is acknowledged in addition does no harm. -/
theorem SessionOf.mono {t : TransferFiles} {acked acked' : List (NodeInfo × String)}
    (h : SessionOf sha256 file assigned t acked) (hsub : acked ⊆ acked') : SessionOf sha256 file assigned t acked' :=
  ⟨h.hashes, h.noLog, fun k hash hk hh node hnode => hsub (h.logged k hash hk hh node hnode)⟩

variable {t₀ t : TransferFiles} {m : UploadManifest} {acked : List (NodeInfo × String)} {missing : Nat → Bool}
  {a : UploadAttempt} {s : ReplicaState} {up : TransferResult} {out : UploadResult}

/-- **The transfer**: what is logged anew has been acknowledged by all its nodes. -/
theorem SessionOf.transferred (h : SessionOf sha256 file assigned t acked) (hm : Blueprint sha256 file t₀ t m)
    (halike : AnswerAlike sha256 file assigned s a)
    (hout : TransferOutcome t m (missingPlans assigned missing m.chunkHashes) file (a.events file assigned) up out) :
    LogReplicated sha256 file assigned out.transfers (acked ++ out.acked.map (fun e => (e.2.node, e.2.hash))) := by
  intro k hash hk hhash node hnode
  rcases hout.of_logged hk with hk | ⟨e, he, hek⟩
  · exact List.mem_append_left _ (h.logged k hash hk hhash node hnode)
  · refine List.mem_append_right _ ?_
    obtain ⟨hsent, hack⟩ := hout.mem_acked.1 he
    obtain ⟨plan, hmem, hplan, hget, -, hall⟩ := hout.of_sent hsent
    rw [Int.natCast_inj] at hek
    rw [hek, hm.hashes, hhash, Option.some.injEq] at hplan
    subst hplan
    rw [assignedNodes_of_missing hmem] at hget hall
    -- the other node was sent the chunk too, and answers alike
    obtain ⟨n, hn⟩ := List.mem_iff_getElem?.1 hnode
    obtain ⟨payload, htask⟩ := hall n node hn
    have hother := halike (plan.hash, e.1.1) (List.mk_mem_zipIdx_iff_getElem?.2 (hek ▸ hhash)) n
      (List.getElem?_eq_some_iff.1 hn).1 e.1.2 (List.getElem?_eq_some_iff.1 hget).1
    exact List.mem_map.2 ⟨_, hout.mem_acked.2 ⟨htask, hother.trans hack⟩, rfl⟩

/-- **After the call** the log is gone, or it has grown by chunks that all their nodes acknowledged. -/
theorem SessionOf.ended (h : SessionOf sha256 file assigned t acked) (hsaved : t.manifest ≠ none)
    (hm : Blueprint sha256 file t₀ t m) (halike : AnswerAlike sha256 file assigned s a)
    (hout : TransferOutcome t m (missingPlans assigned missing m.chunkHashes) file (a.events file assigned) up out) :
    SessionOf sha256 file assigned out.transfers (acked ++ out.acked.map (fun e => (e.2.node, e.2.hash))) := by
  refine ⟨fun m' hm' => ?_, fun hnone => ?_, h.transferred hm halike hout⟩
  · rcases hout.manifest with hsame | hgone
    · exact h.hashes m' (hsame ▸ hm')
    · rw [hm'] at hgone
      cases hgone
  · rcases hout.ended with ⟨-, htransfers, -⟩ | ⟨-, htransfers, -⟩
    · refine absurd ?_ hsaved
      rw [← hnone, htransfers]
      rcases hout.tried with rfl | ⟨g, -, rfl⟩
      · rfl
      · exact (manifest_appendBatches ..).symm
    · rw [htransfers]
      rfl

/-- **A call that returns `true`** has every missing chunk on all its nodes. -/
theorem SessionOf.returned (h : SessionOf sha256 file assigned t acked) (hm : Blueprint sha256 file t₀ t m)
    (hout : TransferOutcome t m (missingPlans assigned missing m.chunkHashes) file (a.events file assigned) up out)
    (htrue : out.ended = .returned true) :
    ∀ plan ∈ out.missing, ∀ node ∈ plan.assignedNodes,
      (node, plan.hash) ∈ acked ++ out.acked.map (fun e => (e.2.node, e.2.hash)) := by
  obtain ⟨-, -, -, -, hsuccess, -, -⟩ := hout.ended.resolve_left fun hfalse => hfalse.1 htrue
  rw [hout.missing]
  intro plan hplan node hnode
  obtain ⟨k, hk, hdone | hall⟩ := hout.of_success hsuccess hm.bits (missingPlans_sublist ..) hplan
  · rw [assignedNodes_of_missing hplan] at hnode
    exact List.mem_append_left _ (h.logged k _ (hm.marked k hdone) (hm.hashes ▸ hk) node hnode)
  · obtain ⟨e, he, rfl, hhash⟩ := hall node hnode
    exact List.mem_append_right _ (List.mem_map.2 ⟨e, he, by rw [hhash]⟩)

/-- **One attempt**: the log stays one of fully acknowledged chunks, and what the call reports is replicated. -/
theorem replicated_step {s s' : ReplicaState} {a : UploadAttempt} (h : SessionOf sha256 file assigned s.transfers s.acked)
    (halike : AnswerAlike sha256 file assigned s a) (hstep : stepReplica sha256 filepath file assigned s a = some s') :
    SessionOf sha256 file assigned s'.transfers s'.acked ∧ Replicated s' := by
  simp only [stepReplica, Option.some.injEq] at hstep
  subst hstep
  have hquiet : ∀ {plans : List ChunkRoutingPlan} {out : UploadResult}, out.ended ≠ .returned true →
      Replicated ⟨out.transfers, (if startsSession s.transfers file (a.events file assigned) then [] else s.acked) ++
        out.acked.map (fun e => (e.2.node, e.2.hash)), if out.ended = .returned true then some plans else none⟩ := by
    intro plans out hne plans' hplans'
    rw [if_neg hne] at hplans'
    cases hplans'
  cases uploadFile_path sha256 s.transfers filepath (a.events file assigned) with
  | refused hwhy hended hout =>
    refine ⟨?_, hquiet hended⟩
    have hsame : startsSession s.transfers file (a.events file assigned) = false := by
      unfold startsSession
      cases hfound : decide ((a.events file assigned).found = some false) with
      | false => rfl
      | true => simp [hwhy (of_decide_eq_true hfound) file rfl]
    rw [hsame, hout]
    simpa [UploadResult.stopped] using h
  | unreadable hfound hstart hresume hblueprint hout =>
    unfold blueprint at hblueprint
    split at hblueprint <;> cases hblueprint
  | uninitialized hfound hstart hresume hblueprint hinit hout =>
    obtain rfl := Option.some.inj hstart
    refine ⟨?_, hquiet (by simp [hout, UploadResult.stopped])⟩
    rw [hout]
    simpa [UploadResult.stopped] using (h.prepared hfound hresume hblueprint).1
  | @transferred f t₁ t₂ m₁ m₂ plans up hfound hstart hresume hblueprint hinit hout =>
    obtain rfl := Option.some.inj hstart
    obtain ⟨missing, -, rfl⟩ := Option.map_eq_some_iff.1 hinit
    have hm := blueprint_spec h.hashes rfl hresume hblueprint
    obtain ⟨hsession, hsaved⟩ := h.prepared hfound hresume hblueprint
    refine ⟨hsession.ended hsaved hm halike hout, ?_⟩
    by_cases htrue : (uploadFile sha256 s.transfers filepath (a.events file assigned)).ended = .returned true
    · intro plans hplans
      rw [if_pos htrue] at hplans
      obtain rfl := Option.some.inj hplans
      exact hsession.returned hm hout htrue
    · exact hquiet htrue

/-- **Full replication across resumed attempts**: in every run where the nodes of each chunk answer alike, an attempt
that returns `true` leaves every chunk it was asked for acknowledged by all its nodes. -/
theorem replicated (sha256 : Bytes → String) (filepath : String) (file : LocalFile) (assigned : String → List NodeInfo)
    (attempts : List UploadAttempt)
    (halike : EachStep (stepReplica sha256 filepath file assigned) (AnswerAlike sha256 file assigned) .init attempts) :
    Always (stepReplica sha256 filepath file assigned) Replicated .init attempts := by
  refine always_iff_prefix.2 fun pre s hpre hs => ?_
  obtain ⟨post, rfl⟩ := hpre
  refine (EachStep.inv (P := fun s => SessionOf sha256 file assigned s.transfers s.acked ∧ Replicated s)
    (fun s a s' hinv hc hstep => replicated_step hinv.1 hc hstep) (EachStep.append.1 halike).1 ⟨⟨?_, ?_, ?_⟩, ?_⟩ hs).2
  · rintro m ⟨⟩
  · exact fun _ => rfl
  · rintro k hash ⟨⟩
  · rintro plans ⟨⟩

/-- Two workers for the one chunk; `acks` tells which of them answer. -/
def oneChunkAttempt (acks : Nat → Bool) : UploadAttempt where
  found := some false
  now := 100
  missing := some fun _ => true
  transfer := ⟨1, fun _ n => acks n, [], fun _ => .done, true⟩
  commit := true

/-- Every chunk on two workers. -/
def bothWorkers (_ : String) : List NodeInfo := [⟨"localhost", 9081⟩, ⟨"localhost", 9082⟩]

/-- Neither worker answers, then both do. -/
theorem replicated_retry : Always (stepReplica sampleSha256 "/home/ann/a" ⟨[97], 5⟩ bothWorkers) Replicated .init
    [oneChunkAttempt fun _ => false, oneChunkAttempt fun _ => true] :=
  replicated sampleSha256 "/home/ann/a" ⟨[97], 5⟩ bothWorkers _ (by decide +kernel)

/-- The second worker gives up in the first attempt and is not asked in the second. -/
theorem oneWorker_passedOver : ¬ ∀ attempts,
    Always (stepReplica sampleSha256 "/home/ann/a" ⟨[97], 5⟩ bothWorkers) Replicated .init attempts := by
  intro hall
  have hfacts : (exec (stepReplica sampleSha256 "/home/ann/a" ⟨[97], 5⟩ bothWorkers) .init
      [oneChunkAttempt fun n => n == 0, oneChunkAttempt fun _ => true]).any (fun s =>
        s.reported == some [⟨sampleHash, bothWorkers sampleHash⟩] &&
          s.acked == [(⟨"localhost", 9081⟩, sampleHash)]) = true := by decide +kernel
  obtain ⟨s, hrun, hs⟩ := (Option.any_eq_true ..).1 hfacts
  rw [Bool.and_eq_true, beq_iff_eq, beq_iff_eq] at hs
  have hrep := always_iff_prefix.1 (hall _) _ s (List.prefix_refl _) hrun _ hs.1 _ (List.mem_singleton_self _)
    ⟨"localhost", 9082⟩ (by decide)
  rw [hs.2] at hrep
  exact absurd hrep (by decide +kernel)

end StorageEngine
