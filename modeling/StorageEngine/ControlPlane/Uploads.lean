import StorageEngine.Lib.Transition
import StorageEngine.Lib.Wire
import StorageEngine.Metadata.Spec

/-!
# Uploads over the master's HTTP interface

Any number of `UploadFile` calls, each at its own request, and `RemoveFile` calls beside them. A request may be
lost, refused, or processed long after its sender gave up on it; a response may go unread. The table has no unique
key on the name: what keeps it to one row is the question at the start of each upload.

| here | there |
| --- | --- |
| `MasterRequest`, `serveMaster` | the handlers of `MasterServer.hpp:87-131`, `:230-298`; a `filename` of `none` is a missing parameter |
| `Stage`, `UploadPhase`         | how far `UploadFile` is (`DSEClient.cpp:63-243`) |
| `requestOf`                    | `FileExists`, `InitializeUpload`, `CommitFile` (`MasterHttpClient.cpp:63-183`) |
| `answered`, `unanswered`       | what `UploadFile` makes of the response, or of its absence |
| `stop`                         | a local failure: the file cannot be read, or has changed |
-/

namespace StorageEngine

open Relational Transition Async

inductive MasterRequest where
  | fileExists (userId : Int) (filename : Option String)
  | uploadInit (chunkHashes : List String)
  | commit (userId : Int) (filename : String) (fileSize : Int) (chunkHashes : List String)
  | deleteFile (userId : Int) (filename : Option String)
deriving DecidableEq, Repr

/-- What the client can tell of a response. -/
inductive MasterResponse where
  | found (present : Bool)
  | plans (plans : List ChunkRoutingPlan)
  | success
  /-- Any status but 200. -/
  | refused
deriving DecidableEq, Repr

def serveMaster (n : Nat) (order : List Int) (db : Store) : MasterRequest → Store × MasterResponse
  | .fileExists u (some f) => (db, .found (fileExists db u f))
  | .uploadInit hashes =>
    match filterMissingChunks n db hashes with
    | .ok (db', plans) => (db', .plans plans)
    | .error _ => (db, .refused)
  | .commit u f size hashes =>
    match commitFile db u f size hashes with
    | .ok db' => (db', .success)
    | .error _ => (db, .refused)
  | .deleteFile u (some f) =>
    let (db', deleted) := deleteFile order db u f
    (db', if deleted then .success else .refused)
  | .fileExists _ none | .deleteFile _ none => (db, .refused)

/-- The upload a request belongs to, if any. -/
structure Outgoing (ι : Type) where
  sender : Option ι
  request : MasterRequest
deriving DecidableEq

/-- One call of `UploadFile`: the account, the base name, and what it commits. -/
structure UploadJob where
  userId : Int
  filename : String
  fileSize : Int
  chunkHashes : List String
deriving DecidableEq, Repr

inductive Stage where
  | check | init | commit
deriving DecidableEq, Repr

inductive UploadPhase (ι : Type) where
  | ready (next : Stage)
  | waiting (stage : Stage) (e : Envelope (Outgoing ι))
  | transferring
  | ended (ok : Bool)
deriving DecidableEq

/-- `received` is what becomes of a name in a query. -/
def requestOf (received : String → Option String) (job : UploadJob) : Stage → MasterRequest
  | .check => .fileExists job.userId (received job.filename)
  | .init => .uploadInit job.chunkHashes
  | .commit => .commit job.userId job.filename job.fileSize job.chunkHashes

/-- Without an answer `FileExists` returns `false`. -/
def unanswered {ι : Type} : Stage → UploadPhase ι
  | .check => .ready .init
  | .init | .commit => .ended false

def answered {ι : Type} : Stage → MasterResponse → UploadPhase ι
  | .check, .found true => .ended false
  | .init, .plans _ => .transferring
  | .commit, .success => .ended true
  | stage, _ => unanswered stage

/-- The master, the uploads of any number of clients, and what is between them. -/
structure UploadNet (ι : Type) where
  db : Store
  wire : Wire (Outgoing ι) MasterResponse
  phase : ι → UploadPhase ι
  /-- The uploads whose name was free when the master answered them, and was not stored since. -/
  cleared : List ι

/-- One step of an upload, of the master or of the network. -/
inductive NetStep (ι : Type) where
  | send (i : ι)
  | receive (i : ι) (r : MasterResponse)
  | giveUp (i : ι)
  | transfer (i : ι) (ok : Bool)
  | stop (i : ι)
  /-- A `RemoveFile`. -/
  | remove (userId : Int) (filename : Option String)
  | serve (e : Envelope (Outgoing ι)) (order : List Int)
  | refuse (e : Envelope (Outgoing ι))
  | lose (e : Envelope (Outgoing ι))
deriving DecidableEq

section
variable {ι : Type} [DecidableEq ι]

/-- No upload has begun. -/
def UploadNet.init (db : Store) : UploadNet ι := ⟨db, .empty, fun _ => .ready .check, []⟩

/-- The job stores its file under this name. -/
def UploadJob.stores (job : UploadJob) (u : Int) (name : String) : Bool :=
  job.userId == u && varchar 255 job.filename == some name

/-- What the processing of a request says about who may still count on a free name. -/
def noteServed (jobs : ι → UploadJob) (s : UploadNet ι) (e : Envelope (Outgoing ι)) (r : MasterResponse) : List ι :=
  match e.request.request, e.request.sender, r with
  | .fileExists .., some i, .found false => i :: s.cleared
  | .commit u f _ _, _, .success => s.cleared.filter fun i => !(varchar 255 f).any ((jobs i).stores u)
  | _, _, _ => s.cleared

/-- `none` where the step is not possible. -/
def stepNet (n : Nat) (received : String → Option String) (jobs : ι → UploadJob) (s : UploadNet ι) :
    NetStep ι → Option (UploadNet ι)
  | .send i =>
    match s.phase i with
    | .ready stage =>
      let req : Outgoing ι := ⟨some i, requestOf received (jobs i) stage⟩
      some { s with wire := s.wire.send req, phase := Function.update s.phase i (.waiting stage (s.wire.next req)) }
    | _ => none
  | .receive i r =>
    match s.phase i with
    | .waiting stage e =>
      if (e, r) ∈ s.wire.replies then some { s with phase := Function.update s.phase i (answered stage r) } else none
    | _ => none
  | .giveUp i =>
    match s.phase i with
    | .waiting stage _ => some { s with phase := Function.update s.phase i (unanswered stage) }
    | _ => none
  | .transfer i ok =>
    match s.phase i with
    | .transferring => some { s with phase := Function.update s.phase i (if ok then .ready .commit else .ended false) }
    | _ => none
  | .stop i =>
    match s.phase i with
    | .ready _ => some { s with phase := Function.update s.phase i (.ended false) }
    | _ => none
  | .remove u f => some { s with wire := s.wire.send ⟨none, .deleteFile u f⟩ }
  | .serve e order =>
    if h : e ∈ s.wire.inFlight then
      let res := serveMaster n order s.db e.request.request
      some { s with db := res.1, wire := s.wire.reply e h res.2, cleared := noteServed jobs s e res.2 }
    else none
  | .refuse e => if h : e ∈ s.wire.inFlight then some { s with wire := s.wire.reply e h .refused } else none
  | .lose e => some { s with wire := s.wire.lose e }

end

/-! ## Rows of a name -/

/-- No two `files` rows of an account have one name. -/
def OneFilePerName (db : Store) : Prop := ∀ u f, (db.files.select (isFile u f)).length ≤ 1

/-- A `CommitFile` that succeeds finds no row of its name. -/
def CommitFindsNone (db : Store) : MasterRequest → Prop
  | .commit u f size hashes => (commitFile db u f size hashes).isOk = true →
      ∀ name ∈ varchar 255 f, (db.files.select (isFile u name)).isEmpty = true
  | _ => True

instance (db : Store) : (req : MasterRequest) → Decidable (CommitFindsNone db req)
  | .commit u f size hashes => inferInstanceAs (Decidable ((commitFile db u f size hashes).isOk = true →
      ∀ name ∈ varchar 255 f, (db.files.select (isFile u name)).isEmpty = true))
  | .fileExists .. | .uploadInit .. | .deleteFile .. => .isTrue trivial

/-- Whenever a `CommitFile` takes effect there is no row of the name yet. -/
def NameFree {ι : Type} (s : UploadNet ι) : NetStep ι → Prop
  | .serve e _ => CommitFindsNone s.db e.request.request
  | _ => True

instance {ι : Type} (s : UploadNet ι) : (a : NetStep ι) → Decidable (NameFree s a)
  | .serve e _ => inferInstanceAs (Decidable (CommitFindsNone s.db e.request.request))
  | .send _ | .receive .. | .giveUp _ | .transfer .. | .stop _ | .remove .. | .refuse _ | .lose _ => .isTrue trivial

/-- The rows of every name after a `CommitFile`. -/
theorem CommitEffect.select {db db' : Store} {userId : Int} {filename : String} {fileSize : Int} {hashes : List String}
    (h : CommitEffect db userId filename fileSize hashes db') : ∃ name r, varchar 255 filename = some name ∧
      ∀ u f, db'.files.select (isFile u f) =
        db.files.select (isFile u f) ++ if userId = u ∧ name = f then [(db.fileSeq, r)] else [] := by
  obtain ⟨-, hfresh, arr, name, -, hname, rfl⟩ := h
  refine ⟨name, ⟨userId, name, fileSize, arr⟩, hname, fun u f => ?_⟩
  simp only [Table.select, Table.rows_insertNew_of_none hfresh, List.filter_append]
  congr 1
  split
  · rename_i he
    exact List.filter_cons_of_pos (isFile_iff.2 he)
  · rename_i he
    exact List.filter_cons_of_neg fun hf => he (isFile_iff.1 hf)

/-- **One request**: a commit is the only one that can give a name a second row. -/
theorem oneFile_serve {n : Nat} {order : List Int} {db : Store} (h : OneFilePerName db) (req : MasterRequest) :
    OneFilePerName (serveMaster n order db req).1 ↔ CommitFindsNone db req := by
  cases req with
  | fileExists u f => cases f <;> exact iff_of_true h trivial
  | uploadInit hashes =>
    refine iff_of_true ?_ trivial
    simp only [serveMaster]
    split
    · rename_i db' plans hok
      intro u f
      rw [(filterMissingChunks_effect hok).files]
      exact h u f
    · exact h
  | commit u f size hashes =>
    simp only [serveMaster, CommitFindsNone]
    cases hok : commitFile db u f size hashes with
    | error e => exact iff_of_true h fun he => by cases he
    | ok db' =>
      obtain ⟨name, r, hname, hsel⟩ := (commitFile_ok.1 hok).select
      constructor
      · intro hone _ name' hname'
        obtain rfl := Option.some.inj (hname.symm.trans hname')
        have hlen := hone u name
        rw [hsel, if_pos ⟨rfl, rfl⟩, List.length_append, List.length_singleton] at hlen
        rw [List.isEmpty_iff_length_eq_zero]
        omega
      · intro hnone u' f'
        rw [hsel]
        split
        · rename_i he
          obtain ⟨rfl, rfl⟩ := he
          have hempty := hnone rfl name hname
          rw [List.isEmpty_iff] at hempty
          rw [hempty]
          simp
        · rw [List.append_nil]
          exact h u' f'
  | deleteFile u f =>
    refine iff_of_true ?_ trivial
    cases f with
    | none => exact h
    | some f =>
      simp only [serveMaster]
      rcases deleteFile_cases order db u f with ⟨-, hdel⟩ | ⟨first, db', -, hdel, heff⟩
      · rw [hdel]
        exact h
      · rw [hdel]
        intro u' f'
        obtain ⟨-, rfl⟩ := heff
        refine le_trans (List.Sublist.length_le ?_) (h u' f')
        exact List.Sublist.filter _ List.filter_sublist

section
variable {ι : Type} [DecidableEq ι] {n : Nat} {received : String → Option String} {jobs : ι → UploadJob}

/-- **One step** of the uploads, the network and the master. -/
theorem oneFile_step {s t : UploadNet ι} {a : NetStep ι} (h : OneFilePerName s.db)
    (hst : stepNet n received jobs s a = some t) : OneFilePerName t.db ↔ NameFree s a := by
  cases a with
  | serve e order =>
    simp only [stepNet] at hst
    split at hst
    · cases hst
      exact oneFile_serve h e.request.request
    · cases hst
  | remove u f =>
    cases hst
    exact iff_of_true h trivial
  | lose e =>
    cases hst
    exact iff_of_true h trivial
  | refuse e =>
    simp only [stepNet] at hst
    split at hst
    · cases hst
      exact iff_of_true h trivial
    · cases hst
  | send i | giveUp i | transfer i ok | stop i =>
    simp only [stepNet] at hst
    split at hst
    · cases hst
      exact iff_of_true h trivial
    · cases hst
  | receive i r =>
    simp only [stepNet] at hst
    split at hst
    · split at hst
      · cases hst
        exact iff_of_true h trivial
      · cases hst
    · cases hst

/-- **One file per name**, in every state of a run, exactly when each commit that takes effect finds its name
free. -/
theorem one_file_per_name_iff (n : Nat) (received : String → Option String) (jobs : ι → UploadJob) {db : Store}
    (h : OneFilePerName db) (run : List (NetStep ι)) :
    Always (stepNet n received jobs) (fun s => OneFilePerName s.db) (.init db) run ↔
      EachStep (stepNet n received jobs) NameFree (.init db) run :=
  always_iff_eachStep (J := fun _ => True) (fun _ _ _ _ _ _ => trivial) (fun _ _ _ _ hone _ hst => oneFile_step hone hst)
    (eachStep_true run _) trivial h

end

/-- One account and no files. -/
def oneAccount : Store := { Store.empty with users := Table.empty.put 1 ⟨"a@b.c", "p", "s"⟩ }

theorem oneAccount_one_file : OneFilePerName oneAccount := fun _ _ => Nat.zero_le _

/-- Two uploads of empty files with one name. -/
def sameName : Bool → UploadJob := fun _ => ⟨1, "a", 0, []⟩

/-- The next request of an upload and the master's answer to it; `id` numbers the request. -/
def exchange (id : Nat) (i : Bool) (stage : Stage) (r : MasterResponse) : List (NetStep Bool) :=
  [.send i, .serve ⟨id, some i, requestOf some (sameName i) stage⟩ [], .receive i r]

/-- The second upload asks after the first has committed. -/
def inTurn : List (NetStep Bool) :=
  exchange 0 false .check (.found false) ++ exchange 1 false .init (.plans []) ++ [.transfer false true] ++
    exchange 2 false .commit .success ++ exchange 3 true .check (.found true)

theorem inTurn_one_file : (exec (stepNet 4 some sameName) (.init oneAccount) inTurn).isSome ∧
    Always (stepNet 4 some sameName) (fun s => OneFilePerName s.db) (.init oneAccount) inTurn :=
  ⟨by decide +kernel,
    (one_file_per_name_iff 4 some sameName oneAccount_one_file inTurn).2 (by decide +kernel)⟩

/-- Both ask before either commits. -/
def bothAsk : List (NetStep Bool) :=
  exchange 0 false .check (.found false) ++ exchange 1 true .check (.found false) ++
    exchange 2 false .init (.plans []) ++ exchange 3 true .init (.plans []) ++
    [.transfer false true, .transfer true true] ++ exchange 4 false .commit .success ++ exchange 5 true .commit .success

/-- Both are told that the name is free, and both commit. -/
theorem bothAsk_two_files : ¬ ∀ (db : Store) (jobs : Bool → UploadJob) (run : List (NetStep Bool)), OneFilePerName db →
    Always (stepNet 4 some jobs) (fun s => OneFilePerName s.db) (.init db) run := by
  intro hall
  have hfacts : (exec (stepNet 4 some sameName) (.init oneAccount) bothAsk).any (fun s =>
      (s.db.files.select (isFile 1 "a")).length == 2) = true := by decide +kernel
  obtain ⟨s, hrun, hs⟩ := (Option.any_eq_true ..).1 hfacts
  have hone := always_iff_prefix.1 (hall oneAccount sameName bothAsk oneAccount_one_file) _ s (List.prefix_refl _) hrun
  have hle := hone 1 "a"
  rw [beq_iff_eq] at hs
  omega

section
variable {ι : Type} [DecidableEq ι] {n : Nat} {received : String → Option String} {jobs : ι → UploadJob}

/-! ## What the question at the start is good for -/

/-- An upload commits while its name is still as free as it was told. -/
def ClearedCommits (s : UploadNet ι) : NetStep ι → Prop
  | .serve e _ =>
    match e.request.request with
    | .commit .. => ∀ i ∈ e.request.sender, i ∈ s.cleared
    | _ => True
  | _ => True

/-- A request on its way is one of its sender's job, or a deletion. -/
def FromJobs (received : String → Option String) (jobs : ι → UploadJob) (o : Outgoing ι) : Prop :=
  match o.sender with
  | some i => ∃ stage, o.request = requestOf received (jobs i) stage
  | none => ∃ u f, o.request = .deleteFile u f

/-- Every request is one of an upload, and the name of a cleared one is free. -/
structure ClearedInv (received : String → Option String) (jobs : ι → UploadJob) (s : UploadNet ι) : Prop where
  wire : ∀ e ∈ s.wire.inFlight, FromJobs received jobs e.request
  free : ∀ i ∈ s.cleared, ∀ name ∈ varchar 255 (jobs i).filename, s.db.files.select (isFile (jobs i).userId name) = []

omit [DecidableEq ι] in
/-- The commit of an upload that was cleared finds its name free. -/
theorem ClearedInv.nameFree {s : UploadNet ι} (hi : ClearedInv received jobs s) {e : Envelope (Outgoing ι)}
    (he : e ∈ s.wire.inFlight) {order : List Int} (hc : ClearedCommits s (.serve e order)) :
    NameFree s (.serve e order) := by
  have hfrom := hi.wire e he
  unfold ClearedCommits at hc
  unfold NameFree
  obtain ⟨id, sender, req⟩ := e
  cases req with
  | commit u f size hashes =>
    cases sender with
    | none =>
      obtain ⟨_, _, hreq⟩ := hfrom
      cases hreq
    | some i =>
      obtain ⟨stage, hreq⟩ := hfrom
      cases stage with
      | commit =>
        obtain ⟨rfl, rfl, rfl, rfl⟩ := MasterRequest.commit.inj hreq
        intro _ name hname
        rw [hi.free i (hc i rfl) name hname]
        rfl
      | _ => cases hreq
  | _ => trivial

omit [DecidableEq ι] in
/-- What is in flight was so before, or is sent now. -/
theorem ClearedInv.sent {s : UploadNet ι} (hi : ClearedInv received jobs s) {o : Outgoing ι}
    (ho : FromJobs received jobs o) : ∀ e ∈ (s.wire.send o).inFlight, FromJobs received jobs e.request := by
  intro e he
  rcases Wire.mem_send.1 he with rfl | he
  · exact ho
  · exact hi.wire e he

omit [DecidableEq ι] in
theorem mem_noteServed {s : UploadNet ι} {e : Envelope (Outgoing ι)} {r : MasterResponse} {i : ι}
    (h : i ∈ noteServed jobs s e r) :
    (i ∈ s.cleared ∧ ∀ u f size hashes, e.request.request = .commit u f size hashes → r = .success →
      ∀ name ∈ varchar 255 f, (jobs i).stores u name = false) ∨
    (∃ u f, e.request.request = .fileExists u f) ∧ e.request.sender = some i ∧ r = .found false := by
  unfold noteServed at h
  split at h
  · rename_i u f j hreq hsender
    rcases List.mem_cons.1 h with rfl | h
    · exact Or.inr ⟨⟨_, _, hreq⟩, hsender, rfl⟩
    · exact Or.inl ⟨h, fun u' f' size hashes he => by rw [hreq] at he; cases he⟩
  · rename_i u f size hashes hreq
    obtain ⟨hmem, hno⟩ := List.mem_filter.1 h
    refine Or.inl ⟨hmem, fun u' f' size' hashes' he _ name hname => ?_⟩
    rw [hreq] at he
    obtain ⟨rfl, rfl, -, -⟩ := MasterRequest.commit.inj he
    rw [Option.mem_def.1 hname] at hno
    simpa using hno
  · rename_i hother _
    exact Or.inl ⟨h, fun u f size hashes he hr => (hother u f size hashes he hr).elim⟩

/-- The rows of a name that no commit stores are at most those before. -/
theorem serveMaster_select {order : List Int} {db : Store} (req : MasterRequest) {u : Int} {name : String}
    (hempty : db.files.select (isFile u name) = [])
    (hno : ∀ u' f size hashes, req = .commit u' f size hashes → (serveMaster n order db req).2 = .success →
      ¬ (u' = u ∧ varchar 255 f = some name)) :
    (serveMaster n order db req).1.files.select (isFile u name) = [] := by
  cases req with
  | fileExists u' f => cases f <;> exact hempty
  | uploadInit hashes =>
    simp only [serveMaster]
    split
    · rename_i db' plans hok
      rwa [(filterMissingChunks_effect hok).files]
    · exact hempty
  | commit u' f size hashes =>
    have hother := hno u' f size hashes rfl
    simp only [serveMaster] at hother ⊢
    cases hok : commitFile db u' f size hashes with
    | error e => exact hempty
    | ok db' =>
      rw [hok] at hother
      obtain ⟨name', r, hname', hsel⟩ := (commitFile_ok.1 hok).select
      show db'.files.select _ = []
      rw [hsel, hempty, if_neg, List.append_nil]
      rintro ⟨rfl, rfl⟩
      exact hother rfl ⟨rfl, hname'⟩
  | deleteFile u' f =>
    cases f with
    | none => exact hempty
    | some f =>
      simp only [serveMaster]
      rcases deleteFile_cases order db u' f with ⟨-, hdel⟩ | ⟨first, db', -, hdel, heff⟩
      · rw [hdel]
        exact hempty
      · rw [hdel]
        obtain ⟨-, rfl⟩ := heff
        refine List.eq_nil_of_subset_nil fun e he => ?_
        rw [← hempty]
        obtain ⟨hmem, hp⟩ := List.mem_filter.1 he
        exact List.mem_filter.2 ⟨(List.mem_filter.1 hmem).1, hp⟩

theorem ClearedInv.serve {s : UploadNet ι} (hi : ClearedInv received jobs s)
    (hrec : ∀ i, received (jobs i).filename = some (jobs i).filename) (hfit : ∀ i, (jobs i).filename.length ≤ 255)
    {e : Envelope (Outgoing ι)} (he : e ∈ s.wire.inFlight) (order : List Int) :
    ClearedInv received jobs
      { s with db := (serveMaster n order s.db e.request.request).1
               wire := s.wire.reply e he (serveMaster n order s.db e.request.request).2
               cleared := noteServed jobs s e (serveMaster n order s.db e.request.request).2 } where
  wire x hx := hi.wire x ((Wire.mem_reply (h := he)).1 hx).1
  free i hm name hname := by
    rcases mem_noteServed hm with ⟨hold, hcommit⟩ | ⟨⟨u, f, hreq⟩, hsender, hfound⟩
    · refine serveMaster_select _ (hi.free i hold name hname) fun u' f size hashes hreq hok => ?_
      rintro ⟨hu, hf⟩
      have hno := hcommit u' f size hashes hreq hok name hf
      simp [UploadJob.stores, Option.mem_def.1 hname, hu] at hno
    · -- the master has just looked
      have hfrom := hi.wire e he
      unfold FromJobs at hfrom
      rw [hsender] at hfrom
      obtain ⟨stage, hstage⟩ := hfrom
      rw [hreq] at hstage hfound
      cases stage with
      | check =>
        obtain ⟨rfl, rfl⟩ := MasterRequest.fileExists.inj hstage
        rw [varchar_of_le (hfit i), Option.mem_def, Option.some.injEq] at hname
        subst hname
        simp only [hreq, hrec, serveMaster, MasterResponse.found.injEq, fileExists, Bool.not_eq_false',
          List.isEmpty_iff] at hfound ⊢
        exact hfound
      | _ => cases hstage

/-- **The check that `UploadFile` makes suffices** where no other upload of the name commits between its answer
and the commit. -/
theorem one_file_of_cleared (n : Nat) {db : Store} (h : OneFilePerName db)
    (hrec : ∀ i, received (jobs i).filename = some (jobs i).filename) (hfit : ∀ i, (jobs i).filename.length ≤ 255)
    {run : List (NetStep ι)} (hc : EachStep (stepNet n received jobs) ClearedCommits (.init db) run) :
    Always (stepNet n received jobs) (fun s => OneFilePerName s.db) (.init db) run := by
  have hrun : ∀ s a t, ClearedInv received jobs s → ClearedCommits s a → stepNet n received jobs s a = some t →
      ClearedInv received jobs t ∧ NameFree s a := by
    intro s a t hi hca hst
    cases a with
    | serve e order =>
      simp only [stepNet] at hst
      split at hst
      · rename_i he
        cases hst
        exact ⟨hi.serve hrec hfit he order, hi.nameFree he hca⟩
      · cases hst
    | send i =>
      simp only [stepNet] at hst
      split at hst
      · rename_i stage hphase
        cases hst
        exact ⟨⟨hi.sent ⟨stage, rfl⟩, hi.free⟩, trivial⟩
      · cases hst
    | remove u f =>
      cases hst
      exact ⟨⟨hi.sent ⟨u, f, rfl⟩, hi.free⟩, trivial⟩
    | refuse e =>
      simp only [stepNet] at hst
      split at hst
      · rename_i he
        cases hst
        exact ⟨⟨fun x hx => hi.wire x ((Wire.mem_reply (h := he)).1 hx).1, hi.free⟩, trivial⟩
      · cases hst
    | lose e =>
      cases hst
      exact ⟨⟨fun x hx => hi.wire x (Wire.mem_lose.1 hx).1, hi.free⟩, trivial⟩
    | giveUp i | transfer i ok | stop i =>
      simp only [stepNet] at hst
      split at hst
      · cases hst
        exact ⟨⟨hi.wire, hi.free⟩, trivial⟩
      · cases hst
    | receive i r =>
      simp only [stepNet] at hst
      split at hst
      · split at hst
        · cases hst
          exact ⟨⟨hi.wire, hi.free⟩, trivial⟩
        · cases hst
      · cases hst
  refine (Always.iff_eachStep (J := ClearedInv received jobs) (fun s a t hi _ hca _ hst => (hrun s a t hi hca hst).1)
    (fun s a t hi hone hca hst => iff_of_true ((oneFile_step hone hst).2 (hrun s a t hi hca hst).2) trivial) hc
    ⟨by simp [UploadNet.init, Wire.empty], by simp [UploadNet.init]⟩ h).2 (eachStep_true run _)

end

end StorageEngine
