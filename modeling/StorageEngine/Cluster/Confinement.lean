import StorageEngine.Cluster.ChunkStore

/-!
# Which files a worker touches

`POST` saves under a hash that is the digest of its body. `GET` and `DELETE` join the raw parameter to the storage
directory (`LocalDiskStorage.hpp:112, 144`): a `/` in it leads elsewhere, and a NUL character cuts `.bin` off.
-/

namespace StorageEngine

open Relational (Table)
open Paths

/-- What `GET` and `DELETE` need of their hash; a `POST` checks its own. -/
def PlainRequest : ChunkRequest → Prop
  | .post _ _ => True
  | .get hash | .delete hash => PlainHash hash

instance : DecidablePred PlainRequest
  | .post _ _ => .isTrue trivial
  | .get hash | .delete hash => inferInstanceAs (Decidable (PlainHash hash))

/-- The run stays inside the storage directory. -/
structure WorkerNode.Confined (w : WorkerNode) (fs : FileSystem Bytes) (steps : List (ChunkRequest × Outcome))
    (fs' : FileSystem Bytes) (log : List Exchange) : Prop where
  /-- Every path that is opened or removed leads to the file named after the hash. One that leads nowhere, or to another
  place where nothing is, is outside all the same. -/
  touched : ∀ e ∈ log, ∀ loc ∈ e.touched, loc = some (w.chunkFile e.request.hash)
  elsewhere : ∀ loc, (∀ s ∈ steps, loc ≠ w.chunkFile s.1.hash) →
    fs'.files.get? loc = fs.files.get? loc ∧ (loc ∈ fs'.dirs ↔ loc ∈ fs.dirs)
  /-- The answers are the same whatever the other files hold. -/
  undisclosed : ∀ other, FileSystem.Agree (fun loc => ∃ s ∈ steps, loc = w.chunkFile s.1.hash) fs other →
    ∃ other', w.serveAll other steps = some (other', log)

section

variable {w : WorkerNode} {fs : FileSystem Bytes} {o : Outcome}

/-! ## What a request can do -/

/-- The file system after an operation at a place. -/
inductive FileChange (fs : FileSystem Bytes) (loc : Option Location) : FileSystem Bytes → Prop
  | kept : FileChange fs loc fs
  | wrote {content : Bytes} {fs' : FileSystem Bytes} (h : fs.write loc content = some fs') : FileChange fs loc fs'
  | removed : FileChange fs loc (fs.remove loc).1

theorem FileChange.elsewhere {loc : Location} {fs' : FileSystem Bytes} (h : FileChange fs (some loc) fs') {k : Location}
    (hk : k ≠ loc) : fs'.files.get? k = fs.files.get? k ∧ (k ∈ fs'.dirs ↔ k ∈ fs.dirs) := by
  cases h with
  | kept => exact ⟨rfl, Iff.rfl⟩
  | wrote h =>
    obtain ⟨l, hl, -, rfl⟩ := FileSystem.write_eq_some.1 h
    obtain rfl := Option.some.inj hl
    exact ⟨by rw [Table.get?_put, if_neg hk], Iff.rfl⟩
  | removed => exact FileSystem.removeAt_elsewhere hk

theorem saveChunk_change {hash : String} {data : Bytes} {e : Effect Bool} (h : w.saveChunk fs o hash data = some e) :
    (e.touched = [] ∨ e.touched = [w.filepath fs hash]) ∧ FileChange fs (w.filepath fs hash) e.fs := by
  unfold WorkerNode.saveChunk at h
  split at h
  · cases h
  · cases h
    exact ⟨Or.inl rfl, .kept⟩
  · split at h
    · cases h
      exact ⟨Or.inl rfl, .kept⟩
    · split at h
      · cases h
        exact ⟨Or.inr rfl, .kept⟩
      · rename_i fs' hwrite
        cases h
        rw [Option.ite_none_right_eq_some] at hwrite
        exact ⟨Or.inr rfl, .wrote hwrite.2⟩

theorem loadChunk_change {hash : String} {e : Effect (Option Bytes)} (h : w.loadChunk fs o hash = some e) :
    e.touched = [w.filepath fs hash] ∧ e.fs = fs := by
  unfold WorkerNode.loadChunk at h
  split at h
  · cases h
    exact ⟨rfl, rfl⟩
  · split at h
    · cases h
      exact ⟨rfl, rfl⟩
    · split at h
      · cases h
        exact ⟨rfl, rfl⟩
      · obtain ⟨data, -, rfl⟩ := Option.map_eq_some_iff.1 h
        exact ⟨rfl, rfl⟩

theorem deleteChunk_change (w : WorkerNode) (fs : FileSystem Bytes) (o : Outcome) (hash : String) :
    (w.deleteChunk fs o hash).touched = [w.filepath fs hash] ∧
      FileChange fs (w.filepath fs hash) (w.deleteChunk fs o hash).fs := by
  unfold WorkerNode.deleteChunk
  split
  · exact ⟨rfl, .removed⟩
  · exact ⟨rfl, .kept⟩

/-- **One request stays inside.** -/
theorem handleChunk_change (hdigest : ∀ body, HexDigest (w.sha256 body)) (hdir : fs.isDir w.storageDir = true)
    {req : ChunkRequest} (hreq : PlainRequest req) {e : Effect ChunkResponse} (h : w.handleChunk fs o req = some e) :
    (∀ loc ∈ e.touched, loc = some (w.chunkFile req.hash)) ∧ FileChange fs (some (w.chunkFile req.hash)) e.fs := by
  cases req with
  | post hash body =>
    simp only [WorkerNode.handleChunk] at h
    split at h
    · cases h
      exact ⟨fun _ hloc => absurd hloc List.not_mem_nil, .kept⟩
    · split at h
      · cases h
        exact ⟨fun _ hloc => absurd hloc List.not_mem_nil, .kept⟩
      · split at h
        · cases h
          exact ⟨fun _ hloc => absurd hloc List.not_mem_nil, .kept⟩
        · rename_i hsha
          obtain ⟨e', hsave, rfl⟩ := Option.map_eq_some_iff.1 h
          have hplain : PlainHash hash := not_not.1 hsha ▸ plainHash_of_hex (hdigest body)
          obtain ⟨htouched, hchange⟩ := saveChunk_change hsave
          rw [filepath_plain hdir hplain] at htouched hchange
          refine ⟨fun loc hloc => ?_, hchange⟩
          rcases htouched with htouched | htouched
          · rw [Effect.map, htouched] at hloc
            cases hloc
          · rw [Effect.map, htouched] at hloc
            exact List.mem_singleton.1 hloc
  | get hash =>
    obtain ⟨e', hload, rfl⟩ := Option.map_eq_some_iff.1 h
    obtain ⟨htouched, hfs⟩ := loadChunk_change hload
    rw [filepath_plain hdir hreq] at htouched
    refine ⟨fun loc hloc => ?_, ?_⟩
    · rw [Effect.map, htouched] at hloc
      exact List.mem_singleton.1 hloc
    · rw [Effect.map, hfs]
      exact .kept
  | delete hash =>
    cases h
    obtain ⟨htouched, hchange⟩ := deleteChunk_change w fs o hash
    rw [filepath_plain hdir hreq] at htouched hchange
    refine ⟨fun loc hloc => ?_, hchange⟩
    rw [Effect.map, htouched] at hloc
    exact List.mem_singleton.1 hloc

/-- The storage directory stays. -/
theorem FileChange.isDir {hash : String} {fs' : FileSystem Bytes} (h : FileChange fs (some (w.chunkFile hash)) fs')
    (hdir : fs.isDir w.storageDir = true) : fs'.isDir w.storageDir = true := by
  have hne : w.storageDir ≠ w.chunkFile hash := by
    intro he
    have hlen := congrArg List.length he
    rw [WorkerNode.chunkFile, List.length_append] at hlen
    exact absurd hlen (Nat.ne_of_lt (Nat.lt_succ_self _))
  simp only [FileSystem.isDir, Bool.or_eq_true, List.contains_iff_mem] at hdir ⊢
  exact hdir.imp_right (h.elsewhere hne).2.2

/-! ## Two file systems that differ elsewhere -/

/-- The same effect as far as it can be seen, with the places of `S` alike again. -/
structure Effect.Alike {α : Type} (S : Location → Prop) (e e' : Effect α) : Prop where
  touched : e'.touched = e.touched
  result : e'.result = e.result
  agree : FileSystem.Agree S e.fs e'.fs

theorem Effect.Alike.map {α β : Type} {S : Location → Prop} {e e' : Effect α} (h : e.Alike S e') (f : α → β) :
    (e.map f).Alike S (e'.map f) :=
  ⟨h.touched, congrArg f h.result, h.agree⟩

variable {S : Location → Prop} {other : FileSystem Bytes} {hash : String}

theorem filepath_agree (h : FileSystem.Agree S fs other) (hash : String) : w.filepath other hash = w.filepath fs hash :=
  h.resolve _

theorem saveChunk_agree (h : FileSystem.Agree S fs other) {data : Bytes} {e : Effect Bool}
    (he : w.saveChunk fs o hash data = some e) : ∃ e', w.saveChunk other o hash data = some e' ∧ e.Alike S e' := by
  unfold WorkerNode.saveChunk at he ⊢
  rw [filepath_agree h]
  cases hencrypt : encryptBytes w.evp w.nodeKey o.setup data with
  | error err =>
    rw [hencrypt] at he
    cases err with
    | overrun => cases he
    | thrown what =>
      cases he
      exact ⟨_, rfl, rfl, rfl, h⟩
  | ok encryptedData =>
    rw [hencrypt] at he
    dsimp only at he ⊢
    split at he
    · rename_i hspace
      cases he
      rw [if_pos hspace]
      exact ⟨_, rfl, rfl, rfl, h⟩
    · rename_i hspace
      rw [if_neg hspace]
      cases hopens : o.opens with
      | false =>
        rw [hopens] at he
        cases he
        exact ⟨_, rfl, rfl, rfl, h⟩
      | true =>
        rw [hopens] at he
        simp only [if_true] at he ⊢
        rcases h.write (w.filepath fs hash) (o.written.elim encryptedData encryptedData.take) with
          ⟨hnone, hnone'⟩ | ⟨fs₁, fs₂, hsome, hsome', hagree⟩
        · rw [hnone] at he
          rw [hnone']
          cases he
          exact ⟨_, rfl, rfl, rfl, h⟩
        · rw [hsome] at he
          rw [hsome']
          cases he
          exact ⟨_, rfl, rfl, rfl, hagree⟩

theorem loadChunk_agree (h : FileSystem.Agree S fs other) (hpath : w.filepath fs hash = some (w.chunkFile hash))
    (hS : S (w.chunkFile hash)) {e : Effect (Option Bytes)} (he : w.loadChunk fs o hash = some e) :
    ∃ e', w.loadChunk other o hash = some e' ∧ e.Alike S e' := by
  have hread : other.read (w.filepath fs hash) = fs.read (w.filepath fs hash) := by
    rw [hpath]
    exact h.get? hS
  unfold WorkerNode.loadChunk at he ⊢
  rw [filepath_agree h, hread, h.isDir]
  split at he
  · rename_i hclosed
    cases he
    rw [if_pos hclosed]
    exact ⟨_, rfl, rfl, rfl, h⟩
  · rename_i hopens
    rw [if_neg hopens]
    split at he
    · rename_i hdir
      cases he
      rw [if_pos hdir]
      exact ⟨_, rfl, rfl, rfl, h⟩
    · rename_i hfile
      rw [if_neg hfile]
      split at he
      · cases he
        exact ⟨_, rfl, rfl, rfl, h⟩
      · obtain ⟨data, hload, rfl⟩ := Option.map_eq_some_iff.1 he
        rw [hload]
        exact ⟨_, rfl, rfl, rfl, h⟩

theorem deleteChunk_agree (h : FileSystem.Agree S fs other) (hdir : fs.isDir w.storageDir = true) (hplain : PlainHash hash)
    (hS : S (w.chunkFile hash)) : (w.deleteChunk fs o hash).Alike S (w.deleteChunk other o hash) := by
  have hrefuses : other.refuses w.storageDir (hash ++ ".bin") = fs.refuses w.storageDir (hash ++ ".bin") := by
    rw [FileSystem.refuses_name hdir (isName_bin hplain),
      FileSystem.refuses_name ((congrFun h.isDir _).trans hdir) (isName_bin hplain)]
  unfold WorkerNode.deleteChunk
  rw [filepath_agree h, hrefuses, filepath_plain hdir hplain]
  split
  · obtain ⟨hresult, hagree⟩ := h.removeAt hS
    exact ⟨rfl, hresult, hagree⟩
  · exact ⟨rfl, rfl, h⟩

/-- **An answer depends on the file of its hash only.** -/
theorem handleChunk_agree (hdir : fs.isDir w.storageDir = true) {req : ChunkRequest} (hreq : PlainRequest req)
    (h : FileSystem.Agree S fs other) (hS : S (w.chunkFile req.hash)) {e : Effect ChunkResponse}
    (he : w.handleChunk fs o req = some e) :
    ∃ e', w.handleChunk other o req = some e' ∧ e.Alike S e' := by
  cases req with
  | post hash body =>
    simp only [WorkerNode.handleChunk] at he ⊢
    split at he
    · rename_i hlen
      cases he
      rw [if_pos hlen]
      exact ⟨_, rfl, rfl, rfl, h⟩
    · rename_i hlen
      rw [if_neg hlen]
      split at he
      · rename_i hempty
        cases he
        rw [if_pos hempty]
        exact ⟨_, rfl, rfl, rfl, h⟩
      · rename_i hempty
        rw [if_neg hempty]
        split at he
        · rename_i hsha
          cases he
          rw [if_pos hsha]
          exact ⟨_, rfl, rfl, rfl, h⟩
        · rename_i hsha
          rw [if_neg hsha]
          obtain ⟨e₁, hsave, rfl⟩ := Option.map_eq_some_iff.1 he
          obtain ⟨e₂, hsave', halike⟩ := saveChunk_agree h hsave
          rw [hsave']
          exact ⟨_, rfl, halike.map _⟩
  | get hash =>
    obtain ⟨e₁, hload, rfl⟩ := Option.map_eq_some_iff.1 he
    obtain ⟨e₂, hload', halike⟩ := loadChunk_agree h (filepath_plain hdir hreq) hS hload
    refine ⟨_, by rw [WorkerNode.handleChunk, hload']; rfl, halike.map _⟩
  | delete hash =>
    cases he
    exact ⟨_, rfl, (deleteChunk_agree h hdir hreq hS).map _⟩

/-! ## Every run -/

theorem serveAll_cons {req : ChunkRequest} {rest : List (ChunkRequest × Outcome)} {fs' : FileSystem Bytes}
    {log : List Exchange} (h : w.serveAll fs ((req, o) :: rest) = some (fs', log)) :
    ∃ e log', w.handleChunk fs o req = some e ∧ w.serveAll e.fs rest = some (fs', log') ∧
      log = ⟨req, e.touched, e.result⟩ :: log' := by
  obtain ⟨e, he, h⟩ := Option.bind_eq_some_iff.1 h
  obtain ⟨⟨fs₁, log₁⟩, hrest, h⟩ := Option.map_eq_some_iff.1 h
  obtain ⟨rfl, rfl⟩ := Prod.mk.inj h
  exact ⟨e, log₁, he, hrest, rfl⟩

theorem confined_of_plain (hdigest : ∀ body, HexDigest (w.sha256 body)) (hdir : fs.isDir w.storageDir = true)
    {steps : List (ChunkRequest × Outcome)} {fs' : FileSystem Bytes} {log : List Exchange}
    (h : w.serveAll fs steps = some (fs', log)) (hplain : ∀ s ∈ steps, PlainRequest s.1) :
    (∀ e ∈ log, ∀ loc ∈ e.touched, loc = some (w.chunkFile e.request.hash)) ∧
      (∀ loc, (∀ s ∈ steps, loc ≠ w.chunkFile s.1.hash) →
        fs'.files.get? loc = fs.files.get? loc ∧ (loc ∈ fs'.dirs ↔ loc ∈ fs.dirs)) ∧
      ∀ other, FileSystem.Agree S fs other → (∀ s ∈ steps, S (w.chunkFile s.1.hash)) →
        ∃ other', w.serveAll other steps = some (other', log) := by
  induction steps generalizing fs log with
  | nil =>
    cases h
    exact ⟨nofun, fun _ _ => ⟨rfl, Iff.rfl⟩, fun other _ _ => ⟨other, rfl⟩⟩
  | cons step rest ih =>
    obtain ⟨req, o⟩ := step
    obtain ⟨e, log', he, hrest, rfl⟩ := serveAll_cons h
    have hreq : PlainRequest req := hplain _ List.mem_cons_self
    obtain ⟨htouched, hchange⟩ := handleChunk_change hdigest hdir hreq he
    obtain ⟨htouched', helsewhere, hagree⟩ := ih (hchange.isDir hdir) hrest
      fun s hs => hplain s (List.mem_cons_of_mem _ hs)
    refine ⟨fun x hx => ?_, fun loc hloc => ?_, fun other hother hS => ?_⟩
    · rcases List.mem_cons.1 hx with rfl | hx
      · exact htouched
      · exact htouched' x hx
    · obtain ⟨hfile, hdirs⟩ := helsewhere loc fun s hs => hloc s (List.mem_cons_of_mem _ hs)
      obtain ⟨hfile', hdirs'⟩ := hchange.elsewhere (hloc _ List.mem_cons_self)
      exact ⟨hfile.trans hfile', hdirs.trans hdirs'⟩
    · obtain ⟨e', he', halike⟩ := handleChunk_agree hdir hreq hother (hS _ List.mem_cons_self) he
      obtain ⟨other', hrun⟩ := hagree e'.fs halike.agree fun s hs => hS s (List.mem_cons_of_mem _ hs)
      refine ⟨other', ?_⟩
      rw [WorkerNode.serveAll, he', Option.bind_some, hrun, Option.map_some, halike.touched, halike.result]

/-- What `GET` and `DELETE` touch is the joined path. -/
theorem handleChunk_touches {req : ChunkRequest} (hreq : ¬ PlainRequest req) {e : Effect ChunkResponse}
    (he : w.handleChunk fs o req = some e) : e.touched = [w.filepath fs req.hash] := by
  cases req with
  | post hash body => exact absurd trivial hreq
  | get hash =>
    obtain ⟨e', hload, rfl⟩ := Option.map_eq_some_iff.1 he
    exact (loadChunk_change hload).1
  | delete hash =>
    cases he
    exact (deleteChunk_change w fs o hash).1

theorem plain_of_touched (hstorage : ∀ name ∈ w.storageDir, IsName name) {steps : List (ChunkRequest × Outcome)}
    {fs' : FileSystem Bytes} {log : List Exchange} (h : w.serveAll fs steps = some (fs', log))
    (htouched : ∀ e ∈ log, ∀ loc ∈ e.touched, loc = some (w.chunkFile e.request.hash)) :
    ∀ s ∈ steps, PlainRequest s.1 := by
  induction steps generalizing fs log with
  | nil => exact nofun
  | cons step rest ih =>
    obtain ⟨req, o⟩ := step
    obtain ⟨e, log', he, hrest, rfl⟩ := serveAll_cons h
    intro s hs
    rcases List.mem_cons.1 hs with rfl | hs
    · by_contra hreq
      have hpath : w.filepath fs req.hash = some (w.chunkFile req.hash) := by
        refine htouched _ List.mem_cons_self _ ?_
        rw [handleChunk_touches hreq he]
        exact List.mem_singleton_self _
      obtain ⟨hslash, hnul⟩ := FileSystem.plain_of_resolve hstorage hpath
      have hplain := plainHash_of_isName hslash hnul
      cases req with
      | post hash body => exact hreq trivial
      | get hash => exact hreq hplain
      | delete hash => exact hreq hplain
    · exact ih hrest (fun x hx => htouched x (List.mem_cons_of_mem _ hx)) s hs

/-- **A run stays inside the storage directory exactly if every `GET` and `DELETE` has a plain hash.** -/
theorem confined_iff (hdigest : ∀ body, HexDigest (w.sha256 body)) (hstorage : ∀ name ∈ w.storageDir, IsName name)
    (hdir : fs.isDir w.storageDir = true) {steps : List (ChunkRequest × Outcome)} {fs' : FileSystem Bytes}
    {log : List Exchange} (h : w.serveAll fs steps = some (fs', log)) :
    w.Confined fs steps fs' log ↔ ∀ s ∈ steps, PlainRequest s.1 := by
  constructor
  · exact fun hconfined => plain_of_touched hstorage h hconfined.touched
  · intro hplain
    obtain ⟨htouched, helsewhere, hagree⟩ :=
      confined_of_plain (S := fun loc => ∃ s ∈ steps, loc = w.chunkFile s.1.hash) hdigest hdir h hplain
    exact ⟨htouched, helsewhere, fun other hother => hagree other hother fun s hs => ⟨s, hs, rfl⟩⟩

end

theorem sampleNode_digests (body : Bytes) : HexDigest (sampleNode.sha256 body) := by
  show HexDigest (if body = [97] then sampleHash else emptyHash)
  split
  · decide +kernel
  · decide +kernel

/-- A chunk that comes and goes, and hashes no chunk has. -/
def plainRequests : List (ChunkRequest × Outcome) :=
  [(.post sampleHash [97], smooth), (.get sampleHash, smooth), (.delete "", smooth), (.get "..", smooth),
    (.delete sampleHash, smooth)]

theorem confined_plain : ∃ fs' log, sampleNode.serveAll sampleFs plainRequests = some (fs', log) ∧
    sampleNode.Confined sampleFs plainRequests fs' log := by
  have hrun : (sampleNode.serveAll sampleFs plainRequests).isSome = true := by decide +kernel
  obtain ⟨⟨fs', log⟩, h⟩ := Option.isSome_iff_exists.1 hrun
  exact ⟨fs', log, h, (confined_iff sampleNode_digests (by decide +kernel) sampleNode_fresh.dir h).2 (by decide +kernel)⟩

/-- A file next to the storage directory, encrypted under the same key. -/
def neighbour : FileSystem Bytes :=
  { sampleFs with files := (Table.empty : Table Location Bytes).put ["srv", "other.bin"] (sampleIv.1 ++ cipherA) }

/-- It is read by its absolute path and removed by a relative one. -/
def strayRequests : List (ChunkRequest × Outcome) := [(.get "/srv/other", smooth), (.delete "../other", smooth)]

/-- **A file outside is disclosed and removed.** -/
theorem neighbour_lost : ∃ fs' log, sampleNode.serveAll neighbour strayRequests = some (fs', log) ∧
    log.map (fun e => (e.touched, e.response)) =
      [([some ["srv", "other.bin"]], ⟨200, "", [97]⟩), ([some ["srv", "other.bin"]], ⟨200, "DELETED", []⟩)] ∧
    (neighbour.files.get? ["srv", "other.bin"]).isSome = true ∧ fs'.files.get? ["srv", "other.bin"] = none ∧
    ¬ sampleNode.Confined neighbour strayRequests fs' log := by
  have hanswers : (sampleNode.serveAll neighbour strayRequests).map (fun out => out.2.map fun e => (e.touched, e.response)) =
      some [([some ["srv", "other.bin"]], ⟨200, "", [97]⟩), ([some ["srv", "other.bin"]], ⟨200, "DELETED", []⟩)] := by
    decide +kernel
  have hfile : (sampleNode.serveAll neighbour strayRequests).map (fun out => out.1.files.get? ["srv", "other.bin"]) =
      some none := by
    decide +kernel
  obtain ⟨⟨fs', log⟩, h, hlog⟩ := Option.map_eq_some_iff.1 hanswers
  have hgone : fs'.files.get? ["srv", "other.bin"] = none := by
    rwa [h, Option.map_some, Option.some.injEq] at hfile
  have hthere : (neighbour.files.get? ["srv", "other.bin"]).isSome = true := by decide +kernel
  refine ⟨fs', log, h, hlog, hthere, hgone, fun hconfined => ?_⟩
  have hkept := (hconfined.elsewhere ["srv", "other.bin"] (by decide +kernel)).1
  rw [← hkept, hgone] at hthere
  cases hthere

end StorageEngine
