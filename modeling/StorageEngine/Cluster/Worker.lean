import StorageEngine.Metadata.References

/-!
# A worker

The three handlers of `WorkerServer` over `LocalDiskStorage`, where file operations succeed. A chunk is
stored under `<hash>.bin`; encryption at rest is left out, as the handlers only ever see what
`DecryptBytes` gives back. `sha256` is a parameter.

| here | there |
| --- | --- |
| `maxPayload`   | `set_payload_max_length` (`WorkerServer.hpp:20`) |
| `postChunk`    | `POST /chunk` (`:23-48`), `SaveChunk` |
| `getChunk`     | `GET /chunk` (`:51-61`), `LoadChunk`: an empty chunk is not found |
| `deleteChunk`  | `DELETE /chunk` (`:64-73`), `DeleteChunk`: absent is deleted |
-/

namespace StorageEngine

open Relational (Table)

/-- `std::vector<char>`, or a body. -/
abbrev Bytes := List UInt8

/-- The chunk files by hash. -/
abbrev Disk := Table String Bytes

/-- The three requests on `/chunk`, with the parameter `hash`. -/
inductive ChunkRequest where
  | post (hash : String) (body : Bytes)
  | get (hash : String)
  | delete (hash : String)
deriving DecidableEq

/-- The status, and a text or the bytes of a chunk. -/
structure ChunkResponse where
  status : Nat
  text : String
  data : Bytes
deriving DecidableEq

def maxPayload : Nat := 1048576 + 1024

section

variable (sha256 : Bytes → String)

def postChunk (disk : Disk) (hash : String) (body : Bytes) : Disk × ChunkResponse :=
  if maxPayload < body.length then (disk, ⟨413, "", []⟩)
  else if hash = "" then (disk, ⟨400, "", []⟩)
  else if sha256 body ≠ hash then (disk, ⟨400, "Hash mismatch. Payload corrupted.", []⟩)
  else (disk.put hash body, ⟨200, "OK", []⟩)

def getChunk (disk : Disk) (hash : String) : ChunkResponse :=
  match disk.get? hash with
  | some (b :: bs) => ⟨200, "", b :: bs⟩
  | _ => ⟨404, "", []⟩

def deleteChunk (disk : Disk) (hash : String) : Disk × ChunkResponse :=
  (disk.deleteWhere fun h _ => h == hash, ⟨200, "DELETED", []⟩)

/-- The handler that a request is routed to. -/
def serve (disk : Disk) : ChunkRequest → Disk × ChunkResponse
  | .post hash body => postChunk sha256 disk hash body
  | .get hash => (disk, getChunk disk hash)
  | .delete hash => deleteChunk disk hash

/-- The worker stores the chunk `hash`, with bytes of that digest. -/
def Holds (disk : Disk) (hash : String) : Prop := ∃ body ∈ disk.get? hash, sha256 body = hash

/-- Every stored chunk has the digest of its name. -/
def Honest (disk : Disk) : Prop := ∀ hash, ∀ body ∈ disk.get? hash, sha256 body = hash

theorem postChunk_cases (disk : Disk) (hash : String) (body : Bytes) :
    (sha256 body = hash ∧ (postChunk sha256 disk hash body).1 = disk.put hash body ∧
      (postChunk sha256 disk hash body).2.status = 200) ∨
    ((postChunk sha256 disk hash body).1 = disk ∧ (postChunk sha256 disk hash body).2.status ≠ 200) := by
  unfold postChunk
  split
  · exact Or.inr ⟨rfl, by simp⟩
  · split
    · exact Or.inr ⟨rfl, by simp⟩
    · split
      · exact Or.inr ⟨rfl, by simp⟩
      · rename_i hsha
        exact Or.inl ⟨not_not.1 hsha, rfl, rfl⟩

variable {sha256}

/-- **A chunk goes only by its own `DELETE`.** -/
theorem Holds.serve {disk : Disk} {hash : String} {req : ChunkRequest} (h : Holds sha256 disk hash)
    (hreq : req ≠ .delete hash) : Holds sha256 (serve sha256 disk req).1 hash := by
  obtain ⟨body, hbody, hsha⟩ := h
  cases req with
  | post k b =>
    simp only [StorageEngine.serve]
    rcases postChunk_cases sha256 disk k b with ⟨hk, hdisk, -⟩ | ⟨hdisk, -⟩
    · rw [hdisk]
      unfold Holds
      rw [Table.get?_put]
      split
      · rename_i he; exact ⟨b, rfl, hk.trans he.symm⟩
      · exact ⟨body, hbody, hsha⟩
    · rw [hdisk]; exact ⟨body, hbody, hsha⟩
  | get k => exact ⟨body, hbody, hsha⟩
  | delete k =>
    have hne : hash ≠ k := fun he => hreq (he ▸ rfl)
    refine ⟨body, ?_, hsha⟩
    simp only [StorageEngine.serve, deleteChunk, Table.get?_deleteWhere]
    rw [Option.mem_def, Option.filter_eq_some_iff]
    exact ⟨hbody, by simpa using hne⟩

/-- A `POST` that is answered with 200 has stored the chunk. -/
theorem holds_of_post {disk : Disk} {hash : String} {body : Bytes}
    (h : (serve sha256 disk (.post hash body)).2.status = 200) :
    Holds sha256 (serve sha256 disk (.post hash body)).1 hash := by
  simp only [serve] at h ⊢
  rcases postChunk_cases sha256 disk hash body with ⟨hsha, hdisk, -⟩ | ⟨-, hstatus⟩
  · rw [hdisk]
    exact ⟨body, by rw [Table.get?_put, if_pos rfl]; rfl, hsha⟩
  · exact absurd h hstatus

theorem Honest.serve {disk : Disk} (h : Honest sha256 disk) (req : ChunkRequest) :
    Honest sha256 (serve sha256 disk req).1 := by
  intro k body hbody
  cases req with
  | post hash b =>
    simp only [StorageEngine.serve] at hbody
    rcases postChunk_cases sha256 disk hash b with ⟨hsha, hdisk, -⟩ | ⟨hdisk, -⟩
    · rw [hdisk, Table.get?_put] at hbody
      split at hbody
      · rename_i he
        rw [Option.mem_def, Option.some.injEq] at hbody
        rw [← hbody, hsha, he]
      · exact h k body hbody
    · rw [hdisk] at hbody
      exact h k body hbody
  | get hash => exact h k body hbody
  | delete hash =>
    simp only [StorageEngine.serve, deleteChunk, Table.get?_deleteWhere, Option.mem_def,
      Option.filter_eq_some_iff] at hbody
    exact h k body hbody.1

end

/-- SHA-256 as far as the runs below need it: the digest of the chunk `a`. -/
def sampleSha256 (body : Bytes) : String := if body = [97] then sampleHash else ""

end StorageEngine
