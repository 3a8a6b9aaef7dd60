import StorageEngine.Lib.Extent

/-!
# Input file streams

A file that is read through a C++ stream. The stream carries an error state from one call to the next: a short `read`
sets `eofbit` and `failbit`, `seekg` clears `eofbit` only and does nothing while `failbit` is set, and nothing is read
from a stream that is not good.
-/

namespace InputStream

open Extent

universe u

variable {α : Type u}

/-- An input stream on a file, with its position and two of its state bits. -/
structure Stream (α : Type u) where
  content : List α
  pos : Nat
  eofbit : Bool
  failbit : Bool
deriving DecidableEq, Repr

namespace Stream

/-- At the beginning. -/
def opened (content : List α) : Stream α := ⟨content, 0, false, false⟩

/-- Opened with `ios::ate`. -/
def openedAtEnd (content : List α) : Stream α := ⟨content, content.length, false, false⟩

/-- `rdstate() == goodbit`. -/
def good (s : Stream α) : Bool := !s.eofbit && !s.failbit

/-- What is got of `n`, and the stream. -/
def read (s : Stream α) (n : Nat) : List α × Stream α :=
  if s.good then
    let got := slice s.content s.pos n
    (got, { s with pos := s.pos + got.length, eofbit := got.length < n, failbit := got.length < n })
  else ([], { s with failbit := true })

/-- From the beginning. -/
def seekg (s : Stream α) (offset : Int) : Stream α :=
  if s.failbit then { s with eofbit := false }
  else if 0 ≤ offset then { s with pos := offset.toNat, eofbit := false }
  else { s with eofbit := false, failbit := true }

/-- -1 in the failed state. -/
def tellg (s : Stream α) : Int := if s.failbit then -1 else s.pos

/-- A file at a place, with no error. -/
def atOffset (content : List α) (pos : Nat) : Stream α := ⟨content, pos, false, false⟩

@[simp] theorem atOffset_zero (content : List α) : atOffset content 0 = opened content := rfl

@[simp] theorem atOffset_length (content : List α) : atOffset content content.length = openedAtEnd content := rfl

theorem seekg_at (content : List α) (pos : Nat) {offset : Int} (h : 0 ≤ offset) :
    (atOffset content pos).seekg offset = atOffset content offset.toNat := by
  simp [seekg, atOffset, h]

/-- **A whole read.** -/
theorem read_whole {content : List α} {pos n : Nat} (h : pos + n ≤ content.length) :
    (atOffset content pos).read n = (slice content pos n, atOffset content (pos + n)) := by
  have hlen : (slice content pos n).length = n := by
    rw [length_slice]
    omega
  simp [read, atOffset, good, hlen]

/-- **A short read** fails the stream. -/
theorem read_short {content : List α} {pos n : Nat} (h : content.length < pos + n) (hn : 0 < n) :
    ((atOffset content pos).read n).1 = slice content pos n ∧ ((atOffset content pos).read n).2.failbit = true := by
  have hlen : (slice content pos n).length < n := by
    rw [length_slice]
    omega
  simp [read, atOffset, good, hlen]

theorem read_failed {s : Stream α} (h : s.failbit = true) (n : Nat) : (s.read n).1 = [] ∧ (s.read n).2.failbit = true := by
  simp [read, good, h]

theorem seekg_failed {s : Stream α} (h : s.failbit = true) (offset : Int) : (s.seekg offset).failbit = true := by
  simp [seekg, h]

end Stream

end InputStream
