import StorageEngine.Lib.Transition
import Mathlib.Algebra.Order.BigOperators.Group.List
import Mathlib.Algebra.Order.Ring.Nat

/-!
# Disk reservations

`SaveChunk` calls of a worker, interleaved (`LocalDiskStorage.hpp:25-107`). A call knows the size of its ciphertext,
asks for the space under `storage_mutex`, opens its file, writes, and gives the reservation back under the mutex. The
space is measured at one instant and compared later: the calls that hold reservations write on in between. Space is
counted in bytes and only chunk writes consume it; files that are removed or truncated free some at any time.

| here | there |
| --- | --- |
| `DiskSpace.lock`     | `storage_mutex`, with the call that holds it |
| `SavePhase.measured` | between `space` and the comparison (`:30-42`) |
| `needed`, `reserves` | `needed_space`, `actual_safe_space < needed_space` (`:37-40`) |
| `release`            | `:85-87` after a failed open, `:99-102` after the write |
| `maxCiphertext`      | the IV and an `int ciphertext_len` (`crypto.hpp:48, 67`) |
-/

namespace StorageEngine

open Transition

/-- The 50 MB of `needed_space` (`:36`). -/
def safetyMargin : Nat := 50 * 1024 * 1024

def maxCiphertext : Nat := 16 + (2 ^ 31 - 1)

/-- The addresses a process can use: the ciphertexts in memory are smaller together. -/
def addressSpace : Nat := 2 ^ 63

/-- A value that is put into a `long long`. -/
def toLongLong (i : Int) : Int := i.bmod (2 ^ 64)

inductive SavePhase where
  | encrypted
  | measured (space : Nat)
  | refused
  | reserved
  | openFailed
  | opened (written : Nat)
  | returned (success : Bool)
deriving DecidableEq, Repr

/-- A call of `SaveChunk`: the size of its ciphertext, and where it is. -/
structure SaveCall where
  size : Nat
  phase : SavePhase
deriving DecidableEq, Repr

structure DiskSpace where
  available : Nat
  inFlightBytes : Int
  lock : Option Nat
  calls : List SaveCall
deriving DecidableEq, Repr

/-- One step of a call (the `i`-th), or of the rest of the disk. -/
inductive SaveStep where
  | encrypt (size : Nat)
  | measure (i : Nat) (ec : Bool)
  | reserve (i : Nat)
  | openFile (i : Nat) (isOpen : Bool)
  | write (i n : Nat)
  | release (i : Nat)
  | free (n : Nat)

namespace SaveCall

/-- Not returned yet: the ciphertext is in memory. -/
def live (c : SaveCall) : Bool :=
  match c.phase with
  | .refused | .returned _ => false
  | _ => true

/-- Between a granted reservation and its release. -/
def holds (c : SaveCall) : Bool :=
  match c.phase with
  | .reserved | .openFailed | .opened _ => true
  | _ => false

/-- The reservation was granted, now or earlier. -/
def granted (c : SaveCall) : Bool :=
  match c.phase with
  | .returned _ => true
  | _ => c.holds

/-- What the call may still write under its reservation. -/
def remaining (c : SaveCall) : Nat :=
  match c.phase with
  | .reserved | .openFailed => c.size
  | .opened written => c.size - written
  | _ => 0

/-- What the call has in memory. -/
def liveSize (c : SaveCall) : Nat := if c.live then c.size else 0

/-- What the call has reserved. -/
def heldSize (c : SaveCall) : Nat := if c.holds then c.size else 0

end SaveCall

/-- What all calls have in memory. -/
def liveBytes (calls : List SaveCall) : Nat := (calls.map SaveCall.liveSize).sum

/-- The sizes of the calls between a granted reservation and its release. -/
def heldBytes (calls : List SaveCall) : Nat := (calls.map SaveCall.heldSize).sum

/-- What all calls have still to write. -/
def remainingBytes (calls : List SaveCall) : Nat := (calls.map SaveCall.remaining).sum

/-- `needed_space` (`:36`). -/
def neededSpace (size : Nat) : Int := toLongLong (toLongLong size + safetyMargin)

/-- `actual_safe_space` (`:35`). -/
def actualSafeSpace (available : Nat) (inFlightBytes : Int) : Int :=
  toLongLong (toLongLong available - inFlightBytes)

/-- The state with the call `i` moved to `phase`. -/
def DiskSpace.move (s : DiskSpace) (i size : Nat) (phase : SavePhase) : DiskSpace :=
  { s with calls := s.calls.set i ⟨size, phase⟩ }

/-- `in_flight_bytes -= encrypted_data.size()` under the lock. -/
def DiskSpace.giveBack (s : DiskSpace) (i size : Nat) (success : Bool) : DiskSpace :=
  { s.move i size (.returned success) with inFlightBytes := toLongLong (s.inFlightBytes - size) }

/-- `none` where the call is not there, or waits for the lock. -/
def saveStep (s : DiskSpace) : SaveStep → Option DiskSpace
  | .encrypt size =>
    if size ≤ maxCiphertext ∧ liveBytes s.calls + size < addressSpace then
      some { s with calls := s.calls ++ [⟨size, .encrypted⟩] }
    else none
  | .measure i ec =>
    match s.calls[i]?, s.lock with
    | some ⟨size, .encrypted⟩, none =>
      if ec then some (s.move i size .refused)
      else some { s.move i size (.measured s.available) with lock := some i }
    | _, _ => none
  | .reserve i =>
    match s.calls[i]? with
    | some ⟨size, .measured space⟩ =>
      if actualSafeSpace space s.inFlightBytes < neededSpace size then
        some { s.move i size .refused with lock := none }
      else
        some { s.move i size .reserved with lock := none, inFlightBytes := toLongLong (s.inFlightBytes + size) }
    | _ => none
  | .openFile i isOpen =>
    match s.calls[i]? with
    | some ⟨size, .reserved⟩ => some (s.move i size (if isOpen then .opened 0 else .openFailed))
    | _ => none
  | .write i n =>
    match s.calls[i]? with
    | some ⟨size, .opened written⟩ =>
      if written + n ≤ size ∧ n ≤ s.available then
        some { s.move i size (.opened (written + n)) with available := s.available - n }
      else none
    | _ => none
  | .release i =>
    match s.calls[i]?, s.lock with
    | some ⟨size, .openFailed⟩, none => some (s.giveBack i size false)
    | some ⟨size, .opened written⟩, none => some (s.giveBack i size (written == size))
    | _, _ => none
  | .free n => some { s with available := s.available + n }

/-- A worker that has just started. -/
def idleDisk (available : Nat) : DiskSpace := ⟨available, 0, none, []⟩

/-! ## What a step does -/

/-- The move of one call, from `p` to `q`. -/
inductive CallMove (s : DiskSpace) (i size : Nat) : SavePhase → SavePhase → DiskSpace → Prop
  | failed (hlock : s.lock = none) : CallMove s i size .encrypted .refused (s.move i size .refused)
  | measured (hlock : s.lock = none) :
    CallMove s i size .encrypted (.measured s.available)
      { s.move i size (.measured s.available) with lock := some i }
  | refused {space : Nat} (hspace : actualSafeSpace space s.inFlightBytes < neededSpace size) :
    CallMove s i size (.measured space) .refused { s.move i size .refused with lock := none }
  | reserved {space : Nat} (hspace : neededSpace size ≤ actualSafeSpace space s.inFlightBytes) :
    CallMove s i size (.measured space) .reserved
      { s.move i size .reserved with lock := none, inFlightBytes := toLongLong (s.inFlightBytes + size) }
  | opened : CallMove s i size .reserved (.opened 0) (s.move i size (.opened 0))
  | openFailed : CallMove s i size .reserved .openFailed (s.move i size .openFailed)
  | wrote {written n : Nat} (hsize : written + n ≤ size) (havailable : n ≤ s.available) :
    CallMove s i size (.opened written) (.opened (written + n))
      { s.move i size (.opened (written + n)) with available := s.available - n }
  | released {p : SavePhase} {success : Bool} (hlock : s.lock = none) (hp : p = .openFailed ∨ ∃ w, p = .opened w) :
    CallMove s i size p (.returned success) (s.giveBack i size success)

theorem saveStep_cases {s t : DiskSpace} {a : SaveStep} (h : saveStep s a = some t) :
    (∃ size, size ≤ maxCiphertext ∧ liveBytes s.calls + size < addressSpace ∧
      t = { s with calls := s.calls ++ [⟨size, .encrypted⟩] }) ∨
    (∃ i size p q, s.calls[i]? = some ⟨size, p⟩ ∧ CallMove s i size p q t) ∨
    ∃ n, t = { s with available := s.available + n } := by
  cases a with
  | encrypt size =>
    simp only [saveStep, Option.ite_none_right_eq_some, Option.some.injEq] at h
    exact Or.inl ⟨size, h.1.1, h.1.2, h.2.symm⟩
  | measure i ec =>
    refine Or.inr (Or.inl ?_)
    simp only [saveStep] at h
    split at h
    · rename_i size hcall hlock
      split at h
      · cases h
        exact ⟨i, size, _, _, hcall, .failed hlock⟩
      · cases h
        exact ⟨i, size, _, _, hcall, .measured hlock⟩
    · cases h
  | reserve i =>
    refine Or.inr (Or.inl ?_)
    simp only [saveStep] at h
    split at h
    · rename_i size space hcall
      split at h
      · rename_i hspace
        cases h
        exact ⟨i, size, _, _, hcall, .refused hspace⟩
      · rename_i hspace
        cases h
        exact ⟨i, size, _, _, hcall, .reserved (not_lt.1 hspace)⟩
    · cases h
  | openFile i isOpen =>
    refine Or.inr (Or.inl ?_)
    simp only [saveStep] at h
    split at h
    · rename_i size hcall
      cases isOpen with
      | false => cases h; exact ⟨i, size, _, _, hcall, .openFailed⟩
      | true => cases h; exact ⟨i, size, _, _, hcall, .opened⟩
    · cases h
  | write i n =>
    refine Or.inr (Or.inl ?_)
    simp only [saveStep] at h
    split at h
    · rename_i size written hcall
      simp only [Option.ite_none_right_eq_some, Option.some.injEq] at h
      obtain ⟨⟨hsize, havailable⟩, rfl⟩ := h
      exact ⟨i, size, _, _, hcall, .wrote hsize havailable⟩
    · cases h
  | release i =>
    refine Or.inr (Or.inl ?_)
    simp only [saveStep] at h
    split at h
    · rename_i size hcall hlock
      cases h
      exact ⟨i, size, _, _, hcall, .released hlock (Or.inl rfl)⟩
    · rename_i size written hcall hlock
      cases h
      exact ⟨i, size, _, _, hcall, .released hlock (Or.inr ⟨written, rfl⟩)⟩
    · cases h
  | free n =>
    cases h
    exact Or.inr (Or.inr ⟨n, rfl⟩)

/-! ## Sums over the calls -/

theorem sum_map_set {α : Type} (f : α → Nat) {l : List α} {i : Nat} {a : α} (h : l[i]? = some a) (b : α) :
    ((l.set i b).map f).sum + f a = (l.map f).sum + f b := by
  induction l generalizing i with
  | nil => cases h
  | cons x xs ih =>
    cases i with
    | zero =>
      rw [List.getElem?_cons_zero, Option.some.injEq] at h
      subst h
      simp only [List.set_cons_zero, List.map_cons, List.sum_cons]
      omega
    | succ i =>
      have hrest := ih (i := i) (by rwa [List.getElem?_cons_succ] at h)
      simp only [List.set_cons_succ, List.map_cons, List.sum_cons]
      omega

theorem heldSize_le (c : SaveCall) : c.heldSize ≤ c.liveSize := by
  cases c with
  | mk size phase => cases phase <;> simp [SaveCall.heldSize, SaveCall.liveSize, SaveCall.holds, SaveCall.live]

theorem remainingBytes_le (calls : List SaveCall) : remainingBytes calls ≤ heldBytes calls := by
  refine List.sum_le_sum fun c _ => ?_
  cases c with
  | mk size phase => cases phase <;> simp [SaveCall.remaining, SaveCall.heldSize, SaveCall.holds]

/-- What holds a reservation is in memory. -/
theorem heldBytes_le (calls : List SaveCall) : heldBytes calls ≤ liveBytes calls :=
  List.sum_le_sum fun c _ => heldSize_le c

/-- A call that holds none yet is in memory besides. -/
theorem heldBytes_add_le {calls : List SaveCall} {i size space : Nat} (h : calls[i]? = some ⟨size, .measured space⟩) :
    heldBytes calls + size ≤ liveBytes calls := by
  have hheld := sum_map_set SaveCall.heldSize h ⟨size, .reserved⟩
  have hlive := sum_map_set SaveCall.liveSize h ⟨size, .reserved⟩
  have hle := heldBytes_le (calls.set i ⟨size, .reserved⟩)
  simp only [SaveCall.heldSize, SaveCall.liveSize, SaveCall.holds, SaveCall.live, Bool.false_eq_true, if_false, if_true]
    at hheld hlive
  unfold heldBytes liveBytes at hle ⊢
  omega

/-! ## The machine arithmetic -/

theorem toLongLong_eq {i : Int} (hlo : -2 ^ 63 ≤ i) (hhi : i < 2 ^ 63) : toLongLong i = i :=
  Int.bmod_eq_of_le (by omega) (by omega)

theorem toLongLong_le {i : Int} (hlo : -2 ^ 63 ≤ i) : toLongLong i ≤ i := by
  unfold toLongLong
  rw [Int.bmod_def]
  split <;> omega

theorem neededSpace_eq {size : Nat} (h : size ≤ maxCiphertext) : neededSpace size = size + safetyMargin := by
  unfold maxCiphertext at h
  unfold neededSpace safetyMargin
  rw [toLongLong_eq (i := size) (by omega) (by omega), toLongLong_eq (by omega) (by omega)]

/-- **What the comparison grants is there**, also where `available` is no `long long`. -/
theorem actualSafeSpace_le (available held : Nat) (h : held < addressSpace) :
    actualSafeSpace available held ≤ available - held := by
  unfold addressSpace at h
  unfold actualSafeSpace toLongLong
  rw [Int.bmod_sub_bmod]
  exact toLongLong_le (by omega)

/-! ## The invariant -/

/-- A call that has measured the space is inside the lock, and the space it has read is what is left now and what the
calls that hold a reservation have written since or will leave unwritten. -/
structure SpaceInv (s : DiskSpace) : Prop where
  inFlight : s.inFlightBytes = heldBytes s.calls
  memory : liveBytes s.calls < addressSpace
  sizes : ∀ c ∈ s.calls, c.size ≤ maxCiphertext
  margin : s.calls.any SaveCall.granted = true → safetyMargin + remainingBytes s.calls ≤ s.available
  reading : ∀ i size space, s.calls[i]? = some ⟨size, .measured space⟩ →
    s.lock = some i ∧ space + remainingBytes s.calls ≤ s.available + heldBytes s.calls

theorem spaceInv_idleDisk (available : Nat) : SpaceInv (idleDisk available) where
  inFlight := rfl
  memory := Nat.two_pow_pos 63
  sizes c hc := by cases hc
  margin h := by cases h
  reading i size space h := by cases h

theorem SpaceInv.encrypt {s : DiskSpace} (hi : SpaceInv s) {size : Nat} (hsize : size ≤ maxCiphertext)
    (hmemory : liveBytes s.calls + size < addressSpace) :
    SpaceInv { s with calls := s.calls ++ [⟨size, .encrypted⟩] } := by
  have hheld : heldBytes (s.calls ++ [⟨size, .encrypted⟩]) = heldBytes s.calls := by
    simp [heldBytes, SaveCall.heldSize, SaveCall.holds]
  have hremaining : remainingBytes (s.calls ++ [⟨size, .encrypted⟩]) = remainingBytes s.calls := by
    simp [remainingBytes, SaveCall.remaining]
  refine ⟨?_, ?_, ?_, ?_, ?_⟩
  · show s.inFlightBytes = _
    rw [hheld, hi.inFlight]
  · simpa [liveBytes, SaveCall.liveSize, SaveCall.live] using hmemory
  · intro c hc
    rcases List.mem_append.1 hc with hc | hc
    · exact hi.sizes c hc
    · rw [List.mem_singleton.1 hc]
      exact hsize
  · intro h
    rw [hremaining]
    refine hi.margin ?_
    simpa [SaveCall.granted, SaveCall.holds] using h
  · intro i size' space h
    rw [hheld, hremaining]
    refine hi.reading i size' space ?_
    rw [List.getElem?_append] at h
    split at h
    · exact h
    · rw [List.getElem?_singleton] at h
      split at h
      · cases h
      · cases h

theorem SpaceInv.free {s : DiskSpace} (hi : SpaceInv s) (n : Nat) :
    SpaceInv { s with available := s.available + n } where
  inFlight := hi.inFlight
  memory := hi.memory
  sizes := hi.sizes
  margin h := (hi.margin h).trans (Nat.le_add_right _ _)
  reading i size space h := by
    obtain ⟨hlock, hspace⟩ := hi.reading i size space h
    exact ⟨hlock, by simp only; omega⟩

section

variable {s t : DiskSpace} {i size : Nat} {p q : SavePhase}

theorem CallMove.calls (hm : CallMove s i size p q t) : t.calls = s.calls.set i ⟨size, q⟩ := by
  cases hm <;> rfl

theorem any_set_granted {calls : List SaveCall} (h : calls[i]? = some ⟨size, p⟩)
    (hpq : SaveCall.granted ⟨size, q⟩ = SaveCall.granted ⟨size, p⟩) :
    (calls.set i ⟨size, q⟩).any SaveCall.granted = calls.any SaveCall.granted := by
  induction calls generalizing i with
  | nil => cases h
  | cons c cs ih =>
    cases i with
    | zero =>
      rw [List.getElem?_cons_zero, Option.some.injEq] at h
      rw [List.set_cons_zero, List.any_cons, List.any_cons, hpq, h]
    | succ i =>
      rw [List.getElem?_cons_succ] at h
      rw [List.set_cons_succ, List.any_cons, List.any_cons, ih h]

theorem CallMove.memory (hi : SpaceInv s) (hcall : s.calls[i]? = some ⟨size, p⟩) (hm : CallMove s i size p q t) :
    liveBytes t.calls < addressSpace := by
  have hlive := sum_map_set SaveCall.liveSize hcall ⟨size, q⟩
  have hle : SaveCall.liveSize ⟨size, q⟩ ≤ SaveCall.liveSize ⟨size, p⟩ := by
    cases hm with
    | released _ hp => simp [SaveCall.liveSize, SaveCall.live]
    | _ => simp [SaveCall.liveSize, SaveCall.live]
  have hmemory := hi.memory
  rw [hm.calls]
  unfold liveBytes at hmemory ⊢
  omega

/-- **Every release gives back what its call took.** -/
theorem CallMove.inFlight (hi : SpaceInv s) (hcall : s.calls[i]? = some ⟨size, p⟩) (hm : CallMove s i size p q t) :
    t.inFlightBytes = heldBytes t.calls := by
  have hheld := sum_map_set SaveCall.heldSize hcall ⟨size, q⟩
  have hflight := hi.inFlight
  have hmemory := hm.memory hi hcall
  have hle := heldBytes_le t.calls
  rw [hm.calls] at hmemory hle ⊢
  unfold addressSpace at hmemory
  unfold heldBytes at hflight hle ⊢
  cases hm with
  | reserved hspace =>
    show toLongLong (s.inFlightBytes + size) = _
    simp only [SaveCall.heldSize, SaveCall.holds, Bool.false_eq_true, if_false, if_true] at hheld
    rw [toLongLong_eq (by omega) (by omega)]
    omega
  | released hlock hp =>
    show toLongLong (s.inFlightBytes - size) = _
    have hsize : SaveCall.heldSize ⟨size, p⟩ = size := by
      rcases hp with rfl | ⟨w, rfl⟩ <;> rfl
    rw [hsize] at hheld
    simp only [SaveCall.heldSize, SaveCall.holds, Bool.false_eq_true, if_false] at hheld
    rw [toLongLong_eq (by omega) (by omega)]
    omega
  | _ =>
    show s.inFlightBytes = _
    simp only [SaveCall.heldSize, SaveCall.holds, Bool.false_eq_true, if_false, if_true] at hheld
    omega

/-- **A grant leaves the margin beside all that is still to be written.** -/
theorem CallMove.margin (hi : SpaceInv s) (hcall : s.calls[i]? = some ⟨size, p⟩) (hm : CallMove s i size p q t)
    (hgranted : t.calls.any SaveCall.granted = true) : safetyMargin + remainingBytes t.calls ≤ t.available := by
  have hremaining := sum_map_set SaveCall.remaining hcall ⟨size, q⟩
  have hsize : size ≤ maxCiphertext := hi.sizes _ (List.mem_of_getElem? hcall)
  rw [hm.calls] at hgranted ⊢
  have hmargin : SaveCall.granted ⟨size, q⟩ = SaveCall.granted ⟨size, p⟩ →
      safetyMargin + (s.calls.map SaveCall.remaining).sum ≤ s.available :=
    fun hpq => hi.margin ((any_set_granted hcall hpq).symm.trans hgranted)
  unfold remainingBytes
  cases hm with
  | @reserved space hspace =>
    show _ ≤ s.available
    obtain ⟨-, hreading⟩ := hi.reading i size space hcall
    have hheld := heldBytes_add_le hcall
    have hmemory := hi.memory
    have hactual := actualSafeSpace_le space (heldBytes s.calls) (by omega)
    rw [neededSpace_eq hsize, hi.inFlight] at hspace
    unfold remainingBytes at hreading
    simp only [SaveCall.remaining] at hremaining
    omega
  | @wrote written n hwritten havailable =>
    show _ ≤ s.available - n
    have hmargin := hmargin rfl
    simp only [SaveCall.remaining] at hremaining
    omega
  | released hlock hp =>
    show _ ≤ s.available
    have hmargin := hmargin (by rcases hp with rfl | ⟨w, rfl⟩ <;> rfl)
    simp only [SaveCall.remaining] at hremaining
    omega
  | _ =>
    show _ ≤ s.available
    have hmargin := hmargin rfl
    simp only [SaveCall.remaining] at hremaining
    omega

/-- **A reading stays good while the lock is held**: the calls outside the lock only write what they have reserved. -/
theorem CallMove.reading (hi : SpaceInv s) (hcall : s.calls[i]? = some ⟨size, p⟩) (hm : CallMove s i size p q t)
    {j size' space : Nat} (h : t.calls[j]? = some ⟨size', .measured space⟩) :
    t.lock = some j ∧ space + remainingBytes t.calls ≤ t.available + heldBytes t.calls := by
  have hheld := sum_map_set SaveCall.heldSize hcall ⟨size, q⟩
  have hremaining := sum_map_set SaveCall.remaining hcall ⟨size, q⟩
  have hle := remainingBytes_le t.calls
  rw [hm.calls] at h hle ⊢
  by_cases hij : i = j
  · subst hij
    rw [List.getElem?_set_self (List.getElem?_eq_some_iff.1 hcall).1, Option.some.injEq, SaveCall.mk.injEq] at h
    obtain ⟨-, hq⟩ := h
    cases hm with
    | measured =>
      cases hq
      exact ⟨rfl, Nat.add_le_add_left hle _⟩
    | _ => cases hq
  · rw [List.getElem?_set_ne hij] at h
    obtain ⟨hlock, hspace⟩ := hi.reading j size' space h
    unfold remainingBytes heldBytes at hspace ⊢
    cases hm with
    | refused | reserved =>
      have hi' := (hi.reading i size _ hcall).1
      rw [hlock, Option.some.injEq] at hi'
      exact absurd hi'.symm hij
    | failed hnone | measured hnone | released hnone =>
      rw [hlock] at hnone
      cases hnone
    | opened | openFailed =>
      refine ⟨hlock, ?_⟩
      show _ ≤ s.available + _
      simp only [SaveCall.remaining, SaveCall.heldSize, SaveCall.holds, if_true] at hremaining hheld
      omega
    | wrote hwritten havailable =>
      refine ⟨hlock, ?_⟩
      show _ ≤ s.available - _ + _
      simp only [SaveCall.remaining, SaveCall.heldSize, SaveCall.holds, if_true] at hremaining hheld
      omega

theorem CallMove.inv (hi : SpaceInv s) (hcall : s.calls[i]? = some ⟨size, p⟩) (hm : CallMove s i size p q t) :
    SpaceInv t where
  inFlight := hm.inFlight hi hcall
  memory := hm.memory hi hcall
  sizes c hc := by
    rw [hm.calls] at hc
    rcases List.mem_or_eq_of_mem_set hc with hc | rfl
    · exact hi.sizes c hc
    · exact hi.sizes ⟨size, p⟩ (List.mem_of_getElem? hcall)
  margin := hm.margin hi hcall
  reading _ _ _ := hm.reading hi hcall

end

/-- **Every step keeps the invariant.** -/
theorem SpaceInv.step {s t : DiskSpace} {a : SaveStep} (hi : SpaceInv s) (h : saveStep s a = some t) : SpaceInv t := by
  rcases saveStep_cases h with ⟨size, hsize, hmemory, rfl⟩ | ⟨i, size, p, q, hcall, hm⟩ | ⟨n, rfl⟩
  · exact hi.encrypt hsize hmemory
  · exact hm.inv hi hcall
  · exact hi.free n

theorem heldBytes_idle {calls : List SaveCall} (h : ∀ c ∈ calls, c.holds = false) : heldBytes calls = 0 := by
  refine List.sum_eq_zero fun n hn => ?_
  obtain ⟨c, hc, rfl⟩ := List.mem_map.1 hn
  unfold SaveCall.heldSize
  rw [h c hc]
  rfl

/-- **The reservations keep the safety margin**: after any steps of any number of calls, `in_flight_bytes` is the sum of
what the calls hold, and once a reservation was granted 50 MiB are left. -/
theorem reservations_keep_margin {available : Nat} {steps : List SaveStep} {s : DiskSpace}
    (h : exec saveStep (idleDisk available) steps = some s) :
    s.inFlightBytes = heldBytes s.calls ∧ 0 ≤ s.inFlightBytes ∧
      ((∀ c ∈ s.calls, c.holds = false) → s.inFlightBytes = 0) ∧
      ((∃ c ∈ s.calls, c.granted = true) → safetyMargin ≤ s.available) := by
  have hi := exec_inv (fun s a t (hi : SpaceInv s) => hi.step) (spaceInv_idleDisk available) h
  refine ⟨hi.inFlight, ?_, fun hidle => ?_, fun hgranted => ?_⟩
  · rw [hi.inFlight]
    exact Int.natCast_nonneg _
  · rw [hi.inFlight, heldBytes_idle hidle]
    rfl
  · have hmargin := hi.margin (List.any_eq_true.2 hgranted)
    omega

/-- Room for one call of two: the second is refused while the first, whose bytes are written in part, is under way. -/
def contended : List SaveStep :=
  [.encrypt 48, .encrypt 32, .measure 0 false, .reserve 0, .openFile 0 true, .write 0 20, .measure 1 false, .write 0 20,
    .reserve 1, .release 0]

theorem reservations_keep_margin_contended :
    ∃ s, exec saveStep (idleDisk (safetyMargin + 60)) contended = some s ∧ s.inFlightBytes = heldBytes s.calls ∧
      0 ≤ s.inFlightBytes ∧ ((∀ c ∈ s.calls, c.holds = false) → s.inFlightBytes = 0) ∧
      ((∃ c ∈ s.calls, c.granted = true) → safetyMargin ≤ s.available) :=
  have h : exec saveStep (idleDisk (safetyMargin + 60)) contended =
      some ⟨safetyMargin + 20, 0, none, [⟨48, .returned false⟩, ⟨32, .refused⟩]⟩ := by decide
  ⟨_, h, reservations_keep_margin h⟩

end StorageEngine
