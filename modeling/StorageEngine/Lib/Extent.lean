import Mathlib.Algebra.Order.Ring.Nat
import Mathlib.Algebra.Order.BigOperators.Group.List

/-!
# Reads and writes at a position

A file is a list of cells. `slice` reads an extent, `writeAt` writes one: past the end the hole is filled with
a padding cell, as a file system does. A file that is the concatenation of parts has each part at its
`offset`, the sum of the sizes before it; extents of different parts do not overlap.
-/

namespace Extent

universe u

variable {α : Type u}

def slice (l : List α) (off len : Nat) : List α := (l.drop off).take len

def writeAt (pad : α) (l : List α) (off : Nat) (data : List α) : List α :=
  l.take off ++ List.replicate (off - l.length) pad ++ data ++ l.drop (off + data.length)

/-! ## One write -/

theorem getElem?_slice (l : List α) (off len k : Nat) :
    (slice l off len)[k]? = if k < len then l[off + k]? else none := by
  rw [slice, List.getElem?_take, List.getElem?_drop]

theorem length_slice (l : List α) (off len : Nat) : (slice l off len).length = min len (l.length - off) := by
  simp [slice]

/-- What a cell holds after a write. -/
theorem getElem?_writeAt (pad : α) (l : List α) (off : Nat) (data : List α) (k : Nat) :
    (writeAt pad l off data)[k]? =
      if k < off then (if k < l.length then l[k]? else some pad)
      else if k < off + data.length then data[k - off]? else l[k]? := by
  have hfront : (l.take off ++ List.replicate (off - l.length) pad).length = off := by
    simp
    omega
  by_cases h1 : k < off
  · rw [if_pos h1, writeAt, List.append_assoc, List.getElem?_append_left (by omega)]
    by_cases h2 : k < l.length
    · rw [if_pos h2, List.getElem?_append_left (by simp; omega), List.getElem?_take, if_pos h1]
    · rw [if_neg h2, List.getElem?_append_right (by simp; omega), List.getElem?_replicate, if_pos (by simp; omega)]
  · rw [if_neg h1, writeAt, List.append_assoc, List.getElem?_append_right (by omega), hfront]
    by_cases h2 : k < off + data.length
    · rw [if_pos h2, List.getElem?_append_left (by omega)]
    · rw [if_neg h2, List.getElem?_append_right (by omega), List.getElem?_drop]
      congr 1
      omega

theorem length_writeAt (pad : α) (l : List α) (off : Nat) (data : List α) :
    (writeAt pad l off data).length = max l.length (off + data.length) := by
  simp [writeAt]
  omega

/-- What was written is read back. -/
theorem slice_writeAt_self (pad : α) (l : List α) (off : Nat) (data : List α) :
    slice (writeAt pad l off data) off data.length = data := by
  ext k : 1
  rw [getElem?_slice]
  split
  · rw [getElem?_writeAt, if_neg (by omega), if_pos (by omega), Nat.add_sub_cancel_left]
  · rw [List.getElem?_eq_none (by omega)]

/-- The rest of the file is as before. -/
theorem slice_writeAt_disjoint (pad : α) {l : List α} {off : Nat} {data : List α} {off' len : Nat}
    (hin : off' + len ≤ l.length) (h : off' + len ≤ off ∨ off + data.length ≤ off') :
    slice (writeAt pad l off data) off' len = slice l off' len := by
  ext k : 1
  rw [getElem?_slice, getElem?_slice]
  split
  · rw [getElem?_writeAt]
    rcases h with h | h
    · rw [if_pos (by omega), if_pos (by omega)]
    · rw [if_neg (by omega), if_neg (by omega)]
  · rfl

/-- What comes before the end of a write within the file. -/
theorem take_writeAt (pad : α) {l : List α} {off : Nat} (h : off ≤ l.length) (data : List α) :
    (writeAt pad l off data).take (off + data.length) = l.take off ++ data := by
  rw [writeAt, Nat.sub_eq_zero_of_le h, List.replicate_zero, List.append_nil]
  exact List.take_left' (by simp [h])

/-- Writing to the end what follows a prefix. -/
theorem writeAt_length (pad : α) (l data : List α) : writeAt pad l l.length data = l ++ data := by
  simp [writeAt]

/-- A list that is written piece by piece. -/
theorem writeAt_take (pad : α) {l : List α} {n : Nat} (h : n ≤ l.length) (k : Nat) :
    writeAt pad (l.take n) n ((l.drop n).take k) = l.take (n + ((l.drop n).take k).length) := by
  have hlen : (l.take n).length = n := by simp [h]
  have happ := writeAt_length pad (l.take n) ((l.drop n).take k)
  rw [hlen] at happ
  rw [happ, List.take_add, List.length_take]
  congr 1
  rw [List.take_eq_take_iff]
  simp

/-! ## Parts of a file -/

/-- Where part `i` begins. -/
def offset (sizes : List Nat) (i : Nat) : Nat := (sizes.take i).sum

theorem offset_succ {sizes : List Nat} {i size : Nat} (h : sizes[i]? = some size) :
    offset sizes (i + 1) = offset sizes i + size := by
  rw [offset, offset, List.take_add_one, h, List.sum_append]
  simp

theorem offset_mono {sizes : List Nat} {i j : Nat} (h : i ≤ j) : offset sizes i ≤ offset sizes j :=
  (List.take_sublist_take_left h).sum_le_sum fun _ _ => Nat.zero_le _

theorem offset_le_sum (sizes : List Nat) (i : Nat) : offset sizes i ≤ sizes.sum :=
  (List.take_sublist i sizes).sum_le_sum fun _ _ => Nat.zero_le _

/-- Every part lies within the file. -/
theorem offset_add_le {sizes : List Nat} {i size : Nat} (h : sizes[i]? = some size) :
    offset sizes i + size ≤ sizes.sum := by
  rw [← offset_succ h]
  exact offset_le_sum sizes (i + 1)

/-- Different parts do not overlap. -/
theorem offset_disjoint {sizes : List Nat} {i j size size' : Nat} (hi : sizes[i]? = some size)
    (hj : sizes[j]? = some size') (hij : i ≠ j) :
    offset sizes i + size ≤ offset sizes j ∨ offset sizes j + size' ≤ offset sizes i := by
  rcases Nat.lt_or_gt_of_ne hij with h | h
  · left
    rw [← offset_succ hi]
    exact offset_mono h
  · right
    rw [← offset_succ hj]
    exact offset_mono h

/-- **A file whose parts are given is their concatenation.** -/
theorem eq_flatten_of_slices {ps : List (List α)} {l : List α} (hlen : l.length = (ps.map List.length).sum)
    (h : ∀ i p, ps[i]? = some p → slice l (offset (ps.map List.length) i) p.length = p) : l = ps.flatten := by
  induction ps generalizing l with
  | nil => simpa using hlen
  | cons p ps ih =>
    have hhead : l.take p.length = p := by simpa [offset, slice] using h 0 p rfl
    rw [List.map_cons, List.sum_cons] at hlen
    have htail : l.drop p.length = ps.flatten := by
      refine ih (by simp [hlen]) fun i q hq => ?_
      have hq' := h (i + 1) q hq
      rwa [offset, List.map_cons, List.take_succ_cons, List.sum_cons, slice, ← List.drop_drop] at hq'
    rw [List.flatten_cons, ← htail]
    conv_lhs => rw [← List.take_append_drop p.length l, hhead]

/-! ## Parts of one size -/

/-- The parts of `size` cells each, the last one perhaps shorter. -/
def pieces (size : Nat) (l : List α) : List (List α) :=
  (List.range ((l.length + size - 1) / size)).map fun i => slice l (i * size) size

theorem length_pieces (size : Nat) (l : List α) : (pieces size l).length = (l.length + size - 1) / size := by
  simp [pieces]

theorem pieces_nil {size : Nat} (h : 0 < size) : pieces size ([] : List α) = [] := by
  rw [← List.length_eq_zero_iff, length_pieces, List.length_nil, Nat.zero_add]
  exact Nat.div_eq_of_lt (Nat.sub_lt h Nat.one_pos)

theorem getElem?_pieces (size : Nat) (l : List α) (i : Nat) :
    (pieces size l)[i]? = if i < (pieces size l).length then some (slice l (i * size) size) else none := by
  rw [length_pieces, pieces, List.getElem?_map]
  split
  · rename_i hi
    rw [List.getElem?_range hi]
    rfl
  · rename_i hi
    rw [List.getElem?_eq_none (by simpa using hi)]
    rfl

/-- The first `n` parts are the beginning. -/
theorem flatten_slices (size : Nat) (l : List α) (n : Nat) :
    ((List.range n).map fun i => slice l (i * size) size).flatten = l.take (n * size) := by
  induction n with
  | zero => simp
  | succ n ih =>
    rw [List.range_succ, List.map_append, List.flatten_append, ih, Nat.succ_mul, List.take_add]
    simp [slice]

theorem length_le_mul {size : Nat} (h : 0 < size) (n : Nat) : n ≤ (n + size - 1) / size * size := by
  have hdiv := Nat.div_add_mod (n + size - 1) size
  have hmod := Nat.mod_lt (n + size - 1) h
  rw [Nat.mul_comm] at hdiv
  omega

theorem flatten_pieces {size : Nat} (h : 0 < size) (l : List α) : (pieces size l).flatten = l := by
  rw [pieces, flatten_slices, List.take_of_length_le (length_le_mul h l.length)]

/-- Every part begins within the file. -/
theorem mul_lt_of_lt_pieces {size : Nat} (h : 0 < size) {l : List α} {i : Nat} (hi : i < (pieces size l).length) :
    i * size < l.length := by
  rw [length_pieces] at hi
  have hle := (Nat.le_div_iff_mul_le h).1 (Nat.succ_le_of_lt hi)
  rw [Nat.succ_mul] at hle
  omega

/-- Part `i` begins after `i` full ones. -/
theorem offset_pieces {size : Nat} (h : 0 < size) {l : List α} {i : Nat} (hi : i < (pieces size l).length) :
    offset ((pieces size l).map List.length) i = i * size := by
  have hfirst : (pieces size l).take i = (List.range i).map fun j => slice l (j * size) size := by
    rw [length_pieces] at hi
    rw [pieces, ← List.map_take, List.take_range, Nat.min_eq_left (Nat.le_of_lt hi)]
  have hlt := mul_lt_of_lt_pieces h hi
  rw [offset, ← List.map_take, ← List.length_flatten, hfirst, flatten_slices, List.length_take]
  omega

/-- Every part but the last is full, and none is empty. -/
theorem length_of_mem_pieces {size : Nat} (h : 0 < size) {l : List α} {i : Nat} {p : List α}
    (hp : (pieces size l)[i]? = some p) :
    p.length = (if size ≤ l.length - i * size then size else l.length - i * size) ∧ 0 < p.length ∧ p.length ≤ size := by
  rw [getElem?_pieces] at hp
  split at hp
  · rename_i hi
    obtain rfl := Option.some.inj hp
    have hlt := mul_lt_of_lt_pieces h hi
    rw [length_slice]
    split <;> omega
  · cases hp

/-- The parts of two files of one length lie at the same places. -/
theorem slice_of_pieces {size : Nat} (h : 0 < size) {l l' : List α} (hlen : l'.length = l.length) {i : Nat} {p : List α}
    (hp : (pieces size l)[i]? = some p) :
    (pieces size l')[i]? = some (slice l' (offset ((pieces size l).map List.length) i) p.length) := by
  have hi : i < (pieces size l).length := (List.getElem?_eq_some_iff.1 hp).1
  have hi' : i < (pieces size l').length := by rwa [length_pieces, hlen, ← length_pieces]
  obtain ⟨hplen, -⟩ := length_of_mem_pieces h hp
  rw [getElem?_pieces, if_pos hi', offset_pieces h hi, slice, slice, Option.some.injEq, List.take_eq_take_iff,
    List.length_drop, hplen, hlen]
  split <;> omega

end Extent
