import Mathlib.Algebra.Order.Ring.Nat
import Mathlib.Data.List.Infix
import Mathlib.Data.List.TakeWhile
import Mathlib.Tactic.Ring

/-!
# Texts that are read from the front

A reader takes a value off the front of a text. Where the bytes behind the value make no difference (`Stable`),
no proper beginning of a text that is read whole can be read (`Stable.unreadable`). Stable readers are put together
from stable readers, in sequence (`andThen`) and in loops (`loop`). A number is written in decimal.
-/

namespace Reading

universe u v

/-- Bytes of a text. -/
abbrev Text := List UInt8

/-- A value off the front, and what is left. -/
abbrev Reader (α : Type u) := Text → Option (α × Text)

variable {α : Type u} {β : Type v}

/-- Reads nothing. -/
def fail : Reader α := fun _ => none

/-- Succeeds without reading. -/
def done (a : α) : Reader α := fun s => some (a, s)

def Reader.andThen (r : Reader α) (k : α → Reader β) : Reader β := fun s => (r s).bind fun e => k e.1 e.2

theorem Reader.andThen_eq_some {r : Reader α} {k : α → Reader β} {p q : Text} {b : β} :
    r.andThen k p = some (b, q) ↔ ∃ a s, r p = some (a, s) ∧ k a s = some (b, q) := by
  simp [Reader.andThen, Option.bind_eq_some_iff]

theorem Reader.andThen_of {r : Reader α} {k : α → Reader β} {p s : Text} {a : α} (h : r p = some (a, s)) :
    r.andThen k p = k a s := by
  simp [Reader.andThen, h]

/-- What follows the bytes that were taken makes no difference. -/
def Stable (r : Reader α) : Prop := ∀ p a q, r p = some (a, q) → ∀ x, r (p ++ x) = some (a, q ++ x)

/-- **No proper beginning** of a text that is read whole can be read. -/
theorem Stable.unreadable {r : Reader α} (h : Stable r) {text p : Text} {a : α} (hread : r text = some (a, []))
    (hp : p <+: text) (hne : p ≠ text) : r p = none := by
  obtain ⟨x, rfl⟩ := hp
  cases hr : r p with
  | none => rfl
  | some e =>
    have hmore := h p e.1 e.2 hr x
    rw [hread, Option.some.injEq, Prod.mk.injEq] at hmore
    have hx : x = [] := (List.append_eq_nil_iff.1 hmore.2.symm).2
    exact absurd (by rw [hx, List.append_nil]) hne

theorem stable_fail : Stable (fail : Reader α) := by
  intro p a q h
  cases h

theorem stable_done (a : α) : Stable (done a) := by
  intro p b q h x
  cases h
  rfl

theorem Stable.andThen {r : Reader α} {k : α → Reader β} (hr : Stable r) (hk : ∀ a, Stable (k a)) :
    Stable (r.andThen k) := by
  intro p b q h x
  obtain ⟨a, s, hread, hrest⟩ := Reader.andThen_eq_some.1 h
  rw [Reader.andThen_of (hr p a s hread x)]
  exact hk a s b q hrest x

theorem Stable.ite {c : Prop} [Decidable c] {r r' : Reader α} (hr : Stable r) (hr' : Stable r') :
    Stable (if c then r else r') := by
  split
  · exact hr
  · exact hr'

/-! ## Loops -/

/-- Each turn adds to the result and tells whether another one follows. -/
def turns (turn : Reader (List α × Bool)) : Nat → Reader (List α)
  | 0 => fail
  | n + 1 => turn.andThen fun e =>
    if e.2 then (turns turn n).andThen fun as => done (e.1 ++ as) else done e.1

/-- As long as the text lasts: a turn takes a byte at least. -/
def loop (turn : Reader (List α × Bool)) : Reader (List α) := fun s => turns turn (s.length + 1) s

section
variable {turn : Reader (List α × Bool)}

theorem stable_turns (h : Stable turn) : ∀ n, Stable (turns turn n)
  | 0 => stable_fail
  | n + 1 => h.andThen fun e => ((stable_turns h n).andThen fun as => stable_done (e.1 ++ as)).ite (stable_done e.1)

theorem turns_mono {n m : Nat} {p q : Text} {as : List α} (h : turns turn n p = some (as, q)) (hle : n ≤ m) :
    turns turn m p = some (as, q) := by
  induction n generalizing m p q as with
  | zero => cases h
  | succ n ih =>
    obtain ⟨m, rfl⟩ : ∃ k, m = k + 1 := ⟨m - 1, by omega⟩
    obtain ⟨⟨added, more⟩, s, hturn, h⟩ := Reader.andThen_eq_some.1 h
    rw [turns, Reader.andThen_of hturn]
    cases more with
    | false => exact h
    | true =>
      rw [if_pos rfl] at h
      obtain ⟨as', s', hrest, h⟩ := Reader.andThen_eq_some.1 h
      rw [if_pos rfl, Reader.andThen_of (ih hrest (by omega))]
      exact h

theorem stable_loop (h : Stable turn) : Stable (loop turn) := by
  intro p as q hread x
  exact turns_mono (stable_turns h _ p as q hread x) (by rw [List.length_append]; omega)

theorem loop_last {t s : Text} {as : List α} (h : turn t = some ((as, false), s)) : loop turn t = some (as, s) := by
  rw [loop, turns, Reader.andThen_of h]
  rfl

theorem loop_more {t s q : Text} {as bs : List α} (h : turn t = some ((as, true), s)) (hlt : s.length < t.length)
    (hrest : loop turn s = some (bs, q)) : loop turn t = some (as ++ bs, q) := by
  rw [loop, turns, Reader.andThen_of h, if_pos rfl, Reader.andThen_of (turns_mono hrest (by omega))]
  rfl

end

/-! ## Decimal numbers -/

/-- `0` to `9`. -/
def isDigit (b : UInt8) : Bool := 0x30 ≤ b && b ≤ 0x39

/-- In decimal, the first digit first. -/
def decimal (n : Nat) : Text := (Nat.toDigits 10 n).map Char.toUInt8

/-- The number that the digits write. -/
def digitsValue (ds : Text) : Nat := ds.foldl (fun v d => 10 * v + (d.toNat - 0x30)) 0

theorem toUInt8_digitChar : ∀ d < 10, (Nat.digitChar d).toUInt8 = UInt8.ofNat (0x30 + d) := by decide

theorem decimal_eq (n : Nat) :
    decimal n = if n < 10 then [UInt8.ofNat (0x30 + n)] else decimal (n / 10) ++ [UInt8.ofNat (0x30 + n % 10)] := by
  unfold decimal
  rw [Nat.toDigits_eq_if (by decide)]
  split
  · rename_i hlt
    rw [List.map_singleton, toUInt8_digitChar n hlt]
  · rw [List.map_append, List.map_singleton, toUInt8_digitChar _ (Nat.mod_lt _ (by decide))]

theorem toNat_digit {d : Nat} (h : d < 10) : (UInt8.ofNat (0x30 + d)).toNat = 0x30 + d := by
  rw [UInt8.toNat_ofNat', Nat.mod_eq_of_lt (by omega)]

theorem isDigit_iff {b : UInt8} : isDigit b = true ↔ 0x30 ≤ b.toNat ∧ b.toNat ≤ 0x39 := by
  simp [isDigit, UInt8.le_iff_toNat_le]

theorem digitsValue_decimal (n : Nat) : digitsValue (decimal n) = n := by
  induction n using Nat.strong_induction_on with
  | _ n ih =>
    rw [decimal_eq]
    by_cases hlt : n < 10
    · rw [if_pos hlt]
      simp only [digitsValue, List.foldl_cons, List.foldl_nil, toNat_digit hlt]
      omega
    · rw [if_neg hlt]
      have hprefix := ih (n / 10) (by omega)
      simp only [digitsValue, List.foldl_append, List.foldl_cons, List.foldl_nil,
        toNat_digit (Nat.mod_lt n (by decide : 0 < 10))] at hprefix ⊢
      omega

theorem foldl_digits (v : Nat) (ds : Text) :
    ds.foldl (fun v d => 10 * v + (d.toNat - 0x30)) v = v * 10 ^ ds.length + digitsValue ds := by
  induction ds generalizing v with
  | nil => simp [digitsValue]
  | cons d ds ih =>
    rw [digitsValue, List.foldl_cons, List.foldl_cons, ih, ih (10 * 0 + (d.toNat - 0x30)), List.length_cons, Nat.pow_succ]
    ring

/-- **The first digits** of a number are its quotient by a power of ten. -/
theorem digitsValue_take_decimal (n k : Nat) :
    digitsValue ((decimal n).take k) = n / 10 ^ ((decimal n).length - k) := by
  induction n using Nat.strong_induction_on with
  | _ n ih =>
    rcases Nat.lt_or_ge k (decimal n).length with hlt | hge
    · rw [decimal_eq] at hlt ⊢
      by_cases hn : n < 10
      · rw [if_pos hn] at hlt ⊢
        obtain rfl : k = 0 := by simpa using hlt
        simpa [digitsValue] using (Nat.div_eq_of_lt hn).symm
      · rw [if_neg hn, List.length_append, List.length_singleton] at hlt ⊢
        rw [List.take_append_of_le_length (by omega), ih (n / 10) (by omega), Nat.div_div_eq_div_mul, ← Nat.pow_succ']
        congr 2
        omega
    · rw [List.take_of_length_le hge, digitsValue_decimal, Nat.sub_eq_zero_of_le hge, Nat.pow_zero, Nat.div_one]

/-- A digit at the front, and no zero where others follow. -/
theorem decimal_cons (n : Nat) : ∃ d ds, decimal n = d :: ds ∧ isDigit d = true ∧ (d = 0x30 → ds = []) := by
  induction n using Nat.strong_induction_on with
  | _ n ih =>
    rw [decimal_eq]
    by_cases hlt : n < 10
    · rw [if_pos hlt]
      exact ⟨_, [], rfl, isDigit_iff.2 (by rw [toNat_digit hlt]; omega), fun _ => rfl⟩
    · rw [if_neg hlt]
      obtain ⟨d, ds, hd, hdigit, hzero⟩ := ih (n / 10) (by omega)
      refine ⟨d, ds ++ [UInt8.ofNat (0x30 + n % 10)], by rw [hd]; rfl, hdigit, fun hd0 => ?_⟩
      have hvalue : n / 10 = 0 := by
        rw [← digitsValue_decimal (n / 10), hd, hzero hd0, hd0]
        rfl
      omega

theorem isDigit_of_mem_decimal {n : Nat} {b : UInt8} (h : b ∈ decimal n) : isDigit b = true := by
  induction n using Nat.strong_induction_on with
  | _ n ih =>
    rw [decimal_eq] at h
    by_cases hlt : n < 10
    · rw [if_pos hlt, List.mem_singleton] at h
      rw [h, isDigit_iff, toNat_digit hlt]
      omega
    · rw [if_neg hlt, List.mem_append, List.mem_singleton] at h
      rcases h with h | rfl
      · exact ih (n / 10) (by omega) h
      · rw [isDigit_iff, toNat_digit (Nat.mod_lt _ (by decide))]
        omega

/-! ## A number at the front -/

/-- `isspace` in the C locale. -/
def isSpace (b : UInt8) : Bool := b == 0x20 || (0x09 ≤ b && b ≤ 0x0d)

/-- Behind spaces, with a sign or without; what follows the digits makes no difference. -/
def leadingInt (s : Text) : Option Int :=
  match s.dropWhile isSpace with
  | [] => none
  | b :: t =>
    let ds := (if b = 0x2d ∨ b = 0x2b then t else b :: t).takeWhile isDigit
    if ds.isEmpty then none else some (if b = 0x2d then -(digitsValue ds : Int) else digitsValue ds)

theorem isSpace_of_isDigit {b : UInt8} (h : isDigit b = true) : isSpace b = false := by
  obtain ⟨hlow, hhigh⟩ := isDigit_iff.1 h
  have hne : b ≠ 0x20 := by
    rintro rfl
    exact absurd hlow (by decide)
  simp [isSpace, hne, UInt8.le_iff_toNat_le]
  omega

theorem leadingInt_decimal (n : Nat) : leadingInt (decimal n) = some (n : Int) := by
  obtain ⟨d, ds, hd, hdigit, -⟩ := decimal_cons n
  have hall : (d :: ds).takeWhile isDigit = d :: ds :=
    List.takeWhile_eq_self_iff.2 fun b hb => isDigit_of_mem_decimal (hd ▸ hb)
  have hsign : d ≠ 0x2d ∧ d ≠ 0x2b := by
    constructor <;> rintro rfl <;> cases hdigit
  rw [leadingInt, hd, List.dropWhile_cons_of_neg (by simp [isSpace_of_isDigit hdigit])]
  simp only [hsign.1, hsign.2, or_self, if_false, hall, List.isEmpty_cons, Bool.false_eq_true]
  rw [← hd, digitsValue_decimal]

theorem leadingInt_minus_decimal (n : Nat) : leadingInt (0x2d :: decimal n) = some (-(n : Int)) := by
  obtain ⟨d, ds, hd, hdigit, -⟩ := decimal_cons n
  have hall : (d :: ds).takeWhile isDigit = d :: ds :=
    List.takeWhile_eq_self_iff.2 fun b hb => isDigit_of_mem_decimal (hd ▸ hb)
  have hminus : isSpace 0x2d = false := by decide
  rw [leadingInt, List.dropWhile_cons_of_neg (by simp [hminus])]
  simp only [true_or, if_true, hd, hall, List.isEmpty_cons, Bool.false_eq_true, if_false]
  rw [← hd, digitsValue_decimal]

end Reading
