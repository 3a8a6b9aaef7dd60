import Mathlib.Data.List.TakeWhile
import StorageEngine.Lib.Reader

/-!
# JSON texts

The part of JSON with integers, strings, arrays of strings, and objects of these. A text is written with line
breaks, each level `step` blanks further in; it is read with any blanks between the tokens. A number ends at another
byte, as it always does inside an array or an object; one with a fraction or an exponent is refused here and read in
`Lib/JsonNumber`. An object is read back from what is written (`object_writeObject`), and from no proper beginning of
it (`object_beginning`).
-/

namespace Json

open Reading

universe u

variable {α : Type u}

/-! ## Bytes -/

def blank : UInt8 := 0x20
def newline : UInt8 := 0x0a
def quote : UInt8 := 0x22
def backslash : UInt8 := 0x5c
def comma : UInt8 := 0x2c
def colon : UInt8 := 0x3a
def minus : UInt8 := 0x2d

/-- JSON's whitespace. -/
def isBlank (b : UInt8) : Bool := b == blank || b == 0x09 || b == newline || b == 0x0d

/-! ## Tokens -/

/-- The next byte that is no blank. -/
def next : Reader UInt8 := fun s =>
  match s.dropWhile isBlank with
  | b :: s => some (b, s)
  | [] => none

/-- The byte comes next. -/
def token (c : UInt8) : Reader Unit := next.andThen fun b => if b = c then done () else fail

/-- Blanks in front make no difference. -/
def SkipsBlanks (r : Reader α) : Prop := ∀ pad s, (∀ b ∈ pad, isBlank b = true) → r (pad ++ s) = r s

theorem skipsBlanks_next : SkipsBlanks next := by
  intro pad s hpad
  unfold next
  rw [List.dropWhile_append_of_pos hpad]

theorem SkipsBlanks.andThen {r : Reader α} (h : SkipsBlanks r) (k : α → Reader β) : SkipsBlanks (r.andThen k) := by
  intro pad s hpad
  unfold Reader.andThen
  rw [h pad s hpad]

theorem next_cons {b : UInt8} (h : isBlank b = false) (s : Text) : next (b :: s) = some (b, s) := by
  simp [next, h]

theorem token_cons {c : UInt8} (h : isBlank c = false) (s : Text) : token c (c :: s) = some ((), s) := by
  rw [token, Reader.andThen_of (next_cons h s), if_pos rfl]
  rfl

theorem stable_next : Stable next := by
  intro p a q h x
  unfold next at h ⊢
  split at h
  · rename_i b s hdrop
    cases h
    have hmore : (p ++ x).dropWhile isBlank = a :: (q ++ x) := by
      rw [List.dropWhile_append, hdrop]
      rfl
    rw [hmore]
  · cases h

theorem stable_token (c : UInt8) : Stable (token c) :=
  stable_next.andThen fun _ => (stable_done ()).ite stable_fail

/-! ## Sequences -/

theorem loop_skipsBlanks {turn : Reader (List α × Bool)} (h : SkipsBlanks turn) (pad : Text) {s q : Text}
    {as : List α} (hpad : ∀ b ∈ pad, isBlank b = true) (hread : loop turn s = some (as, q)) : loop turn (pad ++ s) = some (as, q) := by
  have hmore := turns_mono hread (m := (pad ++ s).length + 1) (by rw [List.length_append]; omega)
  rw [loop, turns, SkipsBlanks.andThen h _ pad s hpad]
  exact hmore

/-- An item, and a comma or the closing byte. -/
def itemTurn (closing : UInt8) (item : Reader α) : Reader (List α × Bool) := item.andThen fun a => next.andThen fun b =>
  if b = comma then done ([a], true) else if b = closing then done ([a], false) else fail

/-- A list in brackets. -/
def block (opening closing : UInt8) (item : Reader α) : Reader (List α) := (token opening).andThen fun _ s =>
  (next s).bind fun e => if e.1 = closing then some ([], e.2) else loop (itemTurn closing item) s

theorem stable_block {opening closing : UInt8} {item : Reader α} (h : Stable item) :
    Stable (block opening closing item) := by
  have hturn : Stable (itemTurn closing item) := h.andThen fun a => stable_next.andThen fun _ =>
    (stable_done ([a], true)).ite ((stable_done ([a], false)).ite stable_fail)
  refine (stable_token opening).andThen fun _ p as q hread x => ?_
  obtain ⟨⟨b, s⟩, hnext, hread⟩ := Option.bind_eq_some_iff.1 hread
  simp only at hread
  simp only [stable_next p b s hnext x, Option.bind_some]
  by_cases hclosing : b = closing
  · rw [if_pos hclosing] at hread ⊢
    cases hread
    rfl
  · rw [if_neg hclosing] at hread ⊢
    exact stable_loop hturn p as q hread x

/-! ## Numbers -/

/-- Digits without a leading zero; no fraction and no exponent follows. -/
def unsigned (s : Text) : Option (Nat × Text) :=
  let ds := s.takeWhile isDigit
  match s.dropWhile isDigit with
  | [] => none
  | b :: rest =>
    if ds = [] ∨ (1 < ds.length ∧ ds.head? = some 0x30) ∨ b = 0x2e ∨ b = 0x65 ∨ b = 0x45 then none
    else some (digitsValue ds, b :: rest)

/-- An integer. -/
def number : Reader Int := next.andThen fun b s =>
  if b = minus then (unsigned s).map fun e => (-(e.1 : Int), e.2)
  else (unsigned (b :: s)).map fun e => ((e.1 : Int), e.2)

theorem stable_unsigned : Stable unsigned := by
  intro p v q h x
  unfold unsigned at h
  simp only at h
  split at h
  · cases h
  · rename_i b rest hdrop
    have hmore : (p ++ x).dropWhile isDigit = b :: (rest ++ x) := by
      rw [List.dropWhile_append, hdrop]
      rfl
    have hstop : isDigit b = false := by
      have hhead := List.head?_dropWhile_not isDigit p
      rw [hdrop] at hhead
      simpa using hhead
    have hdigits : (p ++ x).takeWhile isDigit = p.takeWhile isDigit := by
      conv_lhs => rw [← List.takeWhile_append_dropWhile (p := isDigit) (l := p), hdrop, List.append_assoc]
      rw [List.takeWhile_append_of_pos fun c hc => List.mem_takeWhile_imp hc, List.cons_append,
        List.takeWhile_cons_of_neg (by simp [hstop]), List.append_nil]
    unfold unsigned
    simp only [hmore, hdigits]
    split at h
    · cases h
    · rename_i hbad
      rw [if_neg hbad]
      cases h
      rfl

theorem stable_number : Stable number := by
  refine stable_next.andThen fun b p v q h x => ?_
  by_cases hminus : b = minus
  · rw [if_pos hminus] at h ⊢
    obtain ⟨⟨k, s⟩, hread, he⟩ := Option.map_eq_some_iff.1 h
    cases he
    rw [stable_unsigned p k _ hread x]
    rfl
  · rw [if_neg hminus] at h ⊢
    obtain ⟨⟨k, s⟩, hread, he⟩ := Option.map_eq_some_iff.1 h
    cases he
    rw [← List.cons_append, stable_unsigned (b :: p) k _ hread x]
    rfl

/-! ## Strings -/

/-- The bytes with an escape of their own, and its letter. -/
def escapes : List (UInt8 × UInt8) :=
  [(quote, quote), (backslash, backslash), (0x08, 0x62), (0x0c, 0x66), (newline, 0x6e), (0x0d, 0x72), (0x09, 0x74)]

/-- A digit as it is printed, in lower case. -/
def hexDigit (d : UInt8) : UInt8 := if d < 10 then 0x30 + d else 0x57 + d

/-- The value of a digit, in either case. -/
def hexValue (b : UInt8) : Option Nat :=
  if 0x30 ≤ b ∧ b ≤ 0x39 then some (b.toNat - 0x30)
  else if 0x61 ≤ b ∧ b ≤ 0x66 then some (b.toNat - 0x57)
  else if 0x41 ≤ b ∧ b ≤ 0x46 then some (b.toNat - 0x37)
  else none

/-- A byte of a string; one below 0x20 without a letter is written by its number. -/
def escapeByte (b : UInt8) : Text :=
  match escapes.lookup b with
  | some e => [backslash, e]
  | none => if b < 0x20 then [backslash, 0x75, 0x30, 0x30, hexDigit (b / 16), hexDigit (b % 16)] else [b]

/-- The byte that a backslash and `e` stand for. -/
def unescape (e : UInt8) : Option UInt8 :=
  if e = 0x2f then some e else (escapes.find? fun p => p.2 == e).map Prod.fst

/-- The byte itself, without blanks in front. -/
def byte (c : UInt8) : Reader Unit
  | [] => none
  | b :: s => if b = c then some ((), s) else none

/-- The number of four hexadecimal digits. -/
def hexNumber (h₁ h₂ h₃ h₄ : UInt8) : Option Nat :=
  match hexValue h₁, hexValue h₂, hexValue h₃, hexValue h₄ with
  | some a, some b, some c, some d => some (((a * 16 + b) * 16 + c) * 16 + d)
  | _, _, _, _ => none

/-- The four digits of `\u`. -/
def codeUnit : Reader Nat
  | h₁ :: h₂ :: h₃ :: h₄ :: s => (hexNumber h₁ h₂ h₃ h₄).map fun v => (v, s)
  | _ => none

/-- A code point in UTF-8. -/
def encode (codePoint : Nat) : Text := String.utf8EncodeChar (Char.ofNat codePoint)

/-- A character; one beyond the first `2 ^ 16` is written as two numbers, with ten bits in each. -/
def codePoint : Reader Text := codeUnit.andThen fun v =>
  if 0xd800 ≤ v ∧ v < 0xdc00 then (byte backslash).andThen fun _ => (byte 0x75).andThen fun _ => codeUnit.andThen fun w =>
    if 0xdc00 ≤ w ∧ w < 0xe000 then done (encode (0x10000 + (v - 0xd800) * 0x400 + (w - 0xdc00))) else fail
  else if 0xdc00 ≤ v ∧ v < 0xe000 then fail
  else done (encode v)

/-- What follows a backslash. -/
def escaped : Reader Text
  | [] => none
  | e :: s => if e = 0x75 then codePoint s else (unescape e).map fun c => ([c], s)

/-- The next bytes of a string, or its end. -/
def char : Reader (Text × Bool)
  | [] => none
  | b :: s =>
    if b = quote then some (([], false), s)
    else if b = backslash then (escaped s).map fun e => ((e.1, true), e.2)
    else if b < 0x20 then none
    else some (([b], true), s)

/-- The bytes of a text. -/
def utf8 (t : String) : Text := t.toByteArray.data.toList

/-- Back again; `none` where the bytes are no UTF-8. -/
def decodeUtf8 (s : Text) : Option String := String.fromUTF8? ⟨⟨s⟩⟩

/-- Ill-formed UTF-8 is refused. -/
def string : Reader String := (token quote).andThen fun _ =>
  (loop char).andThen fun cs s => (decodeUtf8 cs).map fun t => (t, s)

theorem stable_byte (c : UInt8) : Stable (byte c) := by
  intro p a q h x
  cases p with
  | nil => cases h
  | cons b s =>
    simp only [byte, List.cons_append] at h ⊢
    split at h
    · rename_i hb
      cases h
      rw [if_pos hb]
    · cases h

theorem stable_codeUnit : Stable codeUnit := by
  intro p v q h x
  match p, h with
  | h₁ :: h₂ :: h₃ :: h₄ :: s, h =>
    obtain ⟨v', hv, he⟩ := Option.map_eq_some_iff.1 h
    cases he
    simp [codeUnit, hv]

theorem stable_codePoint : Stable codePoint := by
  refine stable_codeUnit.andThen fun v => Stable.ite ?_ (stable_fail.ite (stable_done (encode v)))
  exact (stable_byte backslash).andThen fun _ => (stable_byte 0x75).andThen fun _ => stable_codeUnit.andThen fun w =>
    (stable_done (encode (0x10000 + (v - 0xd800) * 0x400 + (w - 0xdc00)))).ite stable_fail

theorem stable_escaped : Stable escaped := by
  intro p c q h x
  cases p with
  | nil => cases h
  | cons e s =>
    simp only [escaped, List.cons_append] at h ⊢
    by_cases hu : e = 0x75
    · rw [if_pos hu] at h ⊢
      exact stable_codePoint s c q h x
    · rw [if_neg hu] at h ⊢
      obtain ⟨c', hc, he⟩ := Option.map_eq_some_iff.1 h
      cases he
      rw [hc]
      rfl

theorem stable_char : Stable char := by
  intro p e q h x
  cases p with
  | nil => cases h
  | cons b s =>
    simp only [char, List.cons_append] at h ⊢
    by_cases hquote : b = quote
    · rw [if_pos hquote] at h ⊢
      cases h
      rfl
    rw [if_neg hquote] at h ⊢
    by_cases hback : b = backslash
    · rw [if_pos hback] at h ⊢
      obtain ⟨⟨c, s'⟩, hc, he⟩ := Option.map_eq_some_iff.1 h
      cases he
      rw [stable_escaped s c s' hc x]
      rfl
    rw [if_neg hback] at h ⊢
    split at h
    · cases h
    · rename_i hlow
      cases h
      rw [if_neg hlow]

theorem stable_string : Stable string := by
  refine (stable_token quote).andThen fun _ => (stable_loop stable_char).andThen fun cs p t q h x => ?_
  obtain ⟨t', ht, he⟩ := Option.map_eq_some_iff.1 h
  cases he
  simp [ht]

/-! ## Objects -/

/-- The values of a flat object. -/
inductive Value where
  | int (i : Int)
  | str (t : String)
  | strs (ts : List String)
deriving DecidableEq, Repr

/-- The kind is told by the first byte. -/
def value : Reader Value := fun s =>
  (next s).bind fun e =>
    if e.1 = quote then (string.andThen fun t => done (.str t)) s
    else if e.1 = 0x5b then ((block 0x5b 0x5d string).andThen fun ts => done (.strs ts)) s
    else (number.andThen fun i => done (.int i)) s

/-- A key and its value. -/
def member : Reader (String × Value) := string.andThen fun key => (token colon).andThen fun _ =>
  value.andThen fun v => done (key, v)

/-- Members in braces. -/
def object : Reader (List (String × Value)) := block 0x7b 0x7d member

/-- Of several members with a key the last one counts. -/
def memberAt (members : List (String × Value)) (key : String) : Option Value := members.reverse.lookup key

/-- `get<std::string>`. -/
def Value.getString : Value → Option String
  | .str t => some t
  | _ => none

/-- `get<int>` and `get<long long>`, of a value in range. -/
def Value.getInt : Value → Option Int
  | .int i => some i
  | _ => none

/-- `get<std::vector<std::string>>`. -/
def Value.getStrings : Value → Option (List String)
  | .strs ts => some ts
  | _ => none

theorem stable_value : Stable value := by
  intro p v q h x
  obtain ⟨⟨b, s⟩, hnext, h⟩ := Option.bind_eq_some_iff.1 h
  simp only at h
  simp only [value, stable_next p b s hnext x, Option.bind_some]
  by_cases hquote : b = quote
  · rw [if_pos hquote] at h ⊢
    exact (stable_string.andThen fun t => stable_done (Value.str t)) p v q h x
  rw [if_neg hquote] at h ⊢
  by_cases hblock : b = 0x5b
  · rw [if_pos hblock] at h ⊢
    exact ((stable_block stable_string).andThen fun ts => stable_done (Value.strs ts)) p v q h x
  · rw [if_neg hblock] at h ⊢
    exact (stable_number.andThen fun i => stable_done (Value.int i)) p v q h x

theorem stable_object : Stable object :=
  stable_block (stable_string.andThen fun key => (stable_token colon).andThen fun _ =>
    stable_value.andThen fun v => stable_done (key, v))

/-! ## Writing -/

/-- An indentation. -/
def blanks (n : Nat) : Text := List.replicate n blank

/-- One item on each line. -/
def writeItems (pad : Text) (write : α → Text) : List α → Text
  | [] => []
  | [a] => pad ++ write a ++ [newline]
  | a :: as => pad ++ write a ++ [comma, newline] ++ writeItems pad write as

/-- An empty one stays on its line. -/
def writeBlock (opening closing : UInt8) (step indent : Nat) (write : α → Text) (as : List α) : Text :=
  if as.isEmpty then [opening, closing]
  else [opening, newline] ++ writeItems (blanks (indent + step)) write as ++ blanks indent ++ [closing]

/-- A minus sign and the digits. -/
def writeNumber (i : Int) : Text := if i < 0 then minus :: decimal i.natAbs else decimal i.natAbs

/-- In quotes, with its escapes. -/
def writeString (t : String) : Text := quote :: (utf8 t).flatMap escapeByte ++ [quote]

/-- The elements of a list one level deeper. -/
def writeValue (step indent : Nat) : Value → Text
  | .int i => writeNumber i
  | .str t => writeString t
  | .strs ts => writeBlock 0x5b 0x5d step indent writeString ts

/-- A key, a colon and the value. -/
def writeMember (step : Nat) (m : String × Value) : Text := writeString m.1 ++ [colon, blank] ++ writeValue step step m.2

/-- `dump(step)`. -/
def writeObject (step : Nat) (ms : List (String × Value)) : Text := writeBlock 0x7b 0x7d step 0 (writeMember step) ms

/-! ## Reading back -/

/-- What may follow an item. -/
def Ends (b : UInt8) : Prop := b = comma ∨ b = newline

/-- `read` gets back from a text what `write` made it from. -/
def ReadsBack (read : Reader α) (write : α → Text) : Prop :=
  ∀ a b s, Ends b → read (write a ++ b :: s) = some (a, b :: s)

theorem blanks_isBlank {n : Nat} : ∀ b ∈ blanks n, isBlank b = true := by
  intro b hb
  rw [List.eq_of_mem_replicate hb]
  rfl

/-- What an item begins with. -/
def StartsWith (good : UInt8 → Prop) (write : α → Text) : Prop := ∀ a, ∃ b t, write a = b :: t ∧ isBlank b = false ∧ good b

theorem loop_writeItems {closing : UInt8} {item : Reader α} {write : α → Text} {pad pad' s : Text}
    (hback : ReadsBack item write) (hskips : SkipsBlanks item) (hclosing : isBlank closing = false ∧ closing ≠ comma)
    (hpad : ∀ b ∈ pad, isBlank b = true) (hpad' : ∀ b ∈ pad', isBlank b = true) {as : List α} (hne : as ≠ []) :
    loop (itemTurn closing item) (writeItems pad write as ++ pad' ++ closing :: s) = some (as, s) := by
  induction as with
  | nil => exact absurd rfl hne
  | cons a as ih =>
    cases as with
    | nil =>
      refine loop_last ?_
      have hitem : item (pad ++ write a ++ [newline] ++ pad' ++ closing :: s) = some (a, newline :: (pad' ++ closing :: s)) := by
        simp only [List.append_assoc, List.singleton_append, hskips pad _ hpad]
        exact hback a newline _ (Or.inr rfl)
      have hnext : next (newline :: (pad' ++ closing :: s)) = some (closing, s) := by
        rw [← List.cons_append, skipsBlanks_next _ _ (List.forall_mem_cons.2 ⟨rfl, hpad'⟩), next_cons hclosing.1]
      rw [itemTurn, writeItems, Reader.andThen_of hitem, Reader.andThen_of hnext, if_neg hclosing.2, if_pos rfl]
      rfl
    | cons a' as =>
      have hitem : item (writeItems pad write (a :: a' :: as) ++ pad' ++ closing :: s) =
          some (a, comma :: newline :: (writeItems pad write (a' :: as) ++ pad' ++ closing :: s)) := by
        simp only [writeItems, List.append_assoc, List.cons_append, List.nil_append, hskips pad _ hpad]
        exact hback a comma _ (Or.inl rfl)
      have hturn : itemTurn closing item (writeItems pad write (a :: a' :: as) ++ pad' ++ closing :: s) =
          some (([a], true), newline :: (writeItems pad write (a' :: as) ++ pad' ++ closing :: s)) := by
        rw [itemTurn, Reader.andThen_of hitem, Reader.andThen_of (next_cons rfl _), if_pos rfl]
        rfl
      refine loop_more hturn ?_ ?_
      · simp [writeItems]
        omega
      · refine loop_skipsBlanks (hskips.andThen _) [newline] (by simp [isBlank]) ?_
        exact ih (List.cons_ne_nil _ _)

theorem block_writeBlock (opening closing : UInt8) (step indent : Nat) {item : Reader α} {write : α → Text}
    (hback : ReadsBack item write) (hskips : SkipsBlanks item) (hstart : StartsWith (· ≠ closing) write)
    (hopening : isBlank opening = false) (hclosing : isBlank closing = false ∧ closing ≠ comma) (as : List α) (s : Text) :
    block opening closing item (writeBlock opening closing step indent write as ++ s) = some (as, s) := by
  unfold block writeBlock
  cases as with
  | nil =>
    rw [List.isEmpty_nil, if_pos rfl, List.cons_append, Reader.andThen_of (token_cons hopening _), List.cons_append,
      List.nil_append, next_cons hclosing.1, Option.bind_some, if_pos rfl]
  | cons a as =>
    have hloop := loop_writeItems (s := s) hback hskips hclosing (blanks_isBlank (n := indent + step))
      (blanks_isBlank (n := indent)) (List.cons_ne_nil a as)
    have htext : ∃ b t, newline :: (writeItems (blanks (indent + step)) write (a :: as) ++ blanks indent ++ closing :: s) =
        (newline :: blanks (indent + step)) ++ b :: t ∧ isBlank b = false ∧ b ≠ closing := by
      obtain ⟨b, t, hb, hblank, hne⟩ := hstart a
      cases as with
      | nil => exact ⟨b, _, by simp [writeItems, hb]; rfl, hblank, hne⟩
      | cons a' as => exact ⟨b, _, by simp [writeItems, hb]; rfl, hblank, hne⟩
    obtain ⟨b, t, htext, hblank, hne⟩ := htext
    have hpad : ∀ b ∈ newline :: blanks (indent + step), isBlank b = true :=
      List.forall_mem_cons.2 ⟨rfl, blanks_isBlank⟩
    simp only [List.isEmpty_cons, Bool.false_eq_true, if_false, List.append_assoc, List.cons_append, List.nil_append]
    rw [Reader.andThen_of (token_cons hopening _)]
    simp only [List.append_assoc] at htext hloop
    rw [htext, skipsBlanks_next _ _ hpad, next_cons hblank, Option.bind_some, if_neg hne, ← htext]
    exact loop_skipsBlanks (hskips.andThen _) [newline] (by simp [isBlank]) hloop

theorem StartsWith.mono {good good' : UInt8 → Prop} {write : α → Text} (h : StartsWith good write)
    (hgood : ∀ b, good b → good' b) : StartsWith good' write := by
  intro a
  obtain ⟨b, t, hb, hblank, hg⟩ := h a
  exact ⟨b, t, hb, hblank, hgood b hg⟩

/-! ### Numbers -/

/-- What a number cannot go on with. -/
def EndsNumber (b : UInt8) : Prop := isDigit b = false ∧ ¬ (b = 0x2e ∨ b = 0x65 ∨ b = 0x45)

theorem Ends.number {b : UInt8} (h : Ends b) : EndsNumber b := by
  unfold EndsNumber
  rcases h with rfl | rfl <;> decide

theorem unsigned_decimal (n : Nat) {b : UInt8} (hb : EndsNumber b) (s : Text) :
    unsigned (decimal n ++ b :: s) = some (n, b :: s) := by
  have htake : (decimal n ++ b :: s).takeWhile isDigit = decimal n := by
    rw [List.takeWhile_append_of_pos fun c hc => isDigit_of_mem_decimal hc, List.takeWhile_cons_of_neg (by simp [hb.1]),
      List.append_nil]
  have hdrop : (decimal n ++ b :: s).dropWhile isDigit = b :: s := by
    rw [List.dropWhile_append_of_pos fun c hc => isDigit_of_mem_decimal hc, List.dropWhile_cons_of_neg (by simp [hb.1])]
  obtain ⟨d, ds, hd, -, hzero⟩ := decimal_cons n
  unfold unsigned
  simp only [htake, hdrop, digitsValue_decimal]
  rw [if_neg]
  rintro (hnil | ⟨hlen, hhead⟩ | hfrac)
  · rw [hd] at hnil
    cases hnil
  · rw [hd] at hlen hhead
    rw [hzero (Option.some.inj hhead)] at hlen
    exact Nat.lt_irrefl 1 hlen
  · exact hb.2 hfrac

theorem not_blank_of_isDigit {b : UInt8} (h : isDigit b = true) : isBlank b = false ∧ b ≠ minus ∧ b ≠ quote ∧ b ≠ 0x5b := by
  obtain ⟨hlow, hhigh⟩ := isDigit_iff.1 h
  have hne : ∀ c : UInt8, (c.toNat < 0x30 ∨ 0x39 < c.toNat) → b ≠ c := by
    rintro c hc rfl
    omega
  refine ⟨?_, hne _ (by decide), hne _ (by decide), hne _ (by decide)⟩
  simp [isBlank, hne blank (by decide), hne 0x09 (by decide), hne newline (by decide), hne 0x0d (by decide)]

theorem startsWith_number : StartsWith (fun b => b ≠ quote ∧ b ≠ 0x5b) writeNumber := by
  intro i
  obtain ⟨d, ds, hd, hdigit, -⟩ := decimal_cons i.natAbs
  unfold writeNumber
  split
  · exact ⟨minus, _, rfl, rfl, by decide, by decide⟩
  · obtain ⟨hblank, -, hquote, hblock⟩ := not_blank_of_isDigit hdigit
    exact ⟨d, ds, hd, hblank, hquote, hblock⟩

theorem number_writeNumber (i : Int) {b : UInt8} (hb : EndsNumber b) (s : Text) :
    number (writeNumber i ++ b :: s) = some (i, b :: s) := by
  have hread := unsigned_decimal i.natAbs hb s
  unfold writeNumber
  split
  · rename_i hneg
    rw [List.cons_append, number, Reader.andThen_of (next_cons rfl _), if_pos rfl, hread, Option.map_some]
    congr 2
    omega
  · rename_i hpos
    obtain ⟨d, ds, hd, hdigit, -⟩ := decimal_cons i.natAbs
    obtain ⟨hblank, hminus, -⟩ := not_blank_of_isDigit hdigit
    rw [hd, List.cons_append] at hread ⊢
    rw [number, Reader.andThen_of (next_cons hblank _), if_neg hminus, hread, Option.map_some]
    congr 2
    omega

theorem readsBack_number : ReadsBack number writeNumber := fun i _ s hb => number_writeNumber i hb.number s

/-! ### Strings -/

theorem decodeUtf8_utf8 (t : String) : decodeUtf8 (utf8 t) = some t := by
  have hvalid : (⟨⟨utf8 t⟩⟩ : ByteArray).IsValidUTF8 := t.isValidUTF8
  rw [decodeUtf8, String.fromUTF8?, dif_pos hvalid]
  rfl

theorem hexNumber_low : ∀ b < 0x20, hexNumber 0x30 0x30 (hexDigit (UInt8.ofNat b / 16)) (hexDigit (UInt8.ofNat b % 16)) =
    some b := by
  decide

theorem encode_low : ∀ b < 0x20, encode b = [UInt8.ofNat b] := by
  decide

/-- A byte that is written by its number. -/
theorem codePoint_low {b : UInt8} (hb : b.toNat < 0x20) (s : Text) :
    codePoint (0x30 :: 0x30 :: hexDigit (b / 16) :: hexDigit (b % 16) :: s) = some ([b], s) := by
  have hnumber := hexNumber_low b.toNat hb
  have hencode := encode_low b.toNat hb
  rw [UInt8.ofNat_toNat] at hnumber hencode
  have hunit : codeUnit (0x30 :: 0x30 :: hexDigit (b / 16) :: hexDigit (b % 16) :: s) = some (b.toNat, s) := by
    rw [codeUnit, hnumber, Option.map_some]
  rw [codePoint, Reader.andThen_of hunit, if_neg (by omega), if_neg (by omega), hencode]
  rfl

theorem lookup_escapes {b e : UInt8} (h : escapes.lookup b = some e) : e ≠ 0x75 ∧ unescape e = some b := by
  have hall : escapes.all (fun p => p.2 != 0x75 && unescape p.2 == some p.1) = true := by decide
  obtain ⟨l₁, l₂, hmem, -⟩ := List.lookup_eq_some_iff.1 h
  simpa using List.all_eq_true.1 hall (b, e) (by rw [hmem]; simp)

/-- **A byte** is read as it was written. -/
theorem char_escapeByte (b : UInt8) (s : Text) : char (escapeByte b ++ s) = some (([b], true), s) := by
  unfold escapeByte
  cases hb : escapes.lookup b with
  | some e =>
    obtain ⟨hu, hread⟩ := lookup_escapes hb
    simp [char, escaped, hu, hread]
    decide
  | none =>
    have hquote : b ≠ quote := by
      rintro rfl
      cases hb
    have hback : b ≠ backslash := by
      rintro rfl
      cases hb
    simp only
    split
    · rename_i hlow
      have hcode := codePoint_low (by simpa [UInt8.lt_iff_toNat_lt] using hlow) s
      simp [char, escaped, hcode]
      decide
    · rename_i hlow
      simp [char, hquote, hback, hlow]

theorem loop_char (cs s : Text) : loop char (cs.flatMap escapeByte ++ quote :: s) = some (cs, s) := by
  induction cs with
  | nil => exact loop_last rfl
  | cons c cs ih =>
    have hturn := char_escapeByte c (cs.flatMap escapeByte ++ quote :: s)
    rw [List.flatMap_cons, List.append_assoc]
    refine loop_more hturn ?_ ih
    have hpos : 0 < (escapeByte c).length := by
      unfold escapeByte
      split
      · exact Nat.succ_pos _
      · split <;> exact Nat.succ_pos _
    simp only [List.length_append, List.length_cons]
    omega

theorem string_writeString (t : String) (s : Text) : string (writeString t ++ s) = some (t, s) := by
  rw [writeString, List.cons_append, List.cons_append, List.append_assoc, string, Reader.andThen_of (token_cons rfl _),
    List.singleton_append, Reader.andThen_of (loop_char _ s), decodeUtf8_utf8, Option.map_some]

theorem startsWith_string : StartsWith (· = quote) writeString := fun _ => ⟨quote, _, rfl, rfl, rfl⟩

theorem skipsBlanks_string : SkipsBlanks string := (skipsBlanks_next.andThen _).andThen _

/-! ### Objects -/

theorem readsBack_value (step indent : Nat) : ReadsBack value (writeValue step indent) := by
  intro v b s hb
  cases v with
  | int i =>
    obtain ⟨d, ds, hd, hblank, hquote, hblock⟩ := startsWith_number i
    have hread := readsBack_number i b s hb
    rw [writeValue]
    rw [hd, List.cons_append] at hread ⊢
    rw [value, next_cons hblank, Option.bind_some, if_neg hquote, if_neg hblock, Reader.andThen_of hread]
    rfl
  | str t =>
    have hread := string_writeString t (b :: s)
    obtain ⟨c, q, hc, hblank, rfl⟩ := startsWith_string t
    rw [writeValue]
    rw [hc, List.cons_append] at hread ⊢
    rw [value, next_cons hblank, Option.bind_some, if_pos rfl, Reader.andThen_of hread]
    rfl
  | strs ts =>
    have hread := block_writeBlock 0x5b 0x5d step indent
      (fun t c q _ => string_writeString t (c :: q)) skipsBlanks_string
      (startsWith_string.mono fun c hc => by rw [hc]; decide) rfl ⟨rfl, by decide⟩ ts (b :: s)
    obtain ⟨t, ht⟩ : ∃ t, writeBlock 0x5b 0x5d step indent writeString ts ++ b :: s = 0x5b :: t := by
      unfold writeBlock
      split <;> exact ⟨_, rfl⟩
    rw [writeValue, value]
    rw [ht] at hread ⊢
    have hne : (0x5b : UInt8) ≠ quote := by decide
    rw [next_cons rfl, Option.bind_some, if_neg hne, if_pos rfl, Reader.andThen_of hread]
    rfl

theorem skipsBlanks_block (opening closing : UInt8) (item : Reader α) : SkipsBlanks (block opening closing item) :=
  (skipsBlanks_next.andThen _).andThen _

theorem skipsBlanks_number : SkipsBlanks number := skipsBlanks_next.andThen _

theorem skipsBlanks_value : SkipsBlanks value := by
  intro pad s hpad
  rw [value, skipsBlanks_next pad s hpad, skipsBlanks_string.andThen _ pad s hpad,
    (skipsBlanks_block _ _ string).andThen _ pad s hpad, skipsBlanks_number.andThen _ pad s hpad]
  rfl

theorem readsBack_member (step : Nat) : ReadsBack member (writeMember step) := by
  intro m b s hb
  have hvalue : value (blank :: (writeValue step step m.2 ++ b :: s)) = some (m.2, b :: s) := by
    rw [← List.singleton_append, skipsBlanks_value [blank] _ (by simp [isBlank])]
    exact readsBack_value step step m.2 b s hb
  simp only [writeMember, List.append_assoc, List.cons_append, List.nil_append]
  rw [member, Reader.andThen_of (string_writeString m.1 _), Reader.andThen_of (token_cons rfl _),
    Reader.andThen_of hvalue]
  rfl

/-- **An object** is read back, whatever follows it. -/
theorem object_writeObject (step : Nat) (ms : List (String × Value)) (s : Text) :
    object (writeObject step ms ++ s) = some (ms, s) := by
  refine block_writeBlock _ _ _ _ (readsBack_member step) (skipsBlanks_string.andThen _) (fun m => ?_) rfl ⟨rfl, by decide⟩ ms s
  exact ⟨quote, _, rfl, rfl, by decide⟩

/-- **A beginning of an object** is not an object. -/
theorem object_beginning {step : Nat} {ms : List (String × Value)} {p : Text} (hp : p <+: writeObject step ms)
    (hne : p ≠ writeObject step ms) : object p = none :=
  stable_object.unreadable (by simpa using object_writeObject step ms []) hp hne

end Json
