import Mathlib.Algebra.Order.Ring.Nat
import Mathlib.Data.List.TakeWhile

/-!
# Text the master exchanges with PostgreSQL

| here | there |
| --- | --- |
| `varchar`             | assignment to a `VARCHAR(n)` column (`db/init.sql`) |
| `arrayLiteral`        | the `pg_array` string `CommitFile` concatenates (`PostgresRepository.hpp:259-266`) |
| `textArrayIn`         | PostgreSQL's input function for `TEXT[]`, which reads that string |
| `stoul16`             | `std::stoul(…, nullptr, 16)` |
| `calculateBucketId`   | `CalculateBucketId` (`PostgresRepository.hpp:38-52`) |

A `TEXT[]` value is kept as the list of its elements in storage order, `none` for SQL `NULL`:
`unnest` and `= ANY` range over the elements of a nested array in that order too.
-/

namespace StorageEngine

/-- A string longer than `n` is an error, unless all that is over is blanks: these are cut off. -/
def varchar (n : Nat) (s : String) : Option String :=
  if s.length ≤ n then some s
  else if (s.toList.drop n).all (· == ' ') then some (String.ofList (s.toList.take n))
  else none

theorem varchar_of_le {n : Nat} {s : String} (h : s.length ≤ n) : varchar n s = some s := if_pos h

/-! ## `TEXT[]` literals -/

/-- `"{" + h₀ + "," + h₁ + … + "}"` (the braces are `x7b` and `x7d`), nothing quoted. -/
def arrayLiteral (hashes : List String) : String := "\x7b" ++ ",".intercalate hashes ++ "\x7d"

/-- A token of `array_in`. -/
inductive ArrayTok where
  | lbrace | rbrace | comma
  | elem (v : Option String)
deriving DecidableEq, Repr

/-- Where the scan is: between tokens, in an unquoted or in a quoted element. The characters read so
far are kept last first; an unquoted one carries whether a backslash preceded it. -/
inductive ArrayScan where
  | gap
  | bare (acc : List (Char × Bool))
  | bareEscape (acc : List (Char × Bool))
  | quoted (acc : List Char)
  | quotedEscape (acc : List Char)

/-- `array_isspace`. -/
def isBlank (c : Char) : Bool :=
  c == ' ' || c == '\t' || c == '\n' || c == '\r' || c.toNat == 11 || c.toNat == 12

/-- An unquoted element: unescaped blanks at its end are dropped, and `NULL` without a backslash, in
any case, is the null element. -/
def bareElem (acc : List (Char × Bool)) : Option String :=
  let kept := acc.dropWhile fun c => isBlank c.1 && !c.2
  if kept.map (fun c => (c.1.toLower, c.2)) == [('l', false), ('l', false), ('u', false), ('n', false)] then none
  else some (String.ofList (kept.reverse.map Prod.fst))

/-- The tokens of an array literal; `none` = malformed. -/
def scanArray : ArrayScan → List Char → Option (List ArrayTok)
  | .gap, [] => some []
  | .gap, c :: cs =>
    if isBlank c then scanArray .gap cs
    else if c = '{' then (scanArray .gap cs).map (.lbrace :: ·)
    else if c = '}' then (scanArray .gap cs).map (.rbrace :: ·)
    else if c = ',' then (scanArray .gap cs).map (.comma :: ·)
    else if c = '"' then scanArray (.quoted []) cs
    else if c = '\\' then scanArray (.bareEscape []) cs
    else scanArray (.bare [(c, false)]) cs
  | .bare acc, c :: cs =>
    if c = ',' then (scanArray .gap cs).map fun ts => .elem (bareElem acc) :: .comma :: ts
    else if c = '}' then (scanArray .gap cs).map fun ts => .elem (bareElem acc) :: .rbrace :: ts
    else if c = '\\' then scanArray (.bareEscape acc) cs
    else if c = '"' || c = '{' then none
    else scanArray (.bare ((c, false) :: acc)) cs
  | .bareEscape acc, c :: cs => scanArray (.bare ((c, true) :: acc)) cs
  | .quoted acc, c :: cs =>
    if c = '"' then (scanArray .gap cs).map (.elem (some (String.ofList acc.reverse)) :: ·)
    else if c = '\\' then scanArray (.quotedEscape acc) cs
    else scanArray (.quoted (c :: acc)) cs
  | .quotedEscape acc, c :: cs => scanArray (.quoted (c :: acc)) cs
  | .bare _, [] | .bareEscape _, [] | .quoted _, [] | .quotedEscape _, [] => none

/-- An array under construction: how many items it has, their common dimensions, their elements. -/
structure ArrayLevel where
  count : Nat
  inner : Option (List Nat)
  elems : List (Option String)

/-- After an opening brace. -/
def ArrayLevel.empty : ArrayLevel := ⟨0, none, []⟩

/-- The lengths from this level inwards. -/
def ArrayLevel.dims (l : ArrayLevel) : List Nat := l.count :: l.inner.getD []

/-- One more item; sub-arrays of different dimensions are malformed. -/
def ArrayLevel.add (l : ArrayLevel) (dims : List Nat) (es : List (Option String)) : Option ArrayLevel :=
  if l.inner = none ∨ l.inner = some dims then some ⟨l.count + 1, some dims, l.elems ++ es⟩ else none

/-- What may come next: an item or `}` right after `{`, an item after a comma, else `,` or `}`. -/
inductive ArrayExpect where
  | first | item | separator
deriving DecidableEq

/-- Reads the tokens after an opening brace; the innermost open array is at the head of the stack. -/
def readItems : List ArrayLevel → ArrayExpect → List ArrayTok → Option ArrayLevel
  | lvl :: stk, exp, .elem v :: ts =>
    if exp = .separator then none
    else (lvl.add [] [v]).bind fun lvl' => readItems (lvl' :: stk) .separator ts
  | stk, exp, .lbrace :: ts => if exp = .separator then none else readItems (.empty :: stk) .first ts
  | stk, exp, .comma :: ts => if exp = .separator then readItems stk .item ts else none
  | [lvl], exp, [.rbrace] => if exp = .item then none else some lvl
  | lvl :: up :: stk, exp, .rbrace :: ts =>
    if exp = .item then none
    else (up.add lvl.dims lvl.elems).bind fun up' => readItems (up' :: stk) .separator ts
  | _, _, _ => none

/-- PostgreSQL allows at most six dimensions. -/
def maxDim : Nat := 6

/-- The elements a `TEXT[]` literal denotes; `none` = "malformed array literal". -/
def textArrayIn (literal : String) : Option (List (Option String)) :=
  match scanArray .gap literal.toList with
  | some (.lbrace :: ts) =>
    match readItems [.empty] .first ts with
    | some lvl => if lvl.dims.length ≤ maxDim then some lvl.elems else none
    | none => none
  | _ => none

/-- The array `CommitFile` stores is the list it was given. -/
def ReadsBack (hashes : List String) : Prop := textArrayIn (arrayLiteral hashes) = some (hashes.map some)

instance (hashes : List String) : Decidable (ReadsBack hashes) :=
  inferInstanceAs (Decidable (_ = _))

/-! ### Lists of bare words read back -/

/-- A character with no meaning of its own inside an unquoted element. -/
def bareChar (c : Char) : Bool := c != '{' && c != '}' && c != ',' && c != '"' && c != '\\'

/-- What may stand in an array literal as it is: blanks inside are kept, those at the ends are not. -/
structure BareWord (s : String) : Prop where
  ne : s ≠ ""
  bare : ∀ c ∈ s.toList, bareChar c = true
  first : ∀ c ∈ s.toList.head?, isBlank c = false
  last : ∀ c ∈ s.toList.getLast?, isBlank c = false
  notNull : s.toList.map Char.toLower ≠ ['n', 'u', 'l', 'l']

instance (s : String) : Decidable (BareWord s) :=
  decidable_of_iff (s ≠ "" ∧ s.toList.all bareChar = true ∧ s.toList.head?.all (!isBlank ·) = true ∧
      s.toList.getLast?.all (!isBlank ·) = true ∧ s.toList.map Char.toLower ≠ ['n', 'u', 'l', 'l'])
    ⟨fun h => ⟨h.1, List.all_eq_true.1 h.2.1, by simpa [Option.all_eq_true] using h.2.2.1,
        by simpa [Option.all_eq_true] using h.2.2.2.1, h.2.2.2.2⟩,
      fun h => ⟨h.1, List.all_eq_true.2 h.2, by simpa [Option.all_eq_true] using h.3,
        by simpa [Option.all_eq_true] using h.4, h.5⟩⟩

/-- A character with no meaning of its own in an array literal. -/
def plainChar (c : Char) : Bool :=
  !isBlank c && c != '{' && c != '}' && c != ',' && c != '"' && c != '\\'

/-- A word that is written without quotes and read back as it is. -/
structure PlainWord (s : String) : Prop where
  ne : s ≠ ""
  plain : ∀ c ∈ s.toList, plainChar c = true
  notNull : s.toList.map Char.toLower ≠ ['n', 'u', 'l', 'l']

theorem bareChar_iff {c : Char} : bareChar c = true ↔ c ≠ '{' ∧ c ≠ '}' ∧ c ≠ ',' ∧ c ≠ '"' ∧ c ≠ '\\' := by
  simp [bareChar, and_assoc]

theorem plainChar_iff {c : Char} : plainChar c = true ↔ isBlank c = false ∧ bareChar c = true := by
  simp [plainChar, bareChar, and_assoc]

theorem PlainWord.bareWord {s : String} (hs : PlainWord s) : BareWord s where
  ne := hs.ne
  bare c hc := (plainChar_iff.1 (hs.plain c hc)).2
  first c hc := (plainChar_iff.1 (hs.plain c (List.mem_of_mem_head? hc))).1
  last c hc := (plainChar_iff.1 (hs.plain c (List.mem_of_mem_getLast? hc))).1
  notNull := hs.notNull

theorem scanArray_bare (cs rest : List Char) (acc : List (Char × Bool))
    (hp : ∀ c ∈ cs, bareChar c = true) :
    scanArray (.bare acc) (cs ++ rest) = scanArray (.bare ((cs.map (·, false)).reverse ++ acc)) rest := by
  induction cs generalizing acc with
  | nil => rfl
  | cons c cs ih =>
    obtain ⟨h1, h2, h3, h4, h5⟩ := bareChar_iff.1 (hp c (by simp))
    rw [List.cons_append, scanArray, if_neg h3, if_neg h2, if_neg h5, if_neg (by simp [h1, h4]),
      ih _ fun d hd => hp d (by simp [hd])]
    simp

/-- A bare word opens an unquoted element. -/
theorem scanArray_word {s : String} (hs : BareWord s) (rest : List Char) :
    scanArray .gap (s.toList ++ rest) = scanArray (.bare (s.toList.map (·, false)).reverse) rest := by
  obtain ⟨hne, hp, hfirst, -, -⟩ := hs
  generalize hcs : s.toList = cs at hp hfirst
  cases cs with
  | nil => exact absurd (String.toList_eq_nil_iff.1 hcs) hne
  | cons c cs =>
    obtain ⟨h1, h2, h3, h4, h5⟩ := bareChar_iff.1 (hp c (by simp))
    have h0 := hfirst c rfl
    rw [List.cons_append, scanArray, if_neg (by simp [h0]), if_neg h1, if_neg h2, if_neg h3, if_neg h4, if_neg h5,
      scanArray_bare cs rest _ fun d hd => hp d (by simp [hd])]
    simp

theorem bareElem_word {s : String} (hs : BareWord s) :
    bareElem (s.toList.map (·, false)).reverse = some s := by
  have hkeep : (s.toList.map (·, false)).reverse.dropWhile (fun c => isBlank c.1 && !c.2) =
      (s.toList.map (·, false)).reverse := by
    rw [List.dropWhile_eq_self_iff]
    intro hl
    rw [List.getElem_zero, List.head_reverse, List.getLast_map]
    have hlast := hs.last _ (List.getLast?_eq_some_getLast (List.length_pos_iff.1 (by simpa using hl)))
    simp [hlast]
  unfold bareElem
  rw [hkeep, if_neg]
  · simp [Function.comp_def]
  · intro h
    rw [beq_iff_eq] at h
    apply hs.notNull
    have h' := congrArg (fun l => (l.map Prod.fst).reverse) h
    simpa [Function.comp_def] using h'

/-- The tokens after the opening brace of `{h₀,h₁,…}`. -/
def wordToks : List String → List ArrayTok
  | [] => [.rbrace]
  | [h] => [.elem (some h), .rbrace]
  | h :: hs => .elem (some h) :: .comma :: wordToks hs

theorem scanArray_words : ∀ (hs : List String), (∀ h ∈ hs, BareWord h) →
    scanArray .gap ([','].intercalate (hs.map String.toList) ++ ['}']) = some (wordToks hs)
  | [], _ => by simp [wordToks, scanArray, isBlank]
  | [h], hp => by
    have hw := hp h (by simp)
    rw [List.map_singleton, List.intercalate_singleton, scanArray_word hw]
    simp [scanArray, bareElem_word hw, wordToks]
  | h :: g :: hs, hp => by
    have hw := hp h (by simp)
    have ih := scanArray_words (g :: hs) fun x hx => hp x (by simp [List.mem_cons.1 hx])
    rw [List.map_cons, List.map_cons, List.intercalate_cons_cons, ← List.map_cons, List.append_assoc,
      List.append_assoc, scanArray_word hw, List.singleton_append, scanArray, if_pos rfl, ih,
      bareElem_word hw]
    rfl

theorem readItems_words : ∀ (hs : List String) (lvl : ArrayLevel) (exp : ArrayExpect), exp ≠ .separator →
    (hs = [] → exp = .first) → (lvl.inner = none ∨ lvl.inner = some []) →
    ∃ lvl', readItems [lvl] exp (wordToks hs) = some lvl' ∧ lvl'.elems = lvl.elems ++ hs.map some ∧
      lvl'.dims.length = 1
  | [], lvl, exp, _, hfirst, hin => by
    refine ⟨lvl, ?_, by simp, ?_⟩
    · simp [wordToks, readItems, hfirst rfl]
    · rcases hin with h | h <;> simp [ArrayLevel.dims, h]
  | [h], lvl, exp, hexp, _, hin => by
    refine ⟨⟨lvl.count + 1, some [], lvl.elems ++ [some h]⟩, ?_, by simp, by simp [ArrayLevel.dims]⟩
    simp [wordToks, readItems, hexp, ArrayLevel.add, hin]
  | h :: g :: hs, lvl, exp, hexp, _, hin => by
    obtain ⟨lvl', hr, he, hd⟩ := readItems_words (g :: hs) ⟨lvl.count + 1, some [], lvl.elems ++ [some h]⟩ .item
      (by simp) (by simp) (Or.inr rfl)
    refine ⟨lvl', ?_, by simpa using he, hd⟩
    rw [← hr]
    simp [wordToks, readItems, hexp, ArrayLevel.add, hin]

theorem toList_arrayLiteral (hashes : List String) : (arrayLiteral hashes).toList =
    '{' :: ([','].intercalate (hashes.map String.toList) ++ ['}']) := by
  simp [arrayLiteral, String.toList_intercalate]

/-- **A list of bare words reads back** from the literal `CommitFile` concatenates. -/
theorem readsBack_of_bare {hashes : List String} (hp : ∀ h ∈ hashes, BareWord h) : ReadsBack hashes := by
  obtain ⟨lvl, hr, he, hd⟩ := readItems_words hashes .empty .first (by simp) (fun _ => rfl) (Or.inl rfl)
  have hscan : scanArray .gap (arrayLiteral hashes).toList = some (.lbrace :: wordToks hashes) := by
    rw [toList_arrayLiteral, scanArray, if_neg (by decide), if_pos rfl, scanArray_words hashes hp]
    rfl
  simp only [ReadsBack, textArrayIn, hscan, hr, hd, maxDim]
  simpa [ArrayLevel.empty] using he

/-! ### SHA-256 digests -/

/-- Of either case. -/
def isHexDigit (c : Char) : Bool := ('0' ≤ c && c ≤ '9') || ('a' ≤ c && c ≤ 'f') || ('A' ≤ c && c ≤ 'F')

/-- 64 hexadecimal digits, as `sha256` prints a digest. -/
structure HexDigest (s : String) : Prop where
  length : s.length = 64
  hex : ∀ c ∈ s.toList, isHexDigit c = true

instance (s : String) : Decidable (HexDigest s) :=
  decidable_of_iff (s.length = 64 ∧ s.toList.all isHexDigit = true)
    ⟨fun h => ⟨h.1, List.all_eq_true.1 h.2⟩, fun h => ⟨h.1, List.all_eq_true.2 h.2⟩⟩

theorem isHexDigit_bounds {c : Char} (h : isHexDigit c = true) :
    48 ≤ c.toNat ∧ c.toNat ≤ 102 ∧ (c.toNat ≤ 57 ∨ (65 ≤ c.toNat ∧ (c.toNat ≤ 70 ∨ 97 ≤ c.toNat))) := by
  simp only [isHexDigit, Bool.or_eq_true, Bool.and_eq_true, decide_eq_true_eq, Char.le_def,
    UInt32.le_iff_toNat_le] at h
  have e : ∀ d : Char, d.val.toNat = d.toNat := fun _ => rfl
  have e0 : '0'.toNat = 48 ∧ '9'.toNat = 57 ∧ 'a'.toNat = 97 ∧ 'f'.toNat = 102 ∧ 'A'.toNat = 65 ∧ 'F'.toNat = 70 := by
    decide
  simp only [e, e0] at h
  omega

theorem HexDigest.plainWord {s : String} (hs : HexDigest s) : PlainWord s where
  ne := by
    rintro rfl
    exact absurd hs.length (by decide)
  plain c hc := by
    have hb := isHexDigit_bounds (hs.hex c hc)
    have hne : ∀ d : Char, c.toNat ≠ d.toNat → c ≠ d := fun d h e => h (congrArg Char.toNat e)
    refine plainChar_iff.2 ⟨?_, bareChar_iff.2 ⟨hne _ ?_, hne _ ?_, hne _ ?_, hne _ ?_, hne _ ?_⟩⟩
    · simp only [isBlank, Bool.or_eq_false_iff, beq_eq_false_iff_ne]
      refine ⟨⟨⟨⟨⟨hne _ ?_, hne _ ?_⟩, hne _ ?_⟩, hne _ ?_⟩, ?_⟩, ?_⟩
      all_goals simp; omega
    all_goals simp; omega
  notNull h := by
    have hl := congrArg List.length h
    rw [List.length_map, String.length_toList, hs.length] at hl
    exact absurd hl (by decide)

theorem readsBack_of_hex {hashes : List String} (hh : ∀ h ∈ hashes, HexDigest h) : ReadsBack hashes :=
  readsBack_of_bare fun h hm => (hh h hm).plainWord.bareWord

theorem HexDigest.varchar {s : String} (hs : HexDigest s) : varchar 64 s = some s :=
  varchar_of_le (Nat.le_of_eq hs.length)

/-! ## Bucket ids -/

/-- The value of a digit. -/
def hexVal? (c : Char) : Option Nat :=
  if '0' ≤ c ∧ c ≤ '9' then some (c.toNat - 48)
  else if 'a' ≤ c ∧ c ≤ 'f' then some (c.toNat - 87)
  else if 'A' ≤ c ∧ c ≤ 'F' then some (c.toNat - 55)
  else none

/-- `std::stoul` in base 16 (blanks, a sign, `0x`, the longest run of digits) on a 64-bit
`unsigned long`; `none` = `std::invalid_argument` or `std::out_of_range`. -/
def stoul16 (s : List Char) : Option Nat :=
  let s := s.dropWhile isBlank
  let (neg, s) := match s with
    | '-' :: t => (true, t)
    | '+' :: t => (false, t)
    | _ => (false, s)
  let s := match s with
    | '0' :: x :: d :: t => if (x = 'x' ∨ x = 'X') ∧ (hexVal? d).isSome then d :: t else s
    | _ => s
  match (s.takeWhile fun c => (hexVal? c).isSome).filterMap hexVal? with
  | [] => none
  | ds =>
    let v := ds.foldl (fun acc d => acc * 16 + d) 0
    if v < 2 ^ 64 then some (if neg then (2 ^ 64 - v) % 2 ^ 64 else v) else none

/-- The first eight bytes as a number modulo the bucket count; 0 for what is not a number. The value
is cut to an `unsigned int` first. -/
def calculateBucketId (sha256Hex : String) (numBuckets : Nat) : Nat :=
  if sha256Hex.utf8ByteSize < 8 then 0
  else match stoul16 (sha256Hex.toList.take 8) with
    | some v => v % 2 ^ 32 % numBuckets
    | none => 0

/-! ### Every bucket has its hashes -/

theorem length_le_utf8ByteSize (s : String) : s.length ≤ s.utf8ByteSize := by
  obtain ⟨l, rfl⟩ : ∃ l, s = String.ofList l := ⟨s.toList, (String.ofList_toList).symm⟩
  induction l with
  | nil => simp
  | cons c l ih =>
    have hcons : String.ofList (c :: l) = String.singleton c ++ String.ofList l := by
      rw [← String.toList_inj]; simp
    have hpos := c.utf8Size_pos
    rw [hcons, String.utf8ByteSize_append, String.utf8ByteSize_singleton, String.length_append]
    simp only [String.length_singleton]
    omega

/-- The last `k` hexadecimal digits. -/
def hexText : Nat → Nat → List Char
  | 0, _ => []
  | k + 1, v => hexText k (v / 16) ++ [Nat.digitChar (v % 16)]

theorem hexVal?_digitChar : ∀ d < 16, hexVal? (Nat.digitChar d) = some d := by decide
theorem length_hexText (k v : Nat) : (hexText k v).length = k := by
  induction k generalizing v with
  | zero => rfl
  | succ k ih => simp [hexText, ih]
theorem isSome_hexText {k v : Nat} : ∀ c ∈ hexText k v, (hexVal? c).isSome := by
  induction k generalizing v with
  | zero => intro c hc; cases hc
  | succ k ih =>
    intro c hc
    rcases List.mem_append.1 hc with hc | hc
    · exact ih c hc
    · rw [List.mem_singleton.1 hc, hexVal?_digitChar _ (Nat.mod_lt _ (by decide))]
      rfl
theorem foldl_hexText {k v : Nat} (h : v < 16 ^ k) :
    ((hexText k v).filterMap hexVal?).foldl (fun acc d => acc * 16 + d) 0 = v := by
  induction k generalizing v with
  | zero => simp at h; simp [hexText, h]
  | succ k ih =>
    have hdiv : v / 16 < 16 ^ k := by rw [Nat.pow_succ] at h; omega
    simp only [hexText, List.filterMap_append, List.foldl_append, ih hdiv]
    simp [hexVal?_digitChar _ (Nat.mod_lt v (show 0 < 16 by decide))]
    omega

theorem hexVal?_ge {c : Char} {v : Nat} (h : hexVal? c = some v) : 48 ≤ c.toNat := by
  have hle : ∀ d : Char, d ≤ c → d.toNat ≤ c.toNat := fun d hd => UInt32.le_iff_toNat_le.1 (Char.le_def.1 hd)
  unfold hexVal? at h
  split at h
  · exact hle '0' (by tauto)
  split at h
  · have := hle 'a' (by tauto)
    simp at this
    omega
  split at h
  · have := hle 'A' (by tauto)
    simp at this
    omega
  · cases h

/-- Hexadecimal digits alone are read as they stand. -/
theorem stoul16_of_hex {s : List Char} (hne : s ≠ []) (hs : ∀ c ∈ s, (hexVal? c).isSome) {v : Nat}
    (hv : (s.filterMap hexVal?).foldl (fun acc d => acc * 16 + d) 0 = v) (hlt : v < 2 ^ 64) : stoul16 s = some v := by
  have hnot : ∀ d : Char, hexVal? d = none → d ∉ s := by
    intro d hd hc
    have hsome := hs d hc
    rw [hd] at hsome
    cases hsome
  have hblank : s.dropWhile isBlank = s := by
    obtain ⟨c, t, rfl⟩ := List.exists_cons_of_ne_nil hne
    refine List.dropWhile_cons_of_neg fun hc => ?_
    obtain ⟨d, hd⟩ := Option.isSome_iff_exists.1 (hs c List.mem_cons_self)
    have hge := hexVal?_ge hd
    simp only [isBlank, Bool.or_eq_true, beq_iff_eq] at hc
    rcases hc with ((((rfl | rfl) | rfl) | rfl) | hc) | hc
    · simp at hge
    · simp at hge
    · simp at hge
    · simp at hge
    · omega
    · omega
  have hdigits : s.takeWhile (fun c => (hexVal? c).isSome) = s := List.takeWhile_eq_self_iff.2 hs
  have hsome : s.filterMap hexVal? ≠ [] := by
    obtain ⟨c, t, rfl⟩ := List.exists_cons_of_ne_nil hne
    obtain ⟨d, hd⟩ := Option.isSome_iff_exists.1 (hs c List.mem_cons_self)
    rw [List.filterMap_cons_some hd]
    exact List.cons_ne_nil _ _
  have hsign : ∀ {s₂ s₁ : List Char} {neg : Bool}, s₂ = s → (match s₂ with
      | '-' :: t => (true, t)
      | '+' :: t => (false, t)
      | _ => (false, s₂)) = (neg, s₁) → neg = false ∧ s₁ = s := by
    intro s₂ s₁ neg hs₂ h
    split at h
    · exact absurd (hs₂ ▸ List.mem_cons_self) (hnot '-' (by decide))
    · exact absurd (hs₂ ▸ List.mem_cons_self) (hnot '+' (by decide))
    · obtain ⟨rfl, rfl⟩ := Prod.mk.inj h
      exact ⟨rfl, hs₂⟩
  have hbase : ∀ {s₁ : List Char}, s₁ = s → (match s₁ with
      | '0' :: x :: d :: t => if (x = 'x' ∨ x = 'X') ∧ (hexVal? d).isSome then d :: t else s₁
      | _ => s₁) = s := by
    intro s₁ hs₁
    split
    · rename_i x d t
      rw [if_neg, hs₁]
      rintro ⟨rfl | rfl, -⟩
      · exact hnot 'x' (by decide) (hs₁ ▸ by simp)
      · exact hnot 'X' (by decide) (hs₁ ▸ by simp)
    · exact hs₁
  fun_cases stoul16 s with
  | case1 s₂ neg s₁ h₁ s₀ h₀ =>
    have hs₀ : s₀ = s := hbase (hsign hblank h₁).2
    rw [hs₀, hdigits] at h₀
    exact absurd h₀ hsome
  | case2 s₂ neg s₁ h₁ s₀ h₀ v₀ hfits =>
    have hs₀ : s₀ = s := hbase (hsign hblank h₁).2
    have hv₀ : v₀ = v := by rw [← hv]; simp only [v₀, hs₀, hdigits]
    rw [(hsign hblank h₁).1, hv₀]
    rfl
  | case3 s₂ neg s₁ h₁ s₀ h₀ v₀ hover =>
    have hs₀ : s₀ = s := hbase (hsign hblank h₁).2
    have hv₀ : v₀ = v := by rw [← hv]; simp only [v₀, hs₀, hdigits]
    exact absurd (hv₀ ▸ hlt) hover

/-- A hash of the bucket that is longer than the column, by a blank that is cut off. -/
def bucketHash (b : Nat) : String := String.ofList (hexText 8 b ++ List.replicate 57 ' ')

theorem length_bucketHash (b : Nat) : (bucketHash b).length = 65 := by
  rw [bucketHash, String.length_ofList, List.length_append, length_hexText, List.length_replicate]

theorem calculateBucketId_bucketHash {b n : Nat} (hb : b < n) (hn : n ≤ 2 ^ 32) :
    calculateBucketId (bucketHash b) n = b := by
  have hlong := length_le_utf8ByteSize (bucketHash b)
  rw [length_bucketHash] at hlong
  have hprefix : (bucketHash b).toList.take 8 = hexText 8 b := by
    rw [bucketHash, String.toList_ofList, List.take_append_of_le_length (length_hexText 8 b).ge,
      List.take_of_length_le (length_hexText 8 b).le]
  have hread : stoul16 (hexText 8 b) = some b := by
    refine stoul16_of_hex (fun hnil => ?_) isSome_hexText (foldl_hexText (by omega)) (by omega)
    have hlen := length_hexText 8 b
    rw [hnil] at hlen
    cases hlen
  unfold calculateBucketId
  rw [if_neg (by omega), hprefix, hread]
  simp only
  rw [Nat.mod_eq_of_lt (show b < 2 ^ 32 by omega), Nat.mod_eq_of_lt hb]

theorem varchar_overlong {n : Nat} {s key : String} (h : varchar n s = some key) : key.length ≤ n ∧ (s.length ≤ n → key = s) := by
  unfold varchar at h
  split at h
  · rename_i hle
    cases h
    exact ⟨hle, fun _ => rfl⟩
  · rename_i hgt
    split at h
    · cases h
      refine ⟨?_, fun hle => absurd hle hgt⟩
      simp
    · cases h

theorem varchar_bucketHash (b : Nat) : ∃ key, varchar 64 (bucketHash b) = some key := by
  have hblanks : ((bucketHash b).toList.drop 64).all (· == ' ') = true := by
    rw [bucketHash, String.toList_ofList, List.drop_append, length_hexText, List.drop_of_length_le (by simp [length_hexText])]
    simp
  unfold varchar
  rw [if_neg (by rw [length_bucketHash]; decide), hblanks]
  exact ⟨_, rfl⟩

/-- A hash that is cut to its column keeps its bucket. -/
theorem calculateBucketId_varchar {hash key : String} (h : varchar 64 hash = some key) (n : Nat) :
    calculateBucketId key n = calculateBucketId hash n := by
  by_cases hle : hash.length ≤ 64
  · rw [(varchar_overlong h).2 hle]
  · unfold varchar at h
    rw [if_neg hle] at h
    split at h
    · obtain rfl := Option.some.inj h
      have hlong := length_le_utf8ByteSize hash
      have hkey := length_le_utf8ByteSize (String.ofList (hash.toList.take 64))
      rw [String.length_ofList, List.length_take, String.length_toList] at hkey
      have hprefix : (String.ofList (hash.toList.take 64)).toList.take 8 = hash.toList.take 8 := by
        rw [String.toList_ofList, List.take_take]
        rfl
      unfold calculateBucketId
      rw [if_neg (by omega), if_neg (by omega), hprefix]
    · cases h

end StorageEngine
