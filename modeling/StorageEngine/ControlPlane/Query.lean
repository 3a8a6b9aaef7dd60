import StorageEngine.Cluster.Worker

/-!
# Query strings, as `httplib` reads and writes them

| here | there (`common/httplib.h`) |
| --- | --- |
| `trimBlanks`, `splitTrimmed` | `trim` (`:5246-5255`), `split` (`:5295-5315`): a piece that is empty after trimming is skipped |
| `divide`                     | `divide` (`:5270-5281`) |
| `hexVal`                     | `is_hex` (`:4457-4469`) |
| `encodeQueryComponent`       | `encode_query_component` (`:9728-9780`), a space as `+` |
| `decodeQueryComponent`       | `decode_query_component` (`:9782-9804`), `+` as a space |
| `normalizeQueryString`       | `normalize_query_string` (`:7799-7826`) |
| `parseQueryText`             | `parse_query_text` (`:7768-7789`), the parameters in the order they come |
| `getParamValue`              | `get_param_value` (`:9911-9914`): the first value of the key, or none |
| `writeRequestLine`           | the request line of `ClientImpl::write_request` (`:13641-13685`), without its line end |
| `parseRequestLine`           | `Server::parse_request_line` (`:11358-11412`) and the length check (`:12317-12322`) |

Paths are constants of plain characters here, which path encoding and decoding leave alone.
-/

namespace StorageEngine

/-- An ASCII character. -/
abbrev ascii (c : Char) : UInt8 := c.toUInt8

/-- A literal of the source. -/
def asciiText (s : String) : Bytes := s.toList.map ascii

/-- `detail::is_space_or_tab`. -/
def isSpaceOrTab (c : UInt8) : Bool := c == ascii ' ' || c == ascii '\t'

/-- Without the blanks at its end. -/
def trimRight (s : Bytes) : Bytes := (s.reverse.dropWhile isSpaceOrTab).reverse

def trimBlanks (s : Bytes) : Bytes := trimRight (s.dropWhile isSpaceOrTab)

def splitTrimmed (d : UInt8) (s : Bytes) : List Bytes := ((s.splitOn d).map trimBlanks).filter fun p => !p.isEmpty

/-- Before and after the first `d`. -/
def divide (d : UInt8) (s : Bytes) : Bytes × Bytes := (s.takeWhile (· != d), (s.dropWhile (· != d)).drop 1)

/-! ## Components -/

def hexVal (c : UInt8) : Option UInt8 :=
  if ascii '0' ≤ c ∧ c ≤ ascii '9' then some (c - ascii '0')
  else if ascii 'A' ≤ c ∧ c ≤ ascii 'F' then some (c - ascii 'A' + 10)
  else if ascii 'a' ≤ c ∧ c ≤ ascii 'f' then some (c - ascii 'a' + 10)
  else none

/-- `%02X`. -/
def hexDigit (n : UInt8) : UInt8 := if n < 10 then ascii '0' + n else ascii 'A' + (n - 10)

/-- Unreserved characters and those that stand for themselves in a query. -/
def querySafe (c : UInt8) : Bool :=
  (ascii '0' ≤ c && c ≤ ascii '9') || (ascii 'A' ≤ c && c ≤ ascii 'Z') || (ascii 'a' ≤ c && c ≤ ascii 'z') ||
    (asciiText "-._~!$'()*,;:@/?").contains c

/-- `encode_query_component`, one byte. -/
def encodeByte (c : UInt8) : Bytes :=
  if querySafe c then [c]
  else if c = ascii ' ' then [ascii '+']
  else [ascii '%', hexDigit (c / 16), hexDigit (c % 16)]

def encodeQueryComponent (s : Bytes) : Bytes := s.flatMap encodeByte

/-- `from_hex_to_i(component, i + 1, 2, val)`. -/
def hexPair : Bytes → Option UInt8
  | h :: l :: _ => (hexVal h).bind fun a => (hexVal l).map fun b => a * 16 + b
  | _ => none

/-- The loop, with the number of characters it has still to skip. -/
def decodeFrom : Nat → Bytes → Bytes
  | _, [] => []
  | skip + 1, _ :: cs => decodeFrom skip cs
  | 0, c :: cs =>
    if c = ascii '%' then
      match hexPair cs with
      | some v => v :: decodeFrom 2 cs
      | none => c :: decodeFrom 0 cs
    else (if c = ascii '+' then ascii ' ' else c) :: decodeFrom 0 cs

def decodeQueryComponent (s : Bytes) : Bytes := decodeFrom 0 s

/-! ## Queries -/

/-- One pair of a query, decoded and encoded again. -/
def normalizePair (kv : Bytes) : Bytes :=
  let (key, val) := divide (ascii '=') kv
  encodeQueryComponent (decodeQueryComponent key) ++
    if kv.contains (ascii '=') then ascii '=' :: encodeQueryComponent (decodeQueryComponent val) else []

/-- A pair without a key is dropped. -/
def normalizeQueryString (query : Bytes) : Bytes :=
  (splitTrimmed (ascii '&') query).foldl (fun result kv =>
    if (divide (ascii '=') kv).1.isEmpty then result
    else if result.isEmpty then normalizePair kv
    else result ++ ascii '&' :: normalizePair kv) []

def parseQueryText (query : Bytes) : List (Bytes × Bytes) :=
  (splitTrimmed (ascii '&') query).eraseDups.filterMap fun kv =>
    let (key, val) := divide (ascii '=') kv
    if key.isEmpty then none else some (decodeQueryComponent key, decodeQueryComponent val)

def getParamValue (params : List (Bytes × Bytes)) (key : Bytes) : Option Bytes :=
  (params.find? fun p => p.1 == key).map Prod.snd

/-! ## Request lines -/

/-- `CPPHTTPLIB_REQUEST_URI_MAX_LENGTH` (`httplib.h:110`). -/
def maxUriLength : Nat := 8192

/-- The target of a request whose path carries a query. -/
def requestTarget (path query : Bytes) : Bytes :=
  let normalized := normalizeQueryString query
  if normalized.isEmpty then path else path ++ ascii '?' :: normalized

def writeRequestLine (method path query : Bytes) : Bytes :=
  method ++ ascii ' ' :: requestTarget path query ++ ascii ' ' :: asciiText "HTTP/1.1"

/-- Method, path and parameters; `none` where the request is answered with an error. -/
def parseRequestLine (line : Bytes) : Option (Bytes × Bytes × List (Bytes × Bytes)) :=
  match splitTrimmed (ascii ' ') line with
  | [method, target, version] =>
    if version = asciiText "HTTP/1.1" ∧ target.length ≤ maxUriLength then
      let (path, query) := divide (ascii '?') (target.takeWhile (· != ascii '#'))
      some (method, path, parseQueryText query)
    else none
  | _ => none

theorem divide_append {d : UInt8} {a b : Bytes} (hd : d ∉ a) : divide d (a ++ d :: b) = (a, b) := by
  have ha : ∀ c ∈ a, (c != d) = true := fun c hc => by simpa using fun he : c = d => hd (he ▸ hc)
  unfold divide
  rw [List.takeWhile_append_of_pos ha, List.dropWhile_append_of_pos ha]
  simp

/-! ## What encoding does to a byte -/

theorem forall_byte {P : UInt8 → Prop} (h : ∀ n < 256, P (UInt8.ofNat n)) (c : UInt8) : P c := by
  have hc := h c.toNat (UInt8.toNat_lt c)
  rwa [UInt8.ofNat_toNat] at hc

/-- What an encoded component consists of: no blank, and none of the characters a request line is cut at. -/
def wireSafe (c : UInt8) : Bool := !isSpaceOrTab c && c != ascii '&' && c != ascii '=' && c != ascii '#'

/-- The bytes are run through once, all that is needed of them together. -/
theorem byte_table : ∀ c : UInt8,
    (hexVal (hexDigit (c / 16)) = some (c / 16) ∧ hexVal (hexDigit (c % 16)) = some (c % 16) ∧
      c / 16 * 16 + c % 16 = c) ∧
    (encodeByte c).all wireSafe = true ∧ (querySafe c = true → c ≠ ascii '%' ∧ c ≠ ascii '+') :=
  forall_byte (by decide +kernel)

theorem hexVal_hexDigit_div (c : UInt8) : hexVal (hexDigit (c / 16)) = some (c / 16) := (byte_table c).1.1

theorem hexVal_hexDigit_mod (c : UInt8) : hexVal (hexDigit (c % 16)) = some (c % 16) := (byte_table c).1.2.1

theorem byte_div_mod (c : UInt8) : c / 16 * 16 + c % 16 = c := (byte_table c).1.2.2

theorem encodeByte_wireSafe (c : UInt8) : (encodeByte c).all wireSafe = true := (byte_table c).2.1

theorem querySafe_ne (c : UInt8) : querySafe c = true → c ≠ ascii '%' ∧ c ≠ ascii '+' := (byte_table c).2.2

/-! ## Components survive encoding -/

theorem decodeFrom_drop (skip : Nat) (s : Bytes) : decodeFrom skip s = decodeFrom 0 (s.drop skip) := by
  induction skip generalizing s with
  | zero => rfl
  | succ skip ih =>
    cases s with
    | nil => rfl
    | cons c cs => rw [decodeFrom, ih, List.drop_succ_cons]

theorem decode_encodeByte (c : UInt8) (rest : Bytes) : decodeFrom 0 (encodeByte c ++ rest) = c :: decodeFrom 0 rest := by
  unfold encodeByte
  split
  · rename_i hsafe
    obtain ⟨hpercent, hplus⟩ := querySafe_ne c hsafe
    rw [List.singleton_append, decodeFrom, if_neg hpercent, if_neg hplus]
  · split
    · rename_i hspace
      rw [List.singleton_append, decodeFrom, if_neg (by decide), if_pos rfl, hspace]
    · have hpair : hexPair (hexDigit (c / 16) :: hexDigit (c % 16) :: rest) = some c := by
        simp only [hexPair, hexVal_hexDigit_div, hexVal_hexDigit_mod, Option.bind_some, Option.map_some, byte_div_mod]
      rw [List.cons_append, List.cons_append, List.singleton_append, decodeFrom, if_pos rfl, hpair]
      simp only [decodeFrom_drop 2, List.drop_succ_cons, List.drop_zero]

/-- **An encoded component is decoded to what it was.** -/
theorem decode_encode (s : Bytes) : decodeQueryComponent (encodeQueryComponent s) = s := by
  unfold decodeQueryComponent encodeQueryComponent
  induction s with
  | nil => rfl
  | cons c cs ih => rw [List.flatMap_cons, decode_encodeByte, ih]

theorem encode_wireSafe {s : Bytes} {c : UInt8} (hc : c ∈ encodeQueryComponent s) : wireSafe c = true := by
  obtain ⟨d, -, hd⟩ := List.mem_flatMap.1 hc
  exact List.all_eq_true.1 (encodeByte_wireSafe d) c hd

/-! ### Decoding what was not encoded -/

/-- A `%` with two hexadecimal digits behind it. -/
def hasEscape : Bytes → Bool
  | [] => false
  | c :: cs => (c == ascii '%' && (hexPair cs).isSome) || hasEscape cs

theorem length_decodeFrom_le (s : Bytes) : ∀ skip, (decodeFrom skip s).length + skip ≤ max s.length skip := by
  induction s with
  | nil => intro skip; simp [decodeFrom]
  | cons c cs ih =>
    intro skip
    cases skip with
    | succ skip =>
      have hle := ih skip
      simp only [decodeFrom, List.length_cons]
      omega
    | zero =>
      have h0 := ih 0
      have h2 := ih 2
      simp only [decodeFrom]
      split
      · split
        · rename_i v hv
          have hlen : 2 ≤ cs.length := by
            match cs, hv with
            | _ :: _ :: _, _ => simp
          simp only [List.length_cons]
          omega
        · simp only [List.length_cons]
          omega
      · simp only [List.length_cons]
        omega

/-- **A component is decoded to itself** exactly when it has no plus sign and no escape. -/
theorem decode_eq_self_iff (s : Bytes) : decodeQueryComponent s = s ↔ ascii '+' ∉ s ∧ hasEscape s = false := by
  unfold decodeQueryComponent
  induction s with
  | nil => simp [decodeFrom, hasEscape]
  | cons c cs ih =>
    simp only [decodeFrom, hasEscape, List.mem_cons, not_or, Bool.or_eq_false_iff, Bool.and_eq_false_iff,
      beq_eq_false_iff_ne, ne_eq]
    by_cases hpercent : c = ascii '%'
    · rw [if_pos hpercent]
      cases hv : hexPair cs with
      | some v =>
        refine iff_of_false (fun he => ?_) (by simp [hpercent])
        -- an escape makes the result shorter
        have hlen := congrArg List.length he
        have hle := length_decodeFrom_le cs 2
        have htwo : 2 ≤ cs.length := by
          match cs, hv with
          | _ :: _ :: _, _ => simp
        simp only [List.length_cons] at hlen
        omega
      | none =>
        have hplus : ascii '+' ≠ c := by rw [hpercent]; decide
        simp [ih, hplus]
    · rw [if_neg hpercent]
      by_cases hplus : c = ascii '+'
      · rw [if_pos hplus]
        refine iff_of_false (fun he => ?_) (fun h => h.1.1 hplus.symm)
        have hhead : ascii ' ' = c := (List.cons.inj he).1
        rw [hplus] at hhead
        exact absurd hhead (by decide)
      · rw [if_neg hplus]
        simp [ih, hpercent, Ne.symm hplus]

end StorageEngine
