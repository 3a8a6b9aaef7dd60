import StorageEngine.ControlPlane.Query

/-!
# File names on their way to the master

`CommitFile` sends the name in a JSON body. The other three calls append it to the query of the URL as it is;
the client's `httplib` takes that query apart and writes it anew, the server's takes it apart again.

| here | there |
| --- | --- |
| `NameCall`          | `GetDownloadPlan`, `FileExists`, `RemoveFile` (`MasterHttpClient.cpp:127-183`) |
| `handlerReceives`   | the name `HandleDownloadPlan`, `HandleFileExists`, `HandleDeleteFile` pass on (`MasterServer.hpp:88-131`, `:301-319`) |
| `JsonText`          | a JSON string, written by `dump` and read by `parse` (`common/json.hpp`); `none` where they throw |
| `commitReceives`    | the name `HandleCommit` passes on (`:274-288`) |
-/

namespace StorageEngine

inductive NameCall where
  | downloadPlan | exists | delete
deriving DecidableEq, Repr

/-- As `MasterHttpClient` sends it. -/
def NameCall.method : NameCall → Bytes
  | .downloadPlan | .exists => asciiText "GET"
  | .delete => asciiText "DELETE"

/-- The path before the query. -/
def NameCall.path : NameCall → Bytes
  | .downloadPlan => asciiText "/files/download-plan"
  | .exists => asciiText "/files/exists"
  | .delete => asciiText "/files"

/-- `"filename=" + filename`. -/
def filenameQuery (name : Bytes) : Bytes := asciiText "filename=" ++ name

/-- `none` where the handler is not called or finds no parameter. -/
def handlerReceives (call : NameCall) (name : Bytes) : Option Bytes :=
  (parseRequestLine (writeRequestLine call.method call.path (filenameQuery name))).bind fun req =>
    getParamValue req.2.2 (asciiText "filename")

/-- Parsing gives back what was dumped; `dump` throws on what is not UTF-8. -/
structure JsonText where
  dump : Bytes → Option Bytes
  parse : Bytes → Option Bytes
  parse_dump : ∀ s text, dump s = some text → parse text = some s

def commitReceives (json : JsonText) (name : Bytes) : Option Bytes := (json.dump name).bind json.parse

/-! ## Trimming and splitting -/

theorem trimRight_append {a b : Bytes} (ha : ∀ c ∈ a.getLast?, isSpaceOrTab c = false) (hne : a ≠ []) :
    trimRight (a ++ b) = a ++ trimRight b := by
  unfold trimRight
  rw [List.reverse_append, List.dropWhile_append]
  have hstop : a.reverse.dropWhile isSpaceOrTab = a.reverse := by
    rw [List.dropWhile_eq_self_iff]
    intro hl
    rw [List.getElem_zero, List.head_reverse]
    simpa using ha _ (List.getLast?_eq_some_getLast hne)
  split
  · rename_i he
    rw [List.isEmpty_iff] at he
    rw [hstop, he]
    simp
  · simp

theorem trimRight_eq_self_iff {s : Bytes} : trimRight s = s ↔ ∀ c ∈ s.getLast?, isSpaceOrTab c = false := by
  unfold trimRight
  rw [← List.reverse_inj, List.reverse_reverse, List.dropWhile_eq_self_iff]
  cases hs : s.reverse with
  | nil =>
    rw [List.reverse_eq_nil_iff] at hs
    simp [hs]
  | cons c cs =>
    have hlast : s.getLast? = some c := by rw [← List.head?_reverse, hs]; rfl
    simp [hlast]

theorem length_trimRight_le (s : Bytes) : (trimRight s).length ≤ s.length := by
  have h := (s.reverse.dropWhile_suffix isSpaceOrTab).length_le
  rw [List.length_reverse] at h
  unfold trimRight
  rwa [List.length_reverse]

/-- What has no blank is not trimmed. -/
theorem trimBlanks_eq_self {s : Bytes} (h : ∀ c ∈ s, isSpaceOrTab c = false) : trimBlanks s = s := by
  unfold trimBlanks
  have hfront : s.dropWhile isSpaceOrTab = s := by
    rw [List.dropWhile_eq_self_iff]
    intro hl
    simpa using h _ (List.getElem_mem hl)
  rw [hfront, trimRight_eq_self_iff]
  exact fun c hc => h c (List.mem_of_mem_getLast? hc)

theorem splitTrimmed_cons {d : UInt8} {p rest : Bytes} (hd : d ∉ p) (hp : trimBlanks p ≠ []) :
    splitTrimmed d (p ++ d :: rest) = trimBlanks p :: splitTrimmed d rest := by
  unfold splitTrimmed
  rw [List.splitOn_append_cons_self_of_not_mem hd, List.map_cons, List.filter_cons_of_pos (by simpa using hp)]

theorem splitTrimmed_last {d : UInt8} {p : Bytes} (hd : d ∉ p) (hp : trimBlanks p ≠ []) :
    splitTrimmed d p = [trimBlanks p] := by
  unfold splitTrimmed
  rw [List.splitOn_eq_singleton hd, List.map_singleton, List.filter_cons_of_pos (by simpa using hp), List.filter_nil]

/-! ## The client's side -/

/-- A byte that neither is blank nor starts a fragment. -/
def targetByte (c : UInt8) : Bool := !isSpaceOrTab c && c != ascii '#'

theorem targetByte_of_wireSafe {c : UInt8} (h : wireSafe c = true) : targetByte c = true := by
  simp only [wireSafe, targetByte, Bool.and_eq_true] at h ⊢
  exact ⟨h.1.1.1, h.2⟩

theorem normalizePair_targetByte {kv : Bytes} {c : UInt8} (hc : c ∈ normalizePair kv) : targetByte c = true := by
  unfold normalizePair at hc
  simp only [List.mem_append] at hc
  rcases hc with hc | hc
  · exact targetByte_of_wireSafe (encode_wireSafe hc)
  · split at hc
    · rcases List.mem_cons.1 hc with rfl | hc
      · decide
      · exact targetByte_of_wireSafe (encode_wireSafe hc)
    · cases hc

/-- What follows the first pair. -/
structure QueryTail (tail : Bytes) : Prop where
  starts : tail = [] ∨ ∃ t, tail = ascii '&' :: t
  plain : ∀ c ∈ tail, targetByte c = true

theorem normalize_foldl (kvs : List Bytes) : ∀ {result : Bytes}, result ≠ [] → ∃ tail, QueryTail tail ∧
    kvs.foldl (fun result kv =>
      if (divide (ascii '=') kv).1.isEmpty then result
      else if result.isEmpty then normalizePair kv
      else result ++ ascii '&' :: normalizePair kv) result = result ++ tail := by
  induction kvs with
  | nil =>
    intro result _
    exact ⟨[], ⟨Or.inl rfl, fun c hc => by cases hc⟩, by simp⟩
  | cons kv kvs ih =>
    intro result hne
    rw [List.foldl_cons]
    split
    · exact ih hne
    · rw [if_neg (by simpa using hne)]
      obtain ⟨tail, htail, he⟩ := @ih (result ++ ascii '&' :: normalizePair kv) (by simp)
      refine ⟨ascii '&' :: normalizePair kv ++ tail, ⟨Or.inr ⟨_, rfl⟩, fun c hc => ?_⟩, he.trans (by simp)⟩
      rcases List.mem_append.1 hc with hc | hc
      · rcases List.mem_cons.1 hc with rfl | hc
        · decide
        · exact normalizePair_targetByte hc
      · exact htail.plain c hc

/-- The value the client makes of the name: it ends at the first `&`, and loses the blanks at its end. -/
def queryValue (name : Bytes) : Bytes := trimRight (name.takeWhile (· != ascii '&'))

/-- The first pair as it is written. -/
def firstPair (name : Bytes) : Bytes :=
  asciiText "filename=" ++ encodeQueryComponent (decodeQueryComponent (queryValue name))

/-- The query is a key and its value. -/
theorem filename_pair (v : Bytes) : asciiText "filename=" ++ v = asciiText "filename" ++ ascii '=' :: v := rfl

theorem divide_filename (v : Bytes) : divide (ascii '=') (asciiText "filename=" ++ v) = (asciiText "filename", v) := by
  rw [filename_pair, divide_append (by decide)]

theorem key_nonempty : ¬ (asciiText "filename").isEmpty = true := by decide

theorem encode_decode_key :
    encodeQueryComponent (decodeQueryComponent (asciiText "filename")) = asciiText "filename" := by
  decide +kernel

theorem normalizePair_filename (v : Bytes) : normalizePair (asciiText "filename=" ++ v) =
    asciiText "filename=" ++ encodeQueryComponent (decodeQueryComponent v) := by
  have hequals : (asciiText "filename=" ++ v).contains (ascii '=') = true := by
    rw [filename_pair]
    simp
  unfold normalizePair
  rw [divide_filename, hequals]
  simp only [encode_decode_key, if_true]
  rw [filename_pair]

theorem trimBlanks_filename (v : Bytes) : trimBlanks (asciiText "filename=" ++ v) = asciiText "filename=" ++ trimRight v := by
  have hfront : (asciiText "filename=" ++ v).dropWhile isSpaceOrTab = asciiText "filename=" ++ v := rfl
  unfold trimBlanks
  rw [hfront, trimRight_append (by decide +kernel) (by decide +kernel)]

theorem normalize_filename (name : Bytes) :
    ∃ tail, QueryTail tail ∧ normalizeQueryString (filenameQuery name) = firstPair name ++ tail ∧
      (ascii '&' ∉ name → tail = []) := by
  have hpiece : ascii '&' ∉ asciiText "filename=" ++ name.takeWhile (· != ascii '&') := by
    rw [List.mem_append, not_or]
    refine ⟨by decide, fun hm => ?_⟩
    have hne := List.mem_takeWhile_imp hm
    simp at hne
  have htrim : trimBlanks (asciiText "filename=" ++ name.takeWhile (· != ascii '&')) =
      asciiText "filename=" ++ queryValue name := trimBlanks_filename _
  unfold normalizeQueryString filenameQuery
  cases hrest : name.dropWhile (· != ascii '&') with
  | nil =>
    have hall : name.takeWhile (· != ascii '&') = name := by
      have h := List.takeWhile_append_dropWhile (p := (· != ascii '&')) (l := name)
      rwa [hrest, List.append_nil] at h
    rw [hall] at hpiece htrim
    refine ⟨[], ⟨Or.inl rfl, fun c hc => by cases hc⟩, ?_, fun _ => rfl⟩
    rw [splitTrimmed_last hpiece (by rw [htrim]; simp [asciiText]), htrim, List.foldl_cons, List.foldl_nil,
      divide_filename, if_neg key_nonempty, if_pos (by rfl), normalizePair_filename, List.append_nil]
    rfl
  | cons d rest =>
    have hd : d = ascii '&' := by
      have h := List.head?_dropWhile_not (p := (· != ascii '&')) (l := name)
      rw [hrest] at h
      simpa using h
    subst hd
    have hname : name = name.takeWhile (· != ascii '&') ++ ascii '&' :: rest := by
      rw [← hrest, List.takeWhile_append_dropWhile]
    have hsplit : splitTrimmed (ascii '&') (asciiText "filename=" ++ name) =
        (asciiText "filename=" ++ queryValue name) :: splitTrimmed (ascii '&') rest := by
      conv_lhs => rw [hname, ← List.append_assoc]
      rw [splitTrimmed_cons hpiece (by rw [htrim]; simp [asciiText]), htrim]
    obtain ⟨tail, htail, he⟩ := @normalize_foldl (splitTrimmed (ascii '&') rest) (firstPair name)
      (by simp [firstPair, asciiText])
    refine ⟨tail, htail, ?_, fun hno => absurd (by rw [hname]; simp) hno⟩
    rw [hsplit, List.foldl_cons, divide_filename, if_neg key_nonempty, if_pos (by rfl), normalizePair_filename]
    exact he

/-! ## The server's side -/

/-- The target as it is sent. -/
def nameTarget (call : NameCall) (name : Bytes) : Bytes := requestTarget call.path (filenameQuery name)

theorem nameTarget_eq (call : NameCall) (name : Bytes) :
    ∃ tail, QueryTail tail ∧ nameTarget call name = call.path ++ ascii '?' :: (firstPair name ++ tail) ∧
      (ascii '&' ∉ name → tail = []) := by
  obtain ⟨tail, htail, he, hlast⟩ := normalize_filename name
  refine ⟨tail, htail, ?_, hlast⟩
  unfold nameTarget requestTarget
  rw [he]
  rfl

theorem firstPair_targetByte {name : Bytes} {c : UInt8} (hc : c ∈ firstPair name) : targetByte c = true := by
  rcases List.mem_append.1 hc with hc | hc
  · exact List.all_eq_true.1 (show (asciiText "filename=").all targetByte = true by decide) c hc
  · exact targetByte_of_wireSafe (encode_wireSafe hc)

theorem path_targetByte (call : NameCall) : ∀ c ∈ call.path, targetByte c = true := by
  cases call <;> decide +kernel

theorem nameTarget_targetByte (call : NameCall) (name : Bytes) : ∀ c ∈ nameTarget call name, targetByte c = true := by
  obtain ⟨tail, htail, he, -⟩ := nameTarget_eq call name
  intro c hc
  rw [he] at hc
  rcases List.mem_append.1 hc with hc | hc
  · exact path_targetByte call c hc
  · rcases List.mem_cons.1 hc with rfl | hc
    · decide
    · rcases List.mem_append.1 hc with hc | hc
      · exact firstPair_targetByte hc
      · exact htail.plain c hc

theorem splitTrimmed_line {method target version : Bytes} (hm : ∀ c ∈ method, isSpaceOrTab c = false)
    (ht : ∀ c ∈ target, isSpaceOrTab c = false) (hv : ∀ c ∈ version, isSpaceOrTab c = false)
    (hm0 : method ≠ []) (ht0 : target ≠ []) (hv0 : version ≠ []) :
    splitTrimmed (ascii ' ') (method ++ ascii ' ' :: target ++ ascii ' ' :: version) = [method, target, version] := by
  have hfree : ∀ {s : Bytes}, (∀ c ∈ s, isSpaceOrTab c = false) → ascii ' ' ∉ s :=
    fun h hm => absurd (h _ hm) (by decide)
  rw [List.append_assoc, List.cons_append, splitTrimmed_cons (hfree hm) (by rwa [trimBlanks_eq_self hm]),
    splitTrimmed_cons (hfree ht) (by rwa [trimBlanks_eq_self ht]),
    splitTrimmed_last (hfree hv) (by rwa [trimBlanks_eq_self hv]), trimBlanks_eq_self hm, trimBlanks_eq_self ht,
    trimBlanks_eq_self hv]

theorem takeWhile_fragment {s : Bytes} (h : ∀ c ∈ s, targetByte c = true) : s.takeWhile (· != ascii '#') = s := by
  rw [List.takeWhile_eq_self_iff]
  intro c hc
  have hb := h c hc
  simp only [targetByte, Bool.and_eq_true] at hb
  exact hb.2

/-- What the server reads of the query: the first pair first. -/
theorem parseQueryText_filename (name : Bytes) {tail : Bytes} (htail : QueryTail tail) :
    ∃ params, parseQueryText (firstPair name ++ tail) =
      (asciiText "filename", decodeQueryComponent (queryValue name)) :: params := by
  have hblank : ∀ c ∈ firstPair name, isSpaceOrTab c = false := fun c hc => by
    have hb := firstPair_targetByte hc
    simp only [targetByte, Bool.and_eq_true] at hb
    simpa using hb.1
  have hsep : ascii '&' ∉ firstPair name := by
    intro hc
    rcases List.mem_append.1 hc with hc | hc
    · exact absurd hc (by decide)
    · exact absurd (encode_wireSafe hc) (by decide)
  have hne : trimBlanks (firstPair name) ≠ [] := by
    rw [trimBlanks_eq_self hblank]
    simp [firstPair, asciiText]
  obtain ⟨more, hmore⟩ : ∃ more, splitTrimmed (ascii '&') (firstPair name ++ tail) = firstPair name :: more := by
    rcases htail.starts with rfl | ⟨t, rfl⟩
    · rw [List.append_nil, splitTrimmed_last hsep hne, trimBlanks_eq_self hblank]
      exact ⟨_, rfl⟩
    · rw [splitTrimmed_cons hsep hne, trimBlanks_eq_self hblank]
      exact ⟨_, rfl⟩
  have hpair : divide (ascii '=') (firstPair name) =
      (asciiText "filename", encodeQueryComponent (decodeQueryComponent (queryValue name))) := divide_filename _
  unfold parseQueryText
  rw [hmore, List.eraseDups_cons, List.filterMap_cons, hpair]
  simp only [key_nonempty, decode_encode]
  exact ⟨_, rfl⟩

theorem method_plain (call : NameCall) : (∀ c ∈ call.method, isSpaceOrTab c = false) ∧ call.method ≠ [] := by
  cases call <;> decide +kernel

theorem path_divides (call : NameCall) : ascii '?' ∉ call.path := by
  cases call <;> decide

/-- **What a handler receives**: the decoded value, unless the target is too long. -/
theorem handlerReceives_eq (call : NameCall) (name : Bytes) : handlerReceives call name =
    if (nameTarget call name).length ≤ maxUriLength then some (decodeQueryComponent (queryValue name)) else none := by
  obtain ⟨tail, htail, he, -⟩ := nameTarget_eq call name
  have hplain := nameTarget_targetByte call name
  have hblank : ∀ c ∈ nameTarget call name, isSpaceOrTab c = false := fun c hc => by
    have hb := hplain c hc
    simp only [targetByte, Bool.and_eq_true] at hb
    simpa using hb.1
  have hne : nameTarget call name ≠ [] := by
    rw [he]
    simp
  have hsplit : splitTrimmed (ascii ' ') (writeRequestLine call.method call.path (filenameQuery name)) =
      [call.method, nameTarget call name, asciiText "HTTP/1.1"] :=
    splitTrimmed_line (method_plain call).1 hblank (by decide +kernel) (method_plain call).2 hne (by decide +kernel)
  obtain ⟨params, hparams⟩ := parseQueryText_filename name htail
  unfold handlerReceives parseRequestLine
  rw [hsplit]
  simp only [true_and]
  split
  · rw [takeWhile_fragment hplain, he, divide_append (path_divides call)]
    simp [hparams, getParamValue]
  · rfl

/-! ## Which names arrive as they are -/

/-- Bytes that a name takes in a query. -/
def queryLength (name : Bytes) : Nat := (name.map fun c => if querySafe c || c == ascii ' ' then 1 else 3).sum

theorem length_encodeQueryComponent (name : Bytes) : (encodeQueryComponent name).length = queryLength name := by
  unfold encodeQueryComponent queryLength
  rw [List.length_flatMap]
  congr 2
  funext c
  unfold encodeByte
  by_cases hsafe : querySafe c = true
  · simp [hsafe]
  · by_cases hspace : c = ascii ' '
    · subst hspace
      rfl
    · simp [hsafe, hspace]

/-- A name that stands for itself in a query, and is not too long for one. -/
structure QueryName (name : Bytes) : Prop where
  no_ampersand : ascii '&' ∉ name
  no_plus : ascii '+' ∉ name
  no_escape : hasEscape name = false
  no_blank_end : ∀ c ∈ name.getLast?, isSpaceOrTab c = false
  fits : (asciiText "/files/download-plan?filename=").length + queryLength name ≤ maxUriLength

instance (name : Bytes) : Decidable (QueryName name) :=
  decidable_of_iff (ascii '&' ∉ name ∧ ascii '+' ∉ name ∧ hasEscape name = false ∧
      name.getLast?.all (!isSpaceOrTab ·) = true ∧
      (asciiText "/files/download-plan?filename=").length + queryLength name ≤ maxUriLength)
    ⟨fun h => ⟨h.1, h.2.1, h.2.2.1, by simpa [Option.all_eq_true] using h.2.2.2.1, h.2.2.2.2⟩,
      fun h => ⟨h.1, h.2, h.3, by simpa [Option.all_eq_true] using h.4, h.5⟩⟩

/-- What a call sends and what a commit stores is the name. -/
def NameSurvives (json : JsonText) (name : Bytes) : Prop :=
  ∀ call, handlerReceives call name = some name ∧
    ∀ stored ∈ commitReceives json name, handlerReceives call name = some stored

theorem takeWhile_ampersand_iff {name : Bytes} :
    name.takeWhile (· != ascii '&') = name ↔ ascii '&' ∉ name := by
  rw [List.takeWhile_eq_self_iff]
  constructor
  · intro h hm
    exact absurd (h _ hm) (by decide)
  · intro h c hc
    rw [bne_iff_ne]
    exact fun he => h (he ▸ hc)

theorem decode_queryValue_iff {name : Bytes} : decodeQueryComponent (queryValue name) = name ↔
    ascii '&' ∉ name ∧ ascii '+' ∉ name ∧ hasEscape name = false ∧ ∀ c ∈ name.getLast?, isSpaceOrTab c = false := by
  constructor
  · intro he
    -- no step makes a name longer, so none may make it shorter
    have hdecode : (decodeQueryComponent (queryValue name)).length ≤ (queryValue name).length := by
      have hle := length_decodeFrom_le (queryValue name) 0
      rwa [Nat.add_zero, Nat.max_zero] at hle
    have htrim : (queryValue name).length ≤ (name.takeWhile (· != ascii '&')).length := length_trimRight_le _
    have hprefix := List.takeWhile_prefix (l := name) (· != ascii '&')
    rw [he] at hdecode
    have htake : name.takeWhile (· != ascii '&') = name := hprefix.eq_of_length_le (by omega)
    have hvalue : queryValue name = name := by
      have hsuffix := List.dropWhile_suffix (l := name.reverse) isSpaceOrTab
      unfold queryValue at hdecode ⊢
      rw [htake] at hdecode ⊢
      unfold trimRight at hdecode ⊢
      rw [List.length_reverse] at hdecode
      rw [hsuffix.eq_of_length_le (by rwa [List.length_reverse]), List.reverse_reverse]
    rw [hvalue] at he
    obtain ⟨hplus, hescape⟩ := (decode_eq_self_iff name).1 he
    refine ⟨takeWhile_ampersand_iff.1 htake, hplus, hescape, ?_⟩
    rw [← trimRight_eq_self_iff]
    rwa [queryValue, htake] at hvalue
  · rintro ⟨hamp, hplus, hescape, hend⟩
    rw [queryValue, takeWhile_ampersand_iff.2 hamp, trimRight_eq_self_iff.2 hend]
    exact (decode_eq_self_iff name).2 ⟨hplus, hescape⟩

theorem length_path_le (call : NameCall) : call.path.length ≤ (asciiText "/files/download-plan").length := by
  cases call <;> decide

/-- The target of a name that stands for itself. -/
theorem length_nameTarget {name : Bytes} (h : decodeQueryComponent (queryValue name) = name) (call : NameCall) :
    (nameTarget call name).length = call.path.length + (asciiText "?filename=").length + queryLength name := by
  obtain ⟨tail, -, he, hlast⟩ := nameTarget_eq call name
  rw [he, hlast (decode_queryValue_iff.1 h).1, firstPair, h]
  simp only [List.length_append, List.length_cons, List.length_nil, length_encodeQueryComponent]
  simp [asciiText]
  omega

/-- A name that stands for itself is received. -/
theorem QueryName.received {name : Bytes} (h : QueryName name) (call : NameCall) : handlerReceives call name = some name := by
  have hdecode : decodeQueryComponent (queryValue name) = name :=
    decode_queryValue_iff.2 ⟨h.no_ampersand, h.no_plus, h.no_escape, h.no_blank_end⟩
  have hfits : (nameTarget call name).length ≤ maxUriLength := by
    have hpath := length_path_le call
    have hlimit := h.fits
    rw [length_nameTarget hdecode]
    have hsum : (asciiText "/files/download-plan?filename=").length =
        (asciiText "/files/download-plan").length + (asciiText "?filename=").length := by decide
    omega
  rw [handlerReceives_eq, if_pos hfits, hdecode]

/-- **The calls about a file address the file that was committed** exactly when its name stands for itself in a
query. -/
theorem name_survives_iff (json : JsonText) (name : Bytes) : NameSurvives json name ↔ QueryName name := by
  constructor
  · intro h
    have hplan := (h .downloadPlan).1
    rw [handlerReceives_eq] at hplan
    split at hplan
    · rename_i hfits
      have hdecode := Option.some.inj hplan
      obtain ⟨hamp, hplus, hescape, hend⟩ := decode_queryValue_iff.1 hdecode
      rw [length_nameTarget hdecode] at hfits
      exact ⟨hamp, hplus, hescape, hend, hfits⟩
    · cases hplan
  · intro h call
    have hreceives := h.received call
    refine ⟨hreceives, fun stored hstored => ?_⟩
    obtain ⟨text, htext, hparse⟩ := Option.bind_eq_some_iff.1 hstored
    rw [json.parse_dump name text htext, Option.some.injEq] at hparse
    rw [hreceives, hparse]

/-- JSON strings of characters that need no escape. -/
def plainJson : JsonText where
  dump s := if s.all (fun c => ascii ' ' ≤ c && c < 127 && c != ascii '"' && c != ascii '\\') then
    some (ascii '"' :: s ++ [ascii '"']) else none
  parse text := if text.head? = some (ascii '"') then some (text.drop 1).dropLast else none
  parse_dump s text h := by
    split at h
    · cases h
      simp
    · cases h

/-- `a&b` is stored under its name, and every call about it is about the file `a`. -/
theorem ampersand_cuts : commitReceives plainJson (asciiText "a&b") = some (asciiText "a&b") ∧
    (∀ call, handlerReceives call (asciiText "a&b") = some (asciiText "a")) ∧
    ¬ NameSurvives plainJson (asciiText "a&b") := by
  have hcut : ∀ call, handlerReceives call (asciiText "a&b") = some (asciiText "a") := by
    intro call
    cases call <;> decide +kernel
  refine ⟨by decide +kernel, hcut, fun h => ?_⟩
  have hfound := (h .exists).1
  rw [hcut] at hfound
  exact absurd hfound (by decide)

end StorageEngine
