import StorageEngine.Metadata.References

/-!
# What `CommitFile` stores of its list

The encoder (`arrayLiteral`) quotes nothing, the decoder (`textArrayIn`) knows quotes, escapes, blanks, `NULL`
and nested braces. A list comes back as it went in exactly when each of its elements is a `BareWord`: by
counting characters. Whatever the scan reads, it pays at least one character for each character of an element
and for each comma and brace, and an array of `k` elements needs `k - 1` commas and two braces; that is the
whole literal, so nothing is left for a quote, a backslash or a blank that is dropped.
-/

namespace StorageEngine

open Relational

/-! ## What the scan pays for its tokens -/

/-- A null element has no characters. -/
def elemLength (v : Option String) : Nat := (v.map String.length).getD 0

/-- The characters a token needs at least. -/
def ArrayTok.weight : ArrayTok → Nat
  | .elem v => elemLength v
  | _ => 1

/-- What the tokens of a text weigh. -/
def tokensWeight (ts : List ArrayTok) : Nat := (ts.map ArrayTok.weight).sum

@[simp] theorem tokensWeight_nil : tokensWeight [] = 0 := rfl

@[simp] theorem tokensWeight_cons (t : ArrayTok) (ts : List ArrayTok) :
    tokensWeight (t :: ts) = t.weight + tokensWeight ts := by
  simp [tokensWeight]

/-- The characters of the element being read. -/
def ArrayScan.pending : ArrayScan → Nat
  | .gap => 0
  | .bare acc | .bareEscape acc => acc.length
  | .quoted acc | .quotedEscape acc => acc.length

theorem bareElem_length (acc : List (Char × Bool)) : elemLength (bareElem acc) ≤ acc.length := by
  simp only [bareElem, elemLength]
  split
  · exact Nat.zero_le _
  · have hsuffix := (acc.dropWhile_suffix fun c => isBlank c.1 && !c.2).length_le
    simpa using hsuffix

theorem map_some_cons {t : ArrayTok} {o : Option (List ArrayTok)} {ts : List ArrayTok}
    (h : o.map (t :: ·) = some ts) : ∃ us, o = some us ∧ ts = t :: us := by
  obtain ⟨us, ho, rfl⟩ := Option.map_eq_some_iff.1 h
  exact ⟨us, ho, rfl⟩

/-- **The scan never makes more of its characters than there are.** -/
theorem tokensWeight_le {cs : List Char} {st : ArrayScan} {ts : List ArrayTok} (h : scanArray st cs = some ts) :
    tokensWeight ts ≤ cs.length + st.pending := by
  induction cs generalizing st ts with
  | nil =>
    cases st <;> simp only [scanArray] at h <;> cases h
    exact Nat.zero_le _
  | cons c cs ih =>
    cases st with
    | gap =>
      simp only [scanArray] at h
      split at h
      · have := ih h
        simp only [ArrayScan.pending, List.length_cons] at *
        omega
      iterate 3
        split at h
        · obtain ⟨us, hus, rfl⟩ := map_some_cons h
          have := ih hus
          simp only [ArrayScan.pending, List.length_cons, tokensWeight_cons, ArrayTok.weight] at *
          omega
      iterate 2
        split at h
        · have := ih h
          simp only [ArrayScan.pending, List.length_cons, List.length_nil] at *
          omega
      have := ih h
      simp only [ArrayScan.pending, List.length_cons, List.length_nil] at *
      omega
    | bare acc =>
      have hlen := bareElem_length acc
      simp only [scanArray] at h
      iterate 2
        split at h
        · obtain ⟨us, hus, rfl⟩ := Option.map_eq_some_iff.1 h
          have := ih hus
          simp only [ArrayScan.pending, List.length_cons, tokensWeight_cons, ArrayTok.weight] at *
          omega
      split at h
      · have := ih h
        simp only [ArrayScan.pending, List.length_cons] at *
        omega
      split at h
      · cases h
      · have := ih h
        simp only [ArrayScan.pending, List.length_cons] at *
        omega
    | bareEscape acc =>
      simp only [scanArray] at h
      have := ih h
      simp only [ArrayScan.pending, List.length_cons] at *
      omega
    | quoted acc =>
      simp only [scanArray] at h
      split at h
      · obtain ⟨us, hus, rfl⟩ := map_some_cons h
        have := ih hus
        simp only [ArrayScan.pending, List.length_cons, tokensWeight_cons, ArrayTok.weight, elemLength,
          Option.map_some, Option.getD_some, String.length_ofList, List.length_reverse] at *
        omega
      split at h
      · have := ih h
        simp only [ArrayScan.pending, List.length_cons] at *
        omega
      · have := ih h
        simp only [ArrayScan.pending, List.length_cons] at *
        omega
    | quotedEscape acc =>
      simp only [scanArray] at h
      have := ih h
      simp only [ArrayScan.pending, List.length_cons] at *
      omega

/-! ### Where nothing is left over -/

/-- The beginning of a bare word, last character first. -/
structure BareSoFar (acc : List (Char × Bool)) : Prop where
  ne : acc ≠ []
  bare : ∀ c ∈ acc, bareChar c.1 = true ∧ c.2 = false
  first : ∀ c ∈ acc.getLast?, isBlank c.1 = false

theorem bareElem_tight {acc : List (Char × Bool)} (hacc : BareSoFar acc) {v : String} (hv : bareElem acc = some v)
    (hlen : acc.length ≤ v.length) : BareWord v := by
  obtain ⟨hne, hbare, hfirst⟩ := hacc
  simp only [bareElem] at hv
  split at hv
  · cases hv
  rename_i hnull
  -- no blank was dropped
  have hkeep : acc.dropWhile (fun c => isBlank c.1 && !c.2) = acc := by
    refine (acc.dropWhile_suffix _).eq_of_length_le ?_
    cases hv
    simpa using hlen
  rw [hkeep] at hv hnull
  obtain rfl : String.ofList (acc.reverse.map Prod.fst) = v := Option.some.inj hv
  have hflags : acc = (acc.map Prod.fst).map (·, false) := by
    rw [List.map_map]
    refine (List.map_id acc).symm.trans (List.map_congr_left fun c hc => ?_)
    exact Prod.ext rfl (hbare c hc).2
  refine ⟨fun he => hne ?_, fun c hc => ?_, fun c hc => ?_, fun c hc => ?_, fun he => hnull ?_⟩
  · simpa using congrArg String.toList he
  · simp only [String.toList_ofList, List.mem_map, List.mem_reverse] at hc
    obtain ⟨d, hd, rfl⟩ := hc
    exact (hbare d hd).1
  · simp only [String.toList_ofList, List.head?_map, List.head?_reverse, Option.mem_def, Option.map_eq_some_iff] at hc
    obtain ⟨d, hd, rfl⟩ := hc
    exact hfirst d hd
  · simp only [String.toList_ofList, List.getLast?_map, List.getLast?_reverse, Option.mem_def,
      Option.map_eq_some_iff] at hc
    obtain ⟨d, hd, rfl⟩ := hc
    cases acc with
    | nil => cases hd
    | cons e es =>
      obtain rfl : e = d := Option.some.inj hd
      have hstop : ¬ ((isBlank e.1 && !e.2) = true) := fun hblank => by
        rw [List.dropWhile_cons, if_pos hblank] at hkeep
        have hle := (es.dropWhile_suffix fun c => isBlank c.1 && !c.2).length_le
        have heq := congrArg List.length hkeep
        rw [List.length_cons] at heq
        omega
      simpa [(hbare e List.mem_cons_self).2] using hstop
  · simp only [String.toList_ofList] at he
    rw [beq_iff_eq, hflags]
    have hlower := congrArg (fun l => (l.map fun c => (c, false)).reverse) he
    simpa [Function.comp_def] using hlower

/-- A character that neither ends an element nor escapes the next continues it. -/
theorem BareSoFar.cons {acc : List (Char × Bool)} {c : Char} (hacc : BareSoFar acc) (hc : bareChar c = true) :
    BareSoFar ((c, false) :: acc) where
  ne := List.cons_ne_nil _ _
  bare d hd := by
    rcases List.mem_cons.1 hd with rfl | hd
    · exact ⟨hc, rfl⟩
    · exact hacc.bare d hd
  first d hd := hacc.first d (by rwa [List.getLast?_cons_of_ne_nil hacc.ne] at hd)

theorem mem_elem_cons {t : ArrayTok} {us : List ArrayTok} {v : Option String} (ht : ∀ w, t ≠ .elem w)
    (h : .elem v ∈ t :: us) : .elem v ∈ us :=
  (List.mem_cons.1 h).resolve_left fun he => ht v he.symm

/-- **A scan that wastes no character reads bare words only.** -/
theorem scanArray_tight {cs : List Char} {ts : List ArrayTok} :
    (scanArray .gap cs = some ts → cs.length ≤ tokensWeight ts → ∀ v, .elem (some v) ∈ ts → BareWord v) ∧
    ∀ acc, BareSoFar acc → scanArray (.bare acc) cs = some ts → cs.length + acc.length ≤ tokensWeight ts →
      ∀ v, .elem (some v) ∈ ts → BareWord v := by
  induction cs generalizing ts with
  | nil =>
    constructor
    · intro h _ v hv
      cases h
      cases hv
    · intro acc _ h
      cases h
  | cons c cs ih =>
    constructor
    · intro h hw
      simp only [scanArray] at h
      split at h
      · have hle := tokensWeight_le h
        simp only [ArrayScan.pending, List.length_cons] at hle hw
        omega
      rename_i hblank
      iterate 3
        split at h
        · obtain ⟨us, hus, rfl⟩ := map_some_cons h
          simp only [List.length_cons, tokensWeight_cons, ArrayTok.weight] at hw
          intro v hv
          exact ih.1 hus (by omega) v (mem_elem_cons (fun w => ArrayTok.noConfusion) hv)
      iterate 2
        split at h
        · have hle := tokensWeight_le h
          simp only [ArrayScan.pending, List.length_cons, List.length_nil] at hle hw
          omega
      rename_i h1 h2 h3 h4 h5
      refine ih.2 [(c, false)] ⟨by simp, ?_, ?_⟩ h (by simpa using hw)
      · simpa using bareChar_iff.2 ⟨h1, h2, h3, h4, h5⟩
      · simpa using hblank
    · intro acc hacc h hw
      have hlen := bareElem_length acc
      simp only [scanArray] at h
      iterate 2
        split at h
        · obtain ⟨us, hus, rfl⟩ := Option.map_eq_some_iff.1 h
          have hle := tokensWeight_le hus
          simp only [ArrayScan.pending, List.length_cons, tokensWeight_cons, ArrayTok.weight] at hle hw
          intro v hv
          rcases List.mem_cons.1 hv with he | hv
          · rw [ArrayTok.elem.injEq] at he
            refine bareElem_tight hacc he.symm ?_
            rw [← he] at hw
            simp only [elemLength, Option.map_some, Option.getD_some] at hw
            omega
          · exact ih.1 hus (by omega) v (mem_elem_cons (fun w => ArrayTok.noConfusion) hv)
      split at h
      · have hle := tokensWeight_le h
        simp only [ArrayScan.pending, List.length_cons] at hle hw
        omega
      split at h
      · cases h
      rename_i h3 h2 h5 h14
      simp only [Bool.or_eq_true, decide_eq_true_eq, not_or] at h14
      refine ih.2 ((c, false) :: acc) (hacc.cons (bareChar_iff.2 ⟨h14.2, h2, h3, h14.1, h5⟩)) h ?_
      simp only [List.length_cons] at hw ⊢
      omega

/-! ## What an array costs -/

/-- An element costs its characters and one more, for the comma or the brace before it. -/
def elemsCost (es : List (Option String)) : Nat := (es.map fun v => elemLength v + 1).sum

@[simp] theorem elemsCost_nil : elemsCost [] = 0 := rfl

@[simp] theorem elemsCost_cons (v : Option String) (es : List (Option String)) :
    elemsCost (v :: es) = elemLength v + 1 + elemsCost es := by
  simp [elemsCost]

@[simp] theorem elemsCost_append (es fs : List (Option String)) :
    elemsCost (es ++ fs) = elemsCost es + elemsCost fs := by
  simp [elemsCost]

/-- The elements of all open arrays. -/
def openElems (stk : List ArrayLevel) : List (Option String) := stk.flatMap ArrayLevel.elems

theorem ArrayLevel.add_elems {l l' : ArrayLevel} {dims : List Nat} {es : List (Option String)}
    (h : l.add dims es = some l') : l'.elems = l.elems ++ es := by
  unfold ArrayLevel.add at h
  split at h
  · cases h; rfl
  · cases h

/-- **Tokens pay for the elements**: a comma or an opening brace for each but those already there. -/
theorem elemsCost_le {stk : List ArrayLevel} {exp : ArrayExpect} {ts : List ArrayTok} {lvl : ArrayLevel}
    (h : readItems stk exp ts = some lvl) :
    elemsCost lvl.elems + (if exp = .separator then 1 else 0) ≤ elemsCost (openElems stk) + tokensWeight ts ∧
      ∀ v ∈ lvl.elems, v ∈ openElems stk ∨ .elem v ∈ ts := by
  induction ts generalizing stk exp with
  | nil => cases stk <;> simp [readItems] at h
  | cons t ts ih =>
    cases t with
    | elem v =>
      cases stk with
      | nil => simp [readItems] at h
      | cons l stk =>
        simp only [readItems] at h
        split at h
        · cases h
        rename_i hexp
        obtain ⟨l', hl', h⟩ := Option.bind_eq_some_iff.1 h
        obtain ⟨hcost, hmem⟩ := ih h
        simp only [openElems, List.flatMap_cons, ArrayLevel.add_elems hl', elemsCost_append, elemsCost_cons,
          elemsCost_nil, ↓reduceIte] at hcost
        refine ⟨?_, fun w hw => ?_⟩
        · simp only [openElems, List.flatMap_cons, elemsCost_append, tokensWeight_cons, ArrayTok.weight, hexp,
            ↓reduceIte]
          omega
        · have hw' := hmem w hw
          simp only [openElems, List.flatMap_cons, ArrayLevel.add_elems hl', List.mem_append, List.mem_cons,
            ArrayTok.elem.injEq] at hw' ⊢
          tauto
    | lbrace =>
      simp only [readItems] at h
      split at h
      · cases h
      rename_i hexp
      obtain ⟨hcost, hmem⟩ := ih h
      simp only [openElems, List.flatMap_cons, ArrayLevel.empty, List.nil_append] at hcost hmem
      refine ⟨?_, fun w hw => (hmem w hw).imp id (List.mem_cons_of_mem _)⟩
      simp only [openElems, tokensWeight_cons, ArrayTok.weight, hexp, ↓reduceIte]
      simp at hcost
      omega
    | comma =>
      simp only [readItems] at h
      split at h
      · rename_i hexp
        obtain ⟨hcost, hmem⟩ := ih h
        refine ⟨?_, fun w hw => (hmem w hw).imp id (List.mem_cons_of_mem _)⟩
        simp only [tokensWeight_cons, ArrayTok.weight, hexp, ↓reduceIte]
        simp at hcost
        omega
      · cases h
    | rbrace =>
      cases stk with
      | nil => simp [readItems] at h
      | cons l stk =>
        cases stk with
        | nil =>
          cases ts with
          | nil =>
            simp only [readItems] at h
            split at h
            · cases h
            cases h
            refine ⟨?_, fun w hw => Or.inl (by simpa [openElems] using hw)⟩
            simp only [openElems, List.flatMap_cons, List.flatMap_nil, List.append_nil, tokensWeight_cons,
              ArrayTok.weight]
            split <;> omega
          | cons t' ts => simp [readItems] at h
        | cons up stk =>
          simp only [readItems] at h
          split at h
          · cases h
          obtain ⟨up', hup', h⟩ := Option.bind_eq_some_iff.1 h
          obtain ⟨hcost, hmem⟩ := ih h
          simp only [openElems, List.flatMap_cons, ArrayLevel.add_elems hup', elemsCost_append, ↓reduceIte] at hcost
          refine ⟨?_, fun w hw => ?_⟩
          · simp only [openElems, List.flatMap_cons, elemsCost_append, tokensWeight_cons, ArrayTok.weight]
            split <;> omega
          · have hw' := hmem w hw
            simp only [openElems, List.flatMap_cons, ArrayLevel.add_elems hup', List.mem_append, List.mem_cons] at hw' ⊢
            tauto

/-! ## Lists that read back -/

theorem length_intercalate : ∀ (hs : List String), hs ≠ [] →
    ([','].intercalate (hs.map String.toList)).length + 1 = elemsCost (hs.map some)
  | [], h => absurd rfl h
  | [h], _ => by simp [elemLength, String.length_toList]
  | h :: g :: hs, _ => by
    have ih := length_intercalate (g :: hs) (by simp)
    rw [List.map_cons, List.map_cons, List.intercalate_cons_cons, ← List.map_cons]
    simp only [List.map_cons, List.length_append, List.length_cons, List.length_nil, elemsCost_cons, elemLength,
      Option.map_some, Option.getD_some, String.length_toList] at ih ⊢
    omega

theorem textArrayIn_some {literal : String} {es : List (Option String)} (h : textArrayIn literal = some es) :
    ∃ ts lvl, scanArray .gap literal.toList = some (.lbrace :: ts) ∧ readItems [.empty] .first ts = some lvl ∧
      lvl.elems = es := by
  unfold textArrayIn at h
  split at h
  · rename_i ts hts
    split at h
    · rename_i lvl hlvl
      split at h
      · exact ⟨ts, lvl, hts, hlvl, Option.some.inj h⟩
      · cases h
    · cases h
  · cases h

/-- **A list reads back from its literal exactly when its elements are bare words.** -/
theorem readsBack_iff {hashes : List String} : ReadsBack hashes ↔ ∀ h ∈ hashes, BareWord h := by
  constructor
  · intro hread h hh
    have hne : hashes ≠ [] := List.ne_nil_of_mem hh
    obtain ⟨ts, lvl, hscan, hitems, helems⟩ := textArrayIn_some hread
    obtain ⟨hcost, hmem⟩ := elemsCost_le hitems
    have hlen := length_intercalate hashes hne
    have hlit : (arrayLiteral hashes).toList.length = elemsCost lvl.elems + 1 := by
      rw [toList_arrayLiteral, helems, List.length_cons, List.length_append, List.length_singleton]
      omega
    have hopen : elemsCost (openElems [.empty]) = 0 := rfl
    refine scanArray_tight.1 hscan ?_ h ?_
    · simp only [tokensWeight_cons, ArrayTok.weight, hopen, reduceCtorEq, ↓reduceIte] at hcost ⊢
      omega
    · have hin : some h ∈ lvl.elems := by
        rw [helems]
        exact List.mem_map_of_mem hh
      refine List.mem_cons_of_mem _ ((hmem _ hin).resolve_left fun hno => ?_)
      cases hno
  · exact readsBack_of_bare

/-- The `files` row holds exactly the list. -/
def StoresList (db : Store) (id : Int) (hashes : List String) : Prop :=
  (db.files.get? id).map FileRow.chunks = some (hashes.map some)

/-- **The stored array is the committed list** exactly when every element is a bare word. -/
theorem stored_array_iff {db db' : Store} {userId : Int} {filename : String} {fileSize : Int} {hashes : List String}
    (hok : commitFile db userId filename fileSize hashes = .ok db') :
    StoresList db' db.fileSeq hashes ↔ ∀ h ∈ hashes, BareWord h := by
  rw [← readsBack_iff]
  obtain ⟨-, hfresh, arr, name, harr, -, rfl⟩ := commitFile_ok.1 hok
  unfold StoresList ReadsBack
  rw [harr, Table.get?_insertNew, if_pos rfl, hfresh]
  simp

/-- A digest and a word with a blank inside. -/
def bareHashes : List String := [sampleHash, "a b"]

theorem bareHashes_stored : ∃ db', commitFile (run 4 .empty sampleSetup) 1 "a" 1048577 bareHashes = .ok db' ∧
    StoresList db' (run 4 .empty sampleSetup).fileSeq bareHashes := by
  have hsome : (commitFile (run 4 .empty sampleSetup) 1 "a" 1048577 bareHashes).isOk = true := by decide +kernel
  cases hok : commitFile (run 4 .empty sampleSetup) 1 "a" 1048577 bareHashes with
  | error e => rw [hok] at hsome; cases hsome
  | ok db' => exact ⟨db', rfl, (stored_array_iff hok).2 (by decide +kernel)⟩

/-- One element with a comma is stored as two, so a deletion releases chunks the commit never counted. -/
theorem commaHash_splits : ¬ ∀ (db db' : Store) (u : Int) (f : String) (size : Int) (hashes : List String),
    commitFile db u f size hashes = .ok db' → StoresList db' db.fileSeq hashes := by
  intro hall
  have hfacts : ((commitFile (run 4 .empty sampleSetup) 1 "a" 0 ["a,b"]).toOption.map fun db' =>
      (db'.files.get? (run 4 .empty sampleSetup).fileSeq).map FileRow.chunks) =
      some (some [some "a", some "b"]) := by decide +kernel
  obtain ⟨db', hok, hchunks⟩ := Option.map_eq_some_iff.1 hfacts
  cases hres : commitFile (run 4 .empty sampleSetup) 1 "a" 0 ["a,b"] with
  | error e => rw [hres] at hok; cases hok
  | ok db'' =>
    rw [hres] at hok
    obtain rfl : db'' = db' := Option.some.inj hok
    have hstored := hall _ _ _ _ _ _ hres
    rw [StoresList, hchunks] at hstored
    exact absurd hstored (by decide)

end StorageEngine
