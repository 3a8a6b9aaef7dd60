import StorageEngine.Lib.JsonNumber

/-!
# JSON values of any depth

A value is written on one line or with line breaks (`Layout`) and is read with any blanks between the tokens;
`parse` gets back what `write` wrote, in either layout (`parse_write`). An object is the list of its members in the
order of the text; of several members with a key the last one counts. A text may begin with a byte order mark, and a
zero byte behind the value ends it. How floats are written is a parameter (`FloatText`).
-/

namespace Json

open Reading

universe u

variable {α : Type u}

/-- A JSON value, as it is read and written. -/
inductive Tree where
  | null
  | bool (b : Bool)
  | num (n : Number)
  | str (t : String)
  | arr (items : List Tree)
  | obj (members : List (String × Tree))

/-- What a signed variable of 64 bits holds of the number. -/
def Tree.int (i : Int) : Tree := .num (.int (.wrap i))

/-! ## Access -/

/-- The value of a key; `none` in what is no object. -/
def Tree.at? : Tree → String → Option Tree
  | .obj members, key => members.reverse.lookup key
  | _, _ => none

/-- `get<std::string>`. -/
def Tree.getString : Tree → Option String
  | .str t => some t
  | _ => none

/-- `get<bool>`. -/
def Tree.getBool : Tree → Option Bool
  | .bool b => some b
  | _ => none

/-- The elements of an array. -/
def Tree.getItems : Tree → Option (List Tree)
  | .arr items => some items
  | _ => none

/-- `get<std::vector<std::string>>`. -/
def Tree.getStrings (t : Tree) : Option (List String) := t.getItems.bind fun items => items.mapM Tree.getString

/-- As a signed number of `w` bits. A truth value counts as a number. -/
def Tree.getWrapped (w : Nat) : Tree → Option Int
  | .num n => some (n.toSigned w)
  | .bool b => some (if b then 1 else 0)
  | _ => none

/-- A vector of `w`-bit integers. -/
def Tree.getWrappeds (w : Nat) (t : Tree) : Option (List Int) :=
  t.getItems.bind fun items => items.mapM (Tree.getWrapped w)

/-- An array of strings. -/
def Tree.strs (ts : List String) : Tree := .arr (ts.map .str)

/-- Items that are each read back are read back together. -/
theorem mapM_write {β : Type*} {read : α → Option β} {write : β → α} {bs : List β} (h : ∀ b ∈ bs, read (write b) = some b) :
    (bs.map write).mapM read = some bs := by
  induction bs with
  | nil => rfl
  | cons b bs ih =>
    rw [List.map_cons, List.mapM_cons, h b List.mem_cons_self, ih fun b' hb' => h b' (List.mem_cons_of_mem _ hb')]
    rfl

@[simp] theorem getStrings_strs (ts : List String) : (Tree.strs ts).getStrings = some ts := mapM_write fun _ _ => rfl

/-- A number that was read fits. -/
theorem bmod_getWrapped {w : Nat} (hw : 1 < w) {t : Tree} {i : Int} (h : t.getWrapped w = some i) : i.bmod (2 ^ w) = i := by
  cases t with
  | num n =>
    obtain rfl := Option.some.inj h
    exact n.bmod_toSigned (by omega)
  | bool b =>
    obtain rfl := Option.some.inj h
    have hfour : 2 ^ 2 ≤ 2 ^ w := Nat.pow_le_pow_right (by decide) hw
    generalize 2 ^ w = m at hfour ⊢
    refine Int.bmod_eq_of_le_mul_two ?_ ?_ <;> cases b <;> simp <;> omega
  | _ => cases h

theorem getWrapped_int {w : Nat} (hw : w ≤ 64) (i : Int) : (Tree.int i).getWrapped w = some (i.bmod (2 ^ w)) :=
  congrArg some (Int.bmod_bmod_of_dvd (Nat.pow_dvd_pow 2 hw))

/-! ## Writing -/

/-- On one line, or a line an item with so many blanks a level. -/
abbrev Layout := Option Nat

/-- A line break and the indentation, if there is one. -/
def breakLine : Layout → Nat → Text
  | none, _ => []
  | some step, level => newline :: blanks (step * level)

/-- A blank, if lines are broken. -/
def afterColon : Layout → Text
  | none => []
  | some _ => [blank]

/-- The parts with commas between them. -/
def joined (l : Layout) (level : Nat) : List Text → Text
  | [] => []
  | [t] => breakLine l level ++ t
  | t :: ts => breakLine l level ++ t ++ comma :: joined l level ts

/-- The parts in brackets. -/
def enclose (opening closing : UInt8) (l : Layout) (level : Nat) (ts : List Text) : Text :=
  if ts.isEmpty then [opening, closing] else opening :: joined l (level + 1) ts ++ breakLine l level ++ [closing]

theorem joined_cons (l : Layout) (level : Nat) (t t' : Text) (ts : List Text) :
    joined l level (t :: t' :: ts) = breakLine l level ++ t ++ comma :: joined l level (t' :: ts) := rfl

theorem enclose_cons (opening closing : UInt8) (l : Layout) (level : Nat) (t : Text) (ts : List Text) (s : Text) :
    enclose opening closing l level (t :: ts) ++ s =
      opening :: (joined l (level + 1) (t :: ts) ++ (breakLine l level ++ closing :: s)) := by
  simp [enclose]

def nullText : Text := [0x6e, 0x75, 0x6c, 0x6c]
def trueText : Text := [0x74, 0x72, 0x75, 0x65]
def falseText : Text := [0x66, 0x61, 0x6c, 0x73, 0x65]

section
variable (print : FloatText)

mutual

def write (l : Layout) (level : Nat) : Tree → Text
  | .null => nullText
  | .bool b => if b then trueText else falseText
  | .num n => writeNumeral print n
  | .str t => writeString t
  | .arr items => enclose 0x5b 0x5d l level (itemTexts l (level + 1) items)
  | .obj members => enclose 0x7b 0x7d l level (memberTexts l (level + 1) members)

/-- The elements as they are written. -/
def itemTexts (l : Layout) (level : Nat) : List Tree → List Text
  | [] => []
  | t :: ts => write l level t :: itemTexts l level ts

/-- The members as they are written. -/
def memberTexts (l : Layout) (level : Nat) : List (String × Tree) → List Text
  | [] => []
  | (key, t) :: ms => (writeString key ++ colon :: afterColon l ++ write l level t) :: memberTexts l level ms

end

end

/-! ## Reading -/

/-- The rest of a literal whose first byte was read. -/
def literal (rest : Text) (t : Tree) : Reader Tree := fun s =>
  if rest.isPrefixOf s then some (t, s.drop rest.length) else none

/-- A key and the value of the reader. -/
def memberOf (value : Reader α) : Reader (String × α) := string.andThen fun key => (token colon).andThen fun _ =>
  value.andThen fun v => done (key, v)

/-- A value; `inner` reads what is in an array or an object. -/
def treeOf (inner : Reader Tree) (s : Text) : Option (Tree × Text) := (next s).bind fun e =>
  if e.1 = quote then (string.andThen fun t => done (.str t)) s
  else if e.1 = 0x5b then ((block 0x5b 0x5d inner).andThen fun ts => done (.arr ts)) s
  else if e.1 = 0x7b then ((block 0x7b 0x7d (memberOf inner)).andThen fun ms => done (.obj ms)) s
  else if e.1 = 0x6e then literal nullText.tail .null e.2
  else if e.1 = 0x74 then literal trueText.tail (.bool true) e.2
  else if e.1 = 0x66 then literal falseText.tail (.bool false) e.2
  else (numeral.andThen fun n => done (.num n)) s

/-- A value with less than so many levels in it. -/
def tree : Nat → Reader Tree
  | 0 => fail
  | depth + 1 => treeOf (tree depth)

/-- U+FEFF in UTF-8. -/
def byteOrderMark : Text := [0xef, 0xbb, 0xbf]

/-- A mark in front is skipped. -/
def withoutMark (s : Text) : Text := if byteOrderMark.isPrefixOf s then s.drop 3 else s

/-- A value at the front, whatever follows it. The line break ends a number. -/
def parseFront (s : Text) : Option (Tree × Text) := tree ((withoutMark s).length + 1) (withoutMark s ++ [newline])

/-- Nothing follows but blanks, or what is behind a zero byte. -/
def atEnd (s : Text) : Bool := (next s).all fun e => e.1 == 0

def parse (s : Text) : Option Tree := (parseFront s).bind fun e => if atEnd e.2 then some e.1 else none

/-! ## Items and members -/

/-- What may follow a value. -/
def Follows (b : UInt8) : Prop := b = comma ∨ b = newline ∨ b = 0x5d ∨ b = 0x7d

/-- The text is read as `a`. -/
def Reads (item : Reader α) (text : Text) (a : α) : Prop := ∀ b s, Follows b → item (text ++ b :: s) = some (a, b :: s)

/-- A text that an item can start with. -/
def Opens (closing : UInt8) (text : Text) : Prop := ∃ b t, text = b :: t ∧ isBlank b = false ∧ b ≠ closing

theorem breakLine_isBlank (l : Layout) (level : Nat) : ∀ b ∈ breakLine l level, isBlank b = true := by
  cases l with
  | none => exact fun b hb => by cases hb
  | some step => exact List.forall_mem_cons.2 ⟨rfl, blanks_isBlank⟩

/-- The byte after the last item. -/
theorem follows_breakLine (l : Layout) (level : Nat) {closing : UInt8} (hclosing : closing = 0x5d ∨ closing = 0x7d) (s : Text) :
    ∃ b s', breakLine l level ++ closing :: s = b :: s' ∧ Follows b := by
  cases l with
  | none => exact ⟨closing, s, rfl, Or.inr (Or.inr hclosing)⟩
  | some step => exact ⟨newline, _, rfl, Or.inr (Or.inl rfl)⟩

theorem closing_plain {closing : UInt8} (h : closing = 0x5d ∨ closing = 0x7d) : isBlank closing = false ∧ closing ≠ comma := by
  rcases h with rfl | rfl <;> decide

theorem loop_joined {closing : UInt8} {item : Reader α} (hskips : SkipsBlanks item) (hclosing : closing = 0x5d ∨ closing = 0x7d)
    (l : Layout) (level level' : Nat) (s : Text) {texts : List Text} {as : List α} (h : List.Forall₂ (Reads item) texts as)
    (hne : texts ≠ []) :
    loop (itemTurn closing item) (joined l level texts ++ (breakLine l level' ++ closing :: s)) = some (as, s) := by
  obtain ⟨hblank, hcomma⟩ := closing_plain hclosing
  induction h with
  | nil => exact absurd rfl hne
  | @cons t a ts as hread hrest ih =>
    cases ts with
    | nil =>
      cases hrest
      refine loop_last ?_
      obtain ⟨b, s', htail, hb⟩ := follows_breakLine l level' hclosing s
      have hitem : item (joined l level [t] ++ (breakLine l level' ++ closing :: s)) =
          some (a, breakLine l level' ++ closing :: s) := by
        rw [joined, List.append_assoc, hskips _ _ (breakLine_isBlank l level), htail, hread b s' hb]
      have hnext : next (breakLine l level' ++ closing :: s) = some (closing, s) := by
        rw [skipsBlanks_next _ _ (breakLine_isBlank l level'), next_cons hblank]
      rw [itemTurn, Reader.andThen_of hitem, Reader.andThen_of hnext, if_neg hcomma, if_pos rfl]
      rfl
    | cons t' ts =>
      have hitem : item (joined l level (t :: t' :: ts) ++ (breakLine l level' ++ closing :: s)) =
          some (a, comma :: (joined l level (t' :: ts) ++ (breakLine l level' ++ closing :: s))) := by
        rw [joined_cons, List.append_assoc, List.append_assoc, hskips _ _ (breakLine_isBlank l level), List.cons_append]
        exact hread comma _ (Or.inl rfl)
      have hturn : itemTurn closing item (joined l level (t :: t' :: ts) ++ (breakLine l level' ++ closing :: s)) =
          some (([a], true), joined l level (t' :: ts) ++ (breakLine l level' ++ closing :: s)) := by
        rw [itemTurn, Reader.andThen_of hitem, Reader.andThen_of (next_cons rfl _), if_pos rfl]
        rfl
      refine loop_more hturn ?_ (ih (List.cons_ne_nil _ _))
      rw [joined_cons]
      simp only [List.length_append, List.length_cons]
      omega

/-- **Enclosed items** are read back. -/
theorem block_enclose (opening : UInt8) {closing : UInt8} (item : Reader α) (hopening : isBlank opening = false)
    (hclosing : closing = 0x5d ∨ closing = 0x7d) (hskips : SkipsBlanks item) (l : Layout) (level : Nat) (s : Text)
    {texts : List Text} {as : List α} (h : List.Forall₂ (Reads item) texts as) (hopens : ∀ t ∈ texts, Opens closing t) :
    block opening closing item (enclose opening closing l level texts ++ s) = some (as, s) := by
  unfold block
  cases texts with
  | nil =>
    cases h
    rw [enclose, List.isEmpty_nil, if_pos rfl, List.cons_append, Reader.andThen_of (token_cons hopening _), List.cons_append,
      List.nil_append, next_cons (closing_plain hclosing).1, Option.bind_some, if_pos rfl]
  | cons t ts =>
    have hloop := loop_joined hskips hclosing l (level + 1) level s h (List.cons_ne_nil _ _)
    obtain ⟨b, t', rfl, hblank, hne⟩ := hopens t List.mem_cons_self
    obtain ⟨q, hq⟩ : ∃ q, joined l (level + 1) ((b :: t') :: ts) ++ (breakLine l level ++ closing :: s) =
        breakLine l (level + 1) ++ b :: q := by
      cases ts with
      | nil => exact ⟨_, by rw [joined, List.append_assoc]; rfl⟩
      | cons u us => exact ⟨_, by rw [joined_cons, List.append_assoc, List.append_assoc]; rfl⟩
    rw [enclose_cons, Reader.andThen_of (token_cons hopening _), hq, skipsBlanks_next _ _ (breakLine_isBlank _ _),
      next_cons hblank, Option.bind_some, if_neg hne, ← hq]
    exact hloop

/-! ## Reading back -/

theorem skipsBlanks_tree : ∀ depth, SkipsBlanks (tree depth)
  | 0 => fun _ _ _ => rfl
  | depth + 1 => by
    intro pad s hpad
    rw [tree, treeOf, skipsBlanks_next pad s hpad, skipsBlanks_string.andThen _ pad s hpad,
      (skipsBlanks_block _ _ (tree depth)).andThen _ pad s hpad,
      (skipsBlanks_block _ _ (memberOf (tree depth))).andThen _ pad s hpad, skipsBlanks_numeral.andThen _ pad s hpad]
    rfl

theorem Follows.endsNumber {b : UInt8} (h : Follows b) : EndsNumber b := by
  unfold EndsNumber
  rcases h with rfl | rfl | rfl | rfl <;> decide

theorem literal_append (rest : Text) (t : Tree) (s : Text) : literal rest t (rest ++ s) = some (t, s) := by
  rw [literal, if_pos (List.isPrefixOf_iff_prefix.2 (List.prefix_append rest s)), List.drop_left]

/-- A byte that starts a number starts nothing else. -/
theorem number_start {b : UInt8} (h : b = minus ∨ isDigit b = true) : isBlank b = false ∧
    ∀ c ∈ [quote, 0x5b, 0x7b, 0x6e, 0x74, 0x66, 0x5d, 0x7d, 0xef], b ≠ c := by
  have hnone : ∀ c ∈ ([quote, 0x5b, 0x7b, 0x6e, 0x74, 0x66, 0x5d, 0x7d, 0xef] : Text), minus ≠ c ∧ isDigit c = false := by
    intro c hc
    simp only [List.mem_cons, List.not_mem_nil, or_false] at hc
    rcases hc with rfl | rfl | rfl | rfl | rfl | rfl | rfl | rfl | rfl <;> decide
  rcases h with rfl | hdigit
  · exact ⟨by decide, fun c hc => (hnone c hc).1⟩
  · refine ⟨(not_blank_of_isDigit hdigit).1, fun c hc he => ?_⟩
    subst he
    rw [(hnone b hc).2] at hdigit
    cases hdigit

theorem enclose_start (opening closing : UInt8) (l : Layout) (level : Nat) (texts : List Text) :
    ∃ q, enclose opening closing l level texts = opening :: q := by
  unfold enclose
  split <;> exact ⟨_, rfl⟩

theorem opens_enclose {l : Layout} {level : Nat} {opening closing closing' : UInt8} {texts : List Text}
    (hblank : isBlank opening = false) (hne : opening ≠ closing) : Opens closing (enclose opening closing' l level texts) := by
  obtain ⟨q, hq⟩ := enclose_start opening closing' l level texts
  exact ⟨opening, q, hq, hblank, hne⟩

mutual

/-- The levels in a value. -/
def depth : Tree → Nat
  | .arr items => itemsDepth items + 1
  | .obj members => membersDepth members + 1
  | _ => 0

/-- Of the deepest element. -/
def itemsDepth : List Tree → Nat
  | [] => 0
  | t :: ts => max (depth t) (itemsDepth ts)

/-- Of the deepest member. -/
def membersDepth : List (String × Tree) → Nat
  | [] => 0
  | (_, t) :: ms => max (depth t) (membersDepth ms)

end

section
variable (print : FloatText)

/-- Neither a closing bracket nor a byte order mark. -/
theorem write_opens (l : Layout) (level : Nat) {closing : UInt8} (hclosing : closing = 0x5d ∨ closing = 0x7d ∨ closing = 0xef)
    (t : Tree) : Opens closing (write print l level t) := by
  cases t with
  | null => rcases hclosing with rfl | rfl | rfl <;> exact ⟨0x6e, _, rfl, by decide, by decide⟩
  | bool b => rcases hclosing with rfl | rfl | rfl <;> cases b <;> exact ⟨_, _, rfl, by decide, by decide⟩
  | num n =>
    obtain ⟨b, t, hb, hstart⟩ := writeNumeral_start print n
    obtain ⟨hblank, hne⟩ := number_start hstart
    refine ⟨b, t, hb, hblank, hne closing ?_⟩
    rcases hclosing with rfl | rfl | rfl <;> decide
  | str t => rcases hclosing with rfl | rfl | rfl <;> exact ⟨quote, _, rfl, by decide, by decide⟩
  | arr items => rcases hclosing with rfl | rfl | rfl <;> exact opens_enclose (by decide) (by decide)
  | obj members => rcases hclosing with rfl | rfl | rfl <;> exact opens_enclose (by decide) (by decide)

theorem withoutMark_write (l : Layout) (t : Tree) (s : Text) : withoutMark (write print l 0 t ++ s) = write print l 0 t ++ s := by
  obtain ⟨b, q, hb, -, hne⟩ := write_opens print l 0 (Or.inr (Or.inr rfl)) t
  have hmark : byteOrderMark.isPrefixOf (b :: (q ++ s)) = false := by
    rw [byteOrderMark, List.isPrefixOf_cons_cons, beq_false_of_ne hne.symm, Bool.false_and]
  rw [withoutMark, hb, List.cons_append, hmark, if_neg Bool.false_ne_true]

/-- The name, the colon and a blank make no difference to the value. -/
theorem reads_member {value : Reader α} (hskips : SkipsBlanks value) (l : Layout) (key : String) {text : Text} {v : α}
    (h : Reads value text v) : Reads (memberOf value) (writeString key ++ colon :: afterColon l ++ text) (key, v) := by
  intro b s hb
  have hvalue : value (afterColon l ++ (text ++ b :: s)) = some (v, b :: s) := by
    cases l with
    | none => exact h b s hb
    | some step => rw [hskips (afterColon (some step)) _ (by simp [afterColon, isBlank]), h b s hb]
  rw [memberOf, List.append_assoc, List.append_assoc, Reader.andThen_of (string_writeString key _), List.cons_append,
    Reader.andThen_of (token_cons rfl _), Reader.andThen_of hvalue]
  rfl

theorem itemTexts_opens (l : Layout) (level : Nat) (ts : List Tree) : ∀ text ∈ itemTexts print l level ts, Opens 0x5d text := by
  induction ts with
  | nil => exact fun _ h => by cases h
  | cons t ts ih => exact List.forall_mem_cons.2 ⟨write_opens print l level (Or.inl rfl) t, ih⟩

theorem memberTexts_opens (l : Layout) (level : Nat) (ms : List (String × Tree)) :
    ∀ text ∈ memberTexts print l level ms, Opens 0x7d text := by
  induction ms with
  | nil => exact fun _ h => by cases h
  | cons m ms ih => exact List.forall_mem_cons.2 ⟨⟨quote, _, rfl, rfl, by decide⟩, ih⟩

mutual

/-- **A value** is read back where the depth suffices. -/
theorem reads_tree (l : Layout) : ∀ (t : Tree) (level d : Nat), depth t < d → Reads (tree d) (write print l level t) t
  | .null, level, d + 1, _ => by
    intro b s _
    rw [tree, treeOf, write, show nullText ++ b :: s = 0x6e :: (nullText.tail ++ b :: s) from rfl, next_cons rfl]
    exact literal_append nullText.tail .null (b :: s)
  | .bool true, level, d + 1, _ => by
    intro b s _
    rw [tree, treeOf, write, if_pos rfl, show trueText ++ b :: s = 0x74 :: (trueText.tail ++ b :: s) from rfl, next_cons rfl]
    exact literal_append trueText.tail (.bool true) (b :: s)
  | .bool false, level, d + 1, _ => by
    intro b s _
    rw [tree, treeOf, write, if_neg Bool.false_ne_true, show falseText ++ b :: s = 0x66 :: (falseText.tail ++ b :: s) from rfl,
      next_cons rfl]
    exact literal_append falseText.tail (.bool false) (b :: s)
  | .num n, level, d + 1, _ => by
    intro b s hb
    obtain ⟨c, t, hc, hstart⟩ := writeNumeral_start print n
    obtain ⟨hblank, hne⟩ := number_start hstart
    have hread := numeral_writeNumeral print n hb.endsNumber s
    rw [write]
    rw [hc, List.cons_append] at hread ⊢
    rw [tree, treeOf, next_cons hblank, Option.bind_some, if_neg (hne _ (by decide)), if_neg (hne _ (by decide)),
      if_neg (hne _ (by decide)), if_neg (hne _ (by decide)), if_neg (hne _ (by decide)), if_neg (hne _ (by decide)),
      Reader.andThen_of hread]
    rfl
  | .str t, level, d + 1, _ => by
    intro b s _
    have hread := string_writeString t (b :: s)
    obtain ⟨c, q, hc, hblank, rfl⟩ := startsWith_string t
    rw [write]
    rw [hc, List.cons_append] at hread ⊢
    rw [tree, treeOf, next_cons hblank, Option.bind_some, if_pos rfl, Reader.andThen_of hread]
    rfl
  | .arr items, level, d + 1, hd => by
    intro b s _
    rw [depth] at hd
    have hread := block_enclose 0x5b (tree d) rfl (Or.inl rfl) (skipsBlanks_tree d) l level (b :: s)
      (reads_items l items (level + 1) d (by omega)) (itemTexts_opens print l (level + 1) items)
    obtain ⟨q, hq⟩ := enclose_start 0x5b 0x5d l level (itemTexts print l (level + 1) items)
    have hquote : (0x5b : UInt8) ≠ quote := by decide
    rw [write]
    rw [hq, List.cons_append] at hread ⊢
    rw [tree, treeOf, next_cons rfl, Option.bind_some, if_neg hquote, if_pos rfl, Reader.andThen_of hread]
    rfl
  | .obj members, level, d + 1, hd => by
    intro b s _
    rw [depth] at hd
    have hread := block_enclose 0x7b (memberOf (tree d)) rfl (Or.inr rfl)
      (skipsBlanks_string.andThen _) l level (b :: s)
      (reads_members l members (level + 1) d (by omega)) (memberTexts_opens print l (level + 1) members)
    obtain ⟨q, hq⟩ := enclose_start 0x7b 0x7d l level (memberTexts print l (level + 1) members)
    have hquote : (0x7b : UInt8) ≠ quote := by decide
    have hblock : (0x7b : UInt8) ≠ 0x5b := by decide
    rw [write]
    rw [hq, List.cons_append] at hread ⊢
    rw [tree, treeOf, next_cons rfl, Option.bind_some, if_neg hquote, if_neg hblock, if_pos rfl, Reader.andThen_of hread]
    rfl

theorem reads_items (l : Layout) : ∀ (ts : List Tree) (level d : Nat), itemsDepth ts < d →
    List.Forall₂ (Reads (tree d)) (itemTexts print l level ts) ts
  | [], level, d, _ => .nil
  | t :: ts, level, d, hd => by
    rw [itemsDepth] at hd
    exact .cons (reads_tree l t level d (by omega)) (reads_items l ts level d (by omega))

theorem reads_members (l : Layout) : ∀ (ms : List (String × Tree)) (level d : Nat), membersDepth ms < d →
    List.Forall₂ (Reads (memberOf (tree d))) (memberTexts print l level ms) ms
  | [], level, d, _ => .nil
  | (key, t) :: ms, level, d, hd => by
    rw [membersDepth] at hd
    exact .cons (reads_member (skipsBlanks_tree d) l key (reads_tree l t level d (by omega)))
      (reads_members l ms level d (by omega))

end

theorem length_joined_lt (opening closing : UInt8) (l : Layout) (level : Nat) (texts : List Text) :
    (joined l (level + 1) texts).length + 1 < (enclose opening closing l level texts).length := by
  unfold enclose
  split
  · rename_i h
    rw [List.isEmpty_iff.1 h]
    exact Nat.lt_succ_self 1
  · simp only [List.length_append, List.length_cons, List.length_nil]
    omega

theorem length_le_joined (l : Layout) (level : Nat) (text : Text) (texts : List Text) :
    text.length ≤ (joined l level (text :: texts)).length ∧
      (joined l level texts).length ≤ (joined l level (text :: texts)).length := by
  cases texts with
  | nil => simp [joined]
  | cons t ts =>
    simp only [joined_cons, List.length_append, List.length_cons]
    omega

mutual

theorem depth_lt_length (l : Layout) : ∀ (t : Tree) (level : Nat), depth t < (write print l level t).length
  | .null, _ => by simp [depth, write, nullText]
  | .bool b, _ => by cases b <;> simp [depth, write, trueText, falseText]
  | .num n, _ => by
    obtain ⟨b, t, hb, -⟩ := writeNumeral_start print n
    simp [depth, write, hb]
  | .str t, _ => by simp [depth, write, writeString]
  | .arr items, level => by
    have hitems := itemsDepth_le_length l items (level + 1) (level + 1)
    have henclose := length_joined_lt 0x5b 0x5d l level (itemTexts print l (level + 1) items)
    rw [depth, write]
    omega
  | .obj members, level => by
    have hmembers := membersDepth_le_length l members (level + 1) (level + 1)
    have henclose := length_joined_lt 0x7b 0x7d l level (memberTexts print l (level + 1) members)
    rw [depth, write]
    omega

theorem itemsDepth_le_length (l : Layout) : ∀ (ts : List Tree) (level level' : Nat),
    itemsDepth ts ≤ (joined l level' (itemTexts print l level ts)).length
  | [], _, _ => Nat.zero_le _
  | t :: ts, level, level' => by
    have ht := depth_lt_length l t level
    have hts := itemsDepth_le_length l ts level level'
    have hjoined := length_le_joined l level' (write print l level t) (itemTexts print l level ts)
    rw [itemsDepth, itemTexts]
    omega

theorem membersDepth_le_length (l : Layout) : ∀ (ms : List (String × Tree)) (level level' : Nat),
    membersDepth ms ≤ (joined l level' (memberTexts print l level ms)).length
  | [], _, _ => Nat.zero_le _
  | (key, t) :: ms, level, level' => by
    have ht := depth_lt_length l t level
    have hms := membersDepth_le_length l ms level level'
    have hjoined := length_le_joined l level' (writeString key ++ colon :: afterColon l ++ write print l level t)
      (memberTexts print l level ms)
    rw [membersDepth, memberTexts]
    simp only [List.length_append, List.length_cons] at hjoined
    omega

end

/-- **A value** is read back from the front of a text. -/
theorem parseFront_write (l : Layout) (t : Tree) {s : Text} (hs : ∀ b ∈ s.head?, Follows b) :
    parseFront (write print l 0 t ++ s) = some (t, s ++ [newline]) := by
  have hdepth : depth t < (write print l 0 t ++ s).length + 1 := by
    have hlt := depth_lt_length print l t 0
    rw [List.length_append]
    omega
  rw [parseFront, withoutMark_write, List.append_assoc]
  cases s with
  | nil => exact reads_tree print l t 0 _ hdepth newline [] (Or.inr (Or.inl rfl))
  | cons b s => exact reads_tree print l t 0 _ hdepth b _ (hs b rfl)

/-- **What is written is read back**, in either layout. -/
theorem parse_write (l : Layout) (t : Tree) : parse (write print l 0 t) = some t := by
  have hfront := parseFront_write print l t (s := []) (fun _ h => by cases h)
  rw [List.append_nil] at hfront
  rw [parse, hfront]
  rfl

end

end Json
