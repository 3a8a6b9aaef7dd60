import StorageEngine.Lib.Table
import Mathlib.Data.List.TakeWhile

/-!
# Paths and a file system

A location is the list of names from the root. A path is a text: the system sees it up to the first NUL character, walks
its names from a start (from the root if it begins with `/`), each of them in a directory that is there, and takes `.` and
`..` as usual. There are no symbolic links. A file system holds the content of regular files and the directories, and no
name of more than `nameMax` characters.
-/

namespace Paths

open Relational

universe u

/-- The names from the root. -/
abbrev Location := List String

/-- What a directory may call an entry. -/
structure IsName (s : String) : Prop where
  noSlash : '/' ∉ s.toList
  noNul : '\x00' ∉ s.toList
  ne : s ≠ "" ∧ s ≠ "." ∧ s ≠ ".."

instance (s : String) : Decidable (IsName s) :=
  decidable_of_iff ('/' ∉ s.toList ∧ '\x00' ∉ s.toList ∧ s ≠ "" ∧ s ≠ "." ∧ s ≠ "..")
    ⟨fun h => ⟨h.1, h.2.1, h.2.2⟩, fun h => ⟨h.1, h.2, h.3⟩⟩

/-- What a C function sees of a string. -/
def cString (s : String) : List Char := s.toList.takeWhile (· != '\x00')

/-- The parts between slashes. -/
def names (text : List Char) : List String := (text.splitOn '/').map String.ofList

/-- One name after another. -/
def walk (isDir : Location → Bool) : Location → List String → Option Location
  | loc, [] => some loc
  | loc, name :: rest =>
    if isDir loc = false then none
    else if name = "" ∨ name = "." then walk isDir loc rest
    else if name = ".." then walk isDir loc.dropLast rest
    else walk isDir (loc ++ [name]) rest

/-- `NAME_MAX`, a character for a byte. -/
def nameMax : Nat := 255

/-- Files by their place, and the directories. -/
structure FileSystem (α : Type u) where
  files : Table Location α
  dirs : List Location

namespace FileSystem

variable {α : Type u}

/-- The root is always there. -/
def isDir (fs : FileSystem α) (loc : Location) : Bool := loc.isEmpty || fs.dirs.contains loc

/-- Where a path leads, `none` if a directory on the way is missing. -/
def resolve (fs : FileSystem α) (start : Location) (path : String) : Option Location :=
  let text := cString path
  walk fs.isDir (if text.head? = some '/' then [] else start) (names text)

/-- The way goes through a file (`ENOTDIR`), by a name that is too long (`ENAMETOOLONG`), or ends in `.` (`EINVAL`). -/
def blocked (fs : FileSystem α) : Location → List String → Bool
  | _, [] => false
  | loc, name :: rest =>
    if fs.isDir loc = false then (fs.files.get? loc).isSome
    else if name = "" then fs.blocked loc rest
    else if name = "." then rest.all (· == "") || fs.blocked loc rest
    else if name = ".." then fs.blocked loc.dropLast rest
    else decide (nameMax < name.length) || fs.blocked (loc ++ [name]) rest

/-- The path cannot be removed, but not because it is absent. -/
def refuses (fs : FileSystem α) (start : Location) (path : String) : Bool :=
  let text := cString path
  fs.blocked (if text.head? = some '/' then [] else start) (names text)

/-- The content of the file at the place. -/
def read (fs : FileSystem α) (loc : Option Location) : Option α := loc.bind fs.files.get?

/-- Opens the file for writing and puts `content` there. A directory does not open. -/
def write (fs : FileSystem α) : Option Location → α → Option (FileSystem α)
  | none, _ => none
  | some loc, content => if fs.isDir loc then none else some { fs with files := fs.files.put loc content }

/-- Nothing lies below the directory. -/
def isEmptyDir (fs : FileSystem α) (loc : Location) : Bool :=
  fs.isDir loc && !loc.isEmpty && (fs.files.rows.all fun e => !loc.isPrefixOf e.1) &&
    fs.dirs.all fun dir => dir == loc || !loc.isPrefixOf dir

/-- Removes a file or an empty directory. -/
def removeAt (fs : FileSystem α) (loc : Location) : FileSystem α × Bool :=
  if (fs.files.get? loc).isSome then ({ fs with files := fs.files.deleteWhere fun k _ => k == loc }, true)
  else if fs.isEmptyDir loc then ({ fs with dirs := fs.dirs.filter (· != loc) }, true)
  else (fs, !fs.isDir loc)

/-- What is not there is no error. -/
def remove (fs : FileSystem α) : Option Location → FileSystem α × Bool
  | none => (fs, true)
  | some loc => fs.removeAt loc

end FileSystem

/-! ## Where a path leads -/

theorem mem_cString {s : String} {c : Char} (h : c ∈ cString s) : c ∈ s.toList ∧ c ≠ '\x00' :=
  ⟨(List.takeWhile_sublist _).subset h, by simpa using List.mem_takeWhile_imp h⟩

theorem cString_of_noNul {s : String} (h : '\x00' ∉ s.toList) : cString s = s.toList := by
  refine List.takeWhile_eq_self_iff.2 fun c hc => ?_
  rw [bne_iff_ne]
  rintro rfl
  exact h hc

/-- A name is a path of one step. -/
theorem names_of_noSlash {text : List Char} (h : '/' ∉ text) : names text = [String.ofList text] := by
  rw [names, List.splitOn_eq_singleton h, List.map_singleton]

theorem of_mem_splitOn {a : Char} {l part : List Char} (h : part ∈ l.splitOn a) : a ∉ part ∧ part ⊆ l := by
  induction l generalizing part with
  | nil =>
    rw [List.splitOn_nil, List.mem_singleton] at h
    rw [h]
    exact ⟨List.not_mem_nil, List.nil_subset _⟩
  | cons x xs ih =>
    rw [List.splitOn_cons_eq_if_modifyHead] at h
    split at h
    · rcases List.mem_cons.1 h with rfl | h
      · exact ⟨List.not_mem_nil, List.nil_subset _⟩
      · exact ⟨(ih h).1, List.subset_cons_of_subset _ (ih h).2⟩
    · rename_i hx
      generalize xs.splitOn a = parts at h ih
      cases parts with
      | nil => cases h
      | cons first rest =>
        rw [List.modifyHead_cons] at h
        rcases List.mem_cons.1 h with rfl | h
        · obtain ⟨hna, hsub⟩ := ih List.mem_cons_self
          refine ⟨fun hmem => ?_, List.cons_subset_cons x hsub⟩
          rcases List.mem_cons.1 hmem with rfl | hmem
          · exact hx (beq_self_eq_true _)
          · exact hna hmem
        · obtain ⟨hna, hsub⟩ := ih (List.mem_cons_of_mem _ h)
          exact ⟨hna, List.subset_cons_of_subset _ hsub⟩

/-- The names of a path have no `/`, and are parts of it. -/
theorem mem_names {text : List Char} {name : String} (h : name ∈ names text) :
    '/' ∉ name.toList ∧ ∀ c ∈ name.toList, c ∈ text := by
  obtain ⟨part, hpart, rfl⟩ := List.mem_map.1 h
  rw [String.toList_ofList]
  exact of_mem_splitOn hpart

/-- What is on the way comes from the start or from the path. -/
theorem mem_of_walk {isDir : Location → Bool} {path : List String} {start loc : Location}
    (h : walk isDir start path = some loc) : ∀ name ∈ loc, name ∈ start ∨ name ∈ path := by
  induction path generalizing start with
  | nil =>
    rw [walk, Option.some.injEq] at h
    exact fun name hname => Or.inl (h ▸ hname)
  | cons step rest ih =>
    intro name hname
    rw [walk] at h
    split at h
    · cases h
    · split at h
      · rcases ih h name hname with h | h
        · exact Or.inl h
        · exact Or.inr (List.mem_cons_of_mem _ h)
      · split at h
        · rcases ih h name hname with h | h
          · exact Or.inl ((List.dropLast_subset _ h))
          · exact Or.inr (List.mem_cons_of_mem _ h)
        · rcases ih h name hname with h | h
          · rcases List.mem_append.1 h with h | h
            · exact Or.inl h
            · exact Or.inr (List.mem_singleton.1 h ▸ List.mem_cons_self)
          · exact Or.inr (List.mem_cons_of_mem _ h)

namespace FileSystem

variable {α : Type u} {fs : FileSystem α} {start : Location}

/-- **A name leads to the entry of the directory.** -/
theorem resolve_name (hdir : fs.isDir start = true) {name : String} (h : IsName name) :
    fs.resolve start name = some (start ++ [name]) := by
  have hhead : name.toList.head? ≠ some '/' := fun hhead => h.noSlash (List.mem_of_mem_head? hhead)
  obtain ⟨hempty, hdot, hdots⟩ := h.ne
  simp only [resolve, cString_of_noNul h.noNul, names_of_noSlash h.noSlash, if_neg hhead, String.ofList_toList, walk, hdir,
    hempty, hdot, hdots, Bool.true_eq_false, or_self, if_false]

/-- A name is refused only for its length. -/
theorem refuses_name (hdir : fs.isDir start = true) {name : String} (h : IsName name) :
    fs.refuses start name = decide (nameMax < name.length) := by
  have hhead : name.toList.head? ≠ some '/' := fun hhead => h.noSlash (List.mem_of_mem_head? hhead)
  obtain ⟨hempty, hdot, hdots⟩ := h.ne
  simp only [refuses, cString_of_noNul h.noNul, names_of_noSlash h.noSlash, if_neg hhead, String.ofList_toList, blocked, hdir,
    hempty, hdot, hdots, Bool.true_eq_false, if_false, Bool.or_false]

/-- **Only a name leads to the entry that is called like the path**, wherever the directory lies. -/
theorem plain_of_resolve (hstart : ∀ name ∈ start, IsName name) {path : String}
    (h : fs.resolve start path = some (start ++ [path])) : '/' ∉ path.toList ∧ '\x00' ∉ path.toList := by
  have hmem : path ∈ start ∨ path ∈ names (cString path) := by
    rcases mem_of_walk h path (List.mem_append_right _ List.mem_cons_self) with hin | hin
    · split at hin
      · cases hin
      · exact Or.inl hin
    · exact Or.inr hin
  rcases hmem with hin | hin
  · exact ⟨(hstart path hin).noSlash, (hstart path hin).noNul⟩
  · obtain ⟨hslash, hsub⟩ := mem_names hin
    exact ⟨hslash, fun hnul => (mem_cString (hsub _ hnul)).2 rfl⟩

/-! ## Writing and removing -/

theorem write_eq_some {loc : Option Location} {content : α} {fs' : FileSystem α} :
    fs.write loc content = some fs' ↔ ∃ l, loc = some l ∧ fs.isDir l = false ∧
      fs' = { fs with files := fs.files.put l content } := by
  cases loc with
  | none => simp [write]
  | some l =>
    rw [write]
    constructor
    · intro h
      split at h
      · cases h
      · rename_i hdir
        exact ⟨l, rfl, Bool.eq_false_iff.2 hdir, (Option.some.inj h).symm⟩
    · rintro ⟨l', hl, hdir, rfl⟩
      obtain rfl := Option.some.inj hl
      rw [if_neg (by simp [hdir])]

theorem get?_delete_ne {k l : Location} (h : k ≠ l) :
    (fs.files.deleteWhere fun k _ => k == l).get? k = fs.files.get? k := by
  rw [Table.get?_deleteWhere]
  cases fs.files.get? k with
  | none => rfl
  | some content => exact Option.filter_some_pos (by simpa using h)

/-- Removing changes nothing elsewhere. -/
theorem removeAt_elsewhere {k l : Location} (h : k ≠ l) :
    (fs.removeAt l).1.files.get? k = fs.files.get? k ∧ (k ∈ (fs.removeAt l).1.dirs ↔ k ∈ fs.dirs) := by
  unfold removeAt
  split
  · exact ⟨get?_delete_ne h, Iff.rfl⟩
  · split
    · refine ⟨rfl, ?_⟩
      simp [h]
    · exact ⟨rfl, Iff.rfl⟩

/-- Where no directory is, a file is removed. -/
theorem removeAt_file {l : Location} (h : fs.isDir l = false) :
    (fs.removeAt l).2 = true ∧ (fs.removeAt l).1.dirs = fs.dirs ∧
      ∀ k, (fs.removeAt l).1.files.get? k = if k = l then none else fs.files.get? k := by
  unfold removeAt
  split
  · refine ⟨rfl, rfl, fun k => ?_⟩
    split
    · rename_i hk
      rw [Table.get?_deleteWhere, hk]
      simp
    · rename_i hk
      exact get?_delete_ne hk
  · rename_i hnone
    rw [Option.not_isSome_iff_eq_none] at hnone
    rw [if_neg (by simp [isEmptyDir, h]), h]
    refine ⟨rfl, rfl, fun k => ?_⟩
    split
    · rename_i hk
      rw [hk, hnone]
    · rfl

/-! ## File systems that differ elsewhere -/

/-- The same directories, and the same files at and below the places of `S`. -/
structure Agree (S : Location → Prop) (fs fs' : FileSystem α) : Prop where
  dirs : fs'.dirs = fs.dirs
  files : ∀ loc, S loc → ∀ k, loc <+: k → fs'.files.get? k = fs.files.get? k

variable {S : Location → Prop} {fs' : FileSystem α}

theorem Agree.isDir (h : Agree S fs fs') : fs'.isDir = fs.isDir := by
  funext loc
  rw [FileSystem.isDir, FileSystem.isDir, h.dirs]

theorem Agree.resolve (h : Agree S fs fs') (path : String) : fs'.resolve start path = fs.resolve start path := by
  rw [FileSystem.resolve, FileSystem.resolve, h.isDir]

theorem Agree.get? (h : Agree S fs fs') {loc : Location} (hloc : S loc) : fs'.files.get? loc = fs.files.get? loc :=
  h.files loc hloc loc (List.prefix_refl loc)

theorem Agree.write (h : Agree S fs fs') (loc : Option Location) (content : α) :
    fs.write loc content = none ∧ fs'.write loc content = none ∨
      ∃ fs₁ fs₂, fs.write loc content = some fs₁ ∧ fs'.write loc content = some fs₂ ∧ Agree S fs₁ fs₂ := by
  cases loc with
  | none => exact Or.inl ⟨rfl, rfl⟩
  | some loc =>
    simp only [FileSystem.write, h.isDir]
    split
    · exact Or.inl ⟨rfl, rfl⟩
    · refine Or.inr ⟨_, _, rfl, rfl, h.dirs, fun l hl k hk => ?_⟩
      rw [Table.get?_put, Table.get?_put, h.files l hl k hk]

/-- Only what lies below counts. -/
theorem isEmptyDir_iff {loc : Location} :
    fs.isEmptyDir loc = true ↔ fs.isDir loc = true ∧ loc ≠ [] ∧ (∀ k, loc <+: k → fs.files.get? k = none) ∧
      ∀ dir ∈ fs.dirs, dir = loc ∨ ¬ loc <+: dir := by
  have hfiles : (fs.files.rows.all fun e => !loc.isPrefixOf e.1) = true ↔ ∀ k, loc <+: k → fs.files.get? k = none := by
    rw [List.all_eq_true]
    constructor
    · intro hall k hk
      rw [Option.eq_none_iff_forall_ne_some]
      intro content hget
      have hrow := hall (k, content) (Table.mem_rows.2 hget)
      rw [Bool.not_eq_true', ← Bool.not_eq_true, List.isPrefixOf_iff_prefix] at hrow
      exact hrow hk
    · rintro hnone ⟨k, content⟩ hrow
      rw [Bool.not_eq_true', ← Bool.not_eq_true, List.isPrefixOf_iff_prefix]
      intro hk
      rw [Table.mem_rows, hnone k hk] at hrow
      cases hrow
  have hdirs : (fs.dirs.all fun dir => dir == loc || !loc.isPrefixOf dir) = true ↔
      ∀ dir ∈ fs.dirs, dir = loc ∨ ¬ loc <+: dir := by
    simp [← List.isPrefixOf_iff_prefix]
  rw [isEmptyDir, Bool.and_eq_true, Bool.and_eq_true, Bool.and_eq_true, hfiles, hdirs]
  simp [and_assoc]

theorem Agree.isEmptyDir (h : Agree S fs fs') {loc : Location} (hloc : S loc) : fs'.isEmptyDir loc = fs.isEmptyDir loc := by
  rw [Bool.eq_iff_iff, isEmptyDir_iff, isEmptyDir_iff, h.isDir, h.dirs]
  have hbelow : (∀ k, loc <+: k → fs'.files.get? k = none) ↔ ∀ k, loc <+: k → fs.files.get? k = none :=
    forall_congr' fun k => forall_congr' fun hk => by rw [h.files loc hloc k hk]
  rw [hbelow]

/-- **What is removed, and whether it can be, does not depend on the rest.** -/
theorem Agree.removeAt (h : Agree S fs fs') {loc : Location} (hloc : S loc) :
    (fs'.removeAt loc).2 = (fs.removeAt loc).2 ∧ Agree S (fs.removeAt loc).1 (fs'.removeAt loc).1 := by
  unfold FileSystem.removeAt
  rw [h.get? hloc]
  split
  · refine ⟨rfl, h.dirs, fun l hl k hk => ?_⟩
    rw [Table.get?_deleteWhere, Table.get?_deleteWhere, h.files l hl k hk]
  · rw [h.isEmptyDir hloc, h.isDir]
    split
    · exact ⟨rfl, by rw [h.dirs], h.files⟩
    · exact ⟨rfl, h⟩

end FileSystem

end Paths
