import Mathlib.Tactic
import Mathlib.Data.Char
import Mathlib.Data.List.Lex

/-!
# Identifier newtypes

Texts are lists of characters.  The order of `Str` is the lexicographic order of code points,
which is the byte order of the UTF-8 encodings, and `utf8Len` is the length of the encoding.

An identifier is a text together with the proof that its validator accepts it, so that only
syntactically valid identifiers exist.
-/

namespace Fireemu

/-- A text. -/
abbrev Str := List Char

instance : LawfulBEq Str := inferInstance

namespace Str

/-- Length of the UTF-8 encoding. -/
def utf8Len (s : Str) : ℕ := (s.map Char.utf8Size).sum

@[simp] theorem utf8Len_nil : utf8Len [] = 0 := rfl

@[simp] theorem utf8Len_cons {c : Char} {s : Str} : utf8Len (c :: s) = c.utf8Size + utf8Len s := rfl

@[simp] theorem utf8Len_append {s t : Str} : utf8Len (s ++ t) = utf8Len s + utf8Len t := by
  simp [utf8Len]

/-- Byte offset of the first character a test accepts. -/
def findOffset (p : Char → Bool) : Str → Option ℕ
  | [] => none
  | c :: s => if p c then some 0 else (findOffset p s).map (c.utf8Size + ·)

theorem findOffset_eq_none {p : Char → Bool} {s : Str} : findOffset p s = none ↔ ∀ c ∈ s, p c = false := by
  induction s with
  | nil => simp [findOffset]
  | cons c s ih =>
    unfold findOffset
    split_ifs with h
    · simp [h]
    · simp [h, ih]

/-- A control character, category `Cc`. -/
def isControl (c : Char) : Bool := c.toNat < 0x20 || (0x7f ≤ c.toNat && c.toNat < 0xa0)

end Str

/-- Maximum UTF-8 byte length of a collection ID, document ID and field name. -/
def maxIdUtf8Bytes : ℕ := 1500

/-- Syntax violations for identifiers. -/
inductive IdSyntaxError
  | empty
  | tooManyBytes (bytes maximum : ℕ)
  | invalidCharacter (offset : ℕ)
  | leadingOrTrailingHyphen
  | containsSlash
  | dotSegment
  | reservedDunder
  | controlCharacter (offset : ℕ)
  deriving DecidableEq, Repr

/-- The lowercase `[a-z0-9-]` alphabet. -/
def isLowercaseHyphenated (c : Char) : Bool := c.isLower || c.isDigit || c == '-'

/-- Validates the alphabet used by project and database IDs. -/
def validateLowercaseHyphenated (s : Str) (maxBytes : ℕ) : Except IdSyntaxError Unit :=
  if s.isEmpty then .error .empty
  else if s.utf8Len > maxBytes then .error (.tooManyBytes s.utf8Len maxBytes)
  else match s.findOffset fun c => !isLowercaseHyphenated c with
    | some offset => .error (.invalidCharacter offset)
    | none =>
      if s.head? = some '-' ∨ s.getLast? = some '-' then .error .leadingOrTrailingHyphen
      else .ok ()

/-- The reserved pattern `__.*__` of at least four bytes. -/
def isReservedDunder (s : Str) : Bool :=
  s.utf8Len ≥ 4 && ['_', '_'].isPrefixOf s && ['_', '_'].isSuffixOf s

/-- Validates a path segment. -/
def validatePathSegment (s : Str) : Except IdSyntaxError Unit :=
  if s.isEmpty then .error .empty
  else if s.utf8Len > maxIdUtf8Bytes then .error (.tooManyBytes s.utf8Len maxIdUtf8Bytes)
  else if s.contains '/' then .error .containsSlash
  else match s.findOffset Str.isControl with
    | some offset => .error (.controlCharacter offset)
    | none =>
      if s = ['.'] ∨ s = ['.', '.'] then .error .dotSegment
      else if isReservedDunder s then .error .reservedDunder
      else .ok ()

/-- The name of the default database. -/
def defaultDatabase : Str := "(default)".toList

/-- Validates a database ID. -/
def validateDatabaseId (s : Str) : Except IdSyntaxError Unit :=
  if s = defaultDatabase then .ok () else validateLowercaseHyphenated s 63

/-- Firebase project ID. -/
abbrev ProjectId := {s : Str // validateLowercaseHyphenated s 63 = .ok ()}

/-- Firestore database ID: `(default)` or a lowercase hyphenated name. -/
abbrev DatabaseId := {s : Str // validateDatabaseId s = .ok ()}

/-- Firestore collection ID. -/
abbrev CollectionId := {s : Str // validatePathSegment s = .ok ()}

/-- Firestore document ID. -/
abbrev DocumentId := {s : Str // validatePathSegment s = .ok ()}

/-- Validates and wraps an identifier. -/
def tryNew (validate : Str → Except IdSyntaxError Unit) (s : Str) :
    Except IdSyntaxError {s : Str // validate s = .ok ()} :=
  match h : validate s with
  | .ok () => .ok ⟨s, h⟩
  | .error e => .error e

theorem tryNew_val {validate : Str → Except IdSyntaxError Unit}
    (a : {s : Str // validate s = .ok ()}) : tryNew validate a.1 = .ok a := by
  unfold tryNew
  split
  · rfl
  · rename_i e h
    rw [a.2] at h
    cases h

variable {s : Str}

/-- What the alphabet check of a project or database ID establishes. -/
theorem validateLowercaseHyphenated_ok {n : ℕ} (h : validateLowercaseHyphenated s n = .ok ()) :
    s ≠ [] ∧ ∀ c ∈ s, isLowercaseHyphenated c = true := by
  unfold validateLowercaseHyphenated at h
  cases hoff : s.findOffset fun c => !isLowercaseHyphenated c with
  | some =>
    rw [hoff] at h
    split_ifs at h
  | none =>
    rw [hoff] at h
    split_ifs at h with h1 h2 h3
    refine ⟨by simpa using h1, fun c hc => ?_⟩
    simpa using Str.findOffset_eq_none.1 hoff c hc

/-- What the check of a path segment establishes about its characters. -/
theorem validatePathSegment_ok (h : validatePathSegment s = .ok ()) :
    s ≠ [] ∧ '/' ∉ s ∧ ∀ c ∈ s, Str.isControl c = false := by
  unfold validatePathSegment at h
  cases hoff : s.findOffset Str.isControl with
  | some =>
    rw [hoff] at h
    split_ifs at h
  | none =>
    rw [hoff] at h
    split_ifs at h with h1 h2 h3
    exact ⟨by simpa using h1, by simpa using h3, Str.findOffset_eq_none.1 hoff⟩

/-- No identifier holds a slash. -/
theorem slash_not_mem_projectId {p : ProjectId} : '/' ∉ p.1 := fun h => by
  have := (validateLowercaseHyphenated_ok p.2).2 _ h
  revert this
  decide

theorem slash_not_mem_databaseId {d : DatabaseId} : '/' ∉ d.1 := fun h => by
  have hd := d.2
  unfold validateDatabaseId at hd
  split_ifs at hd with hdef
  · rw [hdef] at h
    revert h
    decide
  · have := (validateLowercaseHyphenated_ok hd).2 _ h
    revert this
    decide

end Fireemu
