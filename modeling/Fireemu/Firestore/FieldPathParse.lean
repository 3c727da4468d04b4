import Mathlib
import Fireemu.Firestore.FieldPath
import Fireemu.Library.Fallible

/-!
# Parsing field paths

The parser of the canonical form walks the text once.  Outside quotes it takes identifier characters
and dots; a backtick is taken only where a segment starts, and within the quotes everything up to the
next backtick that is not escaped.  `parseChecked_canonical` is the round trip: what `canonical` writes is read
back, so paths with equal canonical forms are equal.
-/

namespace Fireemu.FieldPath

open Library (bind_eq_ok)
open List

/-! ### The parser -/

/-- Whether a character may stand in an unquoted segment. -/
def isPlain (first : Bool) (c : Char) : Bool :=
  (if first then c.isAlpha else c.isAlphanum) || c == '_'

mutual

/-- Reads outside quotes, `offset` bytes into the text.  `current` is the segment so far, `first` tells
whether it starts here and `quoted` whether it was quoted. -/
def readPlain (segments : List Str) (current : Str) (first quoted : Bool) (offset : ℕ) :
    Str → Except FieldPathError (List Str)
  | [] =>
      if current.isEmpty && !quoted then .error (.emptySegment segments.length)
      else .ok (segments ++ [current])
  | c :: rest =>
      if c = backtick then
        if first then readQuoted segments current offset (offset + 1) rest
        else .error (.unquotedSpecialCharacter offset)
      else if c = '.' then
        if current.isEmpty && !quoted then .error (.emptySegment segments.length)
        else if rest.isEmpty then .error (.emptySegment (segments.length + 1))
        else readPlain (segments ++ [current]) [] true false (offset + 1) rest
      else if Str.isControl c then .error (.controlCharacter offset)
      else if isPlain first c then
        readPlain segments (current ++ [c]) false quoted (offset + c.utf8Size) rest
      else .error (.unquotedSpecialCharacter offset)

/-- Reads a segment whose quote was opened at byte `opened`. -/
def readQuoted (segments : List Str) (current : Str) (opened offset : ℕ) :
    Str → Except FieldPathError (List Str)
  | [] => .error (.unterminatedQuote opened)
  | c :: rest =>
      if c = backslash then
        match rest with
        | [] => .error (.unquotedSpecialCharacter offset)
        | escaped :: rest =>
            if escaped = backtick ∨ escaped = backslash then
              readQuoted segments (current ++ [escaped]) opened (offset + 2) rest
            else .error (.unquotedSpecialCharacter offset)
      else if c = backtick then
        -- only a dot or the end may follow the closing quote
        if rest.head?.all (· = '.') then readPlain segments current false true (offset + 1) rest
        else .error (.unquotedSpecialCharacter (offset + 1))
      else readQuoted segments (current ++ [c]) opened (offset + c.utf8Size) rest

end

/-- Parses the canonical representation and validates the segments. -/
def parseChecked (input : Str) (allowReserved : Bool) : Except FieldPathError FieldPath :=
  if input.isEmpty then .error .empty
  else do
    let segments ← readPlain [] [] true false 0 input
    checked segments allowReserved

/-- Parses the canonical representation. -/
def parse (input : Str) : Except FieldPathError FieldPath := parseChecked input false

/-! ### Reading what was written -/

variable {segments : List Str} {allowReserved : Bool} {p : FieldPath} {s : Str}

theorem ne_nil_of_checkSegments {index : ℕ} (h : checkSegments allowReserved index segments = .ok ()) :
    ∀ s ∈ segments, s ≠ [] := by
  induction segments generalizing index with
  | nil => exact nofun
  | cons s segments ih =>
    rw [checkSegments] at h
    by_cases he : s.isEmpty = true
    · rw [if_pos he] at h
      cases h
    rw [if_neg he] at h
    split at h
    · cases h
    · split_ifs at h
      exact forall_mem_cons.2 ⟨fun hnil => he (isEmpty_iff.2 hnil), ih h⟩

theorem checked_eq_ok (h : checked segments allowReserved = .ok p) :
    p.segments = segments ∧ ∀ s ∈ segments, s ≠ [] := by
  unfold checked at h
  split_ifs at h with hnil
  obtain ⟨⟨⟩, hcheck, h⟩ := bind_eq_ok.1 h
  dsimp only at h
  split_ifs at h
  cases h
  exact ⟨rfl, ne_nil_of_checkSegments hcheck⟩

theorem ne_of_isPlain {c : Char} {first : Bool} (h : isPlain first c = true) :
    c ≠ backtick ∧ c ≠ '.' ∧ Str.isControl c = false := by
  refine ⟨?_, ?_, ?_⟩
  · rintro rfl
    revert h
    cases first <;> decide
  · rintro rfl
    revert h
    cases first <;> decide
  · have hrange : 48 ≤ c.toNat ∧ c.toNat ≤ 122 := by
      simp only [isPlain, Char.isAlphanum, Char.isAlpha, Char.isUpper, Char.isLower, Char.isDigit,
        Bool.or_eq_true, beq_iff_eq] at h
      rcases h with h | rfl
      · have : c.toNat = c.val.toNat := rfl
        split_ifs at h <;> simp [UInt32.le_iff_toNat_le] at h <;> omega
      · decide
    simp only [Str.isControl, Bool.or_eq_false_iff, Bool.and_eq_false_iff, decide_eq_false_iff_not]
    omega

/-- Identifier characters are read one after the other. -/
theorem readPlain_identifier (h : ∀ c ∈ s, isPlain false c = true) (segments : List Str) (current : Str)
    (quoted : Bool) (offset : ℕ) (rest : Str) :
    ∃ offset', readPlain segments current false quoted offset (s ++ rest) =
      readPlain segments (current ++ s) false quoted offset' rest := by
  induction s generalizing current offset with
  | nil => exact ⟨offset, by rw [append_nil, nil_append]⟩
  | cons c s ih =>
    obtain ⟨htick, hdot, hc⟩ := ne_of_isPlain (h c mem_cons_self)
    obtain ⟨offset', hread⟩ := ih (fun d hd => h d (mem_cons_of_mem _ hd)) (current ++ [c])
      (offset + c.utf8Size)
    refine ⟨offset', ?_⟩
    rw [cons_append, readPlain, if_neg htick, if_neg hdot, if_neg (by rw [hc]; nofun),
      if_pos (h c mem_cons_self), hread, append_assoc, singleton_append]

/-- Escaped characters are read back up to the closing quote. -/
theorem readQuoted_escaped (s : Str) (segments : List Str) (current : Str) (opened offset : ℕ) (rest : Str) :
    ∃ offset', readQuoted segments current opened offset
        ((s.flatMap fun c => if c == backtick || c == backslash then [backslash, c] else [c]) ++
          backtick :: rest) = readQuoted segments (current ++ s) opened offset' (backtick :: rest) := by
  induction s generalizing current offset with
  | nil => exact ⟨offset, by rw [append_nil, flatMap_nil, nil_append]⟩
  | cons c s ih =>
    rw [flatMap_cons, append_assoc]
    by_cases hc : c = backtick ∨ c = backslash
    · obtain ⟨offset', hread⟩ := ih (current ++ [c]) (offset + 2)
      refine ⟨offset', ?_⟩
      rw [if_pos (by simpa using hc), cons_append, cons_append, nil_append, readQuoted,
        if_pos rfl, if_pos hc, hread, append_assoc, singleton_append]
    · obtain ⟨offset', hread⟩ := ih (current ++ [c]) (offset + c.utf8Size)
      refine ⟨offset', ?_⟩
      push Not at hc
      rw [if_neg (by simpa using hc), singleton_append, readQuoted.eq_def]
      dsimp only
      rw [if_neg hc.2, if_neg hc.1, hread, append_assoc, singleton_append]

/-- A segment in its canonical form is read as that segment, when a dot or the end follows. -/
theorem readPlain_canonicalSegment (hs : s ≠ []) (segments : List Str) (offset : ℕ) (rest : Str)
    (hrest : rest.head?.all (· = '.') = true) :
    ∃ quoted offset', readPlain segments [] true false offset (canonicalSegment s ++ rest) =
      readPlain segments s false quoted offset' rest := by
  unfold canonicalSegment
  split_ifs with hsimple
  · cases s with
    | nil => exact absurd rfl hs
    | cons c =>
      rw [isSimple, Bool.and_eq_true, all_eq_true] at hsimple
      have hc : isPlain true c = true := hsimple.1
      obtain ⟨htick, hdot, hcontrol⟩ := ne_of_isPlain hc
      obtain ⟨offset', hread⟩ := readPlain_identifier hsimple.2 segments [c] false
        (offset + c.utf8Size) rest
      refine ⟨false, offset', ?_⟩
      rw [cons_append, readPlain, if_neg htick, if_neg hdot, if_neg (by rw [hcontrol]; nofun),
        if_pos hc, nil_append, hread, singleton_append]
  · obtain ⟨offset', hread⟩ := readQuoted_escaped s segments [] offset (offset + 1) rest
    refine ⟨true, offset' + 1, ?_⟩
    rw [quote, append_assoc, cons_append, readPlain, if_pos rfl, if_pos rfl,
      singleton_append, hread, nil_append, readQuoted.eq_def]
    dsimp only
    rw [if_neg (by decide), if_pos rfl, if_pos hrest]

/-- The canonical forms of segments, joined by dots, are read as the segments. -/
theorem readPlain_canonical {ss : List Str} (h : ∀ t ∈ s :: ss, t ≠ []) (segments : List Str) (offset : ℕ) :
    readPlain segments [] true false offset (['.'].intercalate ((s :: ss).map canonicalSegment)) =
      .ok (segments ++ s :: ss) := by
  induction ss generalizing s segments offset with
  | nil =>
    have hs := h s mem_cons_self
    obtain ⟨quoted, offset', hread⟩ := readPlain_canonicalSegment hs segments offset [] rfl
    rw [append_nil] at hread
    rw [map_cons, map_nil, intercalate_singleton, hread, readPlain, if_neg (by simp [hs])]
  | cons t ss ih =>
    have hs := h s mem_cons_self
    have htail := ih fun u hu => h u (mem_cons_of_mem _ hu)
    have hmore : (['.'].intercalate ((t :: ss).map canonicalSegment)).isEmpty ≠ true := by
      intro hnil
      have hread := htail segments offset
      rw [isEmpty_iff.1 hnil] at hread
      cases hread
    obtain ⟨quoted, offset', hread⟩ := readPlain_canonicalSegment hs segments offset
      ('.' :: ['.'].intercalate ((t :: ss).map canonicalSegment)) rfl
    have hjoin : ['.'].intercalate ((s :: t :: ss).map canonicalSegment) =
        canonicalSegment s ++ '.' :: ['.'].intercalate ((t :: ss).map canonicalSegment) := by
      rw [map_cons, map_cons, intercalate_cons_cons, append_assoc, singleton_append]
    rw [hjoin, hread, readPlain, if_neg (by decide), if_pos rfl, if_neg (by simp [hs]), if_neg hmore,
      htail, append_assoc, singleton_append]

theorem readPlain_canonical_path (h : ∀ s ∈ p.segments, s ≠ []) :
    readPlain [] [] true false 0 p.canonical = .ok p.segments := by
  obtain ⟨_ | ⟨s, ss⟩, hne⟩ := p
  · exact absurd rfl hne
  · exact readPlain_canonical h [] 0

/-- Parsing the canonical form of a valid path gives the path back. -/
theorem parseChecked_canonical (h : checked p.segments allowReserved = .ok p) :
    parseChecked p.canonical allowReserved = .ok p := by
  have hread := readPlain_canonical_path (checked_eq_ok h).2
  unfold parseChecked
  rw [if_neg, hread]
  · exact h
  · intro hnil
    rw [isEmpty_iff.1 hnil] at hread
    cases hread

/-- Field paths round-trip through their canonical form, which tells paths apart, also those with
reserved segments. -/
theorem canonical_roundTrip :
    (∀ segments p, fromSegments segments = .ok p → parse p.canonical = .ok p) ∧
    (∀ input p, parse input = .ok p → ∃ q, parse p.canonical = .ok q ∧ q.segments = p.segments) ∧
    ∀ segments segments' allow allow' p p', checked segments allow = .ok p →
      checked segments' allow' = .ok p' → p ≠ p' → p.canonical ≠ p'.canonical := by
  have hback : ∀ segments p, fromSegments segments = .ok p → parse p.canonical = .ok p :=
    fun segments p h => parseChecked_canonical ((checked_eq_ok h).1 ▸ h)
  refine ⟨hback, fun input p h => ⟨p, ?_, rfl⟩, ?_⟩
  · unfold parse parseChecked at h
    split_ifs at h
    obtain ⟨segments, -, h⟩ := bind_eq_ok.1 h
    exact hback segments p h
  · intro segments segments' allow allow' p p' h h' hne heq
    have hread := readPlain_canonical_path ((checked_eq_ok h).1 ▸ (checked_eq_ok h).2)
    rw [heq, readPlain_canonical_path ((checked_eq_ok h').1 ▸ (checked_eq_ok h').2)] at hread
    cases p
    cases p'
    cases hread
    exact hne rfl

/-- A path with a dot in its first segment. -/
theorem canonical_roundTrip_dotted :
    let p : FieldPath := ⟨["a.b".toList, "c".toList], by decide⟩
    fromSegments p.segments = .ok p ∧ parse p.canonical = .ok p :=
  ⟨rfl, canonical_roundTrip.1 ["a.b".toList, "c".toList] _ rfl⟩

end Fireemu.FieldPath
