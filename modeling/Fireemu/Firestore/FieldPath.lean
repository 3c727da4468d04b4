import Fireemu.Types.Ids

/-!
# Field paths

A field path is a non-empty list of segments.  `checked` is the validator every constructor goes
through; `canonical` renders the dotted form with backtick quoting of segments that are not simple
identifiers.
-/

namespace Fireemu

/-- Maximum UTF-8 bytes of a single field name. -/
def maxFieldNameBytes : ℕ := maxIdUtf8Bytes

/-- Maximum UTF-8 bytes of a field path: its segments and the dots between them. -/
def maxFieldPathBytes : ℕ := 1500

/-- Field path validation errors. -/
inductive FieldPathError
  | empty
  | emptySegment (index : ℕ)
  | unterminatedQuote (offset : ℕ)
  | unquotedSpecialCharacter (offset : ℕ)
  | controlCharacter (offset : ℕ)
  | reservedSegment (index : ℕ)
  | segmentTooLong (index bytes maximum : ℕ)
  | pathTooLong (bytes maximum : ℕ)
  deriving DecidableEq, Repr

/-- The text of an error. -/
def FieldPathError.display : FieldPathError → String
  | .empty => "field path is empty"
  | .emptySegment index => s!"field path segment {index} is empty"
  | .unterminatedQuote offset => s!"unterminated backtick quote at byte {offset}"
  | .unquotedSpecialCharacter offset => s!"character at byte {offset} must be backtick-quoted"
  | .controlCharacter offset => s!"control character at byte {offset}"
  | .reservedSegment index => s!"segment {index} matches the reserved pattern __.*__"
  | .segmentTooLong index bytes maximum =>
      s!"segment {index} is {bytes} bytes, maximum is {maximum}"
  | .pathTooLong bytes maximum => s!"field path is {bytes} bytes, maximum is {maximum}"

/-- The query pseudo-field of the document name. -/
def documentNameSegment : Str := "__name__".toList

/-- A field path. -/
structure FieldPath where
  segments : List Str
  ne_nil : segments ≠ []
  deriving DecidableEq

namespace FieldPath

instance : LinearOrder FieldPath :=
  LinearOrder.lift' segments fun a b h => by
    cases a
    cases b
    simpa using h

/-- The reserved `__name__` field path. -/
def documentName : FieldPath := ⟨[documentNameSegment], List.cons_ne_nil _ _⟩

/-- Whether this is `__name__`. -/
def isDocumentName (p : FieldPath) : Bool := p.segments == [documentNameSegment]

/-- Checks the segments in order, `index` segments into the path. -/
def checkSegments (allowReserved : Bool) : ℕ → List Str → Except FieldPathError Unit
  | _, [] => .ok ()
  | index, s :: segments =>
      if s.isEmpty then .error (.emptySegment index)
      else match s.findOffset Str.isControl with
        | some offset => .error (.controlCharacter offset)
        | none =>
          if s.utf8Len > maxFieldNameBytes then
            .error (.segmentTooLong index s.utf8Len maxFieldNameBytes)
          else if isReservedDunder s && s != documentNameSegment && !allowReserved then
            .error (.reservedSegment index)
          else checkSegments allowReserved (index + 1) segments

/-- Builds a path from raw segments, validating each one. -/
def checked (segments : List Str) (allowReserved : Bool) : Except FieldPathError FieldPath :=
  if h : segments = [] then .error .empty
  else do
    checkSegments allowReserved 0 segments
    let canonicalLen := segments.length - 1 + (segments.map Str.utf8Len).sum
    if canonicalLen > maxFieldPathBytes then
      .error (.pathTooLong canonicalLen maxFieldPathBytes)
    else return ⟨segments, h⟩

/-- Builds a path from raw segments; only `__name__` may match the reserved pattern. -/
def fromSegments (segments : List Str) : Except FieldPathError FieldPath := checked segments false

/-- A simple identifier `[A-Za-z_][A-Za-z0-9_]*`, which needs no quoting. -/
def isSimple : Str → Bool
  | [] => false
  | c :: s => (c.isAlpha || c == '_') && s.all fun c => c.isAlphanum || c == '_'

/-- The backtick character. -/
def backtick : Char := Char.ofNat 96

/-- The backslash character. -/
def backslash : Char := Char.ofNat 92

/-- A segment in backticks, with backticks and backslashes escaped. -/
def quote (segment : Str) : Str :=
  backtick :: (segment.flatMap fun c =>
    if c == backtick || c == backslash then [backslash, c] else [c]) ++ [backtick]

/-- Canonical form of one segment. -/
def canonicalSegment (s : Str) : Str := if isSimple s then s else quote s

/-- Canonical dotted representation. -/
def canonical (p : FieldPath) : Str := ['.'].intercalate (p.segments.map canonicalSegment)

end FieldPath

/-- A field error truncated to 400 UTF-8 bytes. -/
def impliedPathTooLongMessage (path : Str) : Str :=
  go "Property ".toList path
where
  go (message : Str) : Str → Str
    | [] => message
    | c :: rest =>
        if message.utf8Len + c.utf8Size > 400 then message else go (message ++ [c]) rest

end Fireemu
