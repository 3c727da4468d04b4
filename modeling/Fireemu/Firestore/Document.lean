import Fireemu.Firestore.Fields
import Fireemu.Types.Time

/-!
# Documents and their limits

Documents, the errors of the store, and what every stored document is checked for: field names,
nesting depth, the rules of each value and the storage size.
-/

namespace Fireemu

open Library (Binary64)

/-- Monotonic commit version. -/
abbrev CommitVersion := ℕ

/-- A stored document version. -/
structure Document where
  path : DocumentPath
  fields : Fields
  /-- Creation time, which survives updates. -/
  createTime : LogicalInstant
  updateTime : LogicalInstant
  /-- Commit version that produced this document version. -/
  version : CommitVersion

/-- A document version kept in history with the bytes it is charged for. -/
structure RetainedDocument where
  document : Document
  logicalBytes : ℕ

/-- The profiles the limits are enforced under. -/
inductive LimitScope
  | production
  | officialEmulator
  deriving DecidableEq, Repr

/-! ### Errors -/

/-- The catalog limits checked when documents are written. -/
inductive LimitId
  | documentBytes
  | nestedMapArrayDepth
  | fieldTransformsPerDocument
  deriving DecidableEq, Repr

/-- The inclusive maximum of a limit. -/
def LimitId.maximum : LimitId → ℕ
  | .documentBytes => 1048576
  | .nestedMapArrayDepth => 20
  | .fieldTransformsPerDocument => 500

/-- A limit and the value that exceeds it. -/
structure LimitViolation where
  limitId : LimitId
  current : ℕ
  maximum : ℕ
  deriving DecidableEq, Repr

/-- A history limit a commit would exceed. -/
structure HistoryCapacityError where
  dimension : String
  current : ℕ
  maximum : ℕ
  deriving DecidableEq, Repr

/-- Why a batch of logical events could not be reserved before publication. -/
inductive EventAdmissionError
  | capacity (message : String)
  | unavailable (message : String)
  | invalidEvent (message : String)
  deriving DecidableEq, Repr

/-- Errors of the store. -/
inductive FirestoreError
  | invalidArgument (message : String)
  | failedPrecondition (message : String)
  | alreadyExists (path : DocumentPath)
  | notFound (path : DocumentPath)
  | aborted (message : String)
  | resourceExhausted (violation : LimitViolation)
  | historyCapacity (error : HistoryCapacityError)
  | eventAdmission (error : EventAdmissionError)
  | unimplemented (message : String)
  deriving DecidableEq

/-- A size error as an invalid argument. -/
def SizeError.toFirestoreError (e : SizeError) : FirestoreError := .invalidArgument e.display

/-- Refuses a value over a limit. -/
def checkLimit (id : LimitId) (current : ℕ) : Except FirestoreError Unit :=
  if current > id.maximum then .error (.resourceExhausted ⟨id, current, id.maximum⟩) else .ok ()

/-! ### Validation of stored values -/

/-- A text in double quotes, with quotes, backslashes and control characters escaped. -/
def debugText (s : Str) : String :=
  let quote := Char.ofNat 34
  let hex := fun c : Char => (Nat.toDigits 16 c.toNat)
  let escape := fun c : Char =>
    if c == quote || c == FieldPath.backslash then [FieldPath.backslash, c]
    else if c == '\n' then [FieldPath.backslash, 'n']
    else if c == '\r' then [FieldPath.backslash, 'r']
    else if c == '\t' then [FieldPath.backslash, 't']
    else if c.toNat == 0 then [FieldPath.backslash, '0']
    else if Str.isControl c then
      [FieldPath.backslash, 'u', Char.ofNat 123] ++ hex c ++ [Char.ofNat 125]
    else [c]
  String.ofList (quote :: (s.flatMap escape ++ [quote]))

/-- Checks the name of a stored field; `__name__` is a query pseudo-field, never a stored one. -/
def validateStoredFieldName (name : Str) : Except FirestoreError Unit :=
  if name = documentNameSegment then
    let text := String.ofList name
    .error (.invalidArgument s!"field name '{text}' is reserved.")
  else match FieldPath.fromSegments [name] with
    | .ok _ => .ok ()
    | .error e =>
      let text := debugText name
      let message := e.display
      .error (.invalidArgument s!"field name {text}: {message}")

/-- The names of nested maps above a value, from the top-level property down. -/
structure PropertyPath where
  top : Str
  nested : List Str
  /-- Canonical path bytes: the raw names and a dot between each two. -/
  bytes : ℕ

namespace PropertyPath

/-- The path of a top-level property. -/
def root (name : Str) : PropertyPath := ⟨name, [], name.utf8Len⟩

/-- The path of an entry of the map at this path. -/
def child (p : PropertyPath) (name : Str) : PropertyPath :=
  ⟨p.top, p.nested ++ [name], p.bytes + 1 + name.utf8Len⟩

/-- The dotted canonical form. -/
def canonical (p : PropertyPath) : Str :=
  ['.'].intercalate ((p.top :: p.nested).map FieldPath.canonicalSegment)

end PropertyPath

/-- Maximum string or bytes payload of a field. -/
def maxFieldPayloadBytes : ℕ := 1048487

/-- Most dimensions of a stored vector. -/
def maxVectorDimensions : ℕ := 2048

/-- The refusal of a violation inside a nested value, which names the top-level property. -/
def invalidNestedEntity (path : PropertyPath) : FirestoreError :=
  let top := String.ofList path.top
  .invalidArgument s!"Property {top} contains an invalid nested entity."

/-- The refusal of a field value over the payload limit. -/
def fieldValueTooLong (path : PropertyPath) : FirestoreError :=
  if path.nested ≠ [] then invalidNestedEntity path
  else
    let name := String.ofList path.canonical
    .invalidArgument
      s!"The value of property \"{name}\" is longer than {maxFieldPayloadBytes} bytes."

/-- The dimension count is checked before the components. -/
def validateVector (dimensions : List Binary64) : Except FirestoreError Unit :=
  if dimensions.isEmpty then .error (.invalidArgument "Cannot have a zero length vector.")
  else if dimensions.length > maxVectorDimensions then
    .error (.invalidArgument "Vectors must be at most 2048 dimensions.")
  else if dimensions.any Binary64.isNan then
    .error (.invalidArgument "Vector cannot contain NaN values.")
  else .ok ()

/-- A reference names a document: a namespace and an even number of non-empty segments. -/
def validateReference (name : Str) : Except FirestoreError Unit :=
  let text := debugText name
  match name.splitOn '/' with
  | projects :: project :: databases :: database :: documents :: relative =>
      if relative.length < 2 || projects != "projects".toList || databases != "databases".toList ||
          documents != "documents".toList || project.isEmpty || database.isEmpty then
        .error (malformed text)
      else if relative.length % 2 ≠ 0 || relative.any List.isEmpty then
        let index := name.utf8Len
        .error (.invalidArgument s!"Document parent name {text} lacks \"/\" at index {index}.")
      else .ok ()
  | _ => .error (malformed text)
where
  malformed (text : String) : FirestoreError := .invalidArgument
    s!"Document name {text} is not a document path: projects/\x7bproject\x7d/databases/\x7bdatabase\x7d/documents/\x7bcollection\x7d/\x7bdocument\x7d..."

/-- Payload bytes of a string or bytes value. -/
def payloadBytes : Value → ℕ
  | .string s => s.utf8Len
  | .bytes b => b.length
  | _ => 0

mutual

/-- The value rules every stored value obeys; gives the size of the value. -/
def validateValue (scope : LimitScope) (insideArray : Bool) (path : PropertyPath) (value : Value) :
    Except FirestoreError ℕ :=
  if payloadBytes value > maxFieldPayloadBytes then .error (fieldValueTooLong path)
  else match value with
    | .array items =>
        if insideArray then .error (.invalidArgument "Nested arrays are not allowed")
        else validateItems scope path 0 items
    | .map entries => validateEntries scope insideArray path 0 entries
    | .reference name => do
        validateReference name
        (referenceSize name).mapError SizeError.toFirestoreError
    | .vector dimensions => do
        validateVector dimensions
        (fieldValueSize (.vector dimensions)).mapError SizeError.toFirestoreError
    | v => (fieldValueSize v).mapError SizeError.toFirestoreError

/-- The rules for the items of an array, on top of a size. -/
def validateItems (scope : LimitScope) (path : PropertyPath) (total : ℕ) :
    List Value → Except FirestoreError ℕ
  | [] => .ok total
  | item :: items => do
      let size ← validateValue scope true path item
      let total ← (addSize total size).mapError SizeError.toFirestoreError
      validateItems scope path total items

/-- The rules for the entries of a map, on top of a size. -/
def validateEntries (scope : LimitScope) (insideArray : Bool) (path : PropertyPath) (total : ℕ) :
    List (Str × Value) → Except FirestoreError ℕ
  | [] => .ok total
  | (name, value) :: entries => do
      if name.isEmpty || name.utf8Len > maxFieldNameBytes then throw (invalidNestedEntity path)
      validateStoredFieldName name
      -- production bounds a direct field of an array-held map below the field-path limit
      if scope = .production && insideArray && name.utf8Len > 1494 then
        throw (.invalidArgument "Property array contains an invalid nested entity.")
      let total ← (do addSize total (← stringSize name)).mapError SizeError.toFirestoreError
      let size ← validateValue scope false (path.child name) value
      let total ← (addSize total size).mapError SizeError.toFirestoreError
      validateEntries scope insideArray path total entries

end

mutual

/-- Bounds every field path a document implies by nesting. -/
def checkStoredFieldPaths (path : PropertyPath) (value : Value) : Except FirestoreError Unit :=
  if path.bytes > maxFieldPathBytes then
    .error (.invalidArgument (String.ofList (impliedPathTooLongMessage path.canonical)))
  else match value with
    | .array items => checkStoredItemPaths path items
    | .map entries => checkStoredEntryPaths path entries
    | _ => .ok ()

/-- The items of an array stand at the path of the array. -/
def checkStoredItemPaths (path : PropertyPath) : List Value → Except FirestoreError Unit
  | [] => .ok ()
  | item :: items => do
      checkStoredFieldPaths path item
      checkStoredItemPaths path items

/-- The entries of a map stand one name below the map. -/
def checkStoredEntryPaths (path : PropertyPath) : List (Str × Value) → Except FirestoreError Unit
  | [] => .ok ()
  | (name, value) :: entries => do
      checkStoredFieldPaths (path.child name) value
      checkStoredEntryPaths path entries

end

/-- Everything a stored document is checked for; gives the size it is charged. -/
def validateDocument (scope : LimitScope) (doc : Document) : Except FirestoreError ℕ := do
  for (name, value) in doc.fields do
    validateStoredFieldName name
    checkLimit .nestedMapArrayDepth value.nestingDepth
  for (name, value) in doc.fields do
    let _ ← validateValue scope false (.root name) value
  let size ← (documentSizeBytes doc.path doc.fields).mapError SizeError.toFirestoreError
  checkLimit .documentBytes size
  if scope = .production then
    for (name, value) in doc.fields do
      checkStoredFieldPaths (.root name) value
  return size

end Fireemu
