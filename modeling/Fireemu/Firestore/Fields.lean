import Fireemu.Firestore.FieldPath
import Fireemu.Firestore.Path
import Fireemu.Firestore.Value
import Fireemu.Types.Machine

/-!
# Field trees

Stored content identity, the stored form of a value, nesting depth, navigation by field path and
the storage-size formulas.  Sizes are checked 64-bit sums: a size that does not fit is an error.
-/

namespace Fireemu

open Library (Binary64 OrdList.get OrdList.insert OrdList.erase)

/-! ### Stored content -/

/-- All NaN are one stored value; other doubles are told apart by their bits. -/
def doubleBitsEq (a b : Binary64) : Bool := (a.isNan && b.isNan) || a == b

namespace Value

mutual

/-- Whether two stored values are the same document content. -/
def storedEq : Value → Value → Bool
  | .null, .null => true
  | .boolean a, .boolean b => a == b
  | .integer a, .integer b => a == b
  | .double a, .double b => doubleBitsEq a b
  | .timestamp a, .timestamp b => a == b
  | .string a, .string b => a == b
  | .bytes a, .bytes b => a == b
  | .reference a, .reference b => a == b
  | .geoPoint a, .geoPoint b => a.latitude.eq b.latitude && a.longitude.eq b.longitude
  | .array a, .array b => storedItemsEq a b
  | .vector a, .vector b => a.length == b.length && (a.zip b).all fun (x, y) => doubleBitsEq x y
  | .map a, .map b => storedFieldsEq a b
  | _, _ => false

/-- `storedEq` over two arrays. -/
def storedItemsEq : List Value → List Value → Bool
  | [], [] => true
  | x :: a, y :: b => storedEq x y && storedItemsEq a b
  | _, _ => false

/-- `storedEq` over whole field trees. -/
def storedFieldsEq : List (Str × Value) → List (Str × Value) → Bool
  | [], [] => true
  | (k, x) :: a, (k', y) :: b => k == k' && storedEq x y && storedFieldsEq a b
  | _, _ => false

end

mutual

/-- The form a value is stored in: timestamps lose their precision below one microsecond. -/
def normalizeForStorage : Value → Value
  | .timestamp t => .timestamp t.truncatedToMicros
  | .array items => .array (normalizeItems items)
  | .map entries => .map (normalizeFieldsForStorage entries)
  | v => v

/-- `normalizeForStorage` over an array. -/
def normalizeItems : List Value → List Value
  | [] => []
  | v :: items => normalizeForStorage v :: normalizeItems items

/-- `normalizeForStorage` over a whole field tree. -/
def normalizeFieldsForStorage : List (Str × Value) → List (Str × Value)
  | [] => []
  | (k, v) :: entries => (k, normalizeForStorage v) :: normalizeFieldsForStorage entries

end

mutual

/-- Nesting depth: each map or array level adds one. -/
def nestingDepth : Value → ℕ
  | .array items => 1 + itemsDepth items
  | .map entries => 1 + entriesDepth entries
  | _ => 0

/-- The largest nesting depth of an array's items. -/
def itemsDepth : List Value → ℕ
  | [] => 0
  | v :: items => max (nestingDepth v) (itemsDepth items)

/-- The largest nesting depth of a map's values. -/
def entriesDepth : List (Str × Value) → ℕ
  | [] => 0
  | (_, v) :: entries => max (nestingDepth v) (entriesDepth entries)

end

end Value

/-! ### Navigation -/

/-- Follows segments down nested maps. -/
def getSegments (fields : Fields) : List Str → Option Value
  | [] => none
  | [s] => OrdList.get s fields
  | s :: segments =>
      match OrdList.get s fields with
      | some (.map entries) => getSegments entries segments
      | _ => none

/-- Stores a value at the end of segments, making maps of what is in the way. -/
def setSegments (fields : Fields) (value : Value) : List Str → Fields
  | [] => fields
  | [s] => OrdList.insert s value fields
  | s :: segments =>
      let entries := match OrdList.get s fields with
        | some (.map entries) => entries
        | _ => []
      OrdList.insert s (.map (setSegments entries value segments)) fields

/-- Removes what is at the end of segments. -/
def deleteSegments (fields : Fields) : List Str → Fields
  | [] => fields
  | [s] => OrdList.erase s fields
  | s :: segments =>
      match OrdList.get s fields with
      | some (.map entries) => OrdList.insert s (.map (deleteSegments entries segments)) fields
      | _ => fields

/-- Navigates a field path. -/
def getField (fields : Fields) (path : FieldPath) : Option Value := getSegments fields path.segments

/-- Stores a value at a field path. -/
def setField (fields : Fields) (path : FieldPath) (value : Value) : Fields :=
  setSegments fields value path.segments

/-- Removes the value at a field path. -/
def deleteField (fields : Fields) (path : FieldPath) : Fields := deleteSegments fields path.segments

/-! ### Storage size -/

/-- Size calculation errors. -/
inductive SizeError
  | overflow
  deriving DecidableEq, Repr

/-- The text of an error. -/
def SizeError.display : SizeError → String
  | .overflow => "size calculation overflow"

/-- Checked sum. -/
def addSize (a b : ℕ) : Except SizeError ℕ := if a + b ≤ u64Max then .ok (a + b) else .error .overflow

/-- A text is charged its bytes and one. -/
def stringSize (s : Str) : Except SizeError ℕ := addSize s.utf8Len 1

/-- Charges a list of texts on top of a total. -/
def addStrings (total : ℕ) : List Str → Except SizeError ℕ
  | [] => .ok total
  | s :: segments => do addStrings (← addSize total (← stringSize s)) segments

/-- Size of a document name: its segments and 16 bytes. -/
def documentNameSize (path : DocumentPath) : Except SizeError ℕ :=
  addStrings 16 (pairSegments path.pairs)

/-- Size of a reference value: the segments after `documents/` and 16 bytes. -/
def referenceSize (resourceName : Str) : Except SizeError ℕ :=
  let relative := (do
    let rest ← Str.stripBeginning DocumentPath.projectsText resourceName
    let (_, rest) ← Str.splitOnce DocumentPath.databasesText rest
    let (_, rest) ← Str.splitOnce DocumentPath.documentsText rest
    return rest).getD resourceName
  addStrings 16 (relative.splitOn '/')

mutual

/-- Size of a field value. -/
def fieldValueSize : Value → Except SizeError ℕ
  | .null => .ok 1
  | .boolean _ => .ok 1
  | .integer _ => .ok 8
  | .double _ => .ok 8
  | .timestamp _ => .ok 8
  | .geoPoint _ => .ok 16
  | .string s => stringSize s
  | .bytes b => .ok b.length
  | .reference name => referenceSize name
  | .array items => itemsSize 0 items
  | .vector components =>
      if components.length * 8 ≤ u64Max then .ok (components.length * 8) else .error .overflow
  | .map entries => fieldsSize 0 entries

/-- Size of an array's items on top of a total. -/
def itemsSize (total : ℕ) : List Value → Except SizeError ℕ
  | [] => .ok total
  | v :: items => do itemsSize (← addSize total (← fieldValueSize v)) items

/-- Size of a field tree on top of a total. -/
def fieldsSize (total : ℕ) : List (Str × Value) → Except SizeError ℕ
  | [] => .ok total
  | (k, v) :: entries => do
      let total ← addSize total (← stringSize k)
      fieldsSize (← addSize total (← fieldValueSize v)) entries

end

/-- Size of a document: name, fields and 32 bytes. -/
def documentSizeBytes (path : DocumentPath) (fields : Fields) : Except SizeError ℕ := do
  addSize (← addSize (← documentNameSize path) 32) (← fieldsSize 0 fields)

end Fireemu
