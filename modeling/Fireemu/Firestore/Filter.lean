import Fireemu.Firestore.Document
import Fireemu.Firestore.Query
import Fireemu.Firestore.ValueOrder

/-!
# Filters

Whether a filter accepts a document.
-/

namespace Fireemu

open Library (linCmp Coherent)

/-- A queried field: a stored value or the name of the document. -/
inductive FieldRef
  | stored (value : Value)
  | name (path : DocumentPath)

namespace FieldRef

/-- Kind used for type ordering. -/
def kind : FieldRef → ValueKind
  | .stored v => v.kind
  | .name _ => .reference

/-- Whether the value is null. -/
def isNull : FieldRef → Bool
  | .stored .null => true
  | _ => false

/-- Whether a value is NaN. -/
def isNanValue : Value → Bool
  | .double d => d.isNan
  | _ => false

/-- Whether the field is NaN. -/
def isNan : FieldRef → Bool
  | .stored v => isNanValue v
  | .name _ => false

/-- Comparison with a query operand. -/
def cmpValue (field : FieldRef) (other : Value) : Ordering :=
  match field, other with
  | .stored v, other => v.canonicalCmp other
  | .name p, .reference text => p.cmpReference text
  | .name _, other => ValueKind.reference.cmp other.kind

end FieldRef

/-- A field of a document. -/
def fieldValue (doc : Document) (path : FieldPath) : Option FieldRef :=
  if path.isDocumentName then some (.name doc.path)
  else (getField doc.fields path).map .stored

/-! ### Filters -/

/-- Whether a field and an operand are of one type; numbers and NaN are. -/
def sameTypeAs (a : FieldRef) (b : Value) : Bool :=
  let number := fun k : ValueKind => k == .number || k == .nan
  a.kind == b.kind || (number a.kind && number b.kind)

/-- Equality of values; NaN equals nothing. -/
def valueEqual (a b : Value) : Bool :=
  if FieldRef.isNanValue a || FieldRef.isNanValue b then false else a.canonicalCmp b == .eq

/-- Equality of a field and an operand; NaN equals nothing. -/
def equalRef (a : FieldRef) (b : Value) : Bool :=
  if a.isNan || FieldRef.isNanValue b then false else a.cmpValue b == .eq

/-- Whether a value is null. -/
def Value.isNull : Value → Bool
  | .null => true
  | _ => false

/-- The items of an array field. -/
def FieldRef.items : FieldRef → Option (List Value)
  | .stored (.array items) => some items
  | _ => none

/-- The candidates of an array operand. -/
def Value.candidates : Value → Option (List Value)
  | .array items => some items
  | _ => none

/-- A range comparison: both sides of one type, neither NaN. -/
def rangeMatches (v : FieldRef) (value : Value) (accept : Ordering → Bool) : Bool :=
  if !sameTypeAs v value || v.isNan || FieldRef.isNanValue value then false
  else accept (v.cmpValue value)

/-- Whether a field compares with an operand; a null operand matches nothing. -/
def fieldMatches (v : FieldRef) (op : FieldOp) (value : Value) : Bool :=
  if value.isNull then false
  else match op with
    | .equal => equalRef v value
    | .notEqual => !equalRef v value && !v.isNull
    | .lessThan => rangeMatches v value fun ord => ord == .lt
    | .lessThanOrEqual => rangeMatches v value fun ord => ord != .gt
    | .greaterThan => rangeMatches v value fun ord => ord == .gt
    | .greaterThanOrEqual => rangeMatches v value fun ord => ord != .lt
    | .arrayContains => (v.items.map fun items => items.any fun i => valueEqual i value).getD false
    | .in =>
        (value.candidates.map fun cs => cs.any fun c => !c.isNull && equalRef v c).getD false
    | .notIn =>
        (value.candidates.map fun cs => !cs.any fun c => equalRef v c || c.isNull).getD false &&
          !v.isNull
    | .arrayContainsAny =>
        match v.items, value.candidates with
        | some items, some cs => items.any fun i => cs.any fun c => !c.isNull && valueEqual i c
        | _, _ => false

/-- Whether a field passes a unary test. -/
def unaryMatches (v : Option FieldRef) (op : UnaryOp) : Bool :=
  match v with
  | none => false
  | some x =>
      match op with
      | .isNull => x.isNull
      | .isNotNull => !x.isNull
      | .isNan => x.isNan
      | .isNotNan => !x.isNan && !x.isNull

mutual

/-- Whether a filter accepts a document. -/
def evalFilter (doc : Document) : FilterExpr → Bool
  | .and children => evalAll doc children
  | .or children => evalAny doc children
  | .unary field op => unaryMatches (fieldValue doc field) op
  | .field field op value =>
      match fieldValue doc field with
      | none => false
      | some v => fieldMatches v op value

/-- Whether all filters accept a document. -/
def evalAll (doc : Document) : List FilterExpr → Bool
  | [] => true
  | child :: children => evalFilter doc child && evalAll doc children

/-- Whether some filter accepts a document. -/
def evalAny (doc : Document) : List FilterExpr → Bool
  | [] => false
  | child :: children => evalFilter doc child || evalAny doc children

end

end Fireemu
