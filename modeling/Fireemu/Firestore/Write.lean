import Fireemu.Firestore.Document
import Fireemu.Firestore.ValueOrder

/-!
# Writes

A write sets, deletes or verifies one document, guarded by a precondition and followed by field
transforms.  `applyWrite` computes the document a write leaves from the document before it; it does
not look at anything else of the store.
-/

namespace Fireemu

open Library (Binary64)

/-- What must hold of the document before a write. -/
inductive Precondition
  | exists (present : Bool)
  | updateTime (t : LogicalInstant)
  deriving DecidableEq

/-- Kinds of field transforms. -/
inductive TransformKind
  | serverTimestamp
  | increment (delta : Value)
  | maximum (operand : Value)
  | minimum (operand : Value)
  | appendMissingElements (items : List Value)
  | removeAllFromArray (items : List Value)

/-- A field transform. -/
structure FieldTransform where
  field : FieldPath
  kind : TransformKind

/-- The operation of a write. -/
inductive WriteOp
  /-- Writes the fields, or only those an update mask names. -/
  | set (path : DocumentPath) (fields : Fields) (updateMask : Option (List FieldPath))
  | delete (path : DocumentPath)
  /-- Only checks the precondition. -/
  | verify (path : DocumentPath)

/-- The document a write is about. -/
def WriteOp.path : WriteOp → DocumentPath
  | .set path _ _ => path
  | .delete path => path
  | .verify path => path

/-- A write. -/
structure Write where
  op : WriteOp
  precondition : Option Precondition
  transforms : List FieldTransform

/-- The result of one write. -/
structure WriteResult where
  updateTime : Option LogicalInstant
  transformResults : List Value

/-! ### Preconditions -/

/-- Checks a precondition against the current document. -/
def checkPrecondition (precondition : Option Precondition) (current : Option Document)
    (path : DocumentPath) : Except FirestoreError Unit :=
  match precondition, current with
  | some (.exists true), none => .error (.notFound path)
  | some (.exists false), some _ => .error (.alreadyExists path)
  | none, _ => .ok ()
  | some (.exists _), _ => .ok ()
  | some (.updateTime t), some doc =>
      if doc.updateTime = t then .ok () else .error (updateTimeFailed path)
  | some (.updateTime _), none => .error (updateTimeFailed path)
where
  updateTimeFailed (path : DocumentPath) : FirestoreError :=
    let name := String.ofList path.resourceName
    .failedPrecondition s!"update time precondition failed for {name}"

/-! ### Transforms -/

/-- Integers and doubles. -/
def isNumber : Value → Bool
  | .integer _ => true
  | .double _ => true
  | _ => false

/-- Sum of two numbers; an integer sum saturates. -/
def addNumbers : Value → Value → Value
  | .integer x, .integer y => .integer (I64.saturate (x.1 + y.1))
  | .integer x, .double y => .double ((Binary64.ofInt x.1).add y)
  | .double y, .integer x => .double ((Binary64.ofInt x.1).add y)
  | .double x, .double y => .double (x.add y)
  | _, other => other

/-- The commit time as a timestamp with microsecond precision. -/
def serverTimestamp (now : LogicalInstant) : Except FirestoreError Value :=
  let micros := now / 1000
  match Timestamp.new (micros / 1000000) (micros % 1000000 * 1000).toNat with
  | some t => .ok (.timestamp t)
  | none => .error (.invalidArgument "commit time out of range")

/-- The larger or the smaller of the current value and an operand. -/
def maximumOrMinimum (wantMax : Bool) (operand : Value) : Option Value → Value
  | some current =>
      if isNumber current then
        if current.kind = .nan then current
        else if operand.kind = .nan then operand
        else
          let ord := current.canonicalCmp operand
          if (wantMax && ord == .lt) || (!wantMax && ord == .gt) then operand else current
      else operand
  | none => operand

/-- The items of an array value, none for any other value. -/
def arrayItems : Option Value → List Value
  | some (.array items) => items
  | _ => []

/-- Appends an item unless an equal one is there. -/
def appendMissing (items : List Value) (item : Value) : List Value :=
  if items.any fun x => x.canonicalCmp item == .eq then items else items ++ [item]

/-- The value a transform produces from the current value of its field. -/
def transformValue (kind : TransformKind) (now : LogicalInstant) (current : Option Value) :
    Except FirestoreError Value :=
  match kind with
  | .serverTimestamp => serverTimestamp now
  | .increment delta =>
      if !isNumber delta then .error (.invalidArgument "Input must be a number.")
      else match current with
        | some c => .ok (if isNumber c then addNumbers c delta else delta)
        | none => .ok delta
  | .maximum operand =>
      if !isNumber operand then
        .error (.invalidArgument "maximum / minimum operand must be numeric")
      else .ok (maximumOrMinimum true operand current)
  | .minimum operand =>
      if !isNumber operand then
        .error (.invalidArgument "maximum / minimum operand must be numeric")
      else .ok (maximumOrMinimum false operand current)
  | .appendMissingElements items =>
      .ok (.array ((items.map Value.normalizeForStorage).foldl appendMissing (arrayItems current)))
  | .removeAllFromArray items =>
      let removed := items.map Value.normalizeForStorage
      .ok (.array ((arrayItems current).filter fun x =>
        !removed.any fun i => i.canonicalCmp x == .eq))

/-- What a transform reports: array transforms do not echo the stored array. -/
def transformReport (kind : TransformKind) (produced : Value) : Value :=
  match kind with
  | .appendMissingElements _ => .null
  | .removeAllFromArray _ => .null
  | _ => produced

/-- Applies a transform to the fields of a document. -/
def applyTransform (fields : Fields) (t : FieldTransform) (now : LogicalInstant) :
    Except FirestoreError (Fields × Value) := do
  let produced ← transformValue t.kind now (getField fields t.field)
  return (setField fields t.field produced, transformReport t.kind produced)

/-- Applies transforms in order, collecting what they report. -/
def applyTransforms (fields : Fields) (now : LogicalInstant) :
    List FieldTransform → Except FirestoreError (Fields × List Value)
  | [] => .ok (fields, [])
  | t :: transforms => do
      let (fields, produced) ← applyTransform fields t now
      let (fields, results) ← applyTransforms fields now transforms
      return (fields, produced :: results)

/-! ### Application -/

/-- The fields a set leaves before its transforms: all of them, or the current ones with those an
update mask names replaced or removed. -/
def maskedFields (fields : Fields) (updateMask : Option (List FieldPath))
    (current : Option Document) : Fields :=
  match updateMask with
  | none => fields
  | some mask =>
      mask.foldl (fun base p =>
          match getField fields p with
          | some v => setField base p v
          | none => deleteField base p)
        ((current.map Document.fields).getD [])

/-- The document a write leaves, and what it reports.  The precondition is the caller's. -/
def applyWrite (write : Write) (current : Option Document) (now : LogicalInstant)
    (version : CommitVersion) : Except FirestoreError (Option Document × WriteResult) :=
  match write.op with
  | .verify _ =>
      if !write.transforms.isEmpty then .error (.invalidArgument "transforms on a verify")
      else .ok (current, ⟨none, []⟩)
  | .delete _ =>
      if !write.transforms.isEmpty then
        .error (.invalidArgument "a delete must not specify a update transform.")
      else .ok (none, ⟨none, []⟩)
  | .set path fields updateMask => do
      let createTime := (current.map Document.createTime).getD now
      let nextFields := Value.normalizeFieldsForStorage (maskedFields fields updateMask current)
      let (nextFields, transformResults) ← applyTransforms nextFields now write.transforms
      -- what transforms produce is stored in the same form
      let nextFields := Value.normalizeFieldsForStorage nextFields
      return (some ⟨path, nextFields, createTime, now, version⟩, ⟨some now, transformResults⟩)

end Fireemu
