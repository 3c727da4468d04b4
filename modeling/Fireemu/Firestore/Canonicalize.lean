import Mathlib.Data.List.Destutter
import Fireemu.Firestore.Query

/-!
# Canonical queries

Canonicalization checks the shape of operands, splices composites into composites of their own
kind, drops empty ones, sorts and removes duplicates among the children, and replaces a composite
of one child by the child; the checks on the whole query follow.  `canonicalizeWith` is told
whether to make the refusals that only production makes.
-/

namespace Fireemu

open Library (linCmp sortBy)

/-- Structural errors found while canonicalizing. -/
inductive QueryError
  | arrayValueRequired (field : FieldPath) (op : FieldOp)
  | nonEmptyArrayRequired (op : FieldOp)
  | duplicateOrderField (field : FieldPath)
  | nameReserved
  | kindRequiredForFilter (field : FieldPath)
  | kindRequiredForOrder
  | emptyComposite
  | multipleNotIn
  | notInWithDisjunction
  | cursorArityMismatch (cursor orderBy : ℕ)
  | multipleNegations
  | orderAfterDocumentName
  | nameFilterValue
  | findNearestQueryVectorEmpty
  | findNearestQueryVector
  | findNearestLimit
  | findNearestDistanceThreshold
  | findNearestDistanceResultField
  deriving DecidableEq

/-- Whether the operator takes an array of candidate values. -/
def FieldOp.takesArray : FieldOp → Bool
  | .in | .arrayContainsAny | .notIn => true
  | _ => false

/-- The place of an operator in the order of operators. -/
def FieldOp.rank : FieldOp → ℕ
  | .equal => 0
  | .notEqual => 1
  | .lessThan => 2
  | .lessThanOrEqual => 3
  | .greaterThan => 4
  | .greaterThanOrEqual => 5
  | .arrayContains => 6
  | .in => 7
  | .arrayContainsAny => 8
  | .notIn => 9

@[inherit_doc FieldOp.rank]
def UnaryOp.rank : UnaryOp → ℕ
  | .isNull => 0
  | .isNan => 1
  | .isNotNull => 2
  | .isNotNan => 3

namespace Value

mutual

/-- Structural equality: an integer is no double, NaN is not NaN, and the two zeros are one. -/
def structEq : Value → Value → Bool
  | .null, .null => true
  | .boolean a, .boolean b => a == b
  | .integer a, .integer b => a == b
  | .double a, .double b => a.eq b
  | .timestamp a, .timestamp b => a == b
  | .string a, .string b => a == b
  | .bytes a, .bytes b => a == b
  | .reference a, .reference b => a == b
  | .geoPoint a, .geoPoint b => a.latitude.eq b.latitude && a.longitude.eq b.longitude
  | .array a, .array b => structItemsEq a b
  | .vector a, .vector b => a.length == b.length && (a.zip b).all fun (x, y) => x.eq y
  | .map a, .map b => structFieldsEq a b
  | _, _ => false

/-- Structural equality of arrays. -/
def structItemsEq : List Value → List Value → Bool
  | [], [] => true
  | x :: a, y :: b => structEq x y && structItemsEq a b
  | _, _ => false

/-- Structural equality of maps. -/
def structFieldsEq : List (Str × Value) → List (Str × Value) → Bool
  | [], [] => true
  | (k, x) :: a, (k', y) :: b => k == k' && structEq x y && structFieldsEq a b
  | _, _ => false

end

end Value

namespace FilterExpr

mutual

/-- Structural equality of filters. -/
def structEq : FilterExpr → FilterExpr → Bool
  | .field path op value, .field path' op' value' =>
      path == path' && op == op' && value.structEq value'
  | .unary path op, .unary path' op' => path == path' && op == op'
  | .and a, .and b => structEqAll a b
  | .or a, .or b => structEqAll a b
  | _, _ => false

@[inherit_doc structEq]
def structEqAll : List FilterExpr → List FilterExpr → Bool
  | [], [] => true
  | x :: a, y :: b => structEq x y && structEqAll a b
  | _, _ => false

end

/-- The place of a kind of filter in the order of filters. -/
def rank : FilterExpr → ℕ
  | .field _ _ _ => 0
  | .unary _ _ => 1
  | .and _ => 2
  | .or _ => 3

mutual

/-- The order the children of a composite are sorted in. -/
def canonicalFilterCmp (a b : FilterExpr) : Ordering :=
  (linCmp a.rank b.rank).then <|
    match a, b with
    | .field path op value, .field path' op' value' =>
        ((linCmp path path').then (linCmp op.rank op'.rank)).then (value.canonicalCmp value')
    | .unary path op, .unary path' op' => (linCmp path path').then (linCmp op.rank op'.rank)
    | .and a, .and b => canonicalChildrenCmp a b
    | .or a, .or b => canonicalChildrenCmp a b
    | _, _ => .eq

/-- Children order by the first different ones, then by their number. -/
def canonicalChildrenCmp : List FilterExpr → List FilterExpr → Ordering
  | [], [] => .eq
  | [], _ :: _ => .lt
  | _ :: _, [] => .gt
  | x :: a, y :: b => (canonicalFilterCmp x y).then (canonicalChildrenCmp a b)

end

/-- A composite filter. -/
def composite (isAnd : Bool) (children : List FilterExpr) : FilterExpr :=
  if isAnd then .and children else .or children

/-- What a canonical child adds to the children of a composite. -/
def spliced (isAnd : Bool) : FilterExpr → List FilterExpr
  | .and inner => if isAnd || inner.isEmpty then inner else [.and inner]
  | .or inner => if !isAnd || inner.isEmpty then inner else [.or inner]
  | .field path op value => [.field path op value]
  | .unary path op => [.unary path op]

/-- Neighbours that may both stay. -/
def Distinct (last next : FilterExpr) : Prop := structEq next last = false

instance : DecidableRel Distinct := fun _ _ => inferInstanceAs (Decidable (_ = false))

/-- The composite of children that are canonical and spliced. -/
def collapse (isAnd : Bool) (flat : List FilterExpr) : FilterExpr :=
  if flat.isEmpty then .and []
  else match (sortBy canonicalFilterCmp flat).destutter Distinct with
    | [child] => child
    | children => composite isAnd children

/-- A field comparison, once the shape of its operand is checked. -/
def canonicalizeField (path : FieldPath) (op : FieldOp) (value : Value) : Except QueryError FilterExpr :=
  if op.takesArray then
    match value with
    | .array (_ :: _) => .ok (.field path op value)
    | .array [] => .error (.nonEmptyArrayRequired op)
    | _ => .error (.arrayValueRequired path op)
  else .ok (.field path op value)

mutual

/-- The canonical form of a filter. -/
def canonicalizeFilter (production : Bool) : FilterExpr → Except QueryError FilterExpr
  | .field path op value => canonicalizeField path op value
  | .unary path op => .ok (.unary path op)
  | .and children => do
      let flat ← canonicalizeChildren production true children
      return collapse true flat
  | .or children =>
      -- production refuses an empty `or`; an empty `and` constrains nothing and is served
      if production && children.isEmpty then .error .emptyComposite
      else do
        let flat ← canonicalizeChildren production false children
        return collapse false flat

/-- The canonical children of a composite, spliced into one list. -/
def canonicalizeChildren (production isAnd : Bool) :
    List FilterExpr → Except QueryError (List FilterExpr)
  | [] => .ok []
  | child :: children => do
      let c ← canonicalizeFilter production child
      let rest ← canonicalizeChildren production isAnd children
      return spliced isAnd c ++ rest

end

/-! ### Checks on a canonical filter -/

mutual

/-- The number of negating filters. -/
def negations : FilterExpr → ℕ
  | .field _ op _ => if op == .notEqual || op == .notIn then 1 else 0
  | .unary _ op => if op == .isNotNan || op == .isNotNull then 1 else 0
  | .and children => negationsAll children
  | .or children => negationsAll children

@[inherit_doc negations]
def negationsAll : List FilterExpr → ℕ
  | [] => 0
  | child :: children => negations child + negationsAll children

end

/-- At most one negating filter in a query. -/
def checkNegationRules (f : FilterExpr) : Except QueryError Unit :=
  if f.negations > 1 then .error .multipleNegations else .ok ()

mutual

/-- Counts the `not-in` filters and notes a disjunction. -/
def walkNotIn : FilterExpr → ℕ × Bool → ℕ × Bool
  | .field _ op _, (notIn, disjunctive) =>
      match op with
      | .notIn => (notIn + 1, disjunctive)
      | .in | .arrayContainsAny => (notIn, true)
      | _ => (notIn, disjunctive)
  | .unary _ _, found => found
  | .or children, (notIn, _) => walkNotInAll children (notIn, true)
  | .and children, found => walkNotInAll children found

@[inherit_doc walkNotIn]
def walkNotInAll : List FilterExpr → ℕ × Bool → ℕ × Bool
  | [], found => found
  | child :: children, found => walkNotInAll children (walkNotIn child found)

end

/-- The rules on combining `not-in`. -/
def checkNotInRules (f : FilterExpr) : Except QueryError Unit :=
  let (notIn, disjunctive) := f.walkNotIn (0, false)
  if notIn > 1 then .error .multipleNotIn
  else if notIn = 1 && disjunctive then .error .notInWithDisjunction
  else .ok ()

/-- Whether a value is a reference. -/
def isReference : Value → Bool
  | .reference _ => true
  | _ => false

mutual

/-- A filter on `__name__` compares with document references only. -/
def checkNameFilters (production : Bool) : FilterExpr → Except QueryError Unit
  | .field path op value =>
      if production && path.isDocumentName && (op == .arrayContains || op == .arrayContainsAny) then
        .error .nameReserved
      else if path.isDocumentName then
        let ok := match value with
          | .reference _ => true
          | .array items => items.all isReference
          | _ => false
        if ok then .ok () else .error .nameFilterValue
      else .ok ()
  | .unary path _ =>
      if production && path.isDocumentName then .error .nameFilterValue else .ok ()
  | .and children => checkNameFiltersAll production children
  | .or children => checkNameFiltersAll production children

@[inherit_doc checkNameFilters]
def checkNameFiltersAll (production : Bool) : List FilterExpr → Except QueryError Unit
  | [] => .ok ()
  | child :: children => do
      checkNameFilters production child
      checkNameFiltersAll production children

end

mutual

/-- The first filtered field that is not `__name__`. -/
def firstNonNameField : FilterExpr → Option FieldPath
  | .field path _ _ => if path.isDocumentName then none else some path
  | .unary path _ => if path.isDocumentName then none else some path
  | .and children => firstNonNameFieldOf children
  | .or children => firstNonNameFieldOf children

@[inherit_doc firstNonNameField]
def firstNonNameFieldOf : List FilterExpr → Option FieldPath
  | [] => none
  | child :: children => firstNonNameField child <|> firstNonNameFieldOf children

end

end FilterExpr

/-- Whether collection names are ignored. -/
def QueryScope.isKindless : QueryScope → Bool
  | .kindlessAllDescendants _ => true
  | .kindlessChildren _ => true
  | _ => false

/-- Checks the nearest-neighbour stage. -/
def FindNearest.validate (findNearest : FindNearest) : Except QueryError Unit :=
  if findNearest.queryVector.isEmpty then .error .findNearestQueryVectorEmpty
  else if findNearest.queryVector.length > 2048 ||
      findNearest.queryVector.any fun component => !component.isFinite then
    .error .findNearestQueryVector
  else if findNearest.limit < 1 || 1000 < findNearest.limit then .error .findNearestLimit
  else if findNearest.distanceThreshold.any fun threshold => !threshold.isFinite then
    .error .findNearestDistanceThreshold
  else if findNearest.distanceResultField.any FieldPath.isDocumentName then
    .error .findNearestDistanceResultField
  else .ok ()

namespace Query

/-- A kindless query filters and orders by `__name__` ascending only. -/
def checkKindlessConstraints (q : Query) : Except QueryError Unit :=
  if !q.scope.isKindless then .ok ()
  else match q.filter.bind FilterExpr.firstNonNameField with
    | some field => .error (.kindRequiredForFilter field)
    | none =>
      if q.orderBy.any fun o => !o.field.isDocumentName || o.direction != .ascending then
        .error .kindRequiredForOrder
      else .ok ()

/-- Refuses a field that occurs twice in an order. -/
def checkDuplicateOrder (seen : List FieldPath) : List OrderClause → Except QueryError Unit
  | [] => .ok ()
  | clause :: order =>
      if seen.contains clause.field then .error (.duplicateOrderField clause.field)
      else checkDuplicateOrder (clause.field :: seen) order

/-- Refuses a cursor with more values than the order takes. -/
def checkCursorArity (arity : ℕ) : Option Cursor → Except QueryError Unit
  | none => .ok ()
  | some cursor =>
      if cursor.values.length > arity then
        .error (.cursorArityMismatch cursor.values.length arity)
      else .ok ()

/-- The filter of a query whose canonical filter is given, once that is checked.  An empty
composite constrains nothing: the query runs unfiltered. -/
def checkedFilter (production : Bool) : FilterExpr → Except QueryError (Option FilterExpr)
  | .and [] => .ok none
  | c => do
      c.checkNegationRules
      c.checkNotInRules
      c.checkNameFilters production
      return some c

/-- The canonical form of an optional filter. -/
def canonicalizeOptional (production : Bool) :
    Option FilterExpr → Except QueryError (Option FilterExpr)
  | none => .ok none
  | some f => do checkedFilter production (← f.canonicalizeFilter production)

/-- The checks on a query whose filter is canonical. -/
def checkCanonical (production : Bool) (q : Query) : Except QueryError Unit := do
  match q.findNearest with
  | some findNearest => findNearest.validate
  | none => pure ()
  if production then
    q.checkKindlessConstraints
    checkDuplicateOrder [] q.orderBy
  let order := q.effectiveOrderBy
  -- `__name__` is unique, so a clause after it could never decide anything
  match order.findIdx? fun o => o.field.isDocumentName with
  | some position =>
      if position + 1 < order.length then throw .orderAfterDocumentName
  | none => pure ()
  -- production positions a cursor against the explicit order only
  let arity := if production then q.orderBy.length else order.length
  checkCursorArity arity q.startAt
  checkCursorArity arity q.endAt

/-- The canonical form of a query, with the refusals of production or of the emulator only. -/
def canonicalizeWith (production : Bool) (q : Query) : Except QueryError Query := do
  let filter ← canonicalizeOptional production q.filter
  let q := { q with filter := filter, productionRefusals := production }
  checkCanonical production q
  return q

end Query

end Fireemu
