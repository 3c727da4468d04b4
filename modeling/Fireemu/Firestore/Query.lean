import Fireemu.Firestore.Path
import Fireemu.Firestore.FieldPath
import Fireemu.Firestore.Value

/-!
# Queries

The query syntax: scope, filter, explicit order, cursors, offset, limit, projection and the
nearest-neighbour stage; which paths a scope contains, and the order a query is executed in, which
always ends up naming the document.
-/

namespace Fireemu

open Library (Binary64 SortedMap SortedSet)

/-- Where a query reads from. -/
inductive QueryScope
  /-- One collection directly under a parent, at the root if there is none. -/
  | collection (parent : Option DocumentPath) (collectionId : CollectionId)
  /-- Every collection of one name below a parent. -/
  | collectionGroup (parent : Option DocumentPath) (collectionId : CollectionId)
  /-- Every document below a parent. -/
  | kindlessAllDescendants (parent : Option DocumentPath)
  /-- Every direct child document of a parent. -/
  | kindlessChildren (parent : Option DocumentPath)

namespace QueryScope

/-- Parent document. -/
def parent : QueryScope → Option DocumentPath
  | .collection parent _ => parent
  | .collectionGroup parent _ => parent
  | .kindlessAllDescendants parent => parent
  | .kindlessChildren parent => parent

/-- Whether the first pairs of a path are those of the parent. -/
def underParent (parent : Option DocumentPath) (path : DocumentPath) : Bool :=
  match parent with
  | none => true
  | some parent => path.pairs.take parent.pairs.length == parent.pairs

/-- Whether a path is strictly below the parent. -/
def belowParent (parent : Option DocumentPath) (path : DocumentPath) : Bool :=
  match parent with
  | none => true
  | some parent => path.isStrictDescendant parent

/-- The number of pairs of the parent. -/
def parentLength (parent : Option DocumentPath) : ℕ :=
  (parent.map fun p => p.pairs.length).getD 0

/-- Whether the document at a path is in the scope; only pairs are compared. -/
def contains (scope : QueryScope) (path : DocumentPath) : Bool :=
  match scope with
  | .collection parent collectionId =>
      path.pairs.length == parentLength parent + 1 && path.collectionId == collectionId &&
        underParent parent path
  | .collectionGroup parent collectionId =>
      path.collectionId == collectionId && belowParent parent path
  | .kindlessAllDescendants parent => belowParent parent path
  | .kindlessChildren parent =>
      path.pairs.length == parentLength parent + 1 && underParent parent path

end QueryScope

/-- Field comparison operators. -/
inductive FieldOp
  | equal | notEqual | lessThan | lessThanOrEqual | greaterThan | greaterThanOrEqual
  | arrayContains | in | arrayContainsAny | notIn
  deriving DecidableEq, Repr

/-- Whether the operator makes its field one of the order. -/
def FieldOp.isInequality : FieldOp → Bool
  | .notEqual | .lessThan | .lessThanOrEqual | .greaterThan | .greaterThanOrEqual | .notIn => true
  | _ => false

/-- Unary operators. -/
inductive UnaryOp
  | isNull | isNan | isNotNull | isNotNan
  deriving DecidableEq, Repr

/-- Filter expressions. -/
inductive FilterExpr
  | field (field : FieldPath) (op : FieldOp) (value : Value)
  | unary (field : FieldPath) (op : UnaryOp)
  | and (children : List FilterExpr)
  | or (children : List FilterExpr)

/-- Sort direction. -/
inductive Direction
  | ascending | descending
  deriving DecidableEq, Repr

/-- Distance metric of a nearest-neighbour query. -/
inductive DistanceMeasure
  | euclidean | cosine | dotProduct
  deriving DecidableEq, Repr

/-- The nearest-neighbour stage. -/
structure FindNearest where
  vectorField : FieldPath
  queryVector : List Binary64
  distanceMeasure : DistanceMeasure
  limit : ℕ
  distanceResultField : Option FieldPath
  distanceThreshold : Option Binary64

/-- One clause of an order. -/
structure OrderClause where
  field : FieldPath
  direction : Direction
  deriving DecidableEq

/-- Cursor position: values for the clauses of the order, and whether the position is included. -/
structure Cursor where
  values : List Value
  before : Bool

/-- A query. -/
structure Query where
  scope : QueryScope
  filter : Option FilterExpr
  orderBy : List OrderClause
  startAt : Option Cursor
  endAt : Option Cursor
  offset : ℕ
  limit : Option ℕ
  projection : Option (List FieldPath)
  findNearest : Option FindNearest
  /-- Whether execution refuses what only production refuses. -/
  productionRefusals : Bool

/-! ### Order -/

namespace FilterExpr

mutual

/-- Adds the fields with an inequality to a set. -/
def collectInequalityFields (out : SortedSet FieldPath) : FilterExpr → SortedSet FieldPath
  | .field path op _ => if op.isInequality then out.add path else out
  | .unary path .isNotNull => out.add path
  | .unary path .isNotNan => out.add path
  | .unary _ _ => out
  | .and children => collectAll out children
  | .or children => collectAll out children

@[inherit_doc collectInequalityFields]
def collectAll (out : SortedSet FieldPath) : List FilterExpr → SortedSet FieldPath
  | [] => out
  | child :: children => collectAll (collectInequalityFields out child) children

end

end FilterExpr

namespace Query

/-- A query over a scope with nothing else. -/
def new (scope : QueryScope) : Query where
  scope
  filter := none
  orderBy := []
  startAt := none
  endAt := none
  offset := 0
  limit := none
  projection := none
  findNearest := none
  productionRefusals := true

/-- The fields with an inequality. -/
def inequalityFields (query : Query) : SortedSet FieldPath :=
  match query.filter with
  | none => SortedMap.empty
  | some filter => filter.collectInequalityFields SortedMap.empty

/-- The direction of the last explicit clause. -/
def lastDirection (query : Query) : Direction :=
  (query.orderBy.getLast?.map OrderClause.direction).getD .ascending

/-- The order of execution: explicit clauses, then inequality fields not among them, then
`__name__`. -/
def effectiveOrderBy (query : Query) : List OrderClause :=
  let implied := query.inequalityFields.toList.filter fun field =>
    !field.isDocumentName && !query.orderBy.any fun clause => clause.field == field
  let out := query.orderBy ++ implied.map fun field => ⟨field, query.lastDirection⟩
  if out.any fun clause => clause.field.isDocumentName then out
  else out ++ [⟨FieldPath.documentName, query.lastDirection⟩]

end Query

end Fireemu
