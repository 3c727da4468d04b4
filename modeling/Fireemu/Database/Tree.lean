import Fireemu.Database.Node

/-!
# The tree of one database namespace

Writes are checked and their server values resolved against the tree as it is, and only then applied:
`Tree.set` replaces one location, `Tree.update` several that do not overlap.  An operation returns its
result together with the tree it leaves.
-/

namespace Fireemu.Database

open Library (OrdList.get OrdList.insert OrdList.erase)

/-! ### Server values -/

/-- What the server knows when it resolves placeholders: its time in milliseconds. -/
structure ServerValueContext where
  nowMillis : I64

/-- The stored priority of a node as a leaf, the base a priority placeholder resolves against. -/
def storedPriority (node : Option Node) : Option Node :=
  (node.bind Node.priority).map fun priority => .leaf priority.asLeaf none

/-- The child of a node that may be absent. -/
def childOf (node : Option Node) (key : Str) : Option Node := node.bind (Node.child key)

/-- The value of a placeholder. -/
def resolvePlaceholder (placeholder : Json) (existing : Option Node) (context : ServerValueContext) :
    Except DatabaseError Json :=
  let invalid (message : String) := DatabaseError.new .invalidServerValue message
  match placeholder with
  | .string name =>
      if name = "timestamp".toList then .ok (.number (.int context.nowMillis))
      else .error (invalid "unknown server value")
  | .object op =>
      if op.length = 1 then
        match OrdList.get "increment".toList op with
        | some (.number delta) =>
            match existing with
            | some (.leaf (.number current) _) => .ok (.number (current.increment delta))
            | _ => .ok (.number delta)
        | _ => .error (invalid "an increment needs a numeric delta")
      else .error (invalid "unknown server value")
  | _ => .error (invalid "unknown server value")

/-- What a value resolves to, given the node stored where it will be written. -/
abbrev Resolver := Option Node → Except DatabaseError Json

/-- Resolves one member of an object. -/
def resolveMember (existing : Option Node) (member : Str × Json × Resolver) :
    Except DatabaseError (Str × Json) := do
  let (key, _, resolve) := member
  let resolved ←
    if key = valueKey then resolve existing
    else if key = priorityKey then resolve (storedPriority existing)
    else resolve (childOf existing key)
  return (key, resolved)

/-- Resolves an object; each member comes with what it resolves to. -/
def resolveObject (context : ServerValueContext) (members : List (Str × Json × Resolver))
    (existing : Option Node) : Except DatabaseError Json := do
  match OrdList.get serverValueKey members with
  | some (placeholder, _) =>
      if members.any fun (key, _) => key ≠ serverValueKey ∧ key ≠ priorityKey then
        throw (.new .invalidServerValue "a server value may hold only \".priority\" besides \".sv\"")
      let value ← resolvePlaceholder placeholder existing context
      match OrdList.get priorityKey members with
      | none => return value
      | some (_, resolve) =>
          let priority ← resolve (storedPriority existing)
          return .object (OrdList.insert priorityKey priority [(valueKey, value)])
  | none => return .object (← members.mapM (resolveMember existing))

/-- Resolves the items of an array from an index on. -/
def resolveArray (existing : Option Node) : List Resolver → ℕ → Except DatabaseError (List Json)
  | [], _ => .ok []
  | resolve :: items, index => do
      let item ← resolve (childOf existing (toString index).toList)
      return item :: (← resolveArray existing items (index + 1))

mutual

/-- A value with every placeholder replaced. -/
def resolve (context : ServerValueContext) : Json → Resolver
  | .array items, existing => do
      return .array (← resolveArray existing (resolveItems context items) 0)
  | .object members, existing => resolveObject context (resolveMembers context members) existing
  | .null, _ => .ok .null
  | .bool b, _ => .ok (.bool b)
  | .number n, _ => .ok (.number n)
  | .string s, _ => .ok (.string s)

/-- What each item resolves to. -/
def resolveItems (context : ServerValueContext) : List Json → List Resolver
  | [] => []
  | item :: items => resolve context item :: resolveItems context items

/-- What each member resolves to. -/
def resolveMembers (context : ServerValueContext) : List (Str × Json) → List (Str × Json × Resolver)
  | [] => []
  | (key, value) :: members => (key, value, resolve context value) :: resolveMembers context members

end

/-! ### The tree -/

/-- The data of one namespace. -/
structure Tree where
  root : Option Node
  limits : Limits

/-- One checked write, ready to apply. -/
inductive Write
  /-- Replace the value at a path; no value deletes. -/
  | value (path : Path) (node : Option Node)
  /-- Set the priority of the node at a path, if it exists. -/
  | priority (path : Path) (priority : Option Priority)
  /-- A write of what is already stored, which keeps its form; it holds the value as written. -/
  | unchanged (node : Option Node)

/-- The node a write stores at its path, or would store if it were not stored already. -/
def Write.written : Write → Option Node
  | .value _ node | .unchanged node => node
  | .priority .. => none

/-- A node with a location below it replaced, pruned of empty maps. -/
def replace : Option Node → Path → Option Node → Option Node
  | _, [], value => value
  | none, key :: path, value =>
      (replace none path value).map fun child => .children [(key, child)] none
  | some (.leaf leaf priority), key :: path, value =>
      -- nothing lives below a leaf, so a delete there changes nothing
      match replace none path value with
      | none => some (.leaf leaf priority)
      | some child => some (.children [(key, child)] priority)
  | some (.children entries priority), key :: path, value =>
      let rest := OrdList.erase key entries
      match replace (OrdList.get key entries) path value with
      | some child => some (.children (OrdList.insert key child rest) priority)
      | none => if rest.isEmpty then none else some (.children rest priority)

/-- A node with the priority of a location below it replaced, if the location exists. -/
def setPriority (priority : Option Priority) : Node → Path → Node
  | node, [] => node.withPriority priority
  | .leaf value own, _ :: _ => .leaf value own
  | .children entries own, key :: path =>
      match OrdList.get key entries with
      | none => .children entries own
      | some child => .children (OrdList.insert key (setPriority priority child path) entries) own

/-- Refuses paths of which one equals or contains another. -/
def checkDisjoint (paths : List Path) : Except DatabaseError Unit :=
  let sorted := paths.mergeSort fun a b => a ≤ b
  (sorted.zip sorted.tail).forM fun (a, b) =>
    if Path.contains a b then
      .error ⟨.overlappingUpdate, [.text ("path ".toList ++ Path.toText a ++
        " is an ancestor of, or the same as, ".toList ++ Path.toText b)]⟩
    else .ok ()

namespace Tree

/-- An empty tree checking writes against limits. -/
def new (limits : Limits) : Tree := ⟨none, limits⟩

/-- The node at a path. -/
def get (t : Tree) (path : Path) : Option Node := t.root.bind fun root => root.descendant path

/-- Checks one write against the tree and resolves its server values. -/
def prepare (t : Tree) (path : Path) (value : Json) (context : ServerValueContext) :
    Except DatabaseError Write := do
  if path.isInfo then
    throw ⟨.readOnlyPath, [.text (path.toText ++ " is read-only".toList)]⟩
  if path.isPriority then
    let parent := path.dropLast
    match t.get parent with
    | none => throw (.new .priorityOnAbsentNode "could not set priority on non-existent node")
    | some node =>
        let resolved ← resolve context value (storedPriority (some node))
        let priority ← Priority.fromJson resolved
        if priority == node.priority then return .unchanged none
        return .priority parent priority
  let resolved ← resolve context value (t.get path)
  let node ← Node.fromJson t.limits resolved path
  if node == t.get path then return .unchanged node
  return .value path node

/-- Applies a checked write. -/
def apply (t : Tree) : Write → Tree
  | .value path node => { t with root := replace t.root path node }
  | .priority path priority => { t with root := t.root.map fun root => setPriority priority root path }
  | .unchanged _ => t

/-- Replaces the value at a path, or sets the priority of an existing parent, and returns the node as
written. -/
def set (t : Tree) (path : Path) (value : Json) (context : ServerValueContext) :
    Except DatabaseError (Option Node) × Tree :=
  match t.prepare path value context with
  | .error e => (.error e, t)
  | .ok write => (.ok write.written, t.apply write)

/-- The locations an update writes.  Parsing the joined path again applies the rules of placement to
the whole path. -/
def updatePaths (t : Tree) (base : Path) (entries : List (Str × Json)) : Except DatabaseError (List Path) :=
  entries.mapM fun (text, _) => do
    let relative ← Path.parse text t.limits
    Path.parse (Path.toText (base ++ relative)) t.limits

/-- Whether a write sets a priority. -/
def isPriorityWrite : Write → Bool
  | .priority .. => true
  | _ => false

/-- Everything an update checks: the writes in the order they are applied, priorities last. -/
def prepareUpdate (t : Tree) (base : Path) (entries : List (Str × Json))
    (context : ServerValueContext) : Except DatabaseError (List Write) := do
  let paths ← t.updatePaths base entries
  checkDisjoint paths
  let writes ← (paths.zip entries).mapM fun (path, _, value) => t.prepare path value context
  return writes.filter (fun write => !isPriorityWrite write) ++ writes.filter isPriorityWrite

/-- Applies a multipath update: each entry is a path relative to a base and the value of that
location. -/
def update (t : Tree) (base : Path) (entries : List (Str × Json)) (context : ServerValueContext) :
    Except DatabaseError Unit × Tree :=
  if entries.isEmpty then (.ok (), t)
  else
    match t.prepareUpdate base entries context with
    | .error e => (.error e, t)
    | .ok writes => (.ok (), writes.foldl apply t)

end Tree

end Fireemu.Database
