import Fireemu.Library.Binary64
import Fireemu.Library.SortedMap
import Fireemu.Types.Ids
import Fireemu.Types.Machine

/-!
# Nodes of the Realtime Database tree

A location holds nothing, a leaf or a map of children; either may carry a priority.  Written data is
JSON, which `Node.build` turns into a node for a location, within the limits.

Children are an entry list in key order, which the operations of `OrdList` keep.
-/

namespace Fireemu.Database

open Library (Binary64 OrdList.get OrdList.insert OrdList.erase linCmp)

/-! ### Errors -/

/-- What was wrong with a request to the tree. -/
inductive ErrorKind
  | invalidKey | invalidPath | pathTooLong | pathTooDeep | stringTooLong | invalidData
  | invalidPriority | invalidServerValue | overlappingUpdate | priorityOnAbsentNode | readOnlyPath
  deriving DecidableEq

/-- A part of a message: text, or a text or a character in quoted form, which is not rendered. -/
inductive Fragment
  | text (s : Str)
  | quoted (s : Str)
  | quotedChar (c : Char)
  deriving DecidableEq

/-- An error of the Realtime Database core. -/
structure DatabaseError where
  kind : ErrorKind
  message : List Fragment
  deriving DecidableEq

/-- An error with a message without quoted parts. -/
def DatabaseError.new (kind : ErrorKind) (message : String) : DatabaseError :=
  ⟨kind, [.text message.toList]⟩

/-! ### Numbers -/

/-- A number, which keeps whether it was written as an integer or as a double. -/
inductive Number
  | int (i : I64)
  | double (d : Binary64)
  deriving DecidableEq

/-- The exact order of an integer and a finite double. -/
def cmpIntDouble (i : I64) (d : Binary64) : Ordering :=
  if (Binary64.ofInt (2 ^ 63)).le d then .lt
  else if d.lt (Binary64.ofInt (-2 ^ 63)) then .gt
  else
    let whole := d.trunc
    match linCmp i.1 whole with
    -- the difference of a double and its integer part is exact
    | .eq => linCmp 0 (d.scaled - whole * Binary64.one)
    | unequal => unequal

namespace Number

/-- The value as a double, rounded for integers beyond `2 ^ 53`. -/
def asF64 : Number → Binary64
  | .int i => .ofInt i.1
  | .double d => d

/-- The largest finite double of a sign. -/
def maxDouble (sign : Bool) : Binary64 := .ofBits sign (2047 * 2 ^ 52 - 1)

/-- The sum that a server-side increment computes: of integers while it does not overflow, and of
doubles otherwise, where a sum beyond the range stops at the largest double of its sign. -/
def increment (n delta : Number) : Number :=
  let doubles :=
    let sum := n.asF64.add delta.asF64
    Number.double (if sum.isFinite then sum else maxDouble sum.sign)
  match n, delta with
  | .int a, .int b =>
      match I64.check (a.1 + b.1) with
      | some sum => .int sum
      | none => doubles
  | _, _ => doubles

/-- The exact numeric order, also between integers and doubles. -/
def totalCmp : Number → Number → Ordering
  | .int a, .int b => linCmp a.1 b.1
  | .double a, .double b => (a.partialCmp b).getD .eq
  | .int a, .double b => cmpIntDouble a b
  | .double a, .int b => (cmpIntDouble b a).swap

/-- Numbers are compared by value: `1` equals `1.0`. -/
instance : BEq Number := ⟨fun a b => a.totalCmp b == .eq⟩

end Number

/-! ### Keys and paths -/

/-- The limits a write is checked against. -/
structure Limits where
  maxDepth : ℕ
  maxPathBytes : ℕ
  maxStringBytes : ℕ

/-- The limits production documents. -/
def Limits.production : Limits := ⟨32, 768, 10 * 1024 * 1024⟩

/-- Whether a character may not appear in a key. -/
def isForbidden (c : Char) : Bool :=
  ['.', '$', '#', '[', ']', '/'].contains c || c.toNat ≤ 0x1f || c.toNat == 0x7f

/-- Checks that a text may name a child. -/
def validateKey (key : Str) : Except DatabaseError Unit :=
  if key.isEmpty then .error (.new .invalidKey "a key may not be empty")
  else
    match key.find? isForbidden with
    | some bad => .error ⟨.invalidKey, [.text "key ".toList, .quoted key, .text " contains ".toList,
        .quotedChar bad, .text "; keys may not contain \".\", \"#\", \"$\", \"/\", \"[\", \"]\" or ASCII control characters".toList]⟩
    | none => .ok ()

/-- A location in the tree: the keys from the root. -/
abbrev Path := List Str

/-- The pseudo-key of priorities. -/
def priorityKey : Str := ".priority".toList

/-- The root of connection information. -/
def infoKey : Str := ".info".toList

/-- Refuses a path that is longer than the limit. -/
def checkPathBytes (bytes : ℕ) (limits : Limits) : Except DatabaseError Unit :=
  if limits.maxPathBytes < bytes then
    .error (.new .pathTooLong
      s!"the path is {bytes} bytes long; the limit is {limits.maxPathBytes} bytes")
  else .ok ()

namespace Path

/-- The UTF-8 length of the keys joined by `/`. -/
def byteLen (path : Path) : ℕ := (path.map Str.utf8Len).sum + (path.length - 1)

/-- Whether the path names a priority. -/
def isPriority (path : Path) : Bool := path.getLast? = some priorityKey

/-- Whether the path lies under `.info`. -/
def isInfo (path : Path) : Bool := path.head? = some infoKey

/-- Whether a path equals another one or is one of its ancestors. -/
def contains (path other : Path) : Bool := path.isPrefixOf other

/-- The path as text. -/
def toText (path : Path) : Str :=
  if path.isEmpty then ['/'] else path.flatMap fun key => '/' :: key

/-- Checks a key of a path where it stands. -/
def checkSegment (text : Str) (last : ℕ) (key : Str) (index : ℕ) : Except DatabaseError Unit :=
  if index = 0 ∧ key = infoKey ∨ index = last ∧ key = priorityKey then .ok ()
  else if key = infoKey ∨ key = priorityKey then
    .error ⟨.invalidPath, [.text "path ".toList, .quoted text, .text " uses ".toList, .quoted key,
      .text " where only a key may stand".toList]⟩
  else validateKey key

/-- Parses a path. -/
def parse (text : Str) (limits : Limits) : Except DatabaseError Path := do
  let keys := (text.splitOn '/').filter fun segment => !segment.isEmpty
  keys.zipIdx.forM fun (key, index) => checkSegment text (keys.length - 1) key index
  checkPathBytes (byteLen keys) limits
  return keys

end Path

/-! ### Data -/

/-- A parsed JSON value; the members of an object are in key order. -/
inductive Json
  | null
  | bool (b : Bool)
  | number (n : Number)
  | string (s : Str)
  | array (items : List Json)
  | object (members : List (Str × Json))

/-- A leaf value. -/
inductive Leaf
  | bool (b : Bool)
  | number (n : Number)
  | string (s : Str)
  deriving BEq

/-- A priority: a number or a string. -/
inductive Priority
  | number (n : Number)
  | string (s : Str)
  deriving BEq

/-- A non-empty location. -/
inductive Node
  | leaf (value : Leaf) (priority : Option Priority)
  | children (entries : List (Str × Node)) (priority : Option Priority)

/-- A priority as a leaf value. -/
def Priority.asLeaf : Priority → Leaf
  | .number n => .number n
  | .string s => .string s

/-- Reads a priority: `null` is no priority, numbers and strings are priorities. -/
def Priority.fromJson : Json → Except DatabaseError (Option Priority)
  | .null => .ok none
  | .number n => .ok (some (.number n))
  | .string s => .ok (some (.string s))
  | _ => .error (.new .invalidPriority "a priority must be null, a number or a string")

namespace Node

/-- The priority, if one is set. -/
def priority : Node → Option Priority
  | .leaf _ priority => priority
  | .children _ priority => priority

/-- The node with another priority. -/
def withPriority (priority : Option Priority) : Node → Node
  | .leaf value _ => .leaf value priority
  | .children entries _ => .children entries priority

/-- The child of a key. -/
def child (key : Str) : Node → Option Node
  | .leaf .. => none
  | .children entries _ => OrdList.get key entries

/-- The node at a path below. -/
def descendant (node : Node) : Path → Option Node
  | [] => some node
  | key :: path => (node.child key).bind fun node => node.descendant path

mutual

/-- Equality of nodes, with numbers compared by value. -/
def beq : Node → Node → Bool
  | .leaf value priority, .leaf value' priority' => value == value' && priority == priority'
  | .children entries priority, .children entries' priority' =>
      beqEntries entries entries' && priority == priority'
  | _, _ => false

/-- Equality of children. -/
def beqEntries : List (Str × Node) → List (Str × Node) → Bool
  | [], [] => true
  | (key, node) :: entries, (key', node') :: entries' =>
      key == key' && beq node node' && beqEntries entries entries'
  | _, _ => false

end

instance : BEq Node := ⟨beq⟩

end Node

/-! ### Building nodes -/

/-- The key of a placeholder for a server value. -/
def serverValueKey : Str := ".sv".toList

/-- The key of a leaf that has a priority. -/
def valueKey : Str := ".value".toList

/-- Where a node being built sits: keys above it and the byte length of its path. -/
structure Position where
  depth : ℕ
  bytes : ℕ

/-- The position of a path. -/
def Position.of (path : Path) : Position := ⟨path.length, path.byteLen⟩

/-- The position of a child. -/
def Position.child (at' : Position) (key : Str) : Position :=
  ⟨at'.depth + 1, at'.bytes + (if 0 < at'.depth then 1 else 0) + key.utf8Len⟩

/-- The error for data nested deeper than the limit. -/
def tooDeep (limits : Limits) : DatabaseError :=
  .new .pathTooDeep s!"the data is nested deeper than the limit of {limits.maxDepth} levels"

/-- The error for a priority given to an empty value. -/
def priorityWithoutValue : DatabaseError :=
  .new .invalidData "a priority needs a value; the data describes nothing"

/-- What is built of a value at a position. -/
abbrev Builder := Position → Except DatabaseError (Option Node)

namespace Node

variable (limits : Limits)

/-- Builds the child of one entry. -/
def addEntry (at' : Position) (children : List (Str × Node)) (entry : Str × Builder) :
    Except DatabaseError (List (Str × Node)) := do
  let (key, build) := entry
  validateKey key
  let childAt := at'.child key
  checkPathBytes childAt.bytes limits
  match ← build childAt with
  | some child => return OrdList.insert key child children
  | none => return children

/-- Builds a map of children. -/
def fromEntries (entries : List (Str × Builder)) (priority : Option Priority) (at' : Position) :
    Except DatabaseError (Option Node) := do
  let children ← entries.foldlM (addEntry limits at') []
  if children.isEmpty then
    if priority.isSome then throw priorityWithoutValue
    return none
  return some (.children children priority)

/-- A priority as a member stores it: its number is a double. -/
def memberPriority : Priority → Priority
  | .number n => .number (.double n.asF64)
  | .string s => .string s

/-- The priority among the members of an object. -/
def objectPriority (members : List (Str × Json × Builder)) : Except DatabaseError (Option Priority) :=
  match OrdList.get priorityKey members with
  | some (json, _) => (Priority.fromJson json).map (Option.map memberPriority)
  | none => .ok none

/-- Whether a value is an object or an array. -/
def isContainer : Json → Bool
  | .array _ | .object _ => true
  | _ => false

/-- Builds what an object describes; each member comes with what is built of it. -/
def fromObject (members : List (Str × Json × Builder)) (at' : Position) :
    Except DatabaseError (Option Node) := do
  if (OrdList.get serverValueKey members).isSome then
    throw (.new .invalidServerValue "server values must be resolved before the data is stored")
  let priority ← objectPriority members
  let members := OrdList.erase priorityKey members
  match OrdList.get valueKey members with
  | some (value, build) =>
      if !(OrdList.erase valueKey members).isEmpty || isContainer value then
        throw (.new .invalidData "an object with \".value\" may hold only \".priority\" besides it")
      let node ← build at'
      if node.isNone && priority.isSome then throw priorityWithoutValue
      return node.map (withPriority priority)
  | none => fromEntries limits (members.map fun (key, _, build) => (key, build)) priority at'

/-- The keys of the items of an array. -/
def indexed (builders : List Builder) : List (Str × Builder) :=
  builders.zipIdx.map fun (build, index) => ((toString index).toList, build)

mutual

/-- Builds the node a value describes at a position, or `none` when it describes nothing. -/
def build : Json → Builder
  | .null, at' => if limits.maxDepth < at'.depth then .error (tooDeep limits) else .ok none
  | .bool b, at' =>
      if limits.maxDepth < at'.depth then .error (tooDeep limits)
      else .ok (some (.leaf (.bool b) none))
  | .number n, at' =>
      if limits.maxDepth < at'.depth then .error (tooDeep limits)
      else .ok (some (.leaf (.number n) none))
  | .string s, at' =>
      if limits.maxDepth < at'.depth then .error (tooDeep limits)
      else if limits.maxStringBytes < s.utf8Len then
        .error (.new .stringTooLong
          s!"a string value is {s.utf8Len} bytes long; the limit is {limits.maxStringBytes} bytes")
      else .ok (some (.leaf (.string s) none))
  | .array items, at' =>
      if limits.maxDepth < at'.depth then .error (tooDeep limits)
      else fromEntries limits (indexed (buildItems items)) none at'
  | .object members, at' =>
      if limits.maxDepth < at'.depth then .error (tooDeep limits)
      else fromObject limits (buildMembers members) at'

/-- What is built of each item. -/
def buildItems : List Json → List Builder
  | [] => []
  | item :: items => build item :: buildItems items

/-- What is built of each member. -/
def buildMembers : List (Str × Json) → List (Str × Json × Builder)
  | [] => []
  | (key, value) :: members => (key, value, build value) :: buildMembers members

end

/-- Builds the node a value describes for a location. -/
def fromJson (json : Json) (path : Path) : Except DatabaseError (Option Node) :=
  build limits json (.of path)

end Node

end Fireemu.Database
