import Fireemu.Types.Ids
import Fireemu.Library.Search

/-!
# Security Rules: rulesets and requests

A ruleset is a tree of `match` blocks with `allow` statements and functions.  Expressions are a
parameter `ε`, and `α` stands for the values that the walk over the blocks does not make itself.

The invariants of a `Ruleset` are what the parser guarantees of one: how the literal segments of a
header are cut out of the source, and that different declarations are at different addresses.
-/

namespace Fireemu.Rules

open Library List

/-- The methods an `allow` statement names. -/
inductive AccessMethod
  | read
  | write
  | get
  | list
  | create
  | update
  | delete
  deriving DecidableEq, Repr

/-- Request method. -/
inductive Method
  | get
  | list
  | create
  | update
  | delete
  deriving DecidableEq, Repr

/-- Whether a method of an `allow` statement covers a request. -/
def Method.coveredBy (self : Method) : AccessMethod → Bool
  | .read => self = .get || self = .list
  | .write => self = .create || self = .update || self = .delete
  | .get => self = .get
  | .list => self = .list
  | .create => self = .create
  | .update => self = .update
  | .delete => self = .delete

/-- Path segment in `match` headers and path literals. -/
inductive PathSegment (ε : Type)
  | literal (text : Str)
  /-- `{name}`. -/
  | capture (name : Str)
  /-- `{name=**}`. -/
  | recursiveWildcard (name : Str)
  /-- `$(expr)` inside a path literal. -/
  | binding (e : ε)

/-- `allow methods: if condition;`, unconditional without one. -/
structure Allow (ε : Type) where
  methods : List AccessMethod
  condition : Option ε

/-- `function name(params) { lets; return body; }` at an address. -/
structure FunctionDecl (ε : Type) where
  key : ℕ
  name : Str
  params : List Str
  lets : List (Str × ε)
  body : ε

/-- A service or match body item. -/
inductive Item (ε : Type)
  /-- `match /path { ... }`. -/
  | block (path : List (PathSegment ε)) (items : List (Item ε)) (allows : List (Allow ε))
  | function (declaration : FunctionDecl ε)

/-- Induction over items: a block has the property if all its items have it. -/
@[elab_as_elim]
theorem Item.induction {ε : Type} {motive : Item ε → Prop}
    (block : ∀ path items allows, (∀ item ∈ items, motive item) → motive (.block path items allows))
    (function : ∀ f, motive (.function f)) (item : Item ε) : motive item :=
  @Item.rec ε motive (fun items => ∀ item ∈ items, motive item) block function nofun
    (fun _ _ hitem hi => forall_mem_cons.2 ⟨hitem, hi⟩) item

/-- A `match` block. -/
structure MatchBlock (ε : Type) where
  path : List (PathSegment ε)
  items : List (Item ε)
  allows : List (Allow ε)

/-- A `match` block as an item. -/
def MatchBlock.item {ε : Type} (b : MatchBlock ε) : Item ε := .block b.path b.items b.allows

/-- The functions declared among items. -/
def functionsOf {ε : Type} (items : List (Item ε)) : List (FunctionDecl ε) :=
  items.filterMap fun
    | .block .. => none
    | .function f => some f

/-! ### What the parser guarantees -/

/-- Unicode `White_Space`. -/
def isWhitespace (c : Char) : Bool :=
  let n := c.toNat
  (0x9 ≤ n && n ≤ 0xd) || n = 0x20 || n = 0x85 || n = 0xa0 || n = 0x1680 ||
    (0x2000 ≤ n && n ≤ 0x200a) || n = 0x2028 || n = 0x2029 || n = 0x202f || n = 0x205f || n = 0x3000

/-- Whether a character ends a literal segment. -/
def endsLiteral (c : Char) : Bool :=
  isWhitespace c || c ∈ ['/', '{', '}', '(', ')', ',', ';', '[', ']']

/-- Length of the literal segment at the start of a text; one in parentheses runs to the first
closing one. -/
def literalEnd (rest : Str) : ℕ :=
  if rest.head? = some '(' then (rest.findIdx? (· = ')')).elim 0 (· + 1)
  else (rest.findIdx? endsLiteral).getD rest.length

/-- A segment as it stands in a parsed `match` header. -/
def PathSegment.InHeader {ε : Type} : PathSegment ε → Prop
  | .literal text => ∃ rest : Str, literalEnd rest ≠ 0 ∧ text = rest.take (literalEnd rest)
  | .capture _ => True
  | .recursiveWildcard _ => True
  | .binding _ => False

mutual

/-- Whether all headers of an item are parsed ones. -/
def Item.Parsed {ε : Type} : Item ε → Prop
  | .block path items _ => (∀ segment ∈ path, segment.InHeader) ∧ AllParsed items
  | .function _ => True

/-- Whether all headers of items are parsed ones. -/
def AllParsed {ε : Type} : List (Item ε) → Prop
  | [] => True
  | item :: items => item.Parsed ∧ AllParsed items

end

mutual

/-- The addresses of the functions declared by an item and below it. -/
def Item.keys {ε : Type} : Item ε → List ℕ
  | .block _ items _ => allKeys items
  | .function f => [f.key]

/-- The addresses of the functions declared by items and below them. -/
def allKeys {ε : Type} : List (Item ε) → List ℕ
  | [] => []
  | item :: items => item.keys ++ allKeys items

end

/-- `service <name> { ... }`. -/
structure Service (ε : Type) where
  name : Str
  items : List (Item ε)
  parsed : AllParsed items
  distinct : (allKeys items).Nodup

/-- A parsed ruleset. -/
structure Ruleset (ε : Type) where
  /-- `rules_version` if declared. -/
  version : Option Str
  services : List (Service ε)

theorem allParsed_iff {ε : Type} {items : List (Item ε)} : AllParsed items ↔ ∀ item ∈ items, item.Parsed := by
  induction items with
  | nil => simp [AllParsed]
  | cons item items ih => rw [AllParsed, ih, forall_mem_cons]

theorem allKeys_eq {ε : Type} {items : List (Item ε)} : allKeys items = items.flatMap Item.keys := by
  induction items with
  | nil => rfl
  | cons item items ih => rw [allKeys, ih, flatMap_cons]

theorem key_mem_allKeys {ε : Type} {items : List (Item ε)} {f : FunctionDecl ε}
    (hf : f ∈ functionsOf items) : f.key ∈ allKeys items := by
  obtain ⟨item, hitem, hf⟩ := mem_filterMap.1 hf
  rw [allKeys_eq, mem_flatMap]
  refine ⟨item, hitem, ?_⟩
  cases item with
  | block => cases hf
  | function =>
    cases hf
    simp [Item.keys]

/-! ### Requests -/

/-- Which `service` block of the ruleset applies. -/
inductive RulesService
  | firestore
  | storage
  deriving DecidableEq, Repr

/-- Name as written in the ruleset. -/
def RulesService.name : RulesService → Str
  | .firestore => "cloud.firestore".toList
  | .storage => "firebase.storage".toList

/-- Request being authorized. -/
structure RequestContext where
  service : RulesService
  method : Method
  /-- Path relative to the service root. -/
  path : Str
  /-- Query proof mode: some segments stand for every potential result. -/
  abstractPath : Bool

/-- Matcher input: concrete names are distinct from query proof markers. -/
inductive MatchSegment
  | literal (text : Str)
  | anySegment
  | anyPrefix
  deriving DecidableEq, Repr

/-- Stands for "any document" in a query proof. -/
def abstractSegment : Str := "fireemu-placeholder".toList

/-- Stands for "any ancestor prefix, of any depth" in a query proof. -/
def abstractPrefix : Str := "fireemu-any-prefix".toList

/-- The non-empty names of the path of a request. -/
def RequestContext.names (ctx : RequestContext) : List Str :=
  ((ctx.path.dropWhile (· = '/')).splitOn '/').filter fun name => !name.isEmpty

/-- The names of a request as matcher input. Storage proofs append one synthetic tail. -/
def matchSegments (ctx : RequestContext) : List MatchSegment :=
  ctx.names.mapIdx fun index value =>
    if ctx.abstractPath && (ctx.service ≠ .storage || index + 1 = ctx.names.length) then
      if value = abstractSegment then .anySegment
      else if value = abstractPrefix then .anyPrefix
      else .literal value
    else .literal value

/-- The matcher input of concrete names. -/
abbrev concrete (names : List Str) : List MatchSegment := names.map .literal

theorem matchSegments_concrete {ctx : RequestContext} (h : ctx.abstractPath = false) :
    matchSegments ctx = concrete ctx.names := by
  unfold matchSegments
  simp only [h, Bool.false_and, Bool.false_eq_true, if_false]
  refine ext_getElem? fun i => ?_
  rw [List.getElem?_mapIdx, List.getElem?_map]

end Fireemu.Rules
