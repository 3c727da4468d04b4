import Fireemu.Rules.Reachability

/-!
# Security Rules: the walk over the blocks

`evaluateRequest` walks the `match` blocks of the service of a request.  For every way in which the
path of a block takes the start of what remains of the request path, the captures are bound, the
`allow` statements of the block are tried if nothing remains, and the nested blocks are walked with
the rest.  An error of a condition makes it fail, is the answer only if nothing allows the request, or
ends the request, by its `severity`.

The evaluation of conditions is a parameter, a structure `Conditions`: it runs on a state of its own
(budgets, documents read, compiled patterns), and what it answers without running out of a budget or
meeting an unsupported construct is the value of the condition in its scope.  The state is not part of
that value.
-/

namespace Fireemu.Rules

open Library

/-! ### Values, scopes and errors -/

/-- A runtime value; `α` are the values the walk does not make. -/
inductive RulesValue (α : Type)
  | bool (b : Bool)
  | string (s : Str)
  /-- Segments without the leading slash. -/
  | path (segments : List Str)
  /-- A value the request does not determine. -/
  | unknown
  | other (value : α)

/-- Bound names, the innermost last. -/
abbrev Captures (α : Type) := List (Str × RulesValue α)

/-- What a condition can refer to. -/
structure Scope (ε α : Type) where
  /-- Visible functions, the innermost last. -/
  functions : List (FunctionDecl ε)
  /-- The bindings captured at the declaration of a function, by its address. -/
  functionBindings : ℕ → Captures α
  bindings : Captures α

/-- Scopes that differ at most in what functions captured that neither of them sees. -/
structure Scope.Agrees {ε α : Type} (s s' : Scope ε α) : Prop where
  functions : s.functions = s'.functions
  bindings : s.bindings = s'.bindings
  captured : ∀ f ∈ s.functions, s.functionBindings f.key = s'.functionBindings f.key

/-- The limits of a request. -/
inductive LimitId
  | expressionsPerRequest
  | functionCallDepth
  | docAccessSingle
  | matchWork
  | regexStepsPerMatch
  | regexDepthPerMatch
  | regexExhaustionsPerRequest
  deriving DecidableEq, Repr

inductive EvalError
  /-- A type or missing member error. -/
  | soft (message : Str)
  /-- The value is not determined by the request. -/
  | unknown
  /-- Fail closed. -/
  | unsupported (message : Str)
  | budget (limitId : LimitId) (current maximum : ℕ)

/-- A budget that ends the whole request, whatever other allows would say. -/
def stopsRequest : EvalError → Bool
  | .budget limitId _ _ =>
      limitId ∈ [.expressionsPerRequest, .matchWork, .regexExhaustionsPerRequest]
  | _ => false

/-- How an error of an alternative is treated. -/
def EvalError.severity : EvalError → Severity
  | .soft _ => .soft
  | .unknown => .soft
  | e => if stopsRequest e then .stopping else .deferred

/-- The evaluation of conditions. -/
structure Conditions (ε α σ : Type) where
  eval : ε → Scope ε α → σ → Except EvalError (RulesValue α) × σ
  /-- A new evaluator: the budget of the request stays, what was read is forgotten. -/
  fresh : σ → σ
  /-- The value of a condition; `none` if it raises. -/
  value : ε → Scope ε α → Option (RulesValue α)
  eval_ok : ∀ c scope st v, (eval c scope st).1 = .ok v → value c scope = some v
  eval_soft : ∀ c scope st e, (eval c scope st).1 = .error e → e.severity = .soft → value c scope = none
  value_agrees : ∀ c scope scope', scope.Agrees scope' → value c scope = value c scope'

/-- The value a capture takes from a segment. -/
def MatchSegment.capture {α : Type} : MatchSegment → RulesValue α
  | .literal text => .string text
  | .anySegment => .unknown
  | .anyPrefix => .unknown

/-- The name of a concrete segment. -/
def MatchSegment.text : MatchSegment → Option Str
  | .literal text => some text
  | .anySegment => none
  | .anyPrefix => none

/-- The value a recursive wildcard takes from segments. -/
def MatchSegment.capturePath {α : Type} (segments : List MatchSegment) : RulesValue α :=
  (segments.mapM MatchSegment.text).elim .unknown .path

/-! ### Matching a path -/

/-- Maximum path-matcher steps charged to one request. -/
def matchPathWorkMax : ℕ := 65536

/-- The state of the walk over the blocks of a service. -/
structure WalkState (α σ : Type) where
  eval : σ
  matchPathWork : ℕ
  prefilter : Prefilter
  functionBindings : ℕ → Captures α
  /-- Some block covers the path. -/
  matchedAny : Bool

/-- The state of the paths through one block: what was answered and raised so far. -/
structure VisitState (α σ : Type) where
  walk : WalkState α σ
  outcome : Except EvalError Bool
  raised : Option EvalError

variable {ε α σ : Type}

/-- What is done with the rest of a path and the captures of what was taken. -/
abbrev Visit (α σ : Type) :=
  List MatchSegment → Captures α → VisitState α σ → Except EvalError Bool × VisitState α σ

/-- Whether a table rules an offset out. -/
def prunes (table : Option (List (List Bool))) (patternIndex consumed : ℕ) : Bool :=
  table.any fun rows => !((rows[patternIndex]?.bind (·[consumed]?)).getD false)

/-- Charges a step of the matcher unless the table rules it out. -/
def chargeMatch (table : Option (List (List Bool))) (patternIndex consumed : ℕ)
    (next : VisitState α σ → Except EvalError Bool × VisitState α σ) (st : VisitState α σ) :
    Except EvalError Bool × VisitState α σ :=
  if prunes table patternIndex consumed then (.ok false, st)
  else
    let current := st.walk.matchPathWork + 1
    let st := { st with walk := { st.walk with matchPathWork := current } }
    if current > matchPathWorkMax then (.error (.budget .matchWork current matchPathWorkMax), st)
    else next st

/-- Visits every way in which a pattern takes the start of a path, until one visit succeeds. -/
def matchGo (zeroOrMore : Bool) (table : Option (List (List Bool))) (visit : Visit α σ) :
    List (PathSegment ε) → List MatchSegment → Captures α → ℕ → ℕ → VisitState α σ →
      Except EvalError Bool × VisitState α σ
  | [], segments, captures, patternIndex, consumed =>
      chargeMatch table patternIndex consumed (visit segments captures)
  | .literal text :: tail, segments, captures, patternIndex, consumed =>
      chargeMatch table patternIndex consumed fun st =>
        if segments.head? = some (.literal text) then
          matchGo zeroOrMore table visit tail (segments.drop 1) captures (patternIndex + 1)
            (consumed + 1) st
        else (.ok false, st)
  | .capture name :: tail, segments, captures, patternIndex, consumed =>
      chargeMatch table patternIndex consumed fun st =>
        match segments.head? with
        | some v =>
            -- only a recursive wildcard takes a prefix marker
            if v ≠ .anyPrefix then
              matchGo zeroOrMore table visit tail (segments.drop 1) (captures ++ [(name, v.capture)])
                (patternIndex + 1) (consumed + 1) st
            else (.ok false, st)
        | none => (.ok false, st)
  | .recursiveWildcard name :: tail, segments, captures, patternIndex, consumed =>
      chargeMatch table patternIndex consumed fun st =>
        search (fun take st =>
            if segments[take]? = some .anyPrefix then (.ok false, st)
            else if prunes table (patternIndex + 1) (consumed + take) then (.ok false, st)
            else matchGo zeroOrMore table visit tail (segments.drop take)
              (captures ++ [(name, MatchSegment.capturePath (segments.take take))]) (patternIndex + 1)
              (consumed + take) st)
          ((List.range (segments.length + 1)).drop (wildcardMinimum zeroOrMore)) st
  | .binding _ :: _, _, _, patternIndex, consumed =>
      chargeMatch table patternIndex consumed fun st => (.ok false, st)

/-- Visits the ways of a pattern that end at one of the endpoints, as far as these are known. -/
def matchPath (zeroOrMore : Bool) (pattern : List (PathSegment ε)) (segments : List MatchSegment)
    (endpoints : Option (List Bool)) (visit : Visit α σ) (st : VisitState α σ) :
    Except EvalError Bool × VisitState α σ :=
  match endpoints with
  | none => matchGo zeroOrMore none visit pattern segments [] 0 0 st
  | some endpoints =>
      let (table, work) :=
        endpointReachability zeroOrMore segments endpoints pattern st.walk.prefilter.work
      let walk := { st.walk with prefilter := { st.walk.prefilter with work } }
      matchGo zeroOrMore table visit pattern segments [] 0 0 { st with walk }

/-! ### Walking the blocks -/

/-- The stacks of a walk: visible functions and bindings. -/
structure Frame (ε α : Type) where
  functions : List (FunctionDecl ε)
  bindings : Captures α

/-- A walk over an item, as a function of the stacks and of what remains of the path. -/
abbrev Walk (ε α σ : Type) :=
  Frame ε α → List MatchSegment → WalkState α σ → Except EvalError Bool × WalkState α σ

/-- Whether an `allow` statement covers a method. -/
def Allow.covers (allow : Allow ε) (method : Method) : Bool := allow.methods.any method.coveredBy

/-- Whether an `allow` statement holds. -/
def evaluateAllow (conditions : Conditions ε α σ) (frame : Frame ε α) (allow : Allow ε)
    (st : WalkState α σ) : Except EvalError Bool × WalkState α σ :=
  match allow.condition with
  | none => (.ok true, st)
  | some condition =>
      match conditions.eval condition ⟨frame.functions, st.functionBindings, frame.bindings⟩
          st.eval with
      | (.ok (.bool true), eval) => (.ok true, { st with eval })
      | (.ok _, eval) => (.ok false, { st with eval })
      | (.error e, eval) => (.error e, { st with eval })

/-- Allow statements are alternatives: the first that holds allows the request. -/
def evaluateAllows (conditions : Conditions ε α σ) (method : Method) (allows : List (Allow ε))
    (frame : Frame ε α) (st : WalkState α σ) : Except EvalError Bool × WalkState α σ :=
  alternatives EvalError.severity (evaluateAllow conditions frame) (allows.filter (·.covers method)) st

/-- Whether a result ends the request. -/
def isStopped (r : Except EvalError Bool) : Bool :=
  match r with
  | .error e => stopsRequest e
  | .ok _ => false

/-- A block's own allows together with its nested blocks. -/
def either (own nested : Except EvalError Bool) : Except EvalError Bool :=
  match own, nested with
  | .error e, nested =>
      if stopsRequest e then .error e
      else match nested with
        | .ok true => .ok true
        | .ok false => .error e
        | .error e' => if stopsRequest e' then .error e' else .error e
  | .ok b, .error e => if stopsRequest e then .error e else if b then .ok true else .error e
  | .ok b, .ok b' => .ok (b || b')

/-- Binds the captures of a block for the functions it declares. -/
def bindFunctionCaptures (items : List (Item ε)) (captures : Captures α)
    (functionBindings : ℕ → Captures α) : ℕ → Captures α :=
  fun key => if key ∈ (functionsOf items).map FunctionDecl.key then captures else functionBindings key

/-- The own allows of a block if nothing remains, and then its nested blocks. -/
def evaluateInside (conditions : Conditions ε α σ) (method : Method) (allows : List (Allow ε))
    (nested : Walk ε α σ) (inner : Frame ε α) (rest : List MatchSegment) (st : WalkState α σ) :
    Except EvalError Bool × WalkState α σ :=
  let (own, st) : Except EvalError Bool × WalkState α σ :=
    if rest.isEmpty then evaluateAllows conditions method allows inner { st with matchedAny := true }
    else (.ok false, st)
  match own with
  | .ok true => (.ok true, st)
  | own =>
      if isStopped own then (own, st)
      else
        let (result, st) := nested inner rest st
        (either own result, st)

/-- Records the answer at one way into a block; after a success the outcome is not read again. -/
def recordVisit (st : VisitState α σ) :
    Except EvalError Bool × WalkState α σ → Except EvalError Bool × VisitState α σ
  | (.ok true, walk) => (.ok true, { st with walk })
  | (.ok false, walk) => (.ok false, { st with walk })
  | (.error e, walk) =>
      match e.severity with
      | .stopping => (.error e, { st with walk })
      | .deferred => (.ok false, { st with walk, raised := st.raised.or (some e) })
      | .soft =>
          match st.outcome with
          | .ok false => (.ok false, { st with walk, outcome := .error e })
          | _ => (.ok false, { st with walk })

/-- What is done at one way into a block. -/
def visitBlock (conditions : Conditions ε α σ) (method : Method) (items : List (Item ε))
    (allows : List (Allow ε)) (nested : Walk ε α σ) (frame : Frame ε α) : Visit α σ :=
  fun rest captures st =>
    let inner : Frame ε α := ⟨frame.functions ++ functionsOf items, frame.bindings ++ captures⟩
    -- only the declarations of a block read its captures
    let walk := if (functionsOf items).isEmpty then st.walk else
      { st.walk with
        functionBindings := bindFunctionCaptures items inner.bindings st.walk.functionBindings }
    recordVisit st (evaluateInside conditions method allows nested inner rest walk)

/-- Whether there is a block among items. -/
def hasBlocks (items : List (Item ε)) : Bool := items.any fun
  | .block .. => true
  | .function _ => false

/-- Visits the ways into a block; an error that was put off is the answer if none succeeds. -/
def walkPaths (zeroOrMore : Bool) (path : List (PathSegment ε)) (visit : Visit α σ)
    (endpoints : Option (List Bool)) (remaining : List MatchSegment) (st : WalkState α σ) :
    Except EvalError Bool × WalkState α σ :=
  match matchPath zeroOrMore path remaining endpoints visit ⟨st, .ok false, none⟩ with
  | (.error e, st) => (.error e, st.walk)
  | (.ok true, st) => (.ok true, st.walk)
  | (.ok false, st) =>
      match st.raised with
      | some e => (.error e, st.walk)
      | none => (st.outcome, st.walk)

/-- Walks a block: nothing to do if no allow can be reached, otherwise every way into it. -/
def walkMatch (conditions : Conditions ε α σ) (method : Method) (zeroOrMore : Bool)
    (path : List (PathSegment ε)) (items : List (Item ε)) (allows : List (Allow ε))
    (nested : Walk ε α σ) : Walk ε α σ :=
  fun frame remaining st =>
    let visit := visitBlock conditions method items allows nested frame
    match blockReachability zeroOrMore path allows (reaches zeroOrMore items) remaining
        st.prefilter with
    | (some reachability, prefilter) =>
        if reachability.canReachAllow then
          walkPaths zeroOrMore path visit
            (if hasBlocks items then some reachability.completeOffsets else none) remaining
            { st with prefilter }
        else (.ok false, { st with prefilter, matchedAny := st.matchedAny || reachability.coversPath })
    | (none, prefilter) => walkPaths zeroOrMore path visit none remaining { st with prefilter }

/-- Walks items in order. -/
def walkItems (walks : List (Walk ε α σ)) : Walk ε α σ :=
  fun frame remaining st =>
    alternatives EvalError.severity (fun walk st => walk frame remaining st) walks st

mutual

/-- The walk over an item; a function is skipped. -/
def Item.walk (conditions : Conditions ε α σ) (method : Method) (zeroOrMore : Bool) :
    Item ε → Walk ε α σ
  | .block path items allows => fun frame remaining st =>
      if firstSegmentExcludes path remaining then (.ok false, st)
      else walkMatch conditions method zeroOrMore path items allows
        (walkItems (walksOf conditions method zeroOrMore items)) frame remaining st
  | .function _ => fun _ _ st => (.ok false, st)

/-- The walks over items. -/
def walksOf (conditions : Conditions ε α σ) (method : Method) (zeroOrMore : Bool) :
    List (Item ε) → List (Walk ε α σ)
  | [] => []
  | item :: items => item.walk conditions method zeroOrMore :: walksOf conditions method zeroOrMore items

end

/-! ### The decision -/

/-- Why a request was denied. -/
inductive DenyReason
  /-- No `match` block covers the path. -/
  | noMatchingRule
  /-- Match blocks exist but no `allow` covering the method evaluated to true. -/
  | noMatchingAllow
  | unsupported (message : Str)
  | budgetExceeded (limitId : LimitId) (current maximum : ℕ)
  deriving DecidableEq

inductive Decision
  | allow
  | deny (reason : DenyReason)
  deriving DecidableEq

/-- Walks the services of a request in order. -/
def evaluateServices (conditions : Conditions ε α σ) (ctx : RequestContext) (zeroOrMore : Bool) :
    List (Service ε) → σ → Bool → Option Str → Decision
  | [], _, matchedAny, unsupported =>
      match unsupported with
      | some message => .deny (.unsupported message)
      | none => .deny (if matchedAny then .noMatchingAllow else .noMatchingRule)
  | service :: services, eval, matchedAny, unsupported =>
      if service.name ≠ ctx.service.name then
        evaluateServices conditions ctx zeroOrMore services eval matchedAny unsupported
      else
        match walkItems (walksOf conditions ctx.method zeroOrMore service.items)
            ⟨functionsOf service.items, []⟩ (matchSegments ctx)
            ⟨conditions.fresh eval, 0, ⟨0, []⟩, fun _ => [], matchedAny⟩ with
        | (.ok true, _) => .allow
        | (.error (.budget limitId current maximum), _) =>
            .deny (.budgetExceeded limitId current maximum)
        | (.error (.unsupported message), st) =>
            evaluateServices conditions ctx zeroOrMore services st.eval st.matchedAny (some message)
        | (_, st) =>
            evaluateServices conditions ctx zeroOrMore services st.eval st.matchedAny unsupported

/-- Whether a recursive wildcard can take no segment: under rules version 2. -/
def Ruleset.wildcardZeroOrMore (ruleset : Ruleset ε) : Bool := ruleset.version = some "2".toList

/-- Evaluates a request against a ruleset. -/
def evaluateRequest (conditions : Conditions ε α σ) (ruleset : Ruleset ε) (ctx : RequestContext)
    (eval : σ) : Decision :=
  evaluateServices conditions ctx ruleset.wildcardZeroOrMore ruleset.services eval false none

end Fireemu.Rules
