import Fireemu.Rules.Walk

/-!
# Security Rules: the meaning of a decision

A request is permitted if there are a chain of nested `match` blocks of its service and a split of its
path over their concatenated patterns, such that the innermost block has an `allow` statement that
covers the method and holds with the captures of the split bound.  `decision_eq_meaning` says that the
walk over the blocks decides this, unless it runs out of a budget or meets an unsupported construct.

The proof follows the walk.  `Item.Permits` is the meaning along the tree of blocks; each function of
the walk is shown to decide its part of it, and to leave the cache sound and the captures of the
visible functions alone.
-/

namespace Fireemu.Rules

open Library
open List Option

variable {method : Method} {zeroOrMore : Bool} {names : List Str}

variable {ε α σ : Type}

/-! ### What the walk decides, along the tree -/

/-- What a segment of a pattern binds of its piece. -/
def PathSegment.captures : PathSegment ε → List Str → Captures α
  | .literal _, _ => []
  | .capture name, piece => piece.map fun text => (name, .string text)
  | .recursiveWildcard name, piece => [(name, .path piece)]
  | .binding _, _ => []

/-- What a pattern binds of the pieces of a split. -/
def capturesOf (pattern : List (PathSegment ε)) (pieces : List (List Str)) : Captures α :=
  (List.zipWith PathSegment.captures pattern pieces).flatten

/-- The scope inside a block, with its captures bound. -/
def Scope.enter (scope : Scope ε α) (items : List (Item ε)) (captures : Captures α) : Scope ε α where
  functions := scope.functions ++ functionsOf items
  functionBindings :=
    bindFunctionCaptures items (scope.bindings ++ captures) scope.functionBindings
  bindings := scope.bindings ++ captures

/-- The condition of an `allow` statement is absent or evaluates to exactly true. -/
def Allow.ConditionHolds (conditions : Conditions ε α σ) (scope : Scope ε α) (allow : Allow ε) : Prop :=
  ∀ condition, allow.condition = some condition → conditions.value condition scope = some (.bool true)

/-- An item permits what remains of the path of a request. -/
inductive Item.Permits (conditions : Conditions ε α σ) (method : Method) (zeroOrMore : Bool) :
    Scope ε α → Item ε → List Str → Prop
  | own {scope : Scope ε α} {path : List (PathSegment ε)} {items : List (Item ε)}
      {allows : List (Allow ε)} {names : List Str} {pieces : List (List Str)} {allow : Allow ε}
      (hpath : Consumes zeroOrMore path names pieces []) (hallow : allow ∈ allows)
      (hcovers : allow.covers method = true)
      (hholds : allow.ConditionHolds conditions (scope.enter items (capturesOf path pieces))) :
      Item.Permits conditions method zeroOrMore scope (.block path items allows) names
  | nested {scope : Scope ε α} {path : List (PathSegment ε)} {items : List (Item ε)}
      {allows : List (Allow ε)} {names rest : List Str} {pieces : List (List Str)} {child : Item ε}
      (hpath : Consumes zeroOrMore path names pieces rest) (hchild : child ∈ items)
      (hpermits : Item.Permits conditions method zeroOrMore
        (scope.enter items (capturesOf path pieces)) child rest) :
      Item.Permits conditions method zeroOrMore scope (.block path items allows) names

/-- A block permits what remains after its path, with captures bound. -/
def PermitsInside (conditions : Conditions ε α σ) (method : Method) (zeroOrMore : Bool) (scope : Scope ε α)
    (items : List (Item ε)) (allows : List (Allow ε)) (captures : Captures α) (rest : List Str) : Prop :=
  (rest = [] ∧ ∃ allow ∈ allows, allow.covers method = true ∧
    allow.ConditionHolds conditions (scope.enter items captures)) ∨
  ∃ child ∈ items, child.Permits conditions method zeroOrMore (scope.enter items captures) rest

variable {conditions : Conditions ε α σ} {scope : Scope ε α} {path : List (PathSegment ε)}
  {items : List (Item ε)} {allows : List (Allow ε)}

section

variable {rest : List Str}

theorem permits_block :
    (Item.block path items allows).Permits conditions method zeroOrMore scope names ↔
      ∃ pieces rest, Consumes zeroOrMore path names pieces rest ∧
        PermitsInside conditions method zeroOrMore scope items allows (capturesOf path pieces) rest := by
  constructor
  · intro h
    cases h with
    | own hpath hallow hcovers hholds =>
      exact ⟨_, _, hpath, .inl ⟨rfl, _, hallow, hcovers, hholds⟩⟩
    | nested hpath hchild hpermits => exact ⟨_, _, hpath, .inr ⟨_, hchild, hpermits⟩⟩
  · rintro ⟨pieces, rest, hpath, ⟨rfl, allow, hallow, hcovers, hholds⟩ | ⟨child, hchild, hpermits⟩⟩
    · exact .own hpath hallow hcovers hholds
    · exact .nested hpath hchild hpermits

/-- What is permitted can be reached. -/
theorem Item.Permits.reachable {item : Item ε}
    (h : item.Permits conditions method zeroOrMore scope names) : item.Reachable zeroOrMore names := by
  induction h with
  | own hpath hallow => exact .own hpath (ne_nil_of_mem hallow)
  | nested hpath hchild _ ih => exact .nested hpath hchild ih

theorem PermitsInside.completesAt {captures : Captures α}
    (h : PermitsInside conditions method zeroOrMore scope items allows captures rest) :
    CompletesAt zeroOrMore items allows rest := by
  rcases h with ⟨hrest, allow, hallow, -⟩ | ⟨child, hchild, hpermits⟩
  · exact .inl ⟨hrest, ne_nil_of_mem hallow⟩
  · exact .inr ⟨child, hchild, hpermits.reachable⟩

end

/-! ### What every step of the walk keeps -/

/-- The cache is sound, and the visible functions have captured what the scope says. -/
def Tracks (scope : Scope ε α) (st : WalkState α σ) : Prop :=
  st.prefilter.Sound ε ∧ ∀ f ∈ scope.functions, st.functionBindings f.key = scope.functionBindings f.key

/-- The stacks of a scope. -/
def Scope.frame (scope : Scope ε α) : Frame ε α := ⟨scope.functions, scope.bindings⟩

section

variable {captures : Captures α} {st : WalkState α σ}

theorem Tracks.agrees (h : Tracks scope st) :
    (⟨scope.functions, st.functionBindings, scope.bindings⟩ : Scope ε α).Agrees scope :=
  ⟨rfl, rfl, h.2⟩

/-- Binding the captures of a block enters its scope. -/
theorem Tracks.enter (h : Tracks scope st) (items : List (Item ε)) (captures : Captures α) :
    Tracks (scope.enter items captures)
      { st with
        functionBindings :=
          bindFunctionCaptures items (scope.bindings ++ captures) st.functionBindings } := by
  refine ⟨h.1, fun f hf => ?_⟩
  dsimp only [Scope.enter, bindFunctionCaptures]
  split_ifs with hkey
  · rfl
  · rcases mem_append.1 hf with hf | hf
    · exact h.2 f hf
    · exact absurd (mem_map_of_mem hf) hkey

/-- Leaving a block leaves the functions outside as they were. -/
theorem Tracks.leave (h : Tracks (scope.enter items captures) st)
    (hkeys : ∀ f ∈ scope.functions, f.key ∉ allKeys items) : Tracks scope st := by
  refine ⟨h.1, fun f hf => ?_⟩
  rw [h.2 f (mem_append_left _ hf)]
  dsimp only [Scope.enter, bindFunctionCaptures]
  rw [if_neg]
  intro hmem
  obtain ⟨g, hg, heq⟩ := mem_map.1 hmem
  exact hkeys f hf (heq ▸ key_mem_allKeys hg)

theorem bindFunctionCaptures_of_isEmpty (h : (functionsOf items).isEmpty = true)
    (functionBindings : ℕ → Captures α) :
    bindFunctionCaptures items captures functionBindings = functionBindings := by
  funext key
  rw [bindFunctionCaptures, isEmpty_iff.1 h, map_nil, if_neg not_mem_nil]

end

/-! ### Allow statements -/

/-- What is decided of a walk, with no soft error raised. -/
abbrev Settled (inv : WalkState α σ → Prop) (st : WalkState α σ)
    (r : Except EvalError Bool × WalkState α σ) (P : Prop) : Prop :=
  Settles EvalError.severity inv (fun _ => True) st r P

theorem evaluateAllow_decides (conditions : Conditions ε α σ) (allow : Allow ε) {st : WalkState α σ}
    (hst : Tracks scope st) :
    Decides EvalError.severity (Tracks scope) (fun _ => True) st
      (evaluateAllow conditions scope.frame allow st) (allow.ConditionHolds conditions scope) := by
  unfold evaluateAllow
  cases hc : allow.condition with
  | none =>
    refine ⟨hst, fun _ condition hsome => ?_, fun hf => absurd hf not_fails_true⟩
    rw [hc] at hsome
    cases hsome
  | some condition =>
    have hiff : allow.ConditionHolds conditions scope ↔
        conditions.value condition scope = some (.bool true) := by
      constructor
      · exact fun h => h condition hc
      · intro h condition' hsome
        rw [hc, Option.some.injEq] at hsome
        exact hsome ▸ h
    refine Decides.congr ?_ hiff.symm
    rw [← conditions.value_agrees condition _ _ hst.agrees]
    have hok := conditions.eval_ok condition
      ⟨scope.functions, st.functionBindings, scope.bindings⟩ st.eval
    have hsoft := conditions.eval_soft condition
      ⟨scope.functions, st.functionBindings, scope.bindings⟩ st.eval
    dsimp only [Scope.frame]
    split
    · rename_i eval heq
      rw [heq] at hok
      exact ⟨hst, fun _ => hok _ rfl, fun hf => absurd hf not_fails_true⟩
    · rename_i v eval hne heq
      rw [heq] at hok
      refine ⟨hst, nofun, fun _ _ => ⟨trivial, fun htrue => ?_⟩⟩
      rw [hok v rfl, Option.some.injEq] at htrue
      subst htrue
      exact hne rfl
    · rename_i e eval heq
      rw [heq] at hsoft
      refine ⟨hst, nofun, fun hf _ => ⟨trivial, fun hv => ?_⟩⟩
      rcases hf with hf | ⟨e', he', hf⟩
      · cases hf
      · cases hf
        rw [hsoft e rfl he'] at hv
        cases hv

theorem evaluateAllows_decides (conditions : Conditions ε α σ) (method : Method) (allows : List (Allow ε))
    (st : WalkState α σ) (hst : Tracks scope st) :
    Settled (Tracks scope) st (evaluateAllows conditions method allows scope.frame st)
      (∃ allow ∈ allows, allow.covers method = true ∧ allow.ConditionHolds conditions scope) := by
  have hmem : (∃ allow ∈ allows.filter (·.covers method), allow.ConditionHolds conditions scope) ↔
      ∃ allow ∈ allows, allow.covers method = true ∧ allow.ConditionHolds conditions scope := by
    simp only [mem_filter, and_assoc]
  exact (decides_alternatives (l := allows.filter (·.covers method))
    (fun allow _ _ hst => evaluateAllow_decides conditions allow hst) hst).congr hmem

/-! ### One way into a block -/

/-- No error was put off at the ways so far. -/
def VisitState.Clean (st : VisitState α σ) : Prop := st.raised = none

/-- What the ways into a block keep: an error that was put off is not soft, and there is no other. -/
structure Visited (inv : WalkState α σ → Prop) (st : VisitState α σ) : Prop where
  walk : inv st.walk
  raised : ∀ e, st.raised = some e → e.severity ≠ .soft
  outcome : st.outcome = .ok false

/-- No visible function is declared inside an item. -/
def Item.Outside (scope : Scope ε α) : Item ε → Prop
  | .block _ items _ => ∀ f ∈ scope.functions, f.key ∉ allKeys items
  | .function _ => True

/-- What a walk over an item has to do. -/
def Item.WalkedBy (conditions : Conditions ε α σ) (method : Method) (zeroOrMore : Bool) (item : Item ε)
    (walk : Walk ε α σ) : Prop :=
  ∀ scope names st, item.Outside scope → Tracks scope st →
    Decides EvalError.severity (Tracks scope) (fun _ => True) st (walk scope.frame (concrete names) st)
      (item.Permits conditions method zeroOrMore scope names) ∧
    Firm EvalError.severity (walk scope.frame (concrete names) st).1

/-- The own allows of a block and then its nested blocks. -/
theorem either_decides {P Q : Prop} {inv : WalkState α σ → Prop} {st st₁ st₂ : WalkState α σ}
    {own nested : Except EvalError Bool} (hne : own ≠ .ok true) (hown : Settled inv st (own, st₁) P)
    (hn : Settled inv st₁ (nested, st₂) Q) : Settled inv st (either own nested, st₂) (P ∨ Q) := by
  obtain ⟨hown, ho⟩ := hown
  obtain ⟨hn, hnestedFirm⟩ := hn
  match own, nested with
  | .ok true, _ => exact absurd rfl hne
  | .ok false, .ok true => exact settles_true hn.inv (.inr (hn.sound rfl))
  | .ok false, .ok false =>
    refine ⟨⟨hn.inv, nofun, fun _ _ => ⟨trivial, ?_⟩⟩, nofun⟩
    rintro (hP | hQ)
    · exact (hown.complete (.inl rfl) trivial).2 hP
    · exact (hn.complete (.inl rfl) trivial).2 hQ
  | .ok false, .error e =>
    rw [show either (.ok false) (.error e) = .error e by simp [either]]
    exact settles_error hn.inv hnestedFirm
  | .error e, .ok true =>
    dsimp only [either]
    split_ifs
    · exact settles_error hn.inv ho
    · exact settles_true hn.inv (.inr (hn.sound rfl))
  | .error e, .ok false =>
    rw [show either (.error e) (.ok false) = .error e by simp [either]]
    exact settles_error hn.inv ho
  | .error e, .error e' =>
    dsimp only [either]
    split_ifs
    · exact settles_error hn.inv ho
    · exact settles_error hn.inv hnestedFirm
    · exact settles_error hn.inv ho

section

theorem isStopped_iff {r : Except EvalError Bool} : isStopped r = true ↔
    ∃ e, r = .error e ∧ stopsRequest e = true := by
  cases r with
  | error => simp [isStopped]
  | ok => simp [isStopped]

/-- What a walk over the nested items has to do. -/
def WalkedInside (conditions : Conditions ε α σ) (method : Method) (zeroOrMore : Bool)
    (items : List (Item ε)) (nested : Walk ε α σ) (scope : Scope ε α) : Prop :=
  ∀ names st, Tracks scope st → Decides EvalError.severity (Tracks scope) (fun _ => True) st
      (nested scope.frame (concrete names) st)
      (∃ child ∈ items, child.Permits conditions method zeroOrMore scope names) ∧
    Firm EvalError.severity (nested scope.frame (concrete names) st).1

theorem concrete_isEmpty (names : List Str) : (concrete names).isEmpty = true ↔ names = [] := by
  rw [List.isEmpty_iff, map_eq_nil_iff]

variable {nested : Walk ε α σ} {st : VisitState α σ}

theorem evaluateInside_decides (hn : WalkedInside conditions method zeroOrMore items nested scope)
    {st : WalkState α σ} (hst : Tracks scope st) :
    Settled (Tracks scope) st
      (evaluateInside conditions method allows nested scope.frame (concrete names) st)
      ((names = [] ∧ ∃ allow ∈ allows, allow.covers method = true ∧ allow.ConditionHolds conditions scope) ∨
        ∃ child ∈ items, child.Permits conditions method zeroOrMore scope names) := by
  unfold evaluateInside
  obtain ⟨r, hr⟩ : ∃ r : Except EvalError Bool × WalkState α σ, (if (concrete names).isEmpty then
        evaluateAllows conditions method allows scope.frame { st with matchedAny := true }
        else (.ok false, st)) = r := ⟨_, rfl⟩
  rw [hr]
  have hown : Settled (Tracks scope) st r (names = [] ∧ ∃ allow ∈ allows,
      allow.covers method = true ∧ allow.ConditionHolds conditions scope) := by
    subst hr
    split_ifs with he
    · have hnames := (concrete_isEmpty names).1 he
      obtain ⟨hd, hfirm⟩ := evaluateAllows_decides conditions method allows
        { st with matchedAny := true } (show Tracks scope _ from hst)
      refine ⟨⟨hd.inv, fun hr => ⟨hnames, hd.sound hr⟩, fun hf _ => ⟨trivial, ?_⟩⟩, hfirm⟩
      exact fun h => (hd.complete hf trivial).2 h.2
    · exact settles_false hst fun h => he ((concrete_isEmpty names).2 h.1)
  obtain ⟨own, st₁⟩ := r
  obtain ⟨hd, hfirm⟩ := hown
  dsimp only
  split
  · exact settles_true hd.inv (.inl (hd.sound rfl))
  · rename_i hne
    split_ifs with hs
    · obtain ⟨e, rfl, -⟩ := isStopped_iff.1 hs
      exact settles_error hd.inv hfirm
    · exact either_decides hne ⟨hd, hfirm⟩ (hn names st₁ hd.inv)

theorem recordVisit_decides {P : Prop} {inv inv' : WalkState α σ → Prop} {st₁ : WalkState α σ}
    {r : Except EvalError Bool × WalkState α σ} (hst : Visited inv' st) (h : Settled inv st₁ r P)
    (hinv : inv r.2 → inv' r.2) :
    Settles EvalError.severity (Visited inv') VisitState.Clean st (recordVisit st r) P := by
  obtain ⟨h, hfirm⟩ := h
  have hkept : ∀ {walk}, r.2 = walk → Visited inv' { st with walk } := by
    rintro walk rfl
    exact ⟨hinv h.inv, hst.raised, hst.outcome⟩
  match r with
  | (.ok true, walk) =>
    exact settles_true (hkept rfl) (h.sound rfl)
  | (.ok false, walk) =>
    exact ⟨⟨hkept rfl, nofun, fun hf hc => ⟨hc, (h.complete hf trivial).2⟩⟩, nofun⟩
  | (.error e, walk) =>
    dsimp only [recordVisit]
    split
    · exact settles_error (hkept rfl) hfirm
    · refine ⟨⟨⟨(hkept rfl).walk, fun e' he' => ?_, hst.outcome⟩, nofun, fun _ hc => ?_⟩, nofun⟩
      · dsimp only at he'
        cases hraised : st.raised with
        | none =>
          rw [hraised] at he'
          cases he'
          exact hfirm e rfl
        | some =>
          rw [hraised] at he'
          cases he'
          exact hst.raised _ hraised
      · -- an error that was put off is not forgotten
        have hnone : st.raised.or (some e) = none := hc
        cases hraised : st.raised <;> rw [hraised] at hnone <;> cases hnone
    · rename_i hsoft
      exact absurd hsoft (hfirm e rfl)

/-- Visiting one way into a block decides whether it permits what remains. -/
theorem visitBlock_decides {captures : Captures α}
    (hn : WalkedInside conditions method zeroOrMore items nested (scope.enter items captures))
    (hkeys : ∀ f ∈ scope.functions, f.key ∉ allKeys items) (hst : Visited (Tracks scope) st) :
    Settles EvalError.severity (Visited (Tracks scope)) VisitState.Clean st
      (visitBlock conditions method items allows nested scope.frame (concrete names) captures st)
      (PermitsInside conditions method zeroOrMore scope items allows captures names) := by
  have ht : Tracks (scope.enter items captures)
      (if (functionsOf items).isEmpty then st.walk else
        { st.walk with
          functionBindings := bindFunctionCaptures items (scope.bindings ++ captures)
            st.walk.functionBindings }) := by
    have he := hst.walk.enter items captures
    split_ifs with hempty
    · rwa [bindFunctionCaptures_of_isEmpty hempty] at he
    · exact he
  exact recordVisit_decides hst (evaluateInside_decides hn ht)
    fun h => h.leave hkeys

end

/-! ### All ways into a block -/

section

variable {table : Option (List (List Bool))} {endpoint : ℕ → Prop} {pattern : List (PathSegment ε)}
  {patternIndex consumed : ℕ}

/-- A table rules no offset out from which the pattern reaches an endpoint. -/
def TableKeeps (zeroOrMore : Bool) (table : Option (List (List Bool))) (endpoint : ℕ → Prop)
    (pattern : List (PathSegment ε)) (names : List Str) (patternIndex consumed : ℕ) : Prop :=
  ∀ j o pieces rest, j ≤ pattern.length → o ≤ names.length →
    Consumes zeroOrMore (pattern.drop j) (names.drop o) pieces rest →
    endpoint (consumed + o + pieces.flatten.length) → prunes table (patternIndex + j) (consumed + o) = false

variable {pieces : List (List Str)}

theorem TableKeeps.here (h : TableKeeps zeroOrMore table endpoint pattern names patternIndex consumed)
    {rest : List Str} (hc : Consumes zeroOrMore pattern names pieces rest)
    (he : endpoint (consumed + pieces.flatten.length)) : prunes table patternIndex consumed = false :=
  h 0 0 pieces rest (Nat.zero_le _) (Nat.zero_le _) hc he

variable {segment : PathSegment ε} {st : VisitState α σ} {visit : Visit α σ} {endpoints : Option (List Bool)}

theorem TableKeeps.tail
    (h : TableKeeps zeroOrMore table endpoint (segment :: pattern) names patternIndex consumed) {take : ℕ}
    (htake : take ≤ names.length) :
    TableKeeps zeroOrMore table endpoint pattern (names.drop take) (patternIndex + 1)
      (consumed + take) := by
  intro j o pieces rest hj ho hc he
  rw [drop_drop] at hc
  rw [length_drop] at ho
  have := h (j + 1) (take + o) pieces rest (Nat.succ_le_succ hj) (by omega) hc
    (by rwa [← Nat.add_assoc])
  rwa [← Nat.add_assoc, Nat.add_right_comm patternIndex j 1, ← Nat.add_assoc] at this

theorem tableKeeps_none (zeroOrMore : Bool) (endpoint : ℕ → Prop) (pattern : List (PathSegment ε))
    (names : List Str) (patternIndex consumed : ℕ) :
    TableKeeps zeroOrMore none endpoint pattern names patternIndex consumed :=
  fun _ _ _ _ _ _ _ _ => rfl

theorem prunes_of_entry {rows : List (List Bool)} {i o : ℕ} (h : Entry rows i o) :
    prunes (some rows) i o = false := by
  obtain ⟨row, hrow, hm⟩ := h
  rw [prunes, any_some, hrow, bind_some, show row[o]? = some true from hm]
  rfl

/-- What is decided of the ways through the rest of a pattern. -/
abbrev WaysDecided (scope : Scope ε α) (st : VisitState α σ)
    (r : Except EvalError Bool × VisitState α σ) (P : Prop) : Prop :=
  Decides EvalError.severity (Visited (Tracks scope)) VisitState.Clean st r P ∧ Firm EvalError.severity r.1

theorem chargeMatch_decides {P : Prop} {next : VisitState α σ → Except EvalError Bool × VisitState α σ}
    (hst : Visited (Tracks scope) st) (hprune : prunes table patternIndex consumed = true → ¬ P)
    (hnext : ∀ st, Visited (Tracks scope) st → WaysDecided scope st (next st) P) :
    WaysDecided scope st (chargeMatch table patternIndex consumed next st) P := by
  unfold chargeMatch
  split_ifs with hp
  · exact settles_false hst (hprune hp)
  · obtain ⟨st₁, hst₁⟩ : ∃ st₁ : VisitState α σ, { st with
      walk := { st.walk with matchPathWork := st.walk.matchPathWork + 1 } } = st₁ := ⟨_, rfl⟩
    have ht : Visited (Tracks scope) st₁ := hst₁ ▸ ⟨hst.walk, hst.raised, hst.outcome⟩
    have hclean : st₁.Clean → st.Clean := by
      subst hst₁
      exact id
    dsimp only
    rw [hst₁]
    split_ifs with hwork
    · refine settles_error ht ?_
      rintro e ⟨⟩
      simp [EvalError.severity, stopsRequest]
    · obtain ⟨hd, hfirm⟩ := hnext st₁ ht
      exact ⟨⟨hd.inv, hd.sound, fun hf hc =>
        ⟨hclean (hd.complete hf hc).1, (hd.complete hf hc).2⟩⟩, hfirm⟩

theorem capturePath_concrete : (MatchSegment.capturePath (concrete names) : RulesValue α) = .path names := by
  have hmapM : (concrete names).mapM MatchSegment.text = some names := by
    induction names with
    | nil => rfl
    | cons name names ih =>
      rw [show concrete (name :: names) = .literal name :: concrete names from rfl, mapM_cons, ih]
      rfl
  rw [MatchSegment.capturePath, hmapM]
  rfl

theorem capturesOf_cons {piece : List Str} :
    (capturesOf (segment :: pattern) (piece :: pieces) : Captures α) =
      segment.captures piece ++ capturesOf pattern pieces := rfl

/-- What is to be decided of a pattern: some way through it succeeds. -/
def SomeWay (zeroOrMore : Bool) (succeeds : Captures α → List Str → Prop)
    (pattern : List (PathSegment ε)) (names : List Str) (captures : Captures α) : Prop :=
  ∃ pieces rest, Consumes zeroOrMore pattern names pieces rest ∧
    succeeds (captures ++ capturesOf pattern pieces) rest

variable {succeeds : Captures α → List Str → Prop}

/-- A way through a pattern is a piece for its first segment and a way through the rest. -/
theorem someWay_cons {captures : Captures α} :
    SomeWay zeroOrMore succeeds (segment :: pattern) names captures ↔
      ∃ take, take ≤ names.length ∧ segment.Fits zeroOrMore (names.take take) ∧
        SomeWay zeroOrMore succeeds pattern (names.drop take)
          (captures ++ segment.captures (names.take take)) := by
  constructor
  · rintro ⟨pieces, rest, hc, hs⟩
    obtain ⟨piece, pieces', names', rfl, hfits, rfl, hc'⟩ := consumes_cons.1 hc
    refine ⟨piece.length, by simp, by simpa using hfits, pieces', rest, by simpa using hc', ?_⟩
    rw [take_left, append_assoc, ← capturesOf_cons]
    exact hs
  · rintro ⟨take, -, hfits, pieces, rest, hc, hs⟩
    refine ⟨names.take take :: pieces, rest, consumes_cons.2 ⟨_, _, _, rfl, hfits,
      (take_append_drop take names).symm, hc⟩, ?_⟩
    rw [capturesOf_cons, ← append_assoc]
    exact hs

theorem head?_concrete :
    (concrete names).head? = names.head?.map .literal := head?_map

theorem mem_drop_range {m n i : ℕ} : i ∈ (List.range n).drop m ↔ m ≤ i ∧ i < n := by
  rw [mem_iff_getElem?]
  constructor
  · rintro ⟨k, hk⟩
    rw [List.getElem?_drop] at hk
    obtain ⟨hlt, heq⟩ := List.getElem?_eq_some_iff.1 hk
    rw [length_range] at hlt
    rw [getElem_range] at heq
    omega
  · rintro ⟨hmi, hin⟩
    refine ⟨i - m, ?_⟩
    rw [List.getElem?_drop, Nat.add_sub_cancel' hmi, List.getElem?_range hin]

/-- Visiting the ways through a pattern decides whether one of them succeeds. -/
theorem matchGo_decides (hv : ∀ names captures st, Visited (Tracks scope) st →
      WaysDecided scope st (visit (concrete names) captures st) (succeeds captures names))
    (captures : Captures α) (st : VisitState α σ) (hst : Visited (Tracks scope) st)
    (ht : TableKeeps zeroOrMore table endpoint pattern names patternIndex consumed)
    (hendpoint : ∀ pieces rest, Consumes zeroOrMore pattern names pieces rest →
      succeeds (captures ++ capturesOf pattern pieces) rest → endpoint (consumed + pieces.flatten.length)) :
    WaysDecided scope st
      (matchGo zeroOrMore table visit pattern (concrete names) captures patternIndex consumed st)
      (SomeWay zeroOrMore succeeds pattern names captures) := by
  have hprune : prunes table patternIndex consumed = true →
      ¬ SomeWay zeroOrMore succeeds pattern names captures := by
    rintro hp ⟨pieces, rest, hc, hs⟩
    rw [ht.here hc (hendpoint pieces rest hc hs)] at hp
    cases hp
  induction pattern generalizing names captures patternIndex consumed st with
  | nil =>
    refine chargeMatch_decides hst hprune fun st hst => ?_
    refine Settles.congr (hv names captures st hst) ?_
    constructor
    · intro h
      exact ⟨[], names, consumes_nil.2 ⟨rfl, rfl⟩, by simpa [capturesOf] using h⟩
    · rintro ⟨pieces, rest, hc, hs⟩
      obtain ⟨rfl, rfl⟩ := consumes_nil.1 hc
      simpa [capturesOf] using hs
  | cons segment pattern ih =>
    have he : ∀ take, take ≤ names.length → segment.Fits zeroOrMore (names.take take) →
        ∀ pieces rest, Consumes zeroOrMore pattern (names.drop take) pieces rest →
          succeeds (captures ++ segment.captures (names.take take) ++ capturesOf pattern pieces) rest →
          endpoint (consumed + take + pieces.flatten.length) := by
      intro take htake hfits pieces rest hc hs
      have h := hendpoint (names.take take :: pieces) rest
        (consumes_cons.2 ⟨_, _, _, rfl, hfits, (take_append_drop take names).symm, hc⟩)
        (by rwa [capturesOf_cons, ← append_assoc])
      rwa [flatten_cons, length_append, length_take, min_eq_left htake, ← Nat.add_assoc] at h
    have hpruneTail : ∀ take, take ≤ names.length → segment.Fits zeroOrMore (names.take take) →
        prunes table (patternIndex + 1) (consumed + take) = true →
        ¬ SomeWay zeroOrMore succeeds pattern (names.drop take)
          (captures ++ segment.captures (names.take take)) := by
      rintro take htake hfits hp ⟨pieces, rest, hc, hs⟩
      rw [(ht.tail htake).here hc
        (he take htake hfits pieces rest hc hs)] at hp
      cases hp
    -- the ways that take a given number of names
    have htail : ∀ take, take ≤ names.length → segment.Fits zeroOrMore (names.take take) →
        ∀ st, Visited (Tracks scope) st → WaysDecided scope st
          (matchGo zeroOrMore table visit pattern (concrete (names.drop take))
            (captures ++ segment.captures (names.take take)) (patternIndex + 1) (consumed + take) st)
          (SomeWay zeroOrMore succeeds pattern (names.drop take)
            (captures ++ segment.captures (names.take take))) := by
      intro take htake hfits st hst
      exact ih _ st hst (ht.tail htake) (he take htake hfits) (hpruneTail take htake hfits)
    have hnone : ∀ st : VisitState α σ, Visited (Tracks scope) st →
        (∀ take, take ≤ names.length → ¬ segment.Fits zeroOrMore (names.take take)) →
        WaysDecided scope st (.ok false, st)
          (SomeWay zeroOrMore succeeds (segment :: pattern) names captures) := by
      intro st hst hnot
      refine settles_false hst fun h => ?_
      obtain ⟨take, htake, hfits, -⟩ := someWay_cons.1 h
      exact hnot take htake hfits
    -- a literal and a capture take exactly one name
    have hone : (∀ piece, segment.Fits zeroOrMore piece → piece.length = 1) →
        segment.Fits zeroOrMore (names.take 1) → (SomeWay zeroOrMore succeeds pattern (names.drop 1)
            (captures ++ segment.captures (names.take 1)) ↔
          SomeWay zeroOrMore succeeds (segment :: pattern) names captures) := by
      intro hl hfits
      have hle : 1 ≤ names.length := by
        have := hl _ hfits
        rw [length_take] at this
        omega
      rw [someWay_cons]
      constructor
      · exact fun h => ⟨1, hle, hfits, h⟩
      · rintro ⟨take, htake, hfits', h⟩
        have := hl _ hfits'
        rw [length_take, min_eq_left htake] at this
        exact this ▸ h
    cases segment with
    | literal text =>
      refine chargeMatch_decides hst hprune fun st hst => ?_
      have hl : ∀ piece, (PathSegment.literal text : PathSegment ε).Fits zeroOrMore piece →
          piece.length = 1 := by
        rintro piece rfl
        rfl
      cases names with
      | nil =>
        refine hnone st hst fun take _ hfits => ?_
        simpa using hl _ hfits
      | cons name names =>
        rw [head?_concrete, head?_cons, map_some]
        by_cases hname : name = text
        · subst hname
          rw [if_pos rfl]
          obtain ⟨hd, hfirm⟩ := htail 1 (by simp) rfl st hst
          rw [show (PathSegment.literal name : PathSegment ε).captures ((name :: names).take 1) =
            ([] : Captures α) from rfl, append_nil] at hd hfirm
          refine ⟨hd.congr ?_, hfirm⟩
          have := hone hl rfl
          rwa [show (PathSegment.literal name : PathSegment ε).captures ((name :: names).take 1) =
            ([] : Captures α) from rfl, append_nil] at this
        · rw [if_neg (by simpa using hname)]
          refine hnone st hst fun take htake hfits => ?_
          have htake1 := hl _ hfits
          rw [length_take, min_eq_left htake] at htake1
          subst htake1
          exact hname (List.cons.inj hfits).1
    | capture name =>
      refine chargeMatch_decides hst hprune fun st hst => ?_
      have hl : ∀ piece, (PathSegment.capture name : PathSegment ε).Fits zeroOrMore piece →
          piece.length = 1 := by
        rintro piece ⟨text, rfl⟩
        rfl
      cases names with
      | nil =>
        refine hnone st hst fun take _ hfits => ?_
        simpa using hl _ hfits
      | cons text =>
        rw [head?_concrete, head?_cons, map_some]
        dsimp only
        rw [if_pos (by simp)]
        exact Settles.congr (htail 1 (by simp) ⟨text, rfl⟩ st hst) (hone hl ⟨text, rfl⟩)
    | recursiveWildcard name =>
      refine chargeMatch_decides hst hprune fun st hst => ?_
      have hcandidate : ∀ take ∈ (List.range ((concrete names).length + 1)).drop
          (wildcardMinimum zeroOrMore), ∀ st, Visited (Tracks scope) st → WaysDecided scope st
            (if (concrete names)[take]? = some .anyPrefix then (.ok false, st)
              else if prunes table (patternIndex + 1) (consumed + take) then (.ok false, st)
              else matchGo zeroOrMore table visit pattern ((concrete names).drop take)
                (captures ++ [(name, MatchSegment.capturePath ((concrete names).take take))])
                (patternIndex + 1) (consumed + take) st)
            (SomeWay zeroOrMore succeeds pattern (names.drop take)
              (captures ++ [(name, .path (names.take take))])) := by
        intro take htake st hst
        obtain ⟨hmin, hle⟩ := mem_drop_range.1 htake
        rw [length_map, Nat.lt_succ_iff] at hle
        have hfits : (PathSegment.recursiveWildcard name : PathSegment ε).Fits zeroOrMore
            (names.take take) := by
          show wildcardMinimum zeroOrMore ≤ (names.take take).length
          rw [length_take]
          omega
        have hd := htail take hle hfits st hst
        rw [if_neg (concrete_ne_anyPrefix), ← map_take, capturePath_concrete, ← map_drop]
        split_ifs with hp
        · -- the table rules out only what does not succeed
          exact settles_false hst (hpruneTail take hle hfits hp)
        · exact hd
      have hways : SomeWay zeroOrMore succeeds (.recursiveWildcard name :: pattern) names captures ↔
          ∃ take ∈ (List.range ((concrete names).length + 1)).drop (wildcardMinimum zeroOrMore),
            SomeWay zeroOrMore succeeds pattern (names.drop take)
              (captures ++ [(name, .path (names.take take))]) := by
        rw [someWay_cons]
        refine exists_congr fun take => ?_
        rw [mem_drop_range, length_map, Nat.lt_succ_iff]
        have hfits : take ≤ names.length →
            ((PathSegment.recursiveWildcard name : PathSegment ε).Fits zeroOrMore (names.take take) ↔
              wildcardMinimum zeroOrMore ≤ take) := by
          intro hle
          show wildcardMinimum zeroOrMore ≤ (names.take take).length ↔ _
          rw [length_take, min_eq_left hle]
        constructor
        · rintro ⟨hle, hpiece, hway⟩
          exact ⟨⟨(hfits hle).1 hpiece, hle⟩, hway⟩
        · rintro ⟨⟨hmin, hle⟩, hway⟩
          exact ⟨hle, (hfits hle).2 hmin, hway⟩
      exact (decides_search hcandidate hst).congr hways.symm
    | binding =>
      refine chargeMatch_decides hst hprune fun st hst => hnone st hst fun _ _ hfits => ?_
      exact hfits

/-- The endpoints of a path that the ways to be visited can end at, as far as these are known. -/
def Endpoints (zeroOrMore : Bool) (pattern : List (PathSegment ε)) (names : List Str)
    (succeeds : Captures α → List Str → Prop) (endpoints : Option (List Bool)) : Prop :=
  ∀ marks, endpoints = some marks → ∀ pieces rest, Consumes zeroOrMore pattern names pieces rest →
    succeeds (capturesOf pattern pieces) rest → Marked marks pieces.flatten.length

theorem matchPath_decides (hv : ∀ names captures st, Visited (Tracks scope) st →
      WaysDecided scope st (visit (concrete names) captures st) (succeeds captures names))
    (hendpoints : Endpoints zeroOrMore pattern names succeeds endpoints) (hst : Visited (Tracks scope) st) :
    WaysDecided scope st (matchPath zeroOrMore pattern (concrete names) endpoints visit st)
      (SomeWay zeroOrMore succeeds pattern names []) := by
  cases endpoints with
  | none =>
    exact matchGo_decides hv [] st hst (tableKeeps_none zeroOrMore (fun _ => True) pattern names 0 0)
      fun _ _ _ _ => trivial
  | some marks =>
    unfold matchPath
    match ht : endpointReachability zeroOrMore (concrete names) marks pattern
        st.walk.prefilter.work with
    | (table, work) =>
      dsimp only
      rw [ht]
      have hk : TableKeeps zeroOrMore table (Marked marks) pattern names 0 0 := by
        cases table with
        | none => exact tableKeeps_none zeroOrMore _ pattern names 0 0
        | some =>
          intro j o pieces rest hj ho hc he
          rw [Nat.zero_add] at he ⊢
          rw [Nat.zero_add]
          exact prunes_of_entry (endpointReachability_marks ht hj ho hc he)
      obtain ⟨hd, hfirm⟩ := matchGo_decides hv []
        { st with walk := { st.walk with prefilter := { st.walk.prefilter with work } } }
        ⟨hst.walk, hst.raised, hst.outcome⟩ hk
        fun pieces rest hc hs => by
          rw [Nat.zero_add]
          exact hendpoints marks rfl pieces rest hc hs
      exact ⟨⟨hd.inv, hd.sound, hd.complete⟩, hfirm⟩

theorem walkPaths_decides (hv : ∀ names captures st, Visited (Tracks scope) st →
      WaysDecided scope st (visit (concrete names) captures st) (succeeds captures names))
    (he : Endpoints zeroOrMore pattern names succeeds endpoints) {st : WalkState α σ} (hst : Tracks scope st) :
    Settled (Tracks scope) st (walkPaths zeroOrMore pattern visit endpoints (concrete names) st)
      (SomeWay zeroOrMore succeeds pattern names []) := by
  obtain ⟨hd, hfirm⟩ := matchPath_decides hv he
    (⟨hst, nofun, rfl⟩ : Visited (Tracks scope) ⟨st, .ok false, none⟩)
  unfold walkPaths
  match hr : matchPath zeroOrMore pattern (concrete names) endpoints visit ⟨st, .ok false, none⟩ with
  | (.error e, st₁) =>
    rw [hr] at hd hfirm
    exact settles_error hd.inv.walk hfirm
  | (.ok true, st₁) =>
    rw [hr] at hd
    exact settles_true hd.inv.walk (hd.sound rfl)
  | (.ok false, st₁) =>
    rw [hr] at hd
    have hinv := hd.inv
    dsimp only
    cases hraised : st₁.raised with
    | some e =>
      refine settles_error hinv.walk ?_
      rintro e' ⟨⟩
      exact hinv.raised e hraised
    | none =>
      dsimp only
      rw [hinv.outcome]
      exact ⟨⟨hinv.walk, nofun, fun hf _ => ⟨trivial, (hd.complete hf hraised).2⟩⟩, nofun⟩

end

/-! ### The walk over the tree -/

theorem someWay_permitsInside :
    SomeWay zeroOrMore (PermitsInside conditions method zeroOrMore scope items allows) path names [] ↔
      (Item.block path items allows).Permits conditions method zeroOrMore scope names :=
  permits_block.symm

/-- The walk over a block decides whether it permits the rest of a path. -/
theorem walkMatch_decides (hpath : ∀ s ∈ path, s.InHeader) (hitems : ∀ item ∈ items, item.Parsed)
    {nested : Walk ε α σ}
    (hn : ∀ captures, WalkedInside conditions method zeroOrMore items nested (scope.enter items captures))
    (hkeys : ∀ f ∈ scope.functions, f.key ∉ allKeys items) {st : WalkState α σ} (hst : Tracks scope st) :
    Settled (Tracks scope) st
      (walkMatch conditions method zeroOrMore path items allows nested scope.frame (concrete names) st)
      ((Item.block path items allows).Permits conditions method zeroOrMore scope names) := by
  obtain ⟨r, hr⟩ : ∃ r, blockReachability zeroOrMore path allows (reaches zeroOrMore items)
    (concrete names) st.prefilter = r := ⟨_, rfl⟩
  obtain ⟨hs, hcomplete⟩ := blockReachability_spec zeroOrMore names hpath allows
    (fun item hitem child hchild => item.reach_finds (hitems item hitem) hchild) hst.1 hr
  have hv : ∀ (names : List Str) (captures : Captures α) (st : VisitState α σ),
      Visited (Tracks scope) st → WaysDecided scope st
        (visitBlock conditions method items allows nested scope.frame (concrete names) captures st)
        (PermitsInside conditions method zeroOrMore scope items allows captures names) :=
    fun names captures st hst => visitBlock_decides (hn captures) hkeys hst
  have hwalk : ∀ endpoints, Endpoints zeroOrMore path names
      (PermitsInside conditions method zeroOrMore scope items allows) endpoints →
      ∀ st, Tracks scope st → Settled (Tracks scope) st
        (walkPaths zeroOrMore path (visitBlock conditions method items allows nested scope.frame)
          endpoints (concrete names) st)
        ((Item.block path items allows).Permits conditions method zeroOrMore scope names) := by
    intro endpoints he st hst
    exact Settles.congr (walkPaths_decides hv he hst) someWay_permitsInside
  unfold walkMatch
  dsimp only
  rw [hr]
  obtain ⟨reachability, prefilter⟩ := r
  have hst₁ : Tracks scope { st with prefilter } := ⟨hs, hst.2⟩
  cases reachability with
  | none =>
    obtain ⟨hd, hfirm⟩ := hwalk none nofun _ hst₁
    exact ⟨⟨hd.inv, hd.sound, hd.complete⟩, hfirm⟩
  | some b =>
    obtain ⟨hany, hm⟩ := hcomplete b rfl
    dsimp only
    by_cases hreach : b.canReachAllow = true
    · rw [if_pos hreach]
      obtain ⟨endpoints, he⟩ : ∃ endpoints,
        (if hasBlocks items then some b.completeOffsets else none) = endpoints := ⟨_, rfl⟩
      rw [he]
      -- the ways that matter end at an endpoint
      have hends : Endpoints zeroOrMore path names
          (PermitsInside conditions method zeroOrMore scope items allows) endpoints := by
        rintro marks hsome pieces rest hc hpermits
        rw [← he] at hsome
        split at hsome
        · cases hsome
          exact hm pieces rest hc hpermits.completesAt
        · cases hsome
      obtain ⟨hd, hfirm⟩ := hwalk endpoints hends _ hst₁
      exact ⟨⟨hd.inv, hd.sound, hd.complete⟩, hfirm⟩
    · -- no allow can be reached, so nothing is permitted
      rw [if_neg hreach]
      refine ⟨⟨⟨hs, hst.2⟩, nofun, fun _ _ => ⟨trivial, fun hpermits => hreach ?_⟩⟩, nofun⟩
      obtain ⟨pieces, rest, hc, hi⟩ := permits_block.1 hpermits
      rw [hany]
      exact any_of_marked (hm pieces rest hc hi.completesAt)

theorem walksOf_eq :
    walksOf conditions method zeroOrMore items = items.map (Item.walk conditions method zeroOrMore) := by
  induction items with
  | nil => rfl
  | cons item items ih => rw [walksOf, ih, map_cons]

/-- The walk over items decides whether one of them permits the rest of a path. -/
theorem walkItems_decides
    (hi : ∀ item ∈ items, item.WalkedBy conditions method zeroOrMore (item.walk conditions method zeroOrMore))
    (hkeys : ∀ item ∈ items, item.Outside scope) :
    WalkedInside conditions method zeroOrMore items
      (walkItems (walksOf conditions method zeroOrMore items)) scope := by
  intro names st hst
  unfold walkItems
  rw [walksOf_eq, alternatives_map]
  exact decides_alternatives
    (fun item hitem st hst => (hi item hitem scope names st (hkeys item hitem) hst).1) hst

/-- A function among items is declared outside the blocks among them. -/
theorem key_notMem_of_nodup (hn : (allKeys items).Nodup) {f : FunctionDecl ε} (hf : f ∈ functionsOf items)
    {path' : List (PathSegment ε)} {items' : List (Item ε)} {allows' : List (Allow ε)}
    (hb : Item.block path' items' allows' ∈ items) : f.key ∉ allKeys items' := by
  obtain ⟨item, hitem, hf⟩ := mem_filterMap.1 hf
  cases item with
  | block => cases hf
  | function =>
    cases hf
    rw [allKeys_eq, nodup_flatMap] at hn
    have : Std.Symm (Function.onFun List.Disjoint (Item.keys : Item ε → List ℕ)) :=
      ⟨fun _ _ h => h.symm⟩
    have hd := hn.2.forall hitem hb (by nofun)
    exact fun hmem => hd (mem_singleton.2 rfl) hmem

/-- Inside a block, its functions and those outside are declared outside the nested blocks. -/
theorem outside_enter (hn : (allKeys items).Nodup)
    (hkeys : ∀ f ∈ scope.functions, f.key ∉ allKeys items) {captures : Captures α} {item : Item ε}
    (hitem : item ∈ items) : item.Outside (scope.enter items captures) := by
  cases item with
  | function => trivial
  | block =>
    intro f hf
    rcases mem_append.1 hf with hf | hf
    · intro hmem
      refine hkeys f hf ?_
      rw [allKeys_eq, mem_flatMap]
      exact ⟨_, hitem, hmem⟩
    · exact key_notMem_of_nodup hn hf hitem

/-- The walk over an item decides whether it permits the rest of a path. -/
theorem Item.walk_walkedBy (item : Item ε) (hp : item.Parsed) (hn : item.keys.Nodup) :
    item.WalkedBy conditions method zeroOrMore (item.walk conditions method zeroOrMore) := by
  induction item using Item.induction with
  | function =>
    intro scope names st _ hst
    exact settles_false hst nofun
  | block path items allows ih =>
    intro scope names st hkeys hst
    obtain ⟨hpath, hi⟩ := hp
    rw [allParsed_iff] at hi
    have hinner : ∀ item ∈ items, item.keys.Nodup := by
      intro item hitem
      rw [Item.keys, allKeys_eq, nodup_flatMap] at hn
      exact hn.1 item hitem
    have hnested : ∀ captures, WalkedInside conditions method zeroOrMore items
        (walkItems (walksOf conditions method zeroOrMore items)) (scope.enter items captures) :=
      fun captures => walkItems_decides
        (fun item hitem => ih item hitem (hi item hitem) (hinner item hitem))
        (fun item hitem => outside_enter hn hkeys hitem)
    unfold Item.walk
    split_ifs with he
    · refine settles_false hst fun hpermits => ?_
      obtain ⟨pieces, rest, hc, -⟩ := permits_block.1 hpermits
      exact not_consumes_of_excludes he hc
    · exact walkMatch_decides hpath hi hnested hkeys hst

/-! ### Chains of blocks and splits of the path -/

/-- Blocks each of which is nested in the one before, the first among items. -/
def NestedIn : List (Item ε) → List (MatchBlock ε) → Prop
  | _, [] => True
  | items, b :: chain => b.item ∈ items ∧ NestedIn b.items chain

/-- The scope inside a chain of blocks with the captures of a split of the path bound. -/
def Scope.along (scope : Scope ε α) : List (MatchBlock ε) → List (List Str) → Scope ε α
  | [], _ => scope
  | b :: chain, pieces =>
      (scope.enter b.items (capturesOf b.path (pieces.take b.path.length))).along chain
        (pieces.drop b.path.length)

/-- Some chain of blocks among items, with a split of a path over their concatenated patterns, ends
with an `allow` statement that covers a method and holds. -/
def ChainPermits (conditions : Conditions ε α σ) (method : Method) (zeroOrMore : Bool)
    (scope : Scope ε α) (items : List (Item ε)) (names : List Str) : Prop :=
  ∃ chain innermost pieces allow, NestedIn items chain ∧ chain.getLast? = some innermost ∧
    List.Forall₂ (PathSegment.Fits zeroOrMore) (chain.flatMap MatchBlock.path) pieces ∧
    pieces.flatten = names ∧ allow ∈ innermost.allows ∧ allow.covers method = true ∧
    allow.ConditionHolds conditions (scope.along chain pieces)

theorem chainPermits_of_permits {item : Item ε} (hitem : item ∈ items)
    (h : item.Permits conditions method zeroOrMore scope names) :
    ChainPermits conditions method zeroOrMore scope items names := by
  induction h generalizing items with
  | @own scope path items' allows names pieces allow hpath hallow hcovers hholds =>
    have hl := hpath.1.length_eq
    refine ⟨[⟨path, items', allows⟩], ⟨path, items', allows⟩, pieces, allow, ⟨hitem, trivial⟩, rfl, ?_,
      ?_, hallow, hcovers, ?_⟩
    · simpa using hpath.1
    · rw [hpath.2, append_nil]
    · dsimp only [Scope.along]
      rwa [hl, take_length]
  | @nested scope path items' allows names rest pieces child hpath hchild _ ih =>
    obtain ⟨chain, innermost, pieces', allow, hn, hlast, hfits, hf, hallow, hcovers, hholds⟩ :=
      ih hchild
    have hl := hpath.1.length_eq
    refine ⟨⟨path, items', allows⟩ :: chain, innermost, pieces ++ pieces', allow, ⟨hitem, hn⟩, ?_,
      ?_, ?_, hallow, hcovers, ?_⟩
    · rw [getLast?_cons, hlast]
      rfl
    · rw [flatMap_cons]
      exact rel_append hpath.1 hfits
    · rw [flatten_append, hf, hpath.2]
    · dsimp only [Scope.along]
      rwa [hl, take_left, drop_left]

theorem permits_of_chainPermits (h : ChainPermits conditions method zeroOrMore scope items names) :
    ∃ item ∈ items, item.Permits conditions method zeroOrMore scope names := by
  obtain ⟨chain, innermost, pieces, allow, hn, hlast, hfits, hf, hallow, hcovers, hholds⟩ := h
  induction chain generalizing scope items names pieces with
  | nil => cases hlast
  | cons b chain ih =>
    obtain ⟨hb, hn⟩ := hn
    rw [flatMap_cons] at hfits
    have hfits₁ := forall₂_take b.path.length hfits
    have hfits₂ := forall₂_drop b.path.length hfits
    rw [take_left] at hfits₁
    rw [drop_left] at hfits₂
    have hnames : names = (pieces.take b.path.length).flatten ++ (pieces.drop b.path.length).flatten := by
      rw [← flatten_append, take_append_drop, hf]
    refine ⟨b.item, hb, ?_⟩
    cases chain with
    | nil =>
      -- the innermost block takes the rest of the path
      cases hlast
      rw [forall₂_nil_left_iff.1 hfits₂] at hnames
      exact .own ⟨hfits₁, hnames⟩ hallow hcovers hholds
    | cons =>
      rw [getLast?_cons_cons] at hlast
      obtain ⟨child, hchild, hpermits⟩ := ih (pieces.drop b.path.length) hn hlast hfits₂ rfl hholds
      exact .nested ⟨hfits₁, hnames⟩ hchild hpermits

/-! ### The decision -/

/-- The meaning of a ruleset for a request. -/
def Permitted (conditions : Conditions ε α σ) (ruleset : Ruleset ε) (ctx : RequestContext) : Prop :=
  ∃ service ∈ ruleset.services, service.name = ctx.service.name ∧
    ChainPermits conditions ctx.method ruleset.wildcardZeroOrMore
      ⟨functionsOf service.items, fun _ => [], []⟩ service.items ctx.names

variable {ctx : RequestContext}

/-- The walk over a service decides whether some chain of its blocks permits the request. -/
theorem walkService_decides (conditions : Conditions ε α σ) (zeroOrMore : Bool) (service : Service ε)
    (names : List Str) (method : Method) (eval : σ) (matchedAny : Bool) :
    Settled (Tracks (⟨functionsOf service.items, fun _ => [], []⟩ : Scope ε α))
      ⟨eval, 0, ⟨0, []⟩, fun _ => [], matchedAny⟩
      (walkItems (walksOf conditions method zeroOrMore service.items) ⟨functionsOf service.items, []⟩
        (concrete names) ⟨eval, 0, ⟨0, []⟩, fun _ => [], matchedAny⟩)
      (ChainPermits conditions method zeroOrMore ⟨functionsOf service.items, fun _ => [], []⟩
        service.items names) := by
  have hp := allParsed_iff.1 service.parsed
  have hd := service.distinct
  have hi : ∀ item ∈ service.items, item.keys.Nodup := by
    intro item hitem
    rw [allKeys_eq, nodup_flatMap] at hd
    exact hd.1 item hitem
  have hw : WalkedInside conditions method zeroOrMore service.items
      (walkItems (walksOf conditions method zeroOrMore service.items))
      (⟨functionsOf service.items, fun _ => [], []⟩ : Scope ε α) := by
    refine walkItems_decides
      (fun item hitem => item.walk_walkedBy (hp item hitem) (hi item hitem)) ?_
    intro item hitem
    cases item with
    | function => trivial
    | block => exact fun f hf => key_notMem_of_nodup hd hf hitem
  refine Settles.congr (hw names ⟨eval, 0, ⟨0, []⟩, fun _ => [], matchedAny⟩
    ⟨nofun, fun _ _ => rfl⟩) ⟨?_, permits_of_chainPermits⟩
  rintro ⟨item, hitem, hpermits⟩
  exact chainPermits_of_permits hitem hpermits

/-- A request that runs out of a budget or meets an unsupported construct. -/
def Decision.Undecided : Decision → Prop
  | .deny (.budgetExceeded ..) => True
  | .deny (.unsupported _) => True
  | _ => False

/-- A service of the request permits it. -/
abbrev Service.Permits (conditions : Conditions ε α σ) (ctx : RequestContext) (zeroOrMore : Bool)
    (service : Service ε) : Prop :=
  service.name = ctx.service.name ∧ ChainPermits conditions ctx.method zeroOrMore
    ⟨functionsOf service.items, fun _ => [], []⟩ service.items ctx.names

/-- What a decision tells about services, given an unsupported construct met before them. -/
structure Decision.Tells (decision : Decision) (unsupported : Option Str)
    (permits : Service ε → Prop) (services : List (Service ε)) : Prop where
  sound : decision = .allow → ∃ service ∈ services, permits service
  complete : ¬ decision.Undecided → decision ≠ .allow →
    unsupported = none ∧ ∀ service ∈ services, ¬ permits service

variable {decision : Decision} {services : List (Service ε)}

/-- A service that does not permit the request leaves it to the rest. -/
theorem Decision.Tells.cons {unsupported unsupported' : Option Str} {permits : Service ε → Prop}
    {service : Service ε} (h : decision.Tells unsupported' permits services)
    (hnone : unsupported' = none → unsupported = none ∧ ¬ permits service) :
    decision.Tells unsupported permits (service :: services) where
  sound heq := by
    obtain ⟨service', hmem, hpermits⟩ := h.sound heq
    exact ⟨service', mem_cons_of_mem _ hmem, hpermits⟩
  complete hd hne := by
    obtain ⟨hu, hs⟩ := h.complete hd hne
    obtain ⟨hu, hservice⟩ := hnone hu
    exact ⟨hu, forall_mem_cons.2 ⟨hservice, hs⟩⟩

theorem evaluateServices_tells (hctx : ctx.abstractPath = false) (eval : σ) (matchedAny : Bool)
    (unsupported : Option Str)
    (h : evaluateServices conditions ctx zeroOrMore services eval matchedAny unsupported = decision) :
    decision.Tells unsupported (Service.Permits conditions ctx zeroOrMore) services := by
  induction services generalizing eval matchedAny unsupported with
  | nil =>
    subst h
    cases unsupported with
    | some => exact ⟨nofun, fun hdecided => absurd trivial hdecided⟩
    | none => exact ⟨nofun, fun _ _ => ⟨rfl, nofun⟩⟩
  | cons service services ih =>
    rw [evaluateServices] at h
    by_cases hname : service.name = ctx.service.name
    · rw [if_neg (not_not.2 hname), matchSegments_concrete hctx] at h
      obtain ⟨hd, hfirm⟩ := walkService_decides conditions zeroOrMore service ctx.names ctx.method
        (conditions.fresh eval) matchedAny
      split at h
      · rename_i st heq
        rw [heq] at hd
        subst h
        exact ⟨fun _ => ⟨service, mem_cons_self, hname, hd.sound rfl⟩, fun _ hne => absurd rfl hne⟩
      · subst h
        exact ⟨nofun, fun hdecided => absurd trivial hdecided⟩
      · exact (ih _ _ (some _) h).cons nofun
      · rename_i r st hok hb hu heq
        rw [heq] at hd hfirm
        refine (ih _ _ unsupported h).cons fun hnone => ⟨hnone, fun hpermits => ?_⟩
        match r with
        | .ok true => exact absurd rfl hok
        | .ok false => exact (hd.complete (.inl rfl) trivial).2 hpermits.2
        | .error (.soft message) => exact absurd rfl (hfirm _ rfl)
        | .error .unknown => exact absurd rfl (hfirm _ rfl)
        | .error (.unsupported message) => exact absurd rfl (hu message)
        | .error (.budget limitId current maximum) => exact absurd rfl (hb limitId current maximum)
    · rw [if_pos hname] at h
      exact (ih eval matchedAny unsupported h).cons fun hnone => ⟨hnone, fun hpermits => hname hpermits.1⟩

/-- The decision on a concrete request is the meaning of the ruleset, unless a budget is exhausted or
an unsupported construct is evaluated; an answer that allows is right in any case. -/
theorem decision_eq_meaning (conditions : Conditions ε α σ) (ruleset : Ruleset ε) (ctx : RequestContext)
    (hctx : ctx.abstractPath = false) (eval : σ) :
    (evaluateRequest conditions ruleset ctx eval = .allow → Permitted conditions ruleset ctx) ∧
    (¬ (evaluateRequest conditions ruleset ctx eval).Undecided →
      (evaluateRequest conditions ruleset ctx eval = .allow ↔ Permitted conditions ruleset ctx)) := by
  obtain ⟨hallow, hdeny⟩ := evaluateServices_tells hctx eval false none
    (rfl : evaluateRequest conditions ruleset ctx eval = _)
  refine ⟨hallow, fun hdecided => ⟨hallow, fun hpermitted => ?_⟩⟩
  by_contra hne
  obtain ⟨service, hservice, hpermits⟩ := hpermitted
  exact (hdeny hdecided hne).2 service hservice hpermits

/-! ### A sample -/

/-- Whether a bound name is a text; raises if it is bound to no text. -/
def comparison (condition : Str × Str) (scope : Scope (Str × Str) Unit) : Option (RulesValue Unit) :=
  match scope.bindings.findRev? fun binding => binding.1 = condition.1 with
  | some (_, .string text) => some (.bool (text = condition.2))
  | _ => none

/-- Conditions that compare a bound name with a text. -/
def comparisons : Conditions (Str × Str) Unit Unit where
  eval condition scope st := ((comparison condition scope).elim (.error (.soft [])) .ok, st)
  fresh := id
  value := comparison
  eval_ok condition scope st v h := by
    cases hc : comparison condition scope with
    | none =>
      rw [hc] at h
      cases h
    | some =>
      rw [hc] at h
      cases h
      rfl
  eval_soft condition scope st e h _ := by
    cases hc : comparison condition scope with
    | none => rfl
    | some =>
      rw [hc] at h
      cases h
  value_agrees condition scope scope' h := by rw [comparison, h.bindings, comparison]

/-- A document of one name may be read. -/
def sampleRuleset : Ruleset (Str × Str) where
  version := some "2".toList
  services := [{
    name := "cloud.firestore".toList
    items := [.block [.recursiveWildcard "rest".toList] [.block [.capture "id".toList] []
      [⟨[.write], some ("id".toList, "d".toList)⟩, ⟨[.read], some ("id".toList, "c".toList)⟩]] []]
    parsed := by simp [AllParsed, Item.Parsed, PathSegment.InHeader]
    distinct := by decide }]

def sampleRequest : RequestContext := ⟨.firestore, .get, "/a/b/c".toList, false⟩

theorem decision_of_sampleRuleset :
    evaluateRequest comparisons sampleRuleset sampleRequest () = .allow ∧
      Permitted comparisons sampleRuleset sampleRequest := by
  have hallow : evaluateRequest comparisons sampleRuleset sampleRequest () = .allow := by
    decide +kernel
  exact ⟨hallow, (decision_eq_meaning comparisons sampleRuleset sampleRequest rfl ()).1 hallow⟩

/-! ### More rules -/

/-- An item with more blocks and `allow` statements, and the same functions. -/
inductive Item.Grows : Item ε → Item ε → Prop
  | refl (item : Item ε) : Item.Grows item item
  | block {path : List (PathSegment ε)} {items items' : List (Item ε)} {allows allows' : List (Allow ε)}
      (grown : Item ε → Item ε) (hmem : ∀ item ∈ items, grown item ∈ items')
      (hgrown : ∀ item ∈ items, Item.Grows item (grown item)) (hallows : allows ⊆ allows')
      (hf : functionsOf items' = functionsOf items) :
      Item.Grows (.block path items allows) (.block path items' allows')

theorem Scope.enter_congr {items items' : List (Item ε)} (h : functionsOf items' = functionsOf items)
    (scope : Scope ε α) (captures : Captures α) : scope.enter items' captures = scope.enter items captures := by
  unfold Scope.enter bindFunctionCaptures
  rw [h]

/-- What an item permits, a grown one permits. -/
theorem Item.Permits.grows {item item' : Item ε}
    (h : item.Permits conditions method zeroOrMore scope names) (hgrows : item.Grows item') :
    item'.Permits conditions method zeroOrMore scope names := by
  induction h generalizing item' with
  | own hpath hallow hcovers hholds =>
    cases hgrows with
    | refl => exact .own hpath hallow hcovers hholds
    | block _ hmem hgrown hallows hf =>
      exact .own hpath (hallows hallow) hcovers (Scope.enter_congr hf _ _ ▸ hholds)
  | nested hpath hchild hpermits ih =>
    cases hgrows with
    | refl => exact .nested hpath hchild hpermits
    | block _ hmem hgrown hallows hf =>
      exact .nested hpath (hmem _ hchild) (Scope.enter_congr hf _ _ ▸ ih (hgrown _ hchild))

/-- A ruleset with more in its services. -/
def Ruleset.Grows (R R' : Ruleset ε) : Prop :=
  R'.version = R.version ∧ ∀ service ∈ R.services, ∃ service' ∈ R'.services,
    service'.name = service.name ∧ functionsOf service'.items = functionsOf service.items ∧
      ∀ item ∈ service.items, ∃ item' ∈ service'.items, item.Grows item'

/-- Rules are additive: more blocks and `allow` statements, at any depth and in any order, revoke nothing, if the
request is decided. -/
theorem rules_additive (conditions : Conditions ε α σ) {R R' : Ruleset ε}
    (hgrows : R.Grows R') (ctx : RequestContext) (hctx : ctx.abstractPath = false) (eval eval' : σ)
    (hallow : evaluateRequest conditions R ctx eval = .allow)
    (hdecided : ¬ (evaluateRequest conditions R' ctx eval').Undecided) :
    evaluateRequest conditions R' ctx eval' = .allow := by
  by_contra hdeny
  obtain ⟨hv, hall⟩ := hgrows
  obtain ⟨service, hmem, hname, hpermits⟩ := (evaluateServices_tells hctx eval false none hallow).sound rfl
  obtain ⟨service', hmem', hname', hf, hitems⟩ := hall service hmem
  refine ((evaluateServices_tells hctx eval' false none rfl).complete hdecided hdeny).2 _ hmem'
    ⟨hname'.trans hname, ?_⟩
  obtain ⟨item, hitem, hpermits⟩ := permits_of_chainPermits hpermits
  obtain ⟨item', hitem', hgrows⟩ := hitems item hitem
  rw [hf, Ruleset.wildcardZeroOrMore, hv]
  exact chainPermits_of_permits hitem' (hpermits.grows hgrows)

/-- The sample with another `allow` and a block below its inner block, and a block beside the outer
one. -/
def grownRuleset : Ruleset (Str × Str) where
  version := some "2".toList
  services := [{
    name := "cloud.firestore".toList
    items := [.block [.literal "e".toList] [] [],
      .block [.recursiveWildcard "rest".toList] [.block [.capture "id".toList]
        [.block [.literal "f".toList] [] [⟨[.read], none⟩]]
        [⟨[.read], some ("id".toList, "z".toList)⟩, ⟨[.write], some ("id".toList, "d".toList)⟩,
          ⟨[.read], some ("id".toList, "c".toList)⟩]] []]
    parsed := by
      simp [AllParsed, Item.Parsed, PathSegment.InHeader]
      exact ⟨⟨['e'], by decide, rfl⟩, ['f'], by decide, rfl⟩
    distinct := by decide }]

theorem rules_additive_of_grownRuleset :
    evaluateRequest comparisons grownRuleset sampleRequest () = .allow := by
  have hgrows : sampleRuleset.Grows grownRuleset := by
    refine ⟨rfl, forall_mem_singleton.2 ⟨_, mem_singleton_self _, rfl, rfl, forall_mem_singleton.2
      ⟨_, mem_cons_of_mem _ mem_cons_self, ?_⟩⟩⟩
    refine .block (fun _ => _) (forall_mem_singleton.2 mem_cons_self) (forall_mem_singleton.2 ?_)
      (Subset.refl _) rfl
    exact .block id nofun nofun (subset_cons_self _ _) rfl
  refine rules_additive comparisons hgrows sampleRequest rfl () () (by decide +kernel) ?_
  rw [show evaluateRequest .. = .allow by decide +kernel]
  exact id

end Fireemu.Rules
