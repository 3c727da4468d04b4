import Fireemu.Database.TreeInvariant

/-!
# Decisions of Realtime Database rules

A rules tree gives each level its `.read`, `.write` and `.validate` rules, the levels of exact keys and
at most one level for every other key, which binds the key to a name.  A read or write is granted by
the first rule on the way to its location that is true; a write has to satisfy the `.validate` rule of
every location it leaves non-null on the way and below.

How a rule is evaluated is left open: it is a function of the rule and of what the rule can see.
-/

namespace Fireemu.Database

open Library (OrdList.get OrdList.insert)
open List

/-! ### Rules -/

/-- One level of compiled rules. -/
structure RuleNode (Rule : Type) where
  read : Option Rule
  write : Option Rule
  validate : Option Rule
  indexOn : List Str
  children : List (Str × RuleNode Rule)
  wildcard : Option (Str × RuleNode Rule)

/-- How regular expressions are read. -/
structure Dialect where
  regex : Bool

/-- Compiled rules. -/
structure Rules (Rule : Type) where
  root : RuleNode Rule
  dialect : Dialect

/-- What children are ordered by. -/
inductive OrderBy
  | priority | key | value
  | child (path : Path)

/-- The key half of a bound. -/
inductive BoundKey
  | min | max
  | name (key : Str)

/-- One end of a range. -/
structure Bound where
  value : Json
  key : BoundKey
  inclusive : Bool

/-- How many children a query keeps. -/
inductive Limit
  | first (n : ℕ)
  | last (n : ℕ)

/-- A query on the children of one location. -/
structure QueryParams where
  orderBy : OrderBy
  start : Option Bound
  «end» : Option Bound
  limit : Option Limit

/-- A location in one version of the tree. -/
structure Snapshot where
  root : Option Node
  path : Path

/-- The kind of read a rule judges, which decides the order of a read without a query. -/
inductive ReadKind
  | get | stream | check

/-- The keys that the wildcards on the way to a level stand for, by name. -/
abbrev Bindings := List (Str × Str)

/-- What a rule can see. -/
structure Scope where
  auth : Json
  now : I64
  root : Snapshot
  data : Snapshot
  newData : Option Snapshot
  query : Option QueryParams
  readKind : ReadKind
  wildcards : Bindings
  dialect : Dialect

/-- Who asks, and when. -/
structure Requester where
  auth : Json
  now : I64

variable {Rule : Type}

/-- The level for a key: of the exact key, else of the wildcard, which binds. -/
def descend (node : RuleNode Rule) (key : Str) (wildcards : Bindings) : Option (RuleNode Rule × Bindings) :=
  match OrdList.get key node.children with
  | some child => some (child, wildcards)
  | none => node.wildcard.map fun (name, child) => (child, OrdList.insert name key wildcards)

variable {key : Str} {child level : RuleNode Rule} {map : Bindings}
  {judge : RuleNode Rule → Path → Bindings → Bool} {at' : Path} {keys : List Str}

theorem sizeOf_get_lt {children : List (Str × RuleNode Rule)} (h : OrdList.get key children = some child) :
    sizeOf child < sizeOf children := by
  have hmem := sizeOf_lt_of_mem (Library.OrdList.mem_of_get h)
  rw [Prod.mk.sizeOf_spec] at hmem
  omega

/-- A level below is smaller. -/
theorem sizeOf_descend_lt {node : RuleNode Rule} {wildcards bound : Bindings}
    (h : descend node key wildcards = some (child, bound)) : sizeOf child < sizeOf node := by
  obtain ⟨read, write, validate, indexOn, children, wildcard⟩ := node
  rw [RuleNode.mk.sizeOf_spec]
  unfold descend at h
  split at h
  · rename_i hget
    cases h
    have : sizeOf child < sizeOf children := sizeOf_get_lt hget
    omega
  · obtain ⟨⟨name, child'⟩, hw, heq⟩ := Option.map_eq_some_iff.1 h
    cases heq
    dsimp only at hw
    rw [hw, Option.some.sizeOf_spec, Prod.mk.sizeOf_spec]
    omega

/-- Whether the judgement of a level on the way to a location is true, from a level on. -/
def someOnTheWay (judge : RuleNode Rule → Path → Bindings → Bool) :
    RuleNode Rule → Bindings → Path → List Str → Bool
  | node, wildcards, at', [] => judge node at' wildcards
  | node, wildcards, at', key :: keys =>
      judge node at' wildcards ||
        match descend node key wildcards with
        | some (child, bound) => someOnTheWay judge child bound (at' ++ [key]) keys
        | none => false

namespace Rules

variable (allows : Rule → Scope → Bool) (rules : Rules Rule)

/-- Whether a read is granted. -/
def canReadAs (root : Option Node) (path : Path) (query : Option QueryParams) (kind : ReadKind)
    (requester : Requester) : Bool :=
  someOnTheWay (fun node at' wildcards => node.read.any fun rule => allows rule
    { auth := requester.auth, now := requester.now, root := ⟨root, []⟩, data := ⟨root, at'⟩,
      newData := none, query := query, readKind := kind, wildcards := wildcards,
      dialect := rules.dialect }) rules.root [] [] path

/-- What the rules of a write can see at a location. -/
def scope (before after : Option Node) (at' : Path) (requester : Requester) (wildcards : Bindings) :
    Scope where
  auth := requester.auth
  now := requester.now
  root := ⟨before, []⟩
  data := ⟨before, at'⟩
  newData := some ⟨after, at'⟩
  query := none
  readKind := .check
  wildcards := wildcards
  dialect := rules.dialect

/-- Whether a `.write` rule on the way to a location is true. -/
def writeAllowed (before after : Option Node) (path : Path) (requester : Requester) : Bool :=
  someOnTheWay (fun node at' wildcards => node.write.any fun rule =>
    allows rule (rules.scope before after at' requester wildcards)) rules.root [] [] path

/-- Whether the `.validate` rule of a level is satisfied at a location. -/
def validateHere (node : RuleNode Rule) (before after : Option Node) (at' : Path)
    (requester : Requester) (wildcards : Bindings) : Bool :=
  match node.validate with
  | none => true
  | some rule =>
      if (lookup after at').isNone then true
      else allows rule (rules.scope before after at' requester wildcards)

/-- Whether the `.validate` rules at a location and below it are satisfied. -/
def validateBelow (node : RuleNode Rule) (before after : Option Node) (at' : Path)
    (requester : Requester) (wildcards : Bindings) : Bool :=
  if !rules.validateHere allows node before after at' requester wildcards then false
  else
    match lookup after at' with
    | some (.children entries _) =>
        entries.all fun (key, _) =>
          match _h : descend node key wildcards with
          | none => true
          | some (child, bound) => validateBelow child before after (at' ++ [key]) requester bound
    | _ => true
termination_by sizeOf node
decreasing_by exact sizeOf_descend_lt _h

/-- Whether the `.validate` rules on the way to a location and below it are satisfied, from a level
on. -/
def validatesFrom (before after : Option Node) (requester : Requester) :
    RuleNode Rule → Bindings → Path → List Str → Bool
  | node, wildcards, at', [] => rules.validateBelow allows node before after at' requester wildcards
  | node, wildcards, at', key :: keys =>
      if !rules.validateHere allows node before after at' requester wildcards then false
      else
        match descend node key wildcards with
        | some (child, bound) => validatesFrom before after requester child bound (at' ++ [key]) keys
        | none => true

/-- The `.validate` rules on the way to a location and in the new data below it. -/
def validates (before after : Option Node) (path : Path) (requester : Requester) : Bool :=
  rules.validatesFrom allows before after requester rules.root [] [] path

/-- The location a write is judged at: a priority belongs to its node. -/
def judged (path : Path) : Path := if path.isPriority then path.dropLast else path

/-- Whether a write that turns a tree into another one at some locations is granted. -/
def canWrite (before after : Option Node) (written : List Path) (requester : Requester) : Bool :=
  let written := written.map judged
  written.all (fun path => rules.writeAllowed allows before after path requester) &&
    written.all fun path => rules.validates allows before after path requester

end Rules

variable {node : RuleNode Rule} {wildcards : Bindings}

/-! ### What the rules mean -/

/-- A location matches a level, with the keys its wildcards stand for in the order of the way. -/
inductive Matches : RuleNode Rule → Path → RuleNode Rule → Bindings → Prop
  | here (node : RuleNode Rule) : Matches node [] node []
  | exact {node child level : RuleNode Rule} {key : Str} {path : Path} {bound : Bindings} :
      OrdList.get key node.children = some child → Matches child path level bound →
      Matches node (key :: path) level bound
  | wildcard {node child level : RuleNode Rule} {name key : Str} {path : Path} {bound : Bindings} :
      OrdList.get key node.children = none → node.wildcard = some (name, child) →
      Matches child path level bound → Matches node (key :: path) level ((name, key) :: bound)

/-- Bindings by name; of one name the last counts. -/
def Bindings.toMap (bound wildcards : Bindings) : Bindings :=
  bound.foldl (fun map (name, key) => OrdList.insert name key map) wildcards

/-- Matching a longer location starts with one step down. -/
theorem matches_cons {path : Path} :
    (∃ bound, Matches node (key :: path) level bound ∧ map = bound.toMap wildcards) ↔
      ∃ child below, descend node key wildcards = some (child, below) ∧
        ∃ bound, Matches child path level bound ∧ map = bound.toMap below := by
  constructor
  · rintro ⟨bound, hm, rfl⟩
    cases hm with
    | exact hget hm =>
      exact ⟨_, wildcards, by rw [descend, hget], _, hm, rfl⟩
    | wildcard hnone hw hm =>
      exact ⟨_, _, by rw [descend, hnone, hw]; rfl, _, hm, rfl⟩
  · rintro ⟨child, below, hd, bound, hm, rfl⟩
    unfold descend at hd
    split at hd
    · rename_i hget
      cases hd
      exact ⟨bound, .exact hget hm, rfl⟩
    · rename_i hnone
      obtain ⟨⟨name, child'⟩, hw, heq⟩ := Option.map_eq_some_iff.1 hd
      cases heq
      exact ⟨(name, key) :: bound, .wildcard hnone hw hm, rfl⟩

theorem matches_nil :
    (∃ bound, Matches node [] level bound ∧ map = bound.toMap wildcards) ↔
      level = node ∧ map = wildcards := by
  constructor
  · rintro ⟨bound, ⟨⟩, rfl⟩
    exact ⟨rfl, rfl⟩
  · rintro ⟨rfl, rfl⟩
    exact ⟨[], .here _, rfl⟩

/-- A judgement is true on the way exactly when it is true of the level some ancestor matches. -/
theorem someOnTheWay_iff :
    someOnTheWay judge node wildcards at' keys = true ↔
      ∃ way, way <+: keys ∧ ∃ level map, (∃ bound, Matches node way level bound ∧
        map = bound.toMap wildcards) ∧ judge level (at' ++ way) map = true := by
  induction keys generalizing node wildcards at' with
  | nil =>
    rw [someOnTheWay]
    constructor
    · intro h
      exact ⟨[], prefix_refl _, node, wildcards, matches_nil.2 ⟨rfl, rfl⟩, by rwa [append_nil]⟩
    · rintro ⟨way, hway, level, map, hm, hj⟩
      obtain rfl := prefix_nil.1 hway
      obtain ⟨rfl, rfl⟩ := matches_nil.1 hm
      rwa [append_nil] at hj
  | cons key keys ih =>
    rw [someOnTheWay, Bool.or_eq_true]
    constructor
    · rintro (h | h)
      · exact ⟨[], nil_prefix, node, wildcards, matches_nil.2 ⟨rfl, rfl⟩, by rwa [append_nil]⟩
      · split at h
        · rename_i child below hd
          obtain ⟨way, hway, level, map, hm, hj⟩ := ih.1 h
          refine ⟨key :: way, cons_prefix_cons.2 ⟨rfl, hway⟩, level, map, ?_, ?_⟩
          · exact matches_cons.2 ⟨child, below, hd, hm⟩
          · rwa [append_cons]
        · cases h
    · rintro ⟨way, hway, level, map, hm, hj⟩
      cases way with
      | nil =>
        obtain ⟨rfl, rfl⟩ := matches_nil.1 hm
        rw [append_nil] at hj
        exact .inl hj
      | cons key' way =>
        obtain ⟨rfl, hrest⟩ := cons_prefix_cons.1 hway
        obtain ⟨child, below, hd, hm⟩ := matches_cons.1 hm
        right
        rw [hd]
        rw [append_cons] at hj
        exact ih.2 ⟨way, hrest, level, map, hm, hj⟩

/-- What is true on the way to a location is true on the way to every location below it. -/
theorem someOnTheWay_append {below : List Str} (h : someOnTheWay judge node wildcards at' keys = true) :
    someOnTheWay judge node wildcards at' (keys ++ below) = true := by
  obtain ⟨way, hway, hl⟩ := someOnTheWay_iff.1 h
  exact someOnTheWay_iff.2 ⟨way, hway.trans (prefix_append _ _), hl⟩

namespace Rules

variable {allows : Rule → Scope → Bool} {rules : Rules Rule} {before after : Option Node}
  {requester : Requester} {node : RuleNode Rule} {at' : Path} {wildcards : Bindings}

theorem validateHere_eq_true :
    rules.validateHere allows node before after at' requester wildcards = true ↔
      ∀ rule, node.validate = some rule → (lookup after at').isSome →
        allows rule (rules.scope before after at' requester wildcards) = true := by
  unfold validateHere
  cases node.validate with
  | none => exact iff_of_true rfl nofun
  | some rule =>
    cases lookup after at' with
    | none => exact iff_of_true rfl fun _ _ h => absurd h (by decide)
    | some =>
      constructor
      · rintro h _ ⟨⟩ _
        exact h
      · exact fun h => h rule rfl rfl

/-- A location below one that is not a map is null. -/
theorem validateHere_of_lookup_none (h : lookup after at' = none) :
    rules.validateHere allows node before after at' requester wildcards = true :=
  validateHere_eq_true.2 fun _ _ hsome => by
    rw [h] at hsome
    cases hsome

theorem lookup_children {node : Option Node} {below : Path} {n : Node}
    (h : lookup node (at' ++ key :: below) = some n) :
    ∃ entries priority child, lookup node at' = some (.children entries priority) ∧
      (key, child) ∈ entries := by
  rw [lookup_append, lookup_cons] at h
  cases hat : lookup node at' with
  | none =>
    rw [hat] at h
    cases h
  | some m =>
    rw [hat] at h
    cases m with
    | leaf => cases h
    | children entries priority =>
      cases hget : OrdList.get key entries with
      | none =>
        have hchild : childOf (some (.children entries priority)) key = none := hget
        rw [hchild] at h
        cases h
      | some child => exact ⟨entries, priority, child, rfl, Library.OrdList.mem_of_get hget⟩

/-- The rules at a location and below are satisfied exactly when the rule of every level matched
below is. -/
theorem validateBelow_iff :
    rules.validateBelow allows node before after at' requester wildcards = true ↔
      ∀ below level map, (∃ bound, Matches node below level bound ∧ map = bound.toMap wildcards) →
        rules.validateHere allows level before after (at' ++ below) requester map = true := by
  induction hsize : sizeOf node using Nat.strong_induction_on generalizing node at' wildcards with
  | _ size ih =>
  rw [validateBelow]
  constructor
  · intro h below level map hm
    have hhere : rules.validateHere allows node before after at' requester wildcards = true := by
      by_contra hf
      rw [Bool.not_eq_true] at hf
      simp [hf] at h
    cases below with
    | nil =>
      obtain ⟨rfl, rfl⟩ := matches_nil.1 hm
      rwa [append_nil]
    | cons key below =>
      cases hl : lookup after (at' ++ key :: below) with
      | none => exact validateHere_of_lookup_none hl
      | some n =>
        obtain ⟨entries, priority, child, hat, hmem⟩ := lookup_children hl
        simp only [hhere, hat, Bool.not_true, Bool.false_eq_true, if_false, all_eq_true] at h
        have hkey := h _ hmem
        obtain ⟨childNode, bound, hd, hm⟩ := matches_cons.1 hm
        dsimp only at hkey
        split at hkey
        · rename_i hnone
          rw [hd] at hnone
          cases hnone
        · rename_i childNode' bound' hd'
          rw [hd] at hd'
          cases hd'
          rw [append_cons]
          exact (ih _ (hsize ▸ sizeOf_descend_lt hd) rfl).1 hkey below level map hm
  · intro h
    have hhere := h [] node wildcards (matches_nil.2 ⟨rfl, rfl⟩)
    rw [append_nil] at hhere
    rw [hhere, Bool.not_true, if_neg Bool.false_ne_true]
    split
    · rename_i entries priority hat
      rw [all_eq_true]
      rintro ⟨key, child⟩ hmem
      dsimp only
      split
      · rfl
      · rename_i childNode bound hd
        refine (ih _ (hsize ▸ sizeOf_descend_lt hd) rfl).2 fun below level map hm => ?_
        rw [← append_cons]
        exact h (key :: below) level map (matches_cons.2 ⟨childNode, bound, hd, hm⟩)
    · rfl

/-- The rules on the way and below are satisfied exactly when the rule of every level is that is
matched on the way or below. -/
theorem validatesFrom_iff :
    rules.validatesFrom allows before after requester node wildcards at' keys = true ↔
      ∀ location, location <+: keys ∨ keys <+: location → ∀ level map,
        (∃ bound, Matches node location level bound ∧ map = bound.toMap wildcards) →
        rules.validateHere allows level before after (at' ++ location) requester map = true := by
  induction keys generalizing node at' wildcards with
  | nil =>
    rw [validatesFrom, validateBelow_iff]
    constructor
    · intro h location _ level map
      exact h location level map
    · intro h below level map
      exact h below (.inr nil_prefix) level map
  | cons key keys ih =>
    rw [validatesFrom]
    constructor
    · intro h location hl level map hm
      have hhere : rules.validateHere allows node before after at' requester wildcards = true := by
        by_contra hf
        rw [Bool.not_eq_true] at hf
        simp [hf] at h
      cases location with
      | nil =>
        obtain ⟨rfl, rfl⟩ := matches_nil.1 hm
        rwa [append_nil]
      | cons key' location =>
        obtain ⟨rfl, hrest⟩ : key' = key ∧ (location <+: keys ∨ keys <+: location) := by
          rcases hl with hl | hl
          · exact (cons_prefix_cons.1 hl).imp_right .inl
          · exact ⟨(cons_prefix_cons.1 hl).1.symm, .inr (cons_prefix_cons.1 hl).2⟩
        obtain ⟨child, below, hd, hm⟩ := matches_cons.1 hm
        rw [hhere, Bool.not_true, if_neg Bool.false_ne_true, hd] at h
        rw [append_cons]
        exact ih.1 h location hrest level map hm
    · intro h
      have hhere := h [] (.inl nil_prefix) node wildcards (matches_nil.2 ⟨rfl, rfl⟩)
      rw [append_nil] at hhere
      rw [hhere, Bool.not_true, if_neg Bool.false_ne_true]
      split
      · rename_i child below hd
        refine ih.2 fun location hl level map hm => ?_
        rw [← append_cons]
        refine h (key :: location) ?_ level map (matches_cons.2 ⟨child, below, hd, hm⟩)
        exact hl.imp (fun h => cons_prefix_cons.2 ⟨rfl, h⟩)
          fun h => cons_prefix_cons.2 ⟨rfl, h⟩
      · rfl

/-! ### Grants -/

variable (allows rules before after requester)

/-- Some `.write` rule on the way to a location is true, with the bindings of its own way. -/
def Granted (path : Path) : Prop :=
  ∃ way level bound rule, way <+: path ∧ Matches rules.root way level bound ∧ level.write = some rule ∧
    allows rule (rules.scope before after way requester (bound.toMap [])) = true

/-- Every `.validate` rule that a location on the way or below matches is true, with the bindings of
its own way, if the location is non-null afterwards. -/
def Validated (path : Path) : Prop :=
  ∀ location level bound rule, location <+: path ∨ path <+: location →
    (lookup after location).isSome → Matches rules.root location level bound → level.validate = some rule →
    allows rule (rules.scope before after location requester (bound.toMap [])) = true

variable {allows rules before after requester} {path : Path}

theorem writeAllowed_iff :
    rules.writeAllowed allows before after path requester = true ↔
      rules.Granted allows before after requester path := by
  rw [writeAllowed, someOnTheWay_iff]
  constructor
  · rintro ⟨way, hway, level, map, ⟨bound, hm, rfl⟩, hj⟩
    obtain ⟨rule, hrule, hallows⟩ := (Option.any_eq_true _ _).1 hj
    exact ⟨way, level, bound, rule, hway, hm, hrule, hallows⟩
  · rintro ⟨way, level, bound, rule, hway, hm, hrule, hallows⟩
    exact ⟨way, hway, level, _, ⟨bound, hm, rfl⟩, (Option.any_eq_true _ _).2 ⟨rule, hrule, hallows⟩⟩

theorem validates_iff :
    rules.validates allows before after path requester = true ↔
      rules.Validated allows before after requester path := by
  rw [validates, validatesFrom_iff]
  constructor
  · intro h location level bound rule hl hsome hm hrule
    exact validateHere_eq_true.1 (h location hl level _ ⟨bound, hm, rfl⟩) rule hrule hsome
  · rintro h location hl level _ ⟨bound, hm, rfl⟩
    exact validateHere_eq_true.2 fun rule hrule hsome =>
      h location level bound rule hl hsome hm hrule

/-- Grants cascade to every location below, and a write is granted exactly when at every location it
writes a `.write` rule on the way is true and so is every `.validate` rule on the way and below. -/
theorem grants (allows : Rule → Scope → Bool) (rules : Rules Rule) (requester : Requester) :
    (∀ root query kind path below, rules.canReadAs allows root path query kind requester = true →
      rules.canReadAs allows root (path ++ below) query kind requester = true) ∧
    (∀ before after path below, rules.writeAllowed allows before after path requester = true →
      rules.writeAllowed allows before after (path ++ below) requester = true) ∧
    ∀ before after written, rules.canWrite allows before after written requester = true ↔
      ∀ path ∈ written, rules.Granted allows before after requester (judged path) ∧
        rules.Validated allows before after requester (judged path) := by
  refine ⟨?_, ?_, ?_⟩
  · intro root query kind path below
    exact someOnTheWay_append
  · intro before after path below
    exact someOnTheWay_append
  · intro before after written
    simp only [canWrite, Bool.and_eq_true, List.all_map, List.all_eq_true, Function.comp_apply,
      writeAllowed_iff, validates_iff]
    exact ⟨fun h path hpath => ⟨h.1 path hpath, h.2 path hpath⟩,
      fun h => ⟨fun path hpath => (h path hpath).1, fun path hpath => (h path hpath).2⟩⟩

end Rules

end Fireemu.Database
