import Fireemu.Firestore.Filter

/-!
# Disjunctive normal form

`dnfOf` expands a filter into disjunctions of atoms, an operand list of `in` or
`array-contains-any` into one disjunction for each value.  A document passes the filter exactly
when it passes all atoms of one disjunction (`accepts_dnfOf`).  `dnfCount` counts
the disjunctions without expanding them, in saturating arithmetic; `Unsaturated` says that no step
of the count exceeds 64 bits, and then the count is the length of the expansion.
-/

namespace Fireemu

open List

namespace FilterExpr

/-- The disjunctions of a field comparison. -/
def dnfOfField (path : FieldPath) (op : FieldOp) (value : Value) : List (List FilterExpr) :=
  match op, value with
  | .in, .array items => items.map fun v => [.field path .equal v]
  -- the operator stays, so that the rule on combining it with `array-contains` can see it
  | .arrayContainsAny, .array items =>
      items.map fun v => [.field path .arrayContainsAny (.array [v])]
  | op, value => [[.field path op value]]

/-- Every disjunction of one expansion together with every disjunction of another. -/
def merge (acc child : List (List FilterExpr)) : List (List FilterExpr) :=
  acc.flatMap fun a => child.map fun c => a ++ c

mutual

/-- The disjunctions of a filter. -/
def dnfOf : FilterExpr → List (List FilterExpr)
  | .field path op value => dnfOfField path op value
  | .unary path op => [[.unary path op]]
  | .or children => (dnfOfAll children).flatten
  | .and children => (dnfOfAll children).foldl merge [[]]

/-- The disjunctions of each of several filters. -/
def dnfOfAll : List FilterExpr → List (List (List FilterExpr))
  | [] => []
  | child :: children => dnfOf child :: dnfOfAll children

end

/-- The number of disjunctions of a field comparison. -/
def dnfCountField (op : FieldOp) (value : Value) : ℕ :=
  match op, value with
  | .in, .array items => items.length
  | .arrayContainsAny, .array items => items.length
  | _, _ => 1

mutual

/-- The number of disjunctions of a filter. -/
def dnfCount : FilterExpr → ℕ
  | .field _ op value => dnfCountField op value
  | .unary _ _ => 1
  | .or children => (dnfCounts children).foldl saturatingAdd 0
  | .and children => (dnfCounts children).foldl saturatingMul 1

/-- The numbers of disjunctions of several filters. -/
def dnfCounts : List FilterExpr → List ℕ
  | [] => []
  | child :: children => dnfCount child :: dnfCounts children

end

/-! ### Meaning -/

/-- Whether some disjunction accepts a document. -/
def Accepts (doc : Document) (dnf : List (List FilterExpr)) : Prop :=
  ∃ disjunction ∈ dnf, ∀ atom ∈ disjunction, evalFilter doc atom = true

variable {doc : Document}

theorem accepts_singleton {f : FilterExpr} : Accepts doc [[f]] ↔ evalFilter doc f = true := by
  simp [Accepts]

variable {items : List Value} {dnfs : List (List (List FilterExpr))}

theorem accepts_map {atom : Value → FilterExpr} :
    Accepts doc (items.map fun v => [atom v]) ↔ ∃ v ∈ items, evalFilter doc (atom v) = true := by
  simp [Accepts]

theorem accepts_flatten : Accepts doc dnfs.flatten ↔ ∃ dnf ∈ dnfs, Accepts doc dnf := by
  simp only [Accepts, mem_flatten]
  constructor
  · rintro ⟨d, ⟨dnf, hdnf, hd⟩, hall⟩
    exact ⟨dnf, hdnf, d, hd, hall⟩
  · rintro ⟨dnf, hdnf, d, hd, hall⟩
    exact ⟨d, ⟨dnf, hdnf, hd⟩, hall⟩

variable {acc child : List (List FilterExpr)} {v : FieldRef} {path : FieldPath} {op : FieldOp} {value : Value}

theorem accepts_merge : Accepts doc (merge acc child) ↔ Accepts doc acc ∧ Accepts doc child := by
  simp only [Accepts, merge, mem_flatMap, mem_map]
  constructor
  · rintro ⟨_, ⟨a, ha, c, hc, rfl⟩, hall⟩
    exact ⟨⟨a, ha, fun x hx => hall x (mem_append_left _ hx)⟩,
      c, hc, fun x hx => hall x (mem_append_right _ hx)⟩
  · rintro ⟨⟨a, ha, hall⟩, c, hc, hall'⟩
    refine ⟨a ++ c, ⟨a, ha, c, hc, rfl⟩, fun x hx => ?_⟩
    rcases mem_append.1 hx with hx | hx
    · exact hall x hx
    · exact hall' x hx

theorem accepts_foldl_merge :
    Accepts doc (dnfs.foldl merge acc) ↔ Accepts doc acc ∧ ∀ dnf ∈ dnfs, Accepts doc dnf := by
  induction dnfs generalizing acc with
  | nil => simp
  | cons dnf dnfs ih => rw [foldl_cons, ih, accepts_merge, forall_mem_cons, and_assoc]

/-- A list operand of `in` matches like the equalities with its values. -/
theorem fieldMatches_in : fieldMatches v .in (.array items) = items.any fun c => fieldMatches v .equal c := by
  have hitem : ∀ c : Value, fieldMatches v .equal c = (!c.isNull && equalRef v c) := fun c => by
    unfold fieldMatches
    cases c.isNull <;> rfl
  simp only [hitem]
  rfl

/-- A list operand of `array-contains-any` matches like the lists of one of its values. -/
theorem fieldMatches_arrayContainsAny :
    fieldMatches v .arrayContainsAny (.array items) =
      items.any fun c => fieldMatches v .arrayContainsAny (.array [c]) := by
  simp only [fieldMatches, Value.isNull, Value.candidates]
  cases v.items with
  | none => simp
  | some =>
    rw [Bool.eq_iff_iff]
    simp only [Bool.false_eq_true, if_false, any_eq_true, any_cons, any_nil, Bool.or_false]
    constructor
    · rintro ⟨i, hi, c, hc, h⟩
      exact ⟨c, hc, i, hi, h⟩
    · rintro ⟨c, hc, i, hi, h⟩
      exact ⟨i, hi, c, hc, h⟩

/-- A list operand expands into comparisons with its values. -/
theorem accepts_dnfOfField_of_any {op' : FieldOp} {operand : Value → Value}
    (h : ∀ v, fieldMatches v op value = items.any fun c => fieldMatches v op' (operand c)) :
    Accepts doc (items.map fun c => [.field path op' (operand c)]) ↔
      evalFilter doc (.field path op value) = true := by
  rw [accepts_map]
  simp only [evalFilter]
  cases fieldValue doc path with
  | none => simp
  | some =>
    dsimp only
    rw [h, any_eq_true]

theorem accepts_dnfOfField :
    Accepts doc (dnfOfField path op value) ↔ evalFilter doc (.field path op value) = true := by
  unfold dnfOfField
  split
  · exact accepts_dnfOfField_of_any fun v => fieldMatches_in
  · exact accepts_dnfOfField_of_any fun v => fieldMatches_arrayContainsAny
  · exact accepts_singleton

mutual

theorem accepts_dnfOf (doc : Document) :
    ∀ f : FilterExpr, Accepts doc f.dnfOf ↔ evalFilter doc f = true
  | .field path op value => accepts_dnfOfField
  | .unary _ _ => accepts_singleton
  | .or children => by
      rw [dnfOf, accepts_flatten, exists_mem_dnfOfAll doc children, evalFilter]
  | .and children => by
      rw [dnfOf, accepts_foldl_merge, forall_mem_dnfOfAll doc children, evalFilter]
      simp [Accepts]

theorem exists_mem_dnfOfAll (doc : Document) : ∀ children : List FilterExpr,
    (∃ dnf ∈ dnfOfAll children, Accepts doc dnf) ↔ evalAny doc children = true
  | [] => by simp [dnfOfAll, evalAny]
  | child :: children => by
      rw [dnfOfAll, evalAny, exists_mem_cons_iff, Bool.or_eq_true, accepts_dnfOf doc child,
        exists_mem_dnfOfAll doc children]

theorem forall_mem_dnfOfAll (doc : Document) : ∀ children : List FilterExpr,
    (∀ dnf ∈ dnfOfAll children, Accepts doc dnf) ↔ evalAll doc children = true
  | [] => by simp [dnfOfAll, evalAll]
  | child :: children => by
      rw [dnfOfAll, evalAll, forall_mem_cons, Bool.and_eq_true, accepts_dnfOf doc child,
        forall_mem_dnfOfAll doc children]

end

/-! ### The count -/

/-- Whether every intermediate result of folding numbers fits 64 bits. -/
def FoldFits (f : ℕ → ℕ → ℕ) : ℕ → List ℕ → Prop
  | _, [] => True
  | acc, n :: ns => f acc n ≤ u64Max ∧ FoldFits f (f acc n) ns

mutual

/-- No sum and no product of the count saturates. -/
def Unsaturated : FilterExpr → Prop
  | .field _ _ _ => True
  | .unary _ _ => True
  | .or children => UnsaturatedAll children ∧ FoldFits (· + ·) 0 (dnfCounts children)
  | .and children => UnsaturatedAll children ∧ FoldFits (· * ·) 1 (dnfCounts children)

@[inherit_doc Unsaturated]
def UnsaturatedAll : List FilterExpr → Prop
  | [] => True
  | child :: children => Unsaturated child ∧ UnsaturatedAll children

end

/-- A fold none of whose steps saturates is the exact fold. -/
theorem foldl_saturating_eq {f : ℕ → ℕ → ℕ} {acc : ℕ} {ns : List ℕ} (h : FoldFits f acc ns) :
    ns.foldl (fun a n => min (f a n) u64Max) acc = ns.foldl f acc := by
  induction ns generalizing acc with
  | nil => rfl
  | cons n ns ih =>
    obtain ⟨hstep, hrest⟩ := h
    rw [foldl_cons, foldl_cons, min_eq_left hstep, ih hrest]

theorem length_merge : (merge acc child).length = acc.length * child.length := by
  simp [merge, length_flatMap]

theorem length_foldl_merge (acc : List (List FilterExpr)) :
    (dnfs.foldl merge acc).length = (dnfs.map List.length).foldl (· * ·) acc.length := by
  induction dnfs generalizing acc with
  | nil => rfl
  | cons dnf dnfs ih => rw [foldl_cons, ih, length_merge, map_cons, foldl_cons]

theorem length_flatten_foldl : dnfs.flatten.length = (dnfs.map List.length).foldl (· + ·) 0 := by
  rw [length_flatten, sum_eq_foldl]

theorem dnfCountField_eq : dnfCountField op value = (dnfOfField path op value).length := by
  unfold dnfOfField dnfCountField
  split <;> simp

mutual

theorem dnfCount_eq : ∀ f : FilterExpr, f.Unsaturated → f.dnfCount = f.dnfOf.length
  | .field path op value, _ => dnfCountField_eq
  | .unary _ _, _ => rfl
  | .or children, h => by
      rw [dnfOf, length_flatten_foldl, ← dnfCounts_eq children h.1]
      exact foldl_saturating_eq h.2
  | .and children, h => by
      rw [dnfOf, length_foldl_merge, ← dnfCounts_eq children h.1]
      exact foldl_saturating_eq h.2

theorem dnfCounts_eq : ∀ children : List FilterExpr, UnsaturatedAll children →
    dnfCounts children = (dnfOfAll children).map List.length
  | [], _ => rfl
  | child :: children, h => by
      rw [dnfCounts, dnfOfAll, map_cons, dnfCount_eq child h.1, dnfCounts_eq children h.2]

end

/-! ### The atoms -/

/-- Whether a filter is about one field. -/
def isLeaf : FilterExpr → Bool
  | .field .. | .unary .. => true
  | .or _ | .and _ => false

/-- All members of an expansion are atoms. -/
def Atomic (dnf : List (List FilterExpr)) : Prop :=
  ∀ disjunction ∈ dnf, ∀ atom ∈ disjunction, atom.isLeaf = true

theorem atomic_merge (hacc : Atomic acc) (hchild : Atomic child) : Atomic (merge acc child) := by
  intro disjunction hmem atom hatom
  obtain ⟨left, hleft, hmem⟩ := mem_flatMap.1 hmem
  obtain ⟨right, hright, rfl⟩ := mem_map.1 hmem
  exact (mem_append.1 hatom).elim (hacc left hleft atom) (hchild right hright atom)

theorem atomic_foldl_merge (hacc : Atomic acc) (h : ∀ dnf ∈ dnfs, Atomic dnf) : Atomic (dnfs.foldl merge acc) :=
  dnfs.foldlRecOn merge hacc fun _ hacc dnf hdnf => atomic_merge hacc (h dnf hdnf)

theorem atomic_dnfOfField : Atomic (dnfOfField path op value) := by
  unfold dnfOfField
  split <;> simp [Atomic, isLeaf]

mutual

theorem atomic_dnfOf : ∀ f : FilterExpr, Atomic f.dnfOf
  | .field _ _ _ => atomic_dnfOfField
  | .unary _ _ => by simp [dnfOf, Atomic, isLeaf]
  | .or children => by
      intro disjunction hmem
      obtain ⟨dnf, hdnf, hmem⟩ := mem_flatten.1 hmem
      exact atomic_dnfOfAll children dnf hdnf disjunction hmem
  | .and children => atomic_foldl_merge (by simp [Atomic]) (atomic_dnfOfAll children)

theorem atomic_dnfOfAll : ∀ children : List FilterExpr, ∀ dnf ∈ dnfOfAll children, Atomic dnf
  | [] => nofun
  | child :: children => forall_mem_cons.2 ⟨atomic_dnfOf child, atomic_dnfOfAll children⟩

end

/-- The expansion means what the filter means, its disjunctions consist of atoms, and the count is its
length. -/
theorem dnf_sound_complete_counted (f : FilterExpr) :
    (∀ doc, evalFilter doc f = true ↔
      ∃ disjunction ∈ f.dnfOf, ∀ atom ∈ disjunction, evalFilter doc atom = true) ∧
    (∀ disjunction ∈ f.dnfOf, ∀ atom ∈ disjunction, atom.isLeaf = true) ∧
    (f.Unsaturated → f.dnfCount = f.dnfOf.length) :=
  ⟨fun doc => (accepts_dnfOf doc f).symm, atomic_dnfOf f, dnfCount_eq f⟩

end FilterExpr

end Fireemu
