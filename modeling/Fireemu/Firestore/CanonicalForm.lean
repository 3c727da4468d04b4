import Fireemu.Firestore.Canonicalize
import Fireemu.Firestore.ValueOrder
import Fireemu.Library.Fallible

/-!
# Canonicalization is idempotent

The order of filters is a total preorder, by the same induction as the order of values.  `Normal`
describes the filters canonicalization leaves: every composite has at least two children, none of
its own kind or empty, in order and without equal neighbours.  What is returned is normal
(`canonicalizeFilter_normal`), and a normal filter is returned as it is
(`canonicalizeFilter_of_normal`), so a second canonicalization changes nothing.
-/

namespace Fireemu

open Library (bind_eq_ok linCmp Coherent LE sortBy coherent_of_transCmp coherent_of_nil)
open List

namespace FilterExpr

/-! ### The order of filters -/

variable {p q : FieldPath}

theorem canonicalFilterCmp_field_swap {o o' : FieldOp} {v w : Value} :
    canonicalFilterCmp (.field p o v) (.field q o' w) =
      (canonicalFilterCmp (.field q o' w) (.field p o v)).swap := by
  simp only [canonicalFilterCmp, Ordering.swap_then, ← Value.canonicalCmp_swap v w, Library.swap_cmp]

theorem canonicalFilterCmp_unary_swap {o o' : UnaryOp} :
    canonicalFilterCmp (.unary p o) (.unary q o') = (canonicalFilterCmp (.unary q o') (.unary p o)).swap := by
  simp only [canonicalFilterCmp, Ordering.swap_then, Library.swap_cmp]

mutual

theorem canonicalFilterCmp_swap :
    ∀ a b : FilterExpr, canonicalFilterCmp a b = (canonicalFilterCmp b a).swap
  | .field p o v, .field q o' w => canonicalFilterCmp_field_swap
  | .unary p o, .unary q o' => canonicalFilterCmp_unary_swap
  | .and a, .and b => by
      simp only [canonicalFilterCmp, Ordering.swap_then, ← canonicalChildrenCmp_swap a b, Library.swap_cmp]
  | .or a, .or b => by
      simp only [canonicalFilterCmp, Ordering.swap_then, ← canonicalChildrenCmp_swap a b, Library.swap_cmp]
  | .field .., .unary .. | .field .., .and _ | .field .., .or _ | .unary .., .field ..
  | .unary .., .and _ | .unary .., .or _ | .and _, .field .. | .and _, .unary .. | .and _, .or _
  | .or _, .field .. | .or _, .unary .. | .or _, .and _ => rfl

theorem canonicalChildrenCmp_swap :
    ∀ a b : List FilterExpr, canonicalChildrenCmp a b = (canonicalChildrenCmp b a).swap
  | [], [] => rfl
  | [], _ :: _ => rfl
  | _ :: _, [] => rfl
  | x :: a, y :: b => by
      rw [canonicalChildrenCmp, canonicalChildrenCmp, Ordering.swap_then,
        ← canonicalFilterCmp_swap x y, ← canonicalChildrenCmp_swap a b]

end

/-- Comparison of filters of one kind. -/
def sameRankCmp : FilterExpr → FilterExpr → Ordering
  | .field path op value, .field path' op' value' =>
      ((linCmp path path').then (linCmp op.rank op'.rank)).then (value.canonicalCmp value')
  | .unary path op, .unary path' op' => (linCmp path path').then (linCmp op.rank op'.rank)
  | .and a, .and b => canonicalChildrenCmp a b
  | .or a, .or b => canonicalChildrenCmp a b
  | _, _ => .eq

theorem canonicalFilterCmp_eq {a b : FilterExpr} :
    canonicalFilterCmp a b = (linCmp a.rank b.rank).then (sameRankCmp a b) := by
  cases a <;> cases b <;> simp only [canonicalFilterCmp, sameRankCmp]

theorem canonicalFilterCmp_coherent_of {a b d : FilterExpr}
    (h : a.rank = b.rank → a.rank = d.rank → Coherent (sameRankCmp a b) (sameRankCmp b d) (sameRankCmp a d)) :
    Coherent (canonicalFilterCmp a b) (canonicalFilterCmp b d) (canonicalFilterCmp a d) := by
  simp only [canonicalFilterCmp_eq]
  refine Coherent.then (coherent_of_transCmp _ _ _) fun hab hbd => ?_
  have hab' := Library.linCmp_eq_eq.1 hab
  exact h hab' (hab'.trans (Library.linCmp_eq_eq.1 hbd))

mutual

theorem canonicalFilterCmp_coherent : ∀ a b d : FilterExpr,
    Coherent (canonicalFilterCmp a b) (canonicalFilterCmp b d) (canonicalFilterCmp a d)
  | .field p o v, b, d => canonicalFilterCmp_coherent_of fun hb hd => by
      cases b <;> try cases hb
      cases d <;> try cases hd
      exact ((coherent_of_transCmp _ _ _).then fun _ _ => coherent_of_transCmp _ _ _).then
        fun _ _ => Value.canonicalCmp_coherent _ _ _
  | .unary p o, b, d => canonicalFilterCmp_coherent_of fun hb hd => by
      cases b <;> try cases hb
      cases d <;> try cases hd
      exact (coherent_of_transCmp _ _ _).then fun _ _ => coherent_of_transCmp _ _ _
  | .and a, b, d | .or a, b, d => canonicalFilterCmp_coherent_of fun hb hd => by
      cases b <;> try cases hb
      cases d <;> try cases hd
      exact canonicalChildrenCmp_coherent a _ _

theorem canonicalChildrenCmp_coherent : ∀ a b d : List FilterExpr,
    Coherent (canonicalChildrenCmp a b) (canonicalChildrenCmp b d) (canonicalChildrenCmp a d)
  | [], _, _ | _ :: _, [], _ | _ :: _, _ :: _, [] =>
      coherent_of_nil rfl (fun _ _ => rfl) (fun _ _ => rfl) (by simp)
  | x :: a, y :: b, z :: d =>
      (canonicalFilterCmp_coherent x y z).then fun _ _ => canonicalChildrenCmp_coherent a b d

end

instance : Std.TransCmp canonicalFilterCmp :=
  Library.transCmp_of_coherent canonicalFilterCmp_swap canonicalFilterCmp_coherent

/-! ### Normal filters -/

/-- What a canonical composite has of its children as a list. -/
structure Settled (isAnd : Bool) (children : List FilterExpr) : Prop where
  two_le : 2 ≤ children.length
  spliced_eq : ∀ c ∈ children, spliced isAnd c = [c]
  sorted : children.Pairwise (LE canonicalFilterCmp)
  distinct : children.IsChain Distinct

/-- The filters canonicalization returns, the empty conjunction apart. -/
inductive Normal : FilterExpr → Prop
  | field {path : FieldPath} {op : FieldOp} {value : Value}
      (h : canonicalizeField path op value = .ok (.field path op value)) :
      Normal (.field path op value)
  | unary (path : FieldPath) (op : UnaryOp) : Normal (.unary path op)
  | and {children : List FilterExpr} (hnormal : ∀ c ∈ children, Normal c)
      (h : Settled true children) : Normal (.and children)
  | or {children : List FilterExpr} (hnormal : ∀ c ∈ children, Normal c)
      (h : Settled false children) : Normal (.or children)

variable {isAnd production : Bool} {c f : FilterExpr}

theorem Settled.ne_nil {children : List FilterExpr} (h : Settled isAnd children) : children ≠ [] := by
  rintro rfl
  exact absurd h.two_le (by decide)

/-- Settled children stay as they are. -/
theorem Settled.collapse_eq {children : List FilterExpr} (h : Settled isAnd children) :
    collapse isAnd children = composite isAnd children := by
  have hne : children.isEmpty = false := by simpa using h.ne_nil
  rw [collapse, hne, Library.sortBy_of_pairwise h.sorted, destutter_of_isChain _ _ h.distinct]
  have hlen := h.two_le
  match children, hlen with
  | _ :: _ :: _, _ => rfl

/-- The composite of normal children none of which is to be spliced is normal. -/
theorem collapse_normal {flat : List FilterExpr} (h : ∀ c ∈ flat, Normal c ∧ spliced isAnd c = [c])
    (hflat : flat ≠ []) : Normal (collapse isAnd flat) := by
  unfold collapse
  rw [if_neg (by simpa using hflat)]
  have hmem : ∀ c ∈ (sortBy canonicalFilterCmp flat).destutter Distinct, c ∈ flat := fun c hc =>
    (Library.sortBy_perm flat).mem_iff.1 ((destutter_sublist _ _).subset hc)
  split
  · rename_i child hone
    rw [hone] at hmem
    exact (h child (hmem child (mem_singleton_self _))).1
  · rename_i hmany
    have hs : Settled isAnd ((sortBy canonicalFilterCmp flat).destutter Distinct) := by
      refine ⟨?_, fun c hc => (h c (hmem c hc)).2,
        (Library.pairwise_sortBy flat).sublist (destutter_sublist _ _), isChain_destutter _ _⟩
      have hne : (sortBy canonicalFilterCmp flat).destutter Distinct ≠ [] := fun hnil => by
        have hsort := (destutter_eq_nil _).1 hnil
        have := (Library.sortBy_perm (c := canonicalFilterCmp) flat).length_eq
        rw [hsort] at this
        exact hflat (length_eq_zero_iff.1 this.symm)
      match hl : (sortBy canonicalFilterCmp flat).destutter Distinct, hne with
      | [c], _ => exact absurd hl (hmany c)
      | _ :: _ :: _, _ => simp
    have hnormal := fun c hc => (h c (hmem c hc)).1
    cases isAnd with
    | true => exact .and hnormal hs
    | false => exact .or hnormal hs

/-- What is spliced into a composite is normal and not to be spliced further. -/
theorem spliced_normal (h : f = .and [] ∨ Normal f) :
    ∀ c ∈ spliced isAnd f, Normal c ∧ spliced isAnd c = [c] := by
  rcases h with rfl | h
  · intro c hc
    cases isAnd <;> cases hc
  · intro c hc
    cases h with
    | field h =>
      rw [spliced, List.mem_singleton] at hc
      subst hc
      exact ⟨.field h, rfl⟩
    | unary path op =>
      rw [spliced, List.mem_singleton] at hc
      subst hc
      exact ⟨.unary path op, rfl⟩
    | @and children hnormal h =>
      have hne : children.isEmpty = false := by simpa using h.ne_nil
      cases isAnd with
      | true => exact ⟨hnormal c hc, h.spliced_eq c hc⟩
      | false =>
        simp only [spliced, hne, Bool.or_self, Bool.false_eq_true, if_false, List.mem_singleton] at hc
        subst hc
        exact ⟨.and hnormal h, by simp [spliced, hne]⟩
    | @or children hnormal h =>
      have hne : children.isEmpty = false := by simpa using h.ne_nil
      cases isAnd with
      | false => exact ⟨hnormal c hc, h.spliced_eq c hc⟩
      | true =>
        simp only [spliced, hne, Bool.not_true, Bool.or_self, Bool.false_eq_true, if_false,
          List.mem_singleton] at hc
        subst hc
        exact ⟨.or hnormal h, by simp [spliced, hne]⟩

theorem canonicalizeField_ok {path : FieldPath} {op : FieldOp} {value : Value}
    (h : canonicalizeField path op value = .ok f) : f = .field path op value := by
  unfold canonicalizeField at h
  split_ifs at h
  · split at h <;> cases h
    rfl
  · cases h
    rfl

/-- What holds of conditions and passes through composites holds of canonical forms. -/
structure Inherited (production : Bool) (P : FilterExpr → FilterExpr → Prop)
    (Q : Bool → List FilterExpr → List FilterExpr → Prop) : Prop where
  field : ∀ {path op value}, canonicalizeField path op value = .ok (.field path op value) →
    P (.field path op value) (.field path op value)
  unary : ∀ path op, P (.unary path op) (.unary path op)
  composite : ∀ {isAnd children flat}, canonicalizeChildren production isAnd children = .ok flat →
    (production = true → isAnd = false → children ≠ []) → Q isAnd children flat →
      P (composite isAnd children) (collapse isAnd flat)
  nil : ∀ isAnd, Q isAnd [] []
  cons : ∀ {isAnd child c children flat}, canonicalizeFilter production child = .ok c →
    P child c → Q isAnd children flat → Q isAnd (child :: children) (spliced isAnd c ++ flat)

section Induction

variable {production : Bool} {P : FilterExpr → FilterExpr → Prop}
  {Q : Bool → List FilterExpr → List FilterExpr → Prop} (hi : Inherited production P Q)

include hi

mutual

theorem Inherited.filter : ∀ f c : FilterExpr, canonicalizeFilter production f = .ok c → P f c
  | .field path op value, c, h => by
      have hc : c = .field path op value := canonicalizeField_ok h
      subst hc
      exact hi.field h
  | .unary path op, c, h => by
      cases h
      exact hi.unary path op
  | .and children, c, h => by
      obtain ⟨flat, hflat, ⟨⟩⟩ := bind_eq_ok.1 h
      have := hi.composite hflat nofun (Inherited.children true children flat hflat)
      exact this
  | .or children, c, h => by
      rw [canonicalizeFilter] at h
      split_ifs at h with he
      obtain ⟨flat, hflat, ⟨⟩⟩ := bind_eq_ok.1 h
      have := hi.composite hflat (fun hp _ hchildren => he (by rw [hp, hchildren]; rfl))
        (Inherited.children false children flat hflat)
      exact this

theorem Inherited.children : ∀ (isAnd : Bool) (children flat : List FilterExpr),
    canonicalizeChildren production isAnd children = .ok flat → Q isAnd children flat
  | isAnd, [], flat, h => by
      cases h
      exact hi.nil isAnd
  | isAnd, child :: children, flat, h => by
      obtain ⟨c, hc, h⟩ := bind_eq_ok.1 h
      obtain ⟨rest, hrest, ⟨⟩⟩ := bind_eq_ok.1 h
      exact hi.cons hc (Inherited.filter child c hc) (Inherited.children isAnd children rest hrest)

end

end Induction

theorem inherited_normal :
    Inherited production (fun _ c => c = .and [] ∨ Normal c)
      (fun isAnd _ flat => ∀ c ∈ flat, Normal c ∧ spliced isAnd c = [c]) where
  field h := .inr (.field h)
  unary path op := .inr (.unary path op)
  composite {_ _ flat} _ _ h := (eq_or_ne flat []).imp (by rintro rfl; rfl) (collapse_normal h)
  nil _ := by simp
  cons _ hc hflat d hd := (mem_append.1 hd).elim (spliced_normal hc d) (hflat d)

/-- What canonicalization returns is normal. -/
theorem canonicalizeFilter_normal (h : canonicalizeFilter production f = .ok c) : c = .and [] ∨ Normal c :=
  inherited_normal.filter f c h

mutual

/-- A normal filter is its own canonical form. -/
theorem canonicalizeFilter_of_normal (production : Bool) :
    ∀ f : FilterExpr, Normal f → canonicalizeFilter production f = .ok f
  | .field _ _ _, .field h => h
  | .unary _ _, _ => rfl
  | .and children, .and hnormal h => by
      rw [canonicalizeFilter, canonicalizeChildren_of_normal production true children hnormal h.spliced_eq]
      exact congrArg Except.ok h.collapse_eq
  | .or children, .or hnormal h => by
      have hne : children.isEmpty = false := by simpa using h.ne_nil
      rw [canonicalizeFilter, hne, Bool.and_false, if_neg Bool.false_ne_true,
        canonicalizeChildren_of_normal production false children hnormal h.spliced_eq]
      exact congrArg Except.ok h.collapse_eq

theorem canonicalizeChildren_of_normal (production isAnd : Bool) : ∀ children : List FilterExpr,
    (∀ c ∈ children, Normal c) → (∀ c ∈ children, spliced isAnd c = [c]) →
      canonicalizeChildren production isAnd children = .ok children
  | [], _, _ => rfl
  | child :: children, hnormal, hs => by
      rw [forall_mem_cons] at hnormal hs
      rw [canonicalizeChildren, canonicalizeFilter_of_normal production child hnormal.1,
        canonicalizeChildren_of_normal production isAnd children hnormal.2 hs.2]
      change Except.ok (spliced isAnd child ++ children) = _
      rw [hs.1]
      rfl

end

theorem canonicalizeFilter_idempotent (h : canonicalizeFilter production f = .ok c) :
    canonicalizeFilter production c = .ok c := by
  rcases canonicalizeFilter_normal h with rfl | hnormal
  · rfl
  · exact canonicalizeFilter_of_normal production c hnormal

end FilterExpr

namespace Query

variable {production : Bool}

theorem checkedFilter_ok {c : FilterExpr} {filter : Option FilterExpr}
    (h : checkedFilter production c = .ok filter) : (c = .and [] ∧ filter = none) ∨ filter = some c := by
  unfold checkedFilter at h
  split at h
  · cases h
    exact .inl ⟨rfl, rfl⟩
  · obtain ⟨⟨⟩, -, h⟩ := bind_eq_ok.1 h
    obtain ⟨⟨⟩, -, h⟩ := bind_eq_ok.1 h
    obtain ⟨⟨⟩, -, ⟨⟩⟩ := bind_eq_ok.1 h
    exact .inr rfl

theorem canonicalizeOptional_idempotent {filter canonical : Option FilterExpr}
    (h : canonicalizeOptional production filter = .ok canonical) :
    canonicalizeOptional production canonical = .ok canonical := by
  cases filter with
  | none =>
    cases h
    rfl
  | some =>
    obtain ⟨c, hf, h⟩ := bind_eq_ok.1 h
    rcases checkedFilter_ok h with ⟨-, rfl⟩ | rfl
    · rfl
    · -- the filter is its own canonical form, and the checks it passed are made again
      rw [canonicalizeOptional, FilterExpr.canonicalizeFilter_idempotent hf]
      exact h

/-- A canonical query has the canonical filter, and passes the checks. -/
theorem canonicalizeWith_eq_ok {q c : Query} :
    q.canonicalizeWith production = .ok c ↔ ∃ filter, canonicalizeOptional production q.filter = .ok filter ∧
      c = { q with filter := filter, productionRefusals := production } ∧
      checkCanonical production c = .ok () := by
  unfold canonicalizeWith
  rw [bind_eq_ok]
  refine exists_congr fun filter => and_congr_right fun _ => ?_
  rw [bind_eq_ok]
  constructor
  · rintro ⟨⟨⟩, hcheck, ⟨⟩⟩
    exact ⟨rfl, hcheck⟩
  · rintro ⟨rfl, hcheck⟩
    exact ⟨⟨⟩, hcheck, rfl⟩

/-- Canonicalizing a canonical query changes nothing. -/
theorem canonicalizeWith_idempotent {production : Bool} {q c : Query}
    (h : q.canonicalizeWith production = .ok c) : c.canonicalizeWith production = .ok c := by
  obtain ⟨filter, hfilter, rfl, hcheck⟩ := canonicalizeWith_eq_ok.1 h
  exact canonicalizeWith_eq_ok.2 ⟨filter, canonicalizeOptional_idempotent hfilter, rfl, hcheck⟩

/-- A filter with an empty conjunction, a duplicate and a nested composite of its own kind. -/
def nestedExample : FilterExpr :=
  let a := FilterExpr.unary ⟨["a".toList], by decide⟩ .isNull
  let b := FilterExpr.unary ⟨["b".toList], by decide⟩ .isNull
  .or [.and [b, .or [.and [], a]], .or [b, a], b]

theorem canonicalizeWith_idempotent_nested :
    let q := { Query.new (.kindlessAllDescendants none) with filter := some nestedExample }
    ∃ c, q.canonicalizeWith false = .ok c ∧ c.canonicalizeWith false = .ok c := by
  intro q
  exact ⟨_, rfl, canonicalizeWith_idempotent (q := q) rfl⟩

end Query

end Fireemu
