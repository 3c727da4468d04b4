import Fireemu.Rules.PatternOffsets

/-!
# Security Rules: the reachability of blocks

Before a `match` block is walked, the evaluator computes whether an `allow` statement at or below it
can be reached at all, and for every position of its pattern from which offsets that is still
possible.  Where the work is exhausted there is no answer.  As for patterns, what is proved is that no
split of the path is left out.
-/

namespace Fireemu.Rules

open Library
open List

variable {zeroOrMore : Bool} {rest names : List Str} {offset : ℕ}

variable {ε : Type}

/-! ### The reachability of blocks -/

/-- What the subtree of a block can consume of a path. -/
structure BlockReachability where
  /-- An `allow` statement of the block or a block below it can be reached. -/
  canReachAllow : Bool
  /-- The path of the block itself can consume the whole path. -/
  coversPath : Bool
  /-- The offsets after the path of the block from which the rest can be consumed. -/
  completeOffsets : List Bool

/-- Whether the literal first segment of a header rules a block out. -/
def firstSegmentExcludes (path : List (PathSegment ε)) (segments : List MatchSegment) : Bool :=
  match path.head? with
  | some (.literal text) => segments.head? ≠ some (.literal text)
  | _ => false

/-- The reachability of a block, as a function of the path that remains. -/
abbrev Reach := List MatchSegment → Prefilter → Option BlockReachability × Prefilter

/-- Marks an offset from which a nested block can reach an `allow` statement. -/
def reachChild (segments : List MatchSegment) (reachable : List Bool) (child : List (PathSegment ε) × Reach)
    (offset : ℕ) (complete : List Bool) (st : Prefilter) : Option (List Bool) × Prefilter :=
  if reachable[offset]? = some true then
    if firstSegmentExcludes child.1 (segments.drop offset) then
      if st.work > matchPathPrefilterWorkMax then (none, st) else (some complete, st)
    else
      match child.2 (segments.drop offset) st with
      | (none, st) => (none, st)
      | (some reachability, st) =>
          let complete := if reachability.canReachAllow then complete.set offset true else complete
          if st.work > matchPathPrefilterWorkMax then (none, st) else (some complete, st)
  else (some complete, st)

/-- Whether a block or one below it can consume the whole path; `none` once the work is exhausted. -/
def blockReachability (zeroOrMore : Bool) (path : List (PathSegment ε)) (allows : List (Allow ε))
    (children : List (List (PathSegment ε) × Reach)) : Reach := fun segments st =>
  match patternReachableOffsets path segments zeroOrMore st with
  | (none, st) => (none, st)
  | (some reachable, st) =>
      let coversPath := reachable[segments.length]?.getD false
      let complete := List.replicate (segments.length + 1) false
      let complete := if !allows.isEmpty && coversPath then complete.set segments.length true else complete
      match loop (fun child => loop (reachChild segments reachable child) (List.range reachable.length))
          children complete st with
      | (none, st) => (none, st)
      | (some complete, st) => (some ⟨complete.any id, coversPath, complete⟩, st)

mutual

/-- The path and the reachability of an item that is a block. -/
def Item.reach (zeroOrMore : Bool) : Item ε → Option (List (PathSegment ε) × Reach)
  | .block path items allows =>
      some (path, blockReachability zeroOrMore path allows (reaches zeroOrMore items))
  | .function _ => none

/-- The paths and the reachability of the blocks among items. -/
def reaches (zeroOrMore : Bool) : List (Item ε) → List (List (PathSegment ε) × Reach)
  | [] => []
  | item :: items => (item.reach zeroOrMore).toList ++ reaches zeroOrMore items

end

/-- Some `allow` statement at or below an item can be reached with the whole path consumed. -/
inductive Item.Reachable (zeroOrMore : Bool) : Item ε → List Str → Prop
  | own {path : List (PathSegment ε)} {items : List (Item ε)} {allows : List (Allow ε)}
      {names : List Str} {pieces : List (List Str)} (hpath : Consumes zeroOrMore path names pieces [])
      (hallows : allows ≠ []) : Item.Reachable zeroOrMore (.block path items allows) names
  | nested {path : List (PathSegment ε)} {items : List (Item ε)} {allows : List (Allow ε)}
      {names rest : List Str} {pieces : List (List Str)} {child : Item ε}
      (hpath : Consumes zeroOrMore path names pieces rest) (hchild : child ∈ items)
      (hreachable : Item.Reachable zeroOrMore child rest) :
      Item.Reachable zeroOrMore (.block path items allows) names

section

variable {path : List (PathSegment ε)} {pieces : List (List Str)} {items : List (Item ε)}
  {complete complete' reachable : List Bool} {st st' : Prefilter} {P : List Str → Prop}

theorem Consumes.length_le (h : Consumes zeroOrMore path names pieces rest) :
    pieces.flatten.length ≤ names.length := by
  rw [h.2, length_append]
  exact Nat.le_add_right _ _

theorem Consumes.drop_eq (h : Consumes zeroOrMore path names pieces rest) :
    names.drop pieces.flatten.length = rest := by
  rw [h.2, drop_left]

/-- A block that its first segment rules out takes nothing. -/
theorem not_consumes_of_excludes (h : firstSegmentExcludes path (concrete names) = true) :
    ¬ Consumes zeroOrMore path names pieces rest := by
  intro hc
  cases path with
  | nil => simp [firstSegmentExcludes] at h
  | cons segment =>
    obtain ⟨piece, -, names', -, hfits, rfl, -⟩ := consumes_cons.1 hc
    cases segment with
    | literal text =>
      obtain rfl : piece = [text] := hfits
      simp [firstSegmentExcludes] at h
    | _ => simp [firstSegmentExcludes] at h

theorem Item.Reachable.not_excludes {allows : List (Allow ε)}
    (h : (Item.block path items allows).Reachable zeroOrMore names) :
    firstSegmentExcludes path (concrete names) = false := by
  rw [← Bool.not_eq_true]
  intro he
  cases h with
  | own hpath => exact not_consumes_of_excludes he hpath
  | nested hpath => exact not_consumes_of_excludes he hpath

/-- A reachability misses nothing: it finds what can be reached, and keeps the cache sound. -/
structure Reach.Finds (ε : Type) (reach : Reach) (reachable : List Str → Prop) : Prop where
  sound : ∀ names st, Prefilter.Sound ε st → Prefilter.Sound ε (reach (concrete names) st).2
  finds : ∀ names st r, Prefilter.Sound ε st → (reach (concrete names) st).1 = some r → reachable names →
    r.canReachAllow = true

variable {child : List (PathSegment ε) × Reach}

theorem reachChild_keeps {segments : List MatchSegment}
    (h : reachChild segments reachable child offset complete st = (some complete', st')) :
    complete'.length = complete.length ∧ ∀ o, Marked complete o → Marked complete' o := by
  unfold reachChild at h
  by_cases hreachable : reachable[offset]? = some true
  · rw [if_pos hreachable] at h
    split at h
    · split at h
      · cases h
      · cases h
        exact ⟨rfl, fun _ => id⟩
    · split at h
      · cases h
      · dsimp only at h
        split at h
        · cases h
        · cases h
          split
          · exact ⟨length_set, fun o => marked_set⟩
          · exact ⟨rfl, fun _ => id⟩
  · rw [if_neg hreachable] at h
    cases h
    exact ⟨rfl, fun _ => id⟩

theorem reachChild_sound (hchild : Reach.Finds ε child.2 P) (names : List Str)
    (reachable complete : List Bool) (offset : ℕ) (hst : st.Sound ε) :
    (reachChild (concrete names) reachable child offset complete st).2.Sound ε := by
  have hs := hchild.sound (names.drop offset) st hst
  unfold reachChild
  rw [show (concrete names).drop offset = concrete (names.drop offset) from map_drop.symm]
  split_ifs
  · exact hst
  · exact hst
  · split
    · rename_i heq
      rwa [heq] at hs
    · rename_i heq
      rw [heq] at hs
      dsimp only
      split_ifs <;> exact hs
  · exact hst

theorem reachChild_marks (hchild : Reach.Finds ε child.2 P)
    (h : reachChild (concrete names) reachable child offset complete st = (some complete', st'))
    (hst : st.Sound ε) (hm : Marked reachable offset) (hoffset : offset < complete.length)
    (he : firstSegmentExcludes child.1 (concrete (names.drop offset)) = false) (hP : P (names.drop offset)) :
    Marked complete' offset := by
  unfold reachChild at h
  rw [show (concrete names).drop offset = concrete (names.drop offset) from map_drop.symm,
    if_pos hm, he, if_neg Bool.false_ne_true] at h
  split at h
  · cases h
  · rename_i reachability st₁ heq
    have hf := hchild.finds (names.drop offset) st reachability hst (by rw [heq]) hP
    dsimp only at h
    rw [hf, if_pos rfl] at h
    split at h
    · cases h
    · cases h
      exact marked_set_self hoffset

theorem reaches_eq : reaches zeroOrMore items = items.filterMap (Item.reach zeroOrMore) := by
  induction items with
  | nil => rfl
  | cons item items ih =>
    rw [reaches, ih, filterMap_cons]
    cases item.reach zeroOrMore <;> rfl

/-- Whether what remains of a path can be consumed below a block. -/
def CompletesAt (zeroOrMore : Bool) (items : List (Item ε)) (allows : List (Allow ε))
    (rest : List Str) : Prop :=
  rest = [] ∧ allows ≠ [] ∨ ∃ item ∈ items, item.Reachable zeroOrMore rest

/-- What the reachability of a block says, given that of its children. -/
theorem blockReachability_spec (zeroOrMore : Bool) (names : List Str) (hp : ∀ s ∈ path, s.InHeader)
    (allows : List (Allow ε)) (hitems : ∀ item ∈ items, ∀ child, item.reach zeroOrMore = some child →
      Reach.Finds ε child.2 (item.Reachable zeroOrMore)) (hst : st.Sound ε)
    {r : Option BlockReachability × Prefilter}
    (hr : blockReachability zeroOrMore path allows (reaches zeroOrMore items) (concrete names) st = r) :
    r.2.Sound ε ∧ ∀ b, r.1 = some b → b.canReachAllow = b.completeOffsets.any id ∧
      ∀ pieces rest, Consumes zeroOrMore path names pieces rest →
        CompletesAt zeroOrMore items allows rest → Marked b.completeOffsets pieces.flatten.length := by
  subst hr
  have hchildren : ∀ child ∈ reaches zeroOrMore items, ∃ P, Reach.Finds ε child.2 P := by
    intro child hchild
    rw [reaches_eq] at hchild
    obtain ⟨item, hitem, hreach⟩ := mem_filterMap.1 hchild
    exact ⟨_, hitems item hitem child hreach⟩
  obtain ⟨hs, hcovers⟩ := patternReachableOffsets_sound zeroOrMore names hp hst
  unfold blockReachability
  match hoffsets : patternReachableOffsets path (concrete names) zeroOrMore st with
  | (none, st₁) =>
    rw [hoffsets] at hs
    exact ⟨hs, nofun⟩
  | (some reachable, st₁) =>
    rw [hoffsets] at hs hcovers
    have hcovers := hcovers reachable rfl
    dsimp only
    obtain ⟨complete, hcomplete⟩ : ∃ complete : List Bool,
      (if (!allows.isEmpty && reachable[(concrete names).length]?.getD false) = true then
        (List.replicate ((concrete names).length + 1) false).set (concrete names).length true
        else List.replicate ((concrete names).length + 1) false) = complete := ⟨_, rfl⟩
    rw [hcomplete]
    have hl : complete.length = names.length + 1 := by
      rw [← hcomplete]
      split_ifs <;> simp
    -- both loops keep the length of the marks, the marks and the cache
    have hi : ∀ child ∈ reaches zeroOrMore items, ∀ (l : List ℕ) c t c' t',
        loop (reachChild (concrete names) reachable child) l c t = (some c', t') →
        t.Sound ε → t'.Sound ε ∧ c'.length = c.length ∧ ∀ o, Marked c o → Marked c' o := by
      intro child hchild l c t c' t' hloop ht
      obtain ⟨P, hP⟩ := hchildren child hchild
      refine loop_inv (fun c₁ t₁ => t₁.Sound ε ∧ c₁.length = c.length ∧ ∀ o, Marked c o → Marked c₁ o)
        (fun o _ c₁ t₁ c₂ t₂ hstep hinv => ?_) hloop ⟨ht, rfl, fun _ => id⟩
      obtain ⟨hlen, hm⟩ := reachChild_keeps hstep
      have ht₂ := reachChild_sound hP names reachable c₁ o hinv.1
      rw [hstep] at ht₂
      exact ⟨ht₂, hlen.trans hinv.2.1, fun o ho => hm o (hinv.2.2 o ho)⟩
    have houter : (loop (fun child => loop (reachChild (concrete names) reachable child)
        (List.range reachable.length)) (reaches zeroOrMore items) complete st₁).2.Sound ε := by
      refine loop_state (fun child hchild c t ht => ?_) hs
      obtain ⟨P, hP⟩ := hchildren child hchild
      exact loop_state (fun o _ c t ht => reachChild_sound hP names reachable c o ht) ht
    match hloop : loop (fun child => loop (reachChild (concrete names) reachable child)
        (List.range reachable.length)) (reaches zeroOrMore items) complete st₁ with
    | (none, st₂) =>
      rw [hloop] at houter
      exact ⟨houter, nofun⟩
    | (some complete', st₂) =>
      rw [hloop] at houter
      refine ⟨houter, ?_⟩
      rintro b ⟨⟩
      refine ⟨rfl, fun pieces rest hc hcompletes => ?_⟩
      have hreachable : Marked reachable pieces.flatten.length := hcovers pieces rest hc
      rcases hcompletes with ⟨rfl, hallows⟩ | ⟨item, hitem, hrest⟩
      · -- marked before the loops
        have hnames : pieces.flatten.length = names.length := by
          rw [hc.2, append_nil]
        refine (loop_inv (fun c t => t.Sound ε ∧ Marked c pieces.flatten.length)
          (fun child hchild c t c' t' hstep hinv => ?_) hloop ⟨hs, ?_⟩).2
        · obtain ⟨ht', -, hm⟩ := hi child hchild _ c t c' t' hstep hinv.1
          exact ⟨ht', hm _ hinv.2⟩
        · rw [hnames] at hreachable ⊢
          rw [← hcomplete, length_map, hreachable, if_pos (by simp [hallows])]
          exact marked_set_self (by simp)
      · -- marked by the loop over the offsets for this child
        obtain ⟨path', items', allows', rfl⟩ : ∃ path' items' allows',
            item = .block path' items' allows' := by
          cases hrest with
          | own => exact ⟨_, _, _, rfl⟩
          | nested => exact ⟨_, _, _, rfl⟩
        have he := hrest.not_excludes
        rw [← hc.drop_eq] at he hrest
        have hmem : (path', blockReachability zeroOrMore path' allows' (reaches zeroOrMore items')) ∈
            reaches zeroOrMore items := by
          rw [reaches_eq]
          exact mem_filterMap.2 ⟨_, hitem, rfl⟩
        have hf := hitems _ hitem _ rfl
        refine loop_marks (fun c t => t.Sound ε ∧ c.length = names.length + 1)
          (fun c => Marked c pieces.flatten.length)
          (fun child hchild c t c' t' hstep hinv => ?_) (fun child hchild c t c' t' hstep hinv => ?_)
          hmem (fun c t c' t' hstep hinv => ?_) hloop ⟨hs, hl⟩
        · obtain ⟨ht', hlen, -⟩ := hi child hchild _ c t c' t' hstep hinv.1
          exact ⟨ht', hlen.trans hinv.2⟩
        · exact (hi child hchild _ c t c' t' hstep hinv.1).2.2 _
        · refine loop_marks (fun c t => t.Sound ε ∧ c.length = names.length + 1)
            (fun c => Marked c pieces.flatten.length)
            (fun o _ c₁ t₁ c₂ t₂ hstep hinv => ?_) (fun o _ c₁ t₁ c₂ t₂ hstep _ => ?_)
            (List.mem_range.2 (List.getElem?_eq_some_iff.1 hreachable).1)
            (fun c₁ t₁ c₂ t₂ hstep hinv => ?_) hstep hinv
          · have ht₂ := reachChild_sound hf names reachable c₁ o hinv.1
            rw [hstep] at ht₂
            exact ⟨ht₂, (reachChild_keeps hstep).1.trans hinv.2⟩
          · exact (reachChild_keeps hstep).2 _
          · refine reachChild_marks hf hstep hinv.1 hreachable ?_ he hrest
            rw [hinv.2]
            exact Nat.lt_succ_of_le hc.length_le

theorem any_of_marked {marks : List Bool} {o : ℕ} (h : Marked marks o) : marks.any id = true :=
  any_eq_true.2 ⟨true, mem_of_getElem? h, rfl⟩

/-- The reachability of an item finds what can be reached through it. -/
theorem Item.reach_finds (item : Item ε) (hp : item.Parsed) (hchild : item.reach zeroOrMore = some child) :
    Reach.Finds ε child.2 (item.Reachable zeroOrMore) := by
  induction item using Item.induction generalizing child with
  | block path items allows ih =>
    cases hchild
    obtain ⟨hpath, hi⟩ := hp
    rw [allParsed_iff] at hi
    have hspec := fun (names : List Str) (st : Prefilter) (hst : st.Sound ε) =>
      blockReachability_spec zeroOrMore names hpath allows
        (fun item hitem child hchild => ih item hitem (hi item hitem) hchild) hst rfl
    refine ⟨fun names st hst => (hspec names st hst).1, fun names st r hst hr hreachable => ?_⟩
    obtain ⟨hany, hm⟩ := (hspec names st hst).2 r hr
    rw [hany]
    cases hreachable with
    | own hpath hallows => exact any_of_marked (hm _ _ hpath (.inl ⟨rfl, hallows⟩))
    | nested hpath hitem hrest => exact any_of_marked (hm _ _ hpath (.inr ⟨_, hitem, hrest⟩))
  | function => cases hchild

end

/-! ### From where the end of a pattern is reached -/

/-- Charges units of work. -/
def chargePrefilter : ℕ → ℕ → Bool × ℕ
  | 0, work => (true, work)
  | n + 1, work =>
      if work + 1 > matchPathPrefilterWorkMax then (false, work + 1) else chargePrefilter n (work + 1)

/-- From which offsets a segment of a pattern reaches a marked one. -/
def endpointRow (zeroOrMore : Bool) (segments : List MatchSegment) (next : List Bool) :
    PathSegment ε → List Bool
  | .recursiveWildcard _ =>
      let eligible := (List.range (segments.length + 1)).map fun offset =>
        next[offset]?.getD false && segments[offset]? ≠ some .anyPrefix
      let suffixAny := eligible.scanr (· || ·) false
      (List.range (segments.length + 1)).map fun offset =>
        let target := offset + wildcardMinimum zeroOrMore
        target ≤ segments.length && suffixAny[target]?.getD false
  | .literal text => (List.range (segments.length + 1)).map fun offset =>
      segments[offset]? = some (.literal text) && next[offset + 1]?.getD false
  | .capture _ => (List.range (segments.length + 1)).map fun offset =>
      segments[offset]?.any (· ≠ .anyPrefix) && next[offset + 1]?.getD false
  | .binding _ => List.replicate (segments.length + 1) false

/-- For every position of a pattern, from which offsets it reaches one of the endpoints; `none` once
the work is exhausted. -/
def endpointReachability (zeroOrMore : Bool) (segments : List MatchSegment) (endpoints : List Bool) :
    List (PathSegment ε) → ℕ → Option (List (List Bool)) × ℕ
  | [], work =>
      (some [(List.range (segments.length + 1)).map fun offset => endpoints[offset]?.getD false], work)
  | segment :: pattern, work =>
      match endpointReachability zeroOrMore segments endpoints pattern work with
      | (none, work) => (none, work)
      | (some table, work) =>
          match chargePrefilter (segments.length + 1) work with
          | (false, work) => (none, work)
          | (true, work) =>
              (some (endpointRow zeroOrMore segments (table.headD []) segment :: table), work)

/-- An entry of a table. -/
abbrev Entry (table : List (List Bool)) (position offset : ℕ) : Prop :=
  ∃ row, table[position]? = some row ∧ Marked row offset

section

variable {endpoints : List Bool}

theorem marked_range_map {n : ℕ} {f : ℕ → Bool} {o : ℕ} :
    Marked ((List.range n).map f) o ↔ o < n ∧ f o = true := by
  rw [Marked, getElem?_map]
  by_cases ho : o < n
  · rw [getElem?_range ho]
    simp [ho]
  · rw [getElem?_eq_none (by simpa using ho)]
    simp [ho]

variable {l : List Bool} {j : ℕ}

theorem foldr_or_of_marked (hj : Marked l j) : l.foldr (· || ·) false = true := by
  induction l generalizing j with
  | nil => cases hj
  | cons b l ih =>
    cases j with
    | zero =>
      cases hj
      rfl
    | succ => rw [foldr_cons, ih hj, Bool.or_true]

theorem marked_scanr_or {i : ℕ} (hij : i ≤ j) (hj : Marked l j) : Marked (l.scanr (· || ·) false) i := by
  induction l generalizing i j with
  | nil => cases hj
  | cons b l ih =>
    rw [scanr_cons]
    cases i with
    | zero =>
      rw [Marked, getElem?_cons_zero, foldr_or_of_marked hj]
    | succ =>
      cases j with
      | zero => omega
      | succ => exact ih (by omega) hj

theorem endpointRow_marks {segment : PathSegment ε} {piece : List Str} {next : List Bool}
    (hfits : segment.Fits zeroOrMore piece) (hdrop : names.drop offset = piece ++ rest)
    (hoffset : offset ≤ names.length) (hnext : Marked next (offset + piece.length)) :
    Marked (endpointRow zeroOrMore (concrete names) next segment) offset := by
  have hlt : offset < (concrete names).length + 1 := by
    rw [length_map]
    omega
  have hle := add_length_le_of_drop hoffset hdrop
  have hget : ∀ {text : Str}, piece = [text] → (concrete names)[offset]? = some (.literal text) := by
    rintro text rfl
    rw [getElem?_map, ← head?_drop, hdrop]
    rfl
  cases segment with
  | literal text =>
    obtain rfl : piece = [text] := hfits
    refine marked_range_map.2 ⟨hlt, ?_⟩
    rw [hget rfl, show next[offset + 1]? = some true from hnext]
    simp
  | capture =>
    obtain ⟨text, rfl⟩ : ∃ text, piece = [text] := hfits
    refine marked_range_map.2 ⟨hlt, ?_⟩
    rw [hget rfl, show next[offset + 1]? = some true from hnext]
    simp
  | recursiveWildcard =>
    have hmin : wildcardMinimum zeroOrMore ≤ piece.length := hfits
    refine marked_range_map.2 ⟨hlt, ?_⟩
    rw [Bool.and_eq_true]
    refine ⟨decide_eq_true (by rw [length_map]; omega), ?_⟩
    -- the endpoint is eligible and not before the least target
    rw [marked_scanr_or (show offset + wildcardMinimum zeroOrMore ≤ offset + piece.length by omega)
      (marked_range_map.2 ⟨by rw [length_map]; omega, ?_⟩)]
    · rfl
    · rw [hnext, Bool.and_eq_true]
      exact ⟨rfl, decide_eq_true (concrete_ne_anyPrefix)⟩
  | binding => cases hfits

/-- The table leaves no position out from which the end of the pattern is reached at an endpoint. -/
theorem endpointReachability_marks {pattern : List (PathSegment ε)} {table : List (List Bool)}
    {work work' : ℕ}
    (h : endpointReachability zeroOrMore (concrete names) endpoints pattern work = (some table, work'))
    {position : ℕ} {pieces : List (List Str)} (hp : position ≤ pattern.length)
    (hoffset : offset ≤ names.length)
    (hc : Consumes zeroOrMore (pattern.drop position) (names.drop offset) pieces rest)
    (he : Marked endpoints (offset + pieces.flatten.length)) : Entry table position offset := by
  induction pattern generalizing table work work' position offset pieces with
  | nil =>
    rw [drop_nil] at hc
    obtain ⟨rfl, -⟩ := consumes_nil.1 hc
    obtain rfl : position = 0 := Nat.le_zero.1 hp
    cases h
    refine ⟨_, rfl, marked_range_map.2 ⟨by rw [length_map]; omega, ?_⟩⟩
    rw [show endpoints[offset]? = some true from he]
    rfl
  | cons segment pattern ih =>
    rw [endpointReachability] at h
    split at h
    · cases h
    · rename_i table₁ work₁ ht
      split at h
      · cases h
      · cases h
        cases position with
        | succ => exact ih ht (Nat.le_of_succ_le_succ hp) hoffset hc he
        | zero =>
          obtain ⟨piece, pieces', names', rfl, hfits, hdrop, hc'⟩ := consumes_cons.1 hc
          have hdrop' : names.drop (offset + piece.length) = names' := by
            rw [← drop_drop, hdrop, drop_left]
          obtain ⟨row, hrow, hm⟩ := ih ht (Nat.zero_le _) (add_length_le_of_drop hoffset hdrop)
            (by rw [drop_zero, hdrop']; exact hc')
            (by rwa [flatten_cons, length_append, ← Nat.add_assoc] at he)
          refine ⟨_, rfl, endpointRow_marks hfits hdrop hoffset ?_⟩
          rw [headD_eq_head?_getD, head?_eq_getElem?, hrow]
          exact hm

end

end Fireemu.Rules
