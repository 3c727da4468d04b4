import Fireemu.Rules.Ruleset
import Fireemu.Library.Loop

/-!
# Security Rules: the offsets a pattern reaches

A split of a path over a pattern gives each segment of the pattern its piece of the path.  The
evaluator computes which offsets of the request path a pattern can reach; the work is bounded, and
where the bound is exceeded there is no answer.  The offsets of a pattern are cached under its shape,
a text from which a parsed pattern can be read off up to the names of its captures.

The walk only uses the answers to leave candidates out.  So what is proved of them is that they leave
nothing out that a split of the path needs.
-/

namespace Fireemu.Rules

open Library
open List Option

variable {zeroOrMore : Bool} {names : List Str}

variable {ε : Type}

/-! ### Splits of a path over a pattern -/

/-- How many segments a recursive wildcard takes at least. -/
def wildcardMinimum (zeroOrMore : Bool) : ℕ := if zeroOrMore then 0 else 1

/-- The pieces of a path that a segment of a pattern takes. -/
def PathSegment.Fits (zeroOrMore : Bool) : PathSegment ε → List Str → Prop
  | .literal text, piece => piece = [text]
  | .capture _, piece => ∃ name, piece = [name]
  | .recursiveWildcard _, piece => wildcardMinimum zeroOrMore ≤ piece.length
  | .binding _, _ => False

/-- A pattern takes pieces at the start of a path and leaves the rest. -/
def Consumes (zeroOrMore : Bool) (pattern : List (PathSegment ε)) (names : List Str)
    (pieces : List (List Str)) (rest : List Str) : Prop :=
  List.Forall₂ (PathSegment.Fits zeroOrMore) pattern pieces ∧ names = pieces.flatten ++ rest

section

variable {segment : PathSegment ε} {pattern : List (PathSegment ε)} {rest : List Str}
  {pieces : List (List Str)}

theorem consumes_nil : Consumes zeroOrMore ([] : List (PathSegment ε)) names pieces rest ↔
    pieces = [] ∧ names = rest := by
  constructor
  · rintro ⟨⟨⟩, rfl⟩
    exact ⟨rfl, rfl⟩
  · rintro ⟨rfl, rfl⟩
    exact ⟨.nil, rfl⟩

theorem consumes_cons : Consumes zeroOrMore (segment :: pattern) names pieces rest ↔
    ∃ piece pieces' names', pieces = piece :: pieces' ∧ segment.Fits zeroOrMore piece ∧
      names = piece ++ names' ∧ Consumes zeroOrMore pattern names' pieces' rest := by
  constructor
  · rintro ⟨hfits, rfl⟩
    cases hfits with
    | cons hpiece hp =>
      refine ⟨_, _, _, rfl, hpiece, ?_, hp, rfl⟩
      rw [flatten_cons, append_assoc]
  · rintro ⟨piece, pieces', names', rfl, hpiece, rfl, hp, rfl⟩
    refine ⟨.cons hpiece hp, ?_⟩
    rw [flatten_cons, append_assoc]

end

/-! ### The offsets a pattern reaches -/

/-- Maximum structural reachability transitions charged to one request. -/
def matchPathPrefilterWorkMax : ℕ := 1000000

/-- A request-local reachability cache does not grow beyond this. -/
def matchPathReachabilityCacheMaxEntries : ℕ := 4096

/-- An offset is marked. -/
abbrev Marked (marks : List Bool) (offset : ℕ) : Prop := marks[offset]? = some true

/-- Marks one target of a recursive wildcard. -/
def reachTarget (segments : List MatchSegment) (target : ℕ) (next : List Bool) (work : ℕ) :
    Option (List Bool) × ℕ :=
  if work + 1 > matchPathPrefilterWorkMax then (none, work + 1)
  else (some (if segments[target]? = some .anyPrefix then next else next.set target true), work + 1)

/-- Marks what a segment of a pattern reaches from an offset. -/
def reachFrom (zeroOrMore : Bool) (segments : List MatchSegment) (segment : PathSegment ε)
    (offset : ℕ) (next : List Bool) (work : ℕ) : Option (List Bool) × ℕ :=
  if work + 1 > matchPathPrefilterWorkMax then (none, work + 1)
  else match segment with
    | .literal text =>
        (some (if segments[offset]? = some (.literal text) then next.set (offset + 1) true else next),
          work + 1)
    | .capture _ =>
        (some (if segments[offset]?.any (· ≠ .anyPrefix) then next.set (offset + 1) true else next), work + 1)
    | .recursiveWildcard _ =>
        loop (reachTarget segments)
          ((List.range (segments.length + 1)).drop (offset + wildcardMinimum zeroOrMore)) next (work + 1)
    | .binding _ => (some next, work + 1)

/-- What a segment of a pattern reaches from the marked offsets. -/
def reachSegment (zeroOrMore : Bool) (segments : List MatchSegment) (segment : PathSegment ε)
    (reachable : List Bool) (work : ℕ) : Option (List Bool) × ℕ :=
  loop (fun offset next work =>
      if reachable[offset]? = some true then reachFrom zeroOrMore segments segment offset next work
      else (some next, work))
    (List.range reachable.length) (List.replicate (segments.length + 1) false) work

/-- Every offset that a pattern reaches; `none` once the work is exhausted. -/
def patternReachableOffsetsUncached (pattern : List (PathSegment ε)) (segments : List MatchSegment)
    (zeroOrMore : Bool) (work : ℕ) : Option (List Bool) × ℕ :=
  loop (reachSegment zeroOrMore segments) pattern
    ((List.replicate (segments.length + 1) false).set 0 true) work

section

variable {rest : List Str} {segment : PathSegment ε} {next next' : List Bool} {offset work work' : ℕ}
  {marks reachable : List Bool} {segments : List MatchSegment} {piece : List Str}
  {pattern : List (PathSegment ε)}

variable {i : ℕ}

theorem marked_set {o : ℕ} (h : Marked marks o) : Marked (marks.set i true) o := by
  rw [Marked, getElem?_set]
  split_ifs with heq hlt
  · rfl
  · subst heq
    exact absurd (List.getElem?_eq_some_iff.1 h).1 hlt
  · exact h

theorem marked_set_self (h : i < marks.length) : Marked (marks.set i true) i := by
  rw [Marked, getElem?_set_self h]

theorem reachTarget_keeps {target : ℕ} (h : reachTarget segments target next work = (some next', work')) :
    next'.length = next.length ∧ ∀ o, Marked next o → Marked next' o := by
  unfold reachTarget at h
  by_cases hwork : work + 1 > matchPathPrefilterWorkMax
  · rw [if_pos hwork] at h
    cases h
  · rw [if_neg hwork] at h
    cases h
    split_ifs
    · exact ⟨rfl, fun _ => id⟩
    · exact ⟨length_set, fun o => marked_set⟩

theorem reachFrom_keeps (h : reachFrom zeroOrMore segments segment offset next work = (some next', work')) :
    next'.length = next.length ∧ ∀ o, Marked next o → Marked next' o := by
  unfold reachFrom at h
  by_cases hwork : work + 1 > matchPathPrefilterWorkMax
  · rw [if_pos hwork] at h
    cases h
  rw [if_neg hwork] at h
  cases segment with
  | literal | capture =>
    cases h
    split_ifs
    · exact ⟨length_set, fun o => marked_set⟩
    · exact ⟨rfl, fun _ => id⟩
  | recursiveWildcard name =>
    refine loop_inv (fun b _ => b.length = next.length ∧ ∀ o, Marked next o → Marked b o)
      (fun i _ b _ b' _ hstep hb => ?_) h ⟨rfl, fun _ => id⟩
    obtain ⟨hl, hm⟩ := reachTarget_keeps hstep
    exact ⟨hl.trans hb.1, fun o ho => hm o (hb.2 o ho)⟩
  | binding =>
    cases h
    exact ⟨rfl, fun _ => id⟩

theorem concrete_ne_anyPrefix : (concrete names)[i]? ≠ some .anyPrefix := by
  rw [getElem?_map]
  cases names[i]? <;> simp

/-- A piece that follows an offset ends within the path. -/
theorem add_length_le_of_drop (hoffset : offset ≤ names.length) (hdrop : names.drop offset = piece ++ rest) :
    offset + piece.length ≤ names.length := by
  have := congrArg List.length hdrop
  rw [length_drop, length_append] at this
  omega

/-- What a segment takes is marked. -/
theorem reachFrom_marks
    (h : reachFrom zeroOrMore (concrete names) segment offset next work = (some next', work'))
    (hl : next.length = names.length + 1) (hoffset : offset ≤ names.length)
    (hfits : segment.Fits zeroOrMore piece) (hdrop : names.drop offset = piece ++ rest) :
    Marked next' (offset + piece.length) := by
  have hle := add_length_le_of_drop hoffset hdrop
  unfold reachFrom at h
  by_cases hwork : work + 1 > matchPathPrefilterWorkMax
  · rw [if_pos hwork] at h
    cases h
  rw [if_neg hwork] at h
  cases segment with
  | literal text =>
    obtain rfl : piece = [text] := hfits
    have hget : names[offset]? = some text := by
      rw [← head?_drop, hdrop]
      rfl
    rw [getElem?_map, hget] at h
    cases h
    rw [map_some, if_pos rfl]
    exact marked_set_self (by rw [hl]; simp at hle; omega)
  | capture =>
    obtain ⟨text, rfl⟩ : ∃ text, piece = [text] := hfits
    have hget : names[offset]? = some text := by
      rw [← head?_drop, hdrop]
      rfl
    rw [getElem?_map, hget] at h
    cases h
    rw [if_pos (by simp)]
    exact marked_set_self (by rw [hl]; simp at hle; omega)
  | recursiveWildcard =>
    have hmem : offset + piece.length ∈
        (List.range ((concrete names).length + 1)).drop (offset + wildcardMinimum zeroOrMore) := by
      rw [mem_iff_getElem?]
      refine ⟨piece.length - wildcardMinimum zeroOrMore, ?_⟩
      have hmin : wildcardMinimum zeroOrMore ≤ piece.length := hfits
      rw [getElem?_drop, getElem?_range (by rw [length_map]; omega)]
      congr 1
      omega
    refine loop_marks (fun b _ => b.length = names.length + 1)
      (fun b => Marked b (offset + piece.length))
      (fun i _ b _ b' _ hstep hb => (reachTarget_keeps hstep).1.trans hb)
      (fun i _ b _ b' _ hstep _ => (reachTarget_keeps hstep).2 _) hmem
      (fun b _ b' _ hstep hb => ?_) h hl
    unfold reachTarget at hstep
    rw [if_neg (concrete_ne_anyPrefix)] at hstep
    split at hstep
    · cases hstep
    · cases hstep
      have hlt : offset + piece.length < b.length := by omega
      exact marked_set_self hlt
  | binding => cases hfits

theorem reachSegment_marks
    (h : reachSegment zeroOrMore (concrete names) segment reachable work = (some next', work'))
    (hm : Marked reachable offset) (hoffset : offset ≤ names.length) (hfits : segment.Fits zeroOrMore piece)
    (hdrop : names.drop offset = piece ++ rest) : Marked next' (offset + piece.length) := by
  have hmem : offset ∈ List.range reachable.length :=
    List.mem_range.2 (List.getElem?_eq_some_iff.1 hm).1
  have hk : ∀ i ∈ List.range reachable.length, ∀ (b : List Bool) (st : ℕ) (b' : List Bool) (st' : ℕ),
      (if reachable[i]? = some true then
        reachFrom zeroOrMore (concrete names) segment i b st else (some b, st)) = (some b', st') →
      b'.length = b.length ∧ ∀ o, Marked b o → Marked b' o := by
    intro i _ b st b' st' hstep
    split_ifs at hstep
    · exact reachFrom_keeps hstep
    · cases hstep
      exact ⟨rfl, fun _ => id⟩
  refine loop_marks (fun b _ => b.length = names.length + 1)
    (fun b => Marked b (offset + piece.length))
    (fun i hi b st b' st' hstep hb => (hk i hi b st b' st' hstep).1.trans hb)
    (fun i hi b st b' st' hstep _ => (hk i hi b st b' st' hstep).2 _) hmem
    (fun b st b' st' hstep hb => ?_) h (by simp)
  rw [if_pos hm] at hstep
  exact reachFrom_marks hstep hb hoffset hfits hdrop

/-- The marks of a pattern miss no split of a path. -/
def Covers (zeroOrMore : Bool) (pattern : List (PathSegment ε)) (names : List Str) (marks : List Bool) :
    Prop :=
  ∀ pieces rest, Consumes zeroOrMore pattern names pieces rest → Marked marks pieces.flatten.length

theorem loop_reachSegment_marks {pieces : List (List Str)}
    (h : loop (reachSegment zeroOrMore (concrete names)) pattern reachable work = (some next', work'))
    (hm : Marked reachable offset) (hoffset : offset ≤ names.length)
    (hc : Consumes zeroOrMore pattern (names.drop offset) pieces rest) :
    Marked next' (offset + pieces.flatten.length) := by
  induction pattern generalizing reachable work offset pieces with
  | nil =>
    obtain ⟨rfl, -⟩ := consumes_nil.1 hc
    cases h
    exact hm
  | cons segment pattern ih =>
    obtain ⟨piece, pieces', names', rfl, hfits, hdrop, hc'⟩ := consumes_cons.1 hc
    obtain ⟨reachable₁, work₁, hs, hp⟩ := loop_cons_eq_some h
    have hm₁ := reachSegment_marks hs hm hoffset hfits hdrop
    have hdrop' : names.drop (offset + piece.length) = names' := by
      rw [← drop_drop, hdrop, drop_left]
    have hrest := ih hp hm₁ (add_length_le_of_drop hoffset hdrop) (hdrop'.symm ▸ hc')
    rwa [flatten_cons, length_append, ← Nat.add_assoc]

theorem patternReachableOffsetsUncached_covers
    (h : patternReachableOffsetsUncached pattern (concrete names) zeroOrMore work = (some next', work')) :
    Covers zeroOrMore pattern names next' := by
  intro pieces rest hc
  have hm := loop_reachSegment_marks h (marked_set_self (by simp)) (Nat.zero_le _) hc
  rwa [Nat.zero_add] at hm

end

/-! ### The cache of reachable offsets -/

/-- A segment in the shape of a pattern. -/
def PathSegment.shape : PathSegment ε → Option Str
  | .literal text => some ("l:".toList ++ text)
  | .capture _ => some "c".toList
  | .recursiveWildcard _ => some "r".toList
  | .binding _ => none

/-- The shape of a pattern: what its reachable offsets depend on. -/
def shapeOf (pattern : List (PathSegment ε)) : Option Str :=
  (pattern.mapM PathSegment.shape).map fun parts => ['/'].intercalate parts

/-- Under what the reachable offsets of a pattern are cached. -/
structure ReachabilityKey where
  shape : Str
  segments : List MatchSegment
  zeroOrMore : Bool
  deriving DecidableEq

/-- The state of the reachability computation: its work and the cache. -/
structure Prefilter where
  work : ℕ
  cache : List (ReachabilityKey × List Bool)

/-- Every offset that a pattern reaches, from the cache if its shape is there. -/
def patternReachableOffsets (pattern : List (PathSegment ε)) (segments : List MatchSegment)
    (zeroOrMore : Bool) (st : Prefilter) : Option (List Bool) × Prefilter :=
  match shapeOf pattern with
  | some shape =>
      let key := ⟨shape, segments, zeroOrMore⟩
      match st.cache.lookup key with
      | some cached => (some cached, st)
      | none =>
          match patternReachableOffsetsUncached pattern segments zeroOrMore st.work with
          | (none, work) => (none, { st with work })
          | (some reachable, work) =>
              if st.cache.length ≥ matchPathReachabilityCacheMaxEntries then
                (some reachable, { st with work })
              else (some reachable, ⟨work, (key, reachable) :: st.cache⟩)
  | none =>
      let (result, work) := patternReachableOffsetsUncached pattern segments zeroOrMore st.work
      (result, { st with work })

section Shape

/-- Segments of one shape. -/
def PathSegment.Alike : PathSegment ε → PathSegment ε → Prop
  | .literal text, .literal text' => text = text'
  | .capture _, .capture _ => True
  | .recursiveWildcard _, .recursiveWildcard _ => True
  | _, _ => False

variable {s s' : PathSegment ε} {pattern pattern' : List (PathSegment ε)} {part rest rest' text : Str}

theorem PathSegment.Alike.fits (h : s.Alike s') {piece : List Str} (hfits : s.Fits zeroOrMore piece) :
    s'.Fits zeroOrMore piece := by
  cases s <;> cases s' <;> first
    | exact h.elim
    | exact hfits
    | (obtain rfl : _ = _ := h; exact hfits)

theorem Consumes.alike (h : List.Forall₂ PathSegment.Alike pattern pattern') {names rest : List Str}
    {pieces : List (List Str)} (hc : Consumes zeroOrMore pattern names pieces rest) :
    Consumes zeroOrMore pattern' names pieces rest := by
  refine ⟨?_, hc.2⟩
  have hfits := hc.1
  clear hc
  induction h generalizing pieces with
  | nil => exact hfits
  | cons hs _ ih =>
    cases hfits with
    | cons hpiece hp => exact .cons (hs.fits hpiece) (ih hp)

/-- Texts that end before the first occurrence of a character can be read off what follows them. -/
theorem append_inj_of_stop {stop : Char} {l l' : Str} (hl : stop ∉ l) (hl' : stop ∉ l')
    (hrest : rest = [] ∨ rest.head? = some stop) (hrest' : rest' = [] ∨ rest'.head? = some stop)
    (h : l ++ rest = l' ++ rest') : l = l' ∧ rest = rest' := by
  induction l generalizing l' with
  | nil =>
    cases l' with
    | nil => exact ⟨rfl, h⟩
    | cons =>
      -- the other text would start with the character that ends it
      rw [nil_append] at h
      subst h
      rcases hrest with hrest | hrest
      · cases hrest
      · rw [cons_append, head?_cons, Option.some.injEq] at hrest
        exact absurd (hrest ▸ mem_cons_self) hl'
  | cons c l ih =>
    cases l' with
    | nil =>
      rw [nil_append] at h
      subst h
      rcases hrest' with hrest' | hrest'
      · cases hrest'
      · rw [cons_append, head?_cons, Option.some.injEq] at hrest'
        exact absurd (hrest' ▸ mem_cons_self) hl
    | cons =>
      rw [cons_append, cons_append, List.cons.injEq] at h
      obtain ⟨rfl, h⟩ := h
      obtain ⟨rfl, rfl⟩ := ih (fun hmem => hl (mem_cons_of_mem c hmem))
        (fun hmem => hl' (mem_cons_of_mem c hmem)) h
      exact ⟨rfl, rfl⟩

/-- A literal of a parsed header is one in parentheses, or has no slash and no parenthesis at its
start. -/
theorem literal_cases (hend : literalEnd rest ≠ 0) (htext : text = rest.take (literalEnd rest)) :
    (∃ body, ')' ∉ body ∧ text = '(' :: body ++ [')']) ∨ ('/' ∉ text ∧ text.head? ≠ some '(') := by
  unfold literalEnd at hend htext
  by_cases hp : rest.head? = some '('
  · rw [if_pos hp] at hend htext
    left
    obtain ⟨tail, rfl⟩ : ∃ tail, rest = '(' :: tail := by
      cases rest with
      | nil => cases hp
      | cons c tail =>
        rw [head?_cons, Option.some.injEq] at hp
        exact ⟨tail, by rw [hp]⟩
    cases hfind : ('(' :: tail).findIdx? (· = ')') with
    | none =>
      rw [hfind] at hend
      exact absurd rfl hend
    | some close =>
      rw [hfind, elim_some] at htext
      obtain ⟨hc, hat, hb⟩ := findIdx?_eq_some_iff_getElem.1 hfind
      cases close with
      | zero => simp at hat
      | succ close =>
        refine ⟨tail.take close, fun hmem => ?_, ?_⟩
        · obtain ⟨i, hi, hget⟩ := mem_iff_getElem.1 hmem
          rw [length_take] at hi
          have hnot := hb (i + 1) (by omega)
          rw [getElem_take] at hget
          simp [hget] at hnot
        · rw [htext, take_succ_cons]
          have hlt : close < tail.length := by simpa using hc
          have hget : tail[close] = ')' := by simpa using hat
          rw [take_succ_eq_append_getElem hlt, hget, cons_append]
  · rw [if_neg hp] at htext hend
    right
    constructor
    · intro hmem
      subst htext
      obtain ⟨i, hi, hget⟩ := mem_iff_getElem.1 hmem
      rw [getElem_take] at hget
      rw [length_take] at hi
      cases hfind : rest.findIdx? endsLiteral with
      | none =>
        have hnot := findIdx?_eq_none_iff.1 hfind _ (getElem_mem (by omega : i < rest.length))
        rw [hget] at hnot
        exact absurd hnot (by decide)
      | some =>
        rw [hfind, getD_some] at hi
        obtain ⟨_, _, hb⟩ := findIdx?_eq_some_iff_getElem.1 hfind
        have hnot := hb i (by omega)
        rw [hget] at hnot
        exact hnot (by decide)
    · subst htext
      rw [head?_take, if_neg hend]
      exact hp

variable {parts : List Str}

theorem mapM_shape_eq_some (h : pattern.mapM PathSegment.shape = some parts) :
    List.Forall₂ (fun s part => s.shape = some part) pattern parts := by
  induction pattern generalizing parts with
  | nil =>
    cases h
    exact .nil
  | cons s pattern ih =>
    rw [mapM_cons, bind_eq_bind, bind_eq_some_iff] at h
    obtain ⟨part, hpart, h⟩ := h
    rw [bind_eq_bind, bind_eq_some_iff] at h
    obtain ⟨parts', hp', h⟩ := h
    cases h
    exact .cons hpart (ih hp')

theorem intercalate_slash (part : Str) :
    ['/'].intercalate (part :: parts) = part ++ parts.flatMap ('/' :: ·) := by
  induction parts generalizing part with
  | nil => simp
  | cons next parts ih =>
    rw [intercalate_cons_cons, ih, flatMap_cons]
    simp

theorem flatMap_slash : parts.flatMap ('/' :: ·) = [] ∨ (parts.flatMap ('/' :: ·)).head? = some '/' := by
  cases parts with
  | nil => exact .inl rfl
  | cons => exact .inr rfl

/-- Two literals of parsed headers that a slash or nothing follows. -/
theorem literal_inj {text' : Str} (htext : (PathSegment.literal text : PathSegment ε).InHeader)
    (htext' : (PathSegment.literal text' : PathSegment ε).InHeader)
    (hrest : rest = [] ∨ rest.head? = some '/') (hrest' : rest' = [] ∨ rest'.head? = some '/')
    (h : text ++ rest = text' ++ rest') : text = text' ∧ rest = rest' := by
  obtain ⟨source, hend, hs⟩ := htext
  obtain ⟨source', hend', hs'⟩ := htext'
  -- a text in parentheses and one that is not start differently
  have hstart : ∀ {body text rest rest' : Str}, text.head? ≠ some '(' →
      (rest' = [] ∨ rest'.head? = some '/') → '(' :: body ++ [')'] ++ rest ≠ text ++ rest' := by
    intro body text rest rest' hhead hrest' heq
    cases text with
    | nil =>
      rw [nil_append] at heq
      subst heq
      rcases hrest' with hrest' | hrest' <;> cases hrest'
    | cons =>
      simp only [cons_append, List.cons.injEq] at heq
      exact hhead (by rw [head?_cons, heq.1])
  rcases literal_cases hend hs with ⟨body, hbody, rfl⟩ | ⟨hslash, hhead⟩
  · rcases literal_cases hend' hs' with ⟨body', hbody', rfl⟩ | ⟨-, hhead'⟩
    · have heq : body ++ ')' :: rest = body' ++ ')' :: rest' := by simpa using h
      obtain ⟨rfl, htail⟩ := append_inj_of_stop hbody hbody' (.inr rfl) (.inr rfl) heq
      exact ⟨rfl, (List.cons.inj htail).2⟩
    · exact absurd h (hstart hhead' hrest')
  · rcases literal_cases hend' hs' with ⟨body', -, rfl⟩ | ⟨hslash', -⟩
    · exact absurd h.symm (hstart hhead hrest)
    · exact append_inj_of_stop hslash hslash' hrest hrest' h

theorem shape_inj {part' : Str} (hs : s.InHeader) (hs' : s'.InHeader) (hpart : s.shape = some part)
    (hpart' : s'.shape = some part') (hrest : rest = [] ∨ rest.head? = some '/')
    (hrest' : rest' = [] ∨ rest'.head? = some '/') (h : part ++ rest = part' ++ rest') :
    s.Alike s' ∧ rest = rest' := by
  cases s with
  | literal text =>
    cases s' with
    | literal text' =>
      cases hpart
      cases hpart'
      have heq : text ++ rest = text' ++ rest' := by simpa using h
      exact literal_inj hs hs' hrest hrest' heq
    | capture | recursiveWildcard =>
      cases hpart
      cases hpart'
      simp at h
    | binding => exact hs'.elim
  | capture =>
    cases s' with
    | capture =>
      cases hpart
      cases hpart'
      exact ⟨trivial, by simpa using h⟩
    | literal | recursiveWildcard =>
      cases hpart
      cases hpart'
      simp at h
    | binding => exact hs'.elim
  | recursiveWildcard =>
    cases s' with
    | recursiveWildcard =>
      cases hpart
      cases hpart'
      exact ⟨trivial, by simpa using h⟩
    | literal | capture =>
      cases hpart
      cases hpart'
      simp at h
    | binding => exact hs'.elim
  | binding => exact hs.elim

theorem shape_ne_nil (h : s.shape = some part) : part ≠ [] := by
  cases s <;> cases h <;> simp

/-- Parsed patterns of one shape are alike. -/
theorem alike_of_shapeOf {shape : Str} (hp : ∀ s ∈ pattern, s.InHeader) (hp' : ∀ s ∈ pattern', s.InHeader)
    (h : shapeOf pattern = some shape) (h' : shapeOf pattern' = some shape) :
    List.Forall₂ PathSegment.Alike pattern pattern' := by
  obtain ⟨parts, hparts, hshape⟩ := map_eq_some_iff.1 h
  obtain ⟨parts', hparts', hshape'⟩ := map_eq_some_iff.1 h'
  have hall := mapM_shape_eq_some hparts
  have hall' := mapM_shape_eq_some hparts'
  have heq : ['/'].intercalate parts = ['/'].intercalate parts' := hshape.trans hshape'.symm
  clear h h' hparts hparts' hshape hshape'
  -- the part before the first slash of a shape is that of the first segment
  have htail : ∀ {parts parts' : List Str} {pattern pattern' : List (PathSegment ε)},
      (∀ s ∈ pattern, s.InHeader) → (∀ s ∈ pattern', s.InHeader) →
      List.Forall₂ (fun s part => s.shape = some part) pattern parts →
      List.Forall₂ (fun s part => s.shape = some part) pattern' parts' →
      parts.flatMap ('/' :: ·) = parts'.flatMap ('/' :: ·) →
      List.Forall₂ PathSegment.Alike pattern pattern' := by
    intro parts parts' pattern pattern' hp hp' hall hall' heq
    induction hall generalizing parts' pattern' with
    | nil =>
      cases hall' with
      | nil => exact .nil
      | cons => cases heq
    | cons hs _ ih =>
      cases hall' with
      | nil => cases heq
      | cons hs' hall' =>
        obtain ⟨hp₀, hp⟩ := forall_mem_cons.1 hp
        obtain ⟨hp₀', hp'⟩ := forall_mem_cons.1 hp'
        simp only [flatMap_cons, cons_append, List.cons.injEq, true_and] at heq
        obtain ⟨ha, hrest⟩ := shape_inj hp₀ hp₀' hs hs' (flatMap_slash)
          (flatMap_slash) heq
        exact .cons ha (ih hp hp' hall' hrest)
  cases hall with
  | nil =>
    cases hall' with
    | nil => exact .nil
    | cons hs' =>
      rw [intercalate_slash] at heq
      exact absurd (append_eq_nil_iff.1 heq.symm).1 (shape_ne_nil hs')
  | cons hs hall =>
    cases hall' with
    | nil =>
      rw [intercalate_slash] at heq
      exact absurd (append_eq_nil_iff.1 heq).1 (shape_ne_nil hs)
    | cons hs' hall' =>
      refine htail hp hp' (.cons hs hall) (.cons hs' hall') ?_
      rw [intercalate_slash, intercalate_slash] at heq
      rw [flatMap_cons, flatMap_cons, cons_append, cons_append, heq]

end Shape

/-! ### What the cache holds -/

/-- The cache misses no split of a path over a parsed pattern of its shapes. -/
def Prefilter.Sound (ε : Type) (st : Prefilter) : Prop :=
  ∀ key marks, (key, marks) ∈ st.cache → ∀ (pattern : List (PathSegment ε)) (names : List Str),
    (∀ s ∈ pattern, s.InHeader) → shapeOf pattern = some key.shape → key.segments = concrete names →
    Covers key.zeroOrMore pattern names marks

section

variable {pattern : List (PathSegment ε)} {st st' : Prefilter}

theorem concrete_injective : Function.Injective concrete :=
  map_injective_iff.2 fun _ _ h => MatchSegment.literal.inj h

theorem mem_of_lookup {key : ReachabilityKey} {marks : List Bool} {cache : List (ReachabilityKey × List Bool)}
    (h : cache.lookup key = some marks) : (key, marks) ∈ cache := by
  induction cache with
  | nil => cases h
  | cons entry cache ih =>
    rw [lookup_cons] at h
    split at h
    · rename_i heq
      cases h
      rw [show entry = (key, entry.2) from Prod.ext (by simpa using (beq_iff_eq.1 heq).symm) rfl]
      exact mem_cons_self
    · exact mem_cons_of_mem _ (ih h)

theorem patternReachableOffsets_sound (zeroOrMore : Bool) (names : List Str)
    (hp : ∀ s ∈ pattern, s.InHeader) (hst : st.Sound ε) :
    (patternReachableOffsets pattern (concrete names) zeroOrMore st).2.Sound ε ∧
      ∀ marks, (patternReachableOffsets pattern (concrete names) zeroOrMore st).1 = some marks →
        Covers zeroOrMore pattern names marks := by
  unfold patternReachableOffsets
  cases hs : shapeOf pattern with
  | none =>
    refine ⟨hst, fun marks hm => ?_⟩
    exact patternReachableOffsetsUncached_covers (Prod.ext hm rfl)
  | some shape =>
    dsimp only
    cases hl : st.cache.lookup ⟨shape, concrete names, zeroOrMore⟩ with
    | some =>
      refine ⟨hst, fun marks hm => ?_⟩
      cases hm
      exact hst _ _ (mem_of_lookup hl) pattern names hp hs rfl
    | none =>
      dsimp only
      match hu : patternReachableOffsetsUncached pattern (concrete names) zeroOrMore st.work with
      | (none, work) => exact ⟨hst, nofun⟩
      | (some reachable, work) =>
        have hcovers := patternReachableOffsetsUncached_covers hu
        dsimp only
        split_ifs with hfull
        · refine ⟨hst, fun marks hm => ?_⟩
          cases hm
          exact hcovers
        · refine ⟨fun key marks hmem pattern' names' hp' hs' hnames' => ?_, fun marks hm => ?_⟩
          · rcases mem_cons.1 hmem with heq | hmem
            · -- a pattern of the same shape takes the same pieces
              cases heq
              obtain rfl := concrete_injective hnames'
              intro pieces rest hc
              exact hcovers pieces rest
                (hc.alike (alike_of_shapeOf hp' hp hs' hs))
            · exact hst key marks hmem pattern' names' hp' hs' hnames'
          · cases hm
            exact hcovers

end

end Fireemu.Rules
