import Fireemu.Library.Comparator
import Fireemu.Library.LexOrder
import Fireemu.Types.Ids

/-!
# Document paths

A document path is a project, a database and a non-empty list of (collection, document) pairs
within the depth and name-length limits.  Paths are ordered component by component
(`DocumentPath.key`); the order of their resource names by segments is the same order
(`cmpResourceName_eq`).

The exclusive upper bound of a document's descendants ends in an identifier no document can have,
so it is a `PathKey`, the raw form of a path.  `mem_descendants_iff` says that the keys between a
path and its bound are exactly those of the strict descendants.
-/

namespace Fireemu

open List Option

namespace Str

/-- The texts before and after the first occurrence of a non-empty separator. -/
def splitOnce (sep : Str) : Str → Option (Str × Str)
  | [] => none
  | c :: s =>
      if sep.isPrefixOf (c :: s) then some ([], (c :: s).drop sep.length)
      else (splitOnce sep s).map fun (before, after) => (c :: before, after)

/-- The text after a given beginning. -/
def stripBeginning (beginning s : Str) : Option Str :=
  if beginning.isPrefixOf s then some (s.drop beginning.length) else none

variable {a b : Str}

theorem stripBeginning_append : stripBeginning a (a ++ b) = some b := by
  simp [stripBeginning]

/-- A text without the separator's first character ends where the separator starts. -/
theorem splitOnce_append {sep : Str} {c : Char} (hsep : sep.head? = some c) (ha : c ∉ a) :
    splitOnce sep (a ++ (sep ++ b)) = some (a, b) := by
  obtain ⟨t, rfl⟩ := head?_eq_some_iff.1 hsep
  induction a with
  | nil => simp [splitOnce, isPrefixOf_iff_prefix]
  | cons d a ih =>
    rw [mem_cons, not_or] at ha
    have hd : ¬ (c :: t).isPrefixOf (d :: (a ++ (c :: t ++ b))) := by
      simp [List.isPrefixOf, ha.1]
    rw [cons_append, splitOnce, if_neg hd, ih ha.2]
    rfl

end Str

/-- Maximum subcollection depth. -/
def maxSubcollectionDepth : ℕ := 100

/-- Maximum charged UTF-8 bytes of a document name. -/
def maxDocumentNameBytes : ℕ := 6 * 1024

/-- Path errors. -/
inductive PathError
  | oddSegmentCount (segments : ℕ)
  | empty
  | invalidSegment (index : ℕ) (error : IdSyntaxError)
  | tooDeep (depth maximum : ℕ)
  | nameTooLong (bytes maximum : ℕ)
  deriving DecidableEq, Repr

/-- The segments of a list of pairs, from the root. -/
def pairSegments (pairs : List (CollectionId × DocumentId)) : List Str :=
  pairs.flatMap fun (c, d) => [c.1, d.1]

/-- Relative path `users/jeff/tasks/my_task_id`. -/
def relativePath (pairs : List (CollectionId × DocumentId)) : Str :=
  ['/'].intercalate (pairSegments pairs)

/-- A fully qualified document path. -/
structure DocumentPath where
  project : ProjectId
  database : DatabaseId
  /-- Alternating (collection, document) pairs from the root. -/
  pairs : List (CollectionId × DocumentId)
  ne_nil : pairs ≠ []
  depth_le : pairs.length ≤ maxSubcollectionDepth
  nameBytes_le : (relativePath pairs).utf8Len + 17 ≤ maxDocumentNameBytes
  deriving DecidableEq

/-- The components of a path as plain texts, in comparison order. -/
abbrev PathKey := Str ×ₗ (Str ×ₗ List (Str ×ₗ Str))

namespace DocumentPath

/-- The texts of a list of pairs. -/
def pairKeys (pairs : List (CollectionId × DocumentId)) : List (Str ×ₗ Str) :=
  pairs.map fun (c, d) => toLex (c.1, d.1)

theorem pairKeys_injective : Function.Injective pairKeys := by
  refine map_injective_iff.2 fun a b h => ?_
  have h' : (a.1.1, a.2.1) = (b.1.1, b.2.1) := toLex.injective h
  rw [Prod.mk.injEq] at h'
  exact Prod.ext (Subtype.ext h'.1) (Subtype.ext h'.2)

/-- The components a path is compared by. -/
def key (p : DocumentPath) : PathKey :=
  toLex (p.project.1, toLex (p.database.1, pairKeys p.pairs))

theorem key_injective : Function.Injective key := fun p q h => by
  have h1 : (p.project.1, toLex (p.database.1, pairKeys p.pairs)) =
      (q.project.1, toLex (q.database.1, pairKeys q.pairs)) := toLex.injective h
  rw [Prod.mk.injEq] at h1
  have h2 : (p.database.1, pairKeys p.pairs) = (q.database.1, pairKeys q.pairs) :=
    toLex.injective h1.2
  rw [Prod.mk.injEq] at h2
  cases p
  cases q
  simp only [mk.injEq]
  exact ⟨Subtype.ext h1.1, Subtype.ext h2.1, pairKeys_injective h2.2⟩

instance : LinearOrder DocumentPath := LinearOrder.lift' key key_injective

theorem lt_def {p q : DocumentPath} : p < q ↔ p.key < q.key := Iff.rfl

/-! ### Parsing and rendering -/

/-- Checks the segments of a relative path two by two, `i` pairs into the path. -/
def parsePairs : ℕ → List Str → Except PathError (List (CollectionId × DocumentId))
  | i, c :: d :: segments => do
      let collection ← (tryNew validatePathSegment c).mapError (.invalidSegment (2 * i))
      let document ← (tryNew validatePathSegment d).mapError (.invalidSegment (2 * i + 1))
      return (collection, document) :: (← parsePairs (i + 1) segments)
  | _, _ => .ok []

variable {s : Str}

theorem tryNew_ok {validate : Str → Except IdSyntaxError Unit}
    {a : {s : Str // validate s = .ok ()}} (h : tryNew validate s = .ok a) : a.1 = s := by
  unfold tryNew at h
  split at h
  · cases h
    rfl
  · cases h

variable {pairs : List (CollectionId × DocumentId)}

theorem parsePairs_ok {i : ℕ} {segments : List Str} (h : parsePairs i segments = .ok pairs)
    (heven : segments.length % 2 = 0) : pairSegments pairs = segments := by
  fun_induction parsePairs i segments generalizing pairs with
  | case1 i c d segments ih =>
    simp only [bind, Except.bind, pure, Except.pure] at h
    cases hc : tryNew validatePathSegment c with
    | error => simp [hc, Except.mapError] at h
    | ok =>
      cases hd : tryNew validatePathSegment d with
      | error => simp [hc, hd, Except.mapError] at h
      | ok =>
        cases hrest : parsePairs (i + 1) segments with
        | error => simp [hc, hd, hrest, Except.mapError] at h
        | ok =>
          simp only [hc, hd, hrest, Except.mapError, Except.ok.injEq] at h
          subst h
          have hlen : segments.length % 2 = 0 := by
            simp only [length_cons] at heven
            omega
          simp only [pairSegments, flatMap_cons, cons_append, nil_append, tryNew_ok hc, tryNew_ok hd]
          rw [← ih hrest hlen]
          rfl
  | case2 segments i hne =>
    cases h
    match segments, hne, heven with
    | [], _, _ => rfl
    | [_], _, heven => simp at heven
    | c :: d :: s, hne, _ => exact absurd rfl (hne c d s)

/-- Parses a relative path such as `users/jeff/tasks/my_task_id`. -/
def parse (project : ProjectId) (database : DatabaseId) (relative : Str) : Except PathError DocumentPath :=
  if hempty : relative = [] then .error .empty
  else
    let segments := relative.splitOn '/'
    if hodd : segments.length % 2 ≠ 0 then .error (.oddSegmentCount segments.length)
    else match hpairs : parsePairs 0 segments with
      | .error e => .error e
      | .ok pairs =>
        if hdepth : pairs.length > maxSubcollectionDepth then
          .error (.tooDeep pairs.length maxSubcollectionDepth)
        else
          -- each segment is charged its bytes and a terminator, and the name 16 bytes more
          let bytes := relative.utf8Len + 17
          if hbytes : bytes > maxDocumentNameBytes then
            .error (.nameTooLong bytes maxDocumentNameBytes)
          else
            have hrel : relativePath pairs = relative := by
              rw [relativePath, parsePairs_ok hpairs (by simpa using hodd)]
              exact intercalate_splitOn '/'
            .ok {
              project, database, pairs
              ne_nil := by
                rintro rfl
                exact hempty (hrel ▸ rfl)
              depth_le := not_lt.1 hdepth
              nameBytes_le := hrel ▸ not_lt.1 hbytes }

/-- Collection ID of the innermost collection. -/
def collectionId (p : DocumentPath) : CollectionId := (p.pairs.getLast p.ne_nil).1

/-- Document ID of the document itself. -/
def documentId (p : DocumentPath) : DocumentId := (p.pairs.getLast p.ne_nil).2

/-- Relative path of the document. -/
def relative (p : DocumentPath) : Str := relativePath p.pairs

/-- The fixed parts of a resource name. -/
def projectsText : Str := "projects/".toList

@[inherit_doc projectsText]
def databasesText : Str := "/databases/".toList

@[inherit_doc projectsText]
def documentsText : Str := "/documents/".toList

/-- Full resource name `projects/{p}/databases/{d}/documents/{relative}`. -/
def resourceName (p : DocumentPath) : Str :=
  projectsText ++ (p.project.1 ++ (databasesText ++ (p.database.1 ++ (documentsText ++ p.relative))))

/-- Parses a full resource name; anything that is not a document name gives nothing. -/
def fromResourceName (name : Str) : Option DocumentPath := do
  let rest ← Str.stripBeginning projectsText name
  let (project, rest) ← Str.splitOnce databasesText rest
  let (database, relative) ← Str.splitOnce documentsText rest
  let project ← (tryNew (validateLowercaseHyphenated · 63) project).toOption
  let database ← (tryNew validateDatabaseId database).toOption
  (parse project database relative).toOption

theorem parsePairs_pairSegments (i : ℕ) : parsePairs i (pairSegments pairs) = .ok pairs := by
  induction pairs generalizing i with
  | nil => rfl
  | cons e pairs ih =>
    have hcons : pairSegments (e :: pairs) = e.1.1 :: e.2.1 :: pairSegments pairs := rfl
    rw [hcons, parsePairs, tryNew_val, tryNew_val, ih]
    rfl

theorem length_pairSegments : (pairSegments pairs).length = 2 * pairs.length := by
  induction pairs with
  | nil => rfl
  | cons e pairs ih =>
    simp only [pairSegments, flatMap_cons, length_append, length_cons, length_nil] at ih ⊢
    omega

theorem slash_not_mem_pairSegments (h : s ∈ pairSegments pairs) : '/' ∉ s := by
  simp only [pairSegments, mem_flatMap, mem_cons, not_mem_nil, or_false] at h
  obtain ⟨e, -, rfl | rfl⟩ := h
  · exact (validatePathSegment_ok e.1.2).2.1
  · exact (validatePathSegment_ok e.2.2).2.1

theorem pairSegments_ne_nil (h : pairs ≠ []) : pairSegments pairs ≠ [] := by
  cases pairs with
  | nil => exact absurd rfl h
  | cons => exact cons_ne_nil _ _

variable (p : DocumentPath)

theorem splitOn_relative : p.relative.splitOn '/' = pairSegments p.pairs :=
  splitOn_intercalate '/' (fun _ h => slash_not_mem_pairSegments h)
    (pairSegments_ne_nil p.ne_nil)

theorem relative_ne_nil : p.relative ≠ [] := fun h => by
  have hlen := congrArg List.length p.splitOn_relative
  rw [h, length_pairSegments] at hlen
  have : 0 < p.pairs.length := length_pos_iff.2 p.ne_nil
  simp at hlen
  omega

/-- Parsing a relative path gives the path it was rendered from. -/
theorem parse_relative : parse p.project p.database p.relative = .ok p := by
  unfold parse
  rw [dif_neg p.relative_ne_nil]
  have heven : ¬ (p.relative.splitOn '/').length % 2 ≠ 0 := by
    rw [splitOn_relative, length_pairSegments]
    omega
  have hp : parsePairs 0 (p.relative.splitOn '/') = .ok p.pairs := by
    rw [splitOn_relative, parsePairs_pairSegments]
  simp only [dif_neg heven]
  split
  · rename_i e he
    rw [hp] at he
    cases he
  · rename_i pairs he
    rw [hp] at he
    cases he
    have hb : ¬ p.relative.utf8Len + 17 > maxDocumentNameBytes := not_lt.2 p.nameBytes_le
    rw [dif_neg (not_lt.2 p.depth_le), dif_neg hb]

/-- A resource name names the document it was rendered from. -/
theorem fromResourceName_resourceName : fromResourceName p.resourceName = some p := by
  have hd : Str.splitOnce databasesText
      (p.project.1 ++ (databasesText ++ (p.database.1 ++ (documentsText ++ p.relative)))) =
      some (p.project.1, p.database.1 ++ (documentsText ++ p.relative)) :=
    Str.splitOnce_append (by decide) (slash_not_mem_projectId)
  have hdocuments : Str.splitOnce documentsText
      (p.database.1 ++ (documentsText ++ p.relative)) = some (p.database.1, p.relative) :=
    Str.splitOnce_append (by decide) (slash_not_mem_databaseId)
  unfold fromResourceName resourceName
  rw [Str.stripBeginning_append, bind_eq_bind, bind_some, hd, bind_eq_bind, bind_some]
  dsimp only
  rw [hdocuments, bind_some]
  dsimp only
  rw [tryNew_val, tryNew_val]
  change (parse p.project p.database p.relative).toOption = some p
  rw [parse_relative]
  rfl

/-! ### Name length and ancestors -/

theorem utf8Len_intercalate {l : List Str} :
    Str.utf8Len (['/'].intercalate l) = (l.map Str.utf8Len).sum + (l.length - 1) := by
  induction l with
  | nil => rfl
  | cons s l ih =>
    cases l with
    | nil => simp
    | cons =>
      rw [intercalate_cons_cons, Str.utf8Len_append, Str.utf8Len_append, ih]
      have : Str.utf8Len ['/'] = 1 := by decide
      simp only [map_cons, sum_cons, length_cons, this]
      omega

theorem utf8Len_relativePath_append (l m : List (CollectionId × DocumentId)) :
    (relativePath l).utf8Len ≤ (relativePath (l ++ m)).utf8Len := by
  simp only [relativePath, utf8Len_intercalate, length_pairSegments, length_append]
  have : pairSegments (l ++ m) = pairSegments l ++ pairSegments m := by simp [pairSegments]
  rw [this, map_append, sum_append]
  omega

/-- The ancestor made of the first pairs of the path; the path itself when there are not that
many. -/
def ancestor (p : DocumentPath) (pairs : ℕ) : Option DocumentPath :=
  if h : pairs > 0 then
    some {
      project := p.project
      database := p.database
      pairs := p.pairs.take pairs
      ne_nil := by simp [p.ne_nil, h.ne']
      depth_le := (length_take_le' _ _).trans p.depth_le
      nameBytes_le := by
        have := utf8Len_relativePath_append (p.pairs.take pairs) (p.pairs.drop pairs)
        rw [take_append_drop] at this
        have := p.nameBytes_le
        omega }
  else none

/-- Parent document, if this document lives in a subcollection. -/
def parentDocument (p : DocumentPath) : Option DocumentPath :=
  if p.pairs.length < 2 then none else p.ancestor (p.pairs.length - 1)

/-! ### Order -/

/-- Slash-separated segments of the resource name. -/
def resourceNameSegments (p : DocumentPath) : List Str :=
  ["projects".toList, p.project.1, "databases".toList, p.database.1, "documents".toList] ++
    pairSegments p.pairs

/-- Orders two paths the way their resource names order as document references. -/
def cmpResourceName (p q : DocumentPath) : Ordering :=
  Library.linCmp p.resourceNameSegments q.resourceNameSegments

/-- Orders a path against a reference value. -/
def cmpReference (p : DocumentPath) (name : Str) : Ordering :=
  Library.linCmp p.resourceNameSegments (name.splitOn '/')

theorem pairSegments_eq : pairSegments pairs = Library.flattenPairs (pairKeys pairs) := by
  simp [pairSegments, Library.flattenPairs, pairKeys, flatMap_map]

theorem resourceNameSegments_strictMono : StrictMono resourceNameSegments := by
  intro p q h
  rw [lt_def, key, key, Prod.Lex.toLex_lt_toLex] at h
  simp only [resourceNameSegments, cons_append, nil_append, cons_lt_cons_iff, lt_irrefl, false_or, true_and]
  rcases h with h | ⟨h1, h⟩
  · exact .inl h
  · rw [Prod.Lex.toLex_lt_toLex] at h
    refine .inr ⟨h1, h.imp_right fun ⟨h2, h3⟩ => ⟨h2, ?_⟩⟩
    rw [pairSegments_eq, pairSegments_eq]
    exact Library.flattenPairs_strictMono h3

/-- The order of resource names by segments is the order of paths. -/
theorem cmpResourceName_eq {p q : DocumentPath} : p.cmpResourceName q = Library.linCmp p q :=
  Library.linCmp_map_of_strictMono resourceNameSegments_strictMono p q

theorem resourceName_eq_intercalate : p.resourceName = ['/'].intercalate p.resourceNameSegments := by
  have hcons : ∀ (s : Str) {l : List Str}, l ≠ [] →
      ['/'].intercalate (s :: l) = s ++ ('/' :: ['/'].intercalate l) := fun s l hl => by
    cases l with
    | nil => exact absurd rfl hl
    | cons => rw [intercalate_cons_cons, append_assoc, singleton_append]
  have hne := pairSegments_ne_nil p.ne_nil
  simp only [resourceNameSegments, cons_append, nil_append]
  rw [hcons _ (by simp), hcons _ (by simp), hcons _ (by simp), hcons _ (by simp), hcons _ hne]
  have h1 : projectsText = "projects".toList ++ ['/'] := by decide
  have h2 : databasesText = '/' :: ("databases".toList ++ ['/']) := by decide
  have h3 : documentsText = '/' :: ("documents".toList ++ ['/']) := by decide
  simp only [resourceName, h1, h2, h3, relative, relativePath, append_assoc, cons_append, nil_append]

theorem slash_not_mem_resourceNameSegments {p : DocumentPath} (h : s ∈ p.resourceNameSegments) : '/' ∉ s := by
  simp only [resourceNameSegments, cons_append, nil_append, mem_cons] at h
  rcases h with rfl | rfl | rfl | rfl | rfl | h
  · decide
  · exact slash_not_mem_projectId
  · decide
  · exact slash_not_mem_databaseId
  · decide
  · exact slash_not_mem_pairSegments h

/-- The segments are what splitting the rendered name gives. -/
theorem splitOn_resourceName : p.resourceName.splitOn '/' = p.resourceNameSegments := by
  rw [resourceName_eq_intercalate]
  exact splitOn_intercalate '/' (fun _ h => slash_not_mem_resourceNameSegments h)
    (cons_ne_nil _ _)

/-! ### Descendants -/

/-- Whether two paths are of the same database. -/
def SameDatabase (p q : DocumentPath) : Prop := p.project = q.project ∧ p.database = q.database

/-- Whether a path is strictly below a document, by its pairs. -/
def isStrictDescendant (path parent : DocumentPath) : Bool :=
  path.pairs.length > parent.pairs.length && path.pairs.take parent.pairs.length == parent.pairs

/-- The text after a text and before every other text that is after it. -/
def orderedSuccessor (id : Str) : Str := id ++ [Char.ofNat 0]

/-- Exclusive upper bound of every strict descendant in path order: the path with the document ID
replaced by its successor. -/
def descendantsUpperBound (p : DocumentPath) : PathKey :=
  toLex (p.project.1, toLex (p.database.1,
    pairKeys p.pairs.dropLast ++ [toLex (p.collectionId.1, orderedSuccessor p.documentId.1)]))

theorem pairKeys_eq_dropLast :
    pairKeys p.pairs = pairKeys p.pairs.dropLast ++ [toLex (p.collectionId.1, p.documentId.1)] := by
  conv_lhs => rw [← dropLast_append_getLast p.ne_nil]
  rw [pairKeys, map_append]
  rfl

variable {path parent : DocumentPath}

theorem isStrictDescendant_iff :
    isStrictDescendant path parent = true ↔ ∃ t, t ≠ [] ∧ path.pairs = parent.pairs ++ t := by
  simp only [isStrictDescendant, Bool.and_eq_true, decide_eq_true_eq, beq_iff_eq]
  constructor
  · rintro ⟨hlen, htake⟩
    refine ⟨path.pairs.drop parent.pairs.length, ?_, ?_⟩
    · simp [drop_eq_nil_iff, hlen]
    · conv_lhs => rw [← take_append_drop parent.pairs.length path.pairs, htake]
  · rintro ⟨t, ht, h⟩
    rw [h, length_append, take_left]
    exact ⟨Nat.lt_add_of_pos_right (length_pos_iff.2 ht), rfl⟩

theorem lt_orderedSuccessor {id : Str} : id < orderedSuccessor id := by
  induction id with
  | nil => exact nil_lt_cons _ _
  | cons c id ih => exact cons_lt_cons_iff.2 (.inr ⟨rfl, ih⟩)

theorem not_between_orderedSuccessor (c id : Str) (x : Str ×ₗ Str) (h : toLex (c, id) < x) :
    ¬ x < toLex (c, orderedSuccessor id) := by
  intro h'
  rw [Prod.Lex.lt_iff] at h h'
  rcases h with h | ⟨h1, h⟩
  · rcases h' with h' | ⟨h2, -⟩
    · exact h.asymm h'
    · exact h.ne h2.symm
  · rcases h' with h' | ⟨-, h'⟩
    · exact h'.ne h1.symm
    · exact Library.not_between_append_bot (fun x => Nat.zero_le x.toNat) h h'

/-- The paths between a document and its bound are exactly its strict descendants. -/
theorem mem_descendants_iff (hdb : path.SameDatabase parent) :
    (parent.key < path.key ∧ path.key < parent.descendantsUpperBound) ↔
      isStrictDescendant path parent = true := by
  simp only [key, descendantsUpperBound, hdb.1, hdb.2, Prod.Lex.toLex_lt_toLex, lt_irrefl, false_or, true_and]
  have hnext : toLex (parent.collectionId.1, parent.documentId.1) <
      toLex (parent.collectionId.1, orderedSuccessor parent.documentId.1) :=
    Prod.Lex.toLex_lt_toLex.2 (.inr ⟨rfl, lt_orderedSuccessor⟩)
  rw [pairKeys_eq_dropLast parent, Library.lt_lt_replaceLast_iff hnext
    (not_between_orderedSuccessor _ _), ← pairKeys_eq_dropLast, isStrictDescendant_iff]
  constructor
  · rintro ⟨t, ht, h⟩
    obtain ⟨a, b, hab, ha, hb⟩ := map_eq_append_iff.1 h
    have : a = parent.pairs := pairKeys_injective ha
    subst this
    exact ⟨b, fun hb' => ht (by rw [← hb, hb']; rfl), hab⟩
  · rintro ⟨t, ht, h⟩
    refine ⟨pairKeys t, fun h' => ht (map_eq_nil_iff.1 h'), ?_⟩
    rw [h, pairKeys, map_append]
    rfl

end DocumentPath

end Fireemu
