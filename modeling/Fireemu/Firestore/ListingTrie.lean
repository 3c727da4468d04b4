import Fireemu.Firestore.Path
import Fireemu.Library.SortedMap

/-!
# The listing trie

The trie has a node for every prefix of a retained path, with the number of retained and of live
paths at or below it, the path retained there and one that shares the prefix, and in every
collection the documents below which something is live.

`ListingTrie.Exact` says so, for given facts about every prefix; the three operations move it along
with the facts (`exact_insertRetainedPairs`, `exact_removeRetainedPairs`, `exact_adjustLivePairs`).
-/

namespace Fireemu

open Library (OrdList.get OrdList.insert OrdList.erase OrdList.get_insert OrdList.get_erase
  OrdList.Sorted SortedMap SortedSet)

/-- One step down a path. -/
abbrev PathPair := CollectionId × DocumentId

mutual

/-- The collections below a document, or at the root. -/
inductive ListingTrie
  | mk (collections : List (CollectionId × ListingTrieCollection))

/-- The documents of a collection and those with something live at or below them. -/
inductive ListingTrieCollection
  | mk (documents : List (DocumentId × ListingTrieDocument)) (liveCandidates : SortedSet DocumentId)

/-- A prefix of retained paths. -/
inductive ListingTrieDocument
  | mk (retainedSubtreePaths liveSubtreePaths : ℕ) (retainedHere : Option DocumentPath)
      (representative : Option DocumentPath) (children : ListingTrie)

end

namespace ListingTrieDocument

def retainedSubtreePaths : ListingTrieDocument → ℕ | mk r _ _ _ _ => r
def liveSubtreePaths : ListingTrieDocument → ℕ | mk _ l _ _ _ => l
def retainedHere : ListingTrieDocument → Option DocumentPath | mk _ _ h _ _ => h
def representative : ListingTrieDocument → Option DocumentPath | mk _ _ _ p _ => p
def children : ListingTrieDocument → ListingTrie | mk _ _ _ _ t => t

@[simp] theorem retainedSubtreePaths_mk {r l : ℕ} (h : Option DocumentPath) {p : Option DocumentPath} {t : ListingTrie} :
    (mk r l h p t).retainedSubtreePaths = r := rfl

/-- A prefix with nothing below it. -/
def empty : ListingTrieDocument := mk 0 0 none none (.mk [])

end ListingTrieDocument

namespace ListingTrieCollection

def documents : ListingTrieCollection → List (DocumentId × ListingTrieDocument) | mk d _ => d
def liveCandidates : ListingTrieCollection → SortedSet DocumentId | mk _ l => l

/-- A collection with no document. -/
def empty : ListingTrieCollection := mk [] SortedMap.empty

end ListingTrieCollection

namespace ListingTrie

def collections : ListingTrie → List (CollectionId × ListingTrieCollection) | mk c => c

/-- The trie of no path. -/
def empty : ListingTrie := mk []

/-- A collection, empty if there is none. -/
def collectionOrEmpty (t : ListingTrie) (c : CollectionId) : ListingTrieCollection :=
  (OrdList.get c t.collections).getD .empty

/-- Enters a path under every prefix. -/
def insertRetainedPairs (path : DocumentPath) : List PathPair → ListingTrie → ListingTrie
  | [], t => t
  | (collection, document) :: rest, t =>
      let c := t.collectionOrEmpty collection
      let node := (OrdList.get document c.documents).getD .empty
      let node := ListingTrieDocument.mk (node.retainedSubtreePaths + 1) node.liveSubtreePaths
        (if rest.isEmpty then some path else node.retainedHere) (some path)
        (insertRetainedPairs path rest node.children)
      .mk (OrdList.insert collection
        (.mk (OrdList.insert document node c.documents) c.liveCandidates) t.collections)

/-- Takes a path out from under every prefix; prefixes of no path are dropped. -/
def removeRetainedPairs : List PathPair → ListingTrie → ListingTrie
  | [], t => t
  | (collection, document) :: rest, t =>
      match OrdList.get collection t.collections with
      | none => t
      | some c =>
          let c := match OrdList.get document c.documents with
            | none => c
            | some node =>
                let node := ListingTrieDocument.mk (node.retainedSubtreePaths - 1)
                  node.liveSubtreePaths (if rest.isEmpty then none else node.retainedHere)
                  node.representative (removeRetainedPairs rest node.children)
                if node.retainedSubtreePaths = 0 then
                  .mk (OrdList.erase document c.documents) (c.liveCandidates.erase document)
                else .mk (OrdList.insert document node c.documents) c.liveCandidates
          if c.documents.isEmpty then .mk (OrdList.erase collection t.collections)
          else .mk (OrdList.insert collection c t.collections)

/-- Counts a path in or out of the live paths under every prefix. -/
def adjustLivePairs (increase : Bool) : List PathPair → ListingTrie → ListingTrie
  | [], t => t
  | (collection, document) :: rest, t =>
      match OrdList.get collection t.collections with
      | none => t
      | some c =>
          match OrdList.get document c.documents with
          | none => t
          | some node =>
              let live := if increase then node.liveSubtreePaths + 1 else node.liveSubtreePaths - 1
              let wasLive : Bool := node.liveSubtreePaths > 0
              let isLive : Bool := live > 0
              let node := ListingTrieDocument.mk node.retainedSubtreePaths live node.retainedHere
                node.representative (adjustLivePairs increase rest node.children)
              let candidates :=
                if wasLive != isLive then
                  if isLive then c.liveCandidates.add document
                  else c.liveCandidates.erase document
                else c.liveCandidates
              .mk (OrdList.insert collection (.mk (OrdList.insert document node c.documents)
                candidates) t.collections)

/-- Enters a retained path. -/
def insertRetained (t : ListingTrie) (path : DocumentPath) : ListingTrie :=
  insertRetainedPairs path path.pairs t

/-- Takes out a path that is no longer retained. -/
def removeRetained (t : ListingTrie) (path : DocumentPath) : ListingTrie :=
  removeRetainedPairs path.pairs t

/-- Counts a path in or out of the live paths. -/
def adjustLive (t : ListingTrie) (path : DocumentPath) (increase : Bool) : ListingTrie :=
  adjustLivePairs increase path.pairs t

/-! ### Exactness -/

/-- The document one step down. -/
def child (t : ListingTrie) (x : PathPair) : Option ListingTrieDocument :=
  OrdList.get x.2 (t.collectionOrEmpty x.1).documents

end ListingTrie

/-- What a trie has to say about a prefix. -/
structure PrefixFacts where
  /-- The number of retained paths at or below the prefix. -/
  retained : ℕ
  /-- The number of live paths at or below the prefix. -/
  live : ℕ
  /-- The retained path that ends at the prefix. -/
  here : Option DocumentPath
  /-- The paths that may stand for the prefix. -/
  names : DocumentPath → Prop

/-- The facts about a prefix nothing is retained under. -/
def PrefixFacts.IsEmpty (f : PrefixFacts) : Prop := f.retained = 0 ∧ f.live = 0 ∧ f.here = none

/-- A document of the trie says what there is to say about its prefix. -/
structure ListingTrieDocument.Has (n : ListingTrieDocument) (f : PrefixFacts) : Prop where
  retained : n.retainedSubtreePaths = f.retained
  retained_pos : 0 < f.retained
  live : n.liveSubtreePaths = f.live
  here : n.retainedHere = f.here
  names : ∃ p, n.representative = some p ∧ f.names p

/-- A collection of the trie is in order and knows its documents with something live. -/
structure ListingTrieCollection.Has (n : ListingTrieCollection) (f : DocumentId → PrefixFacts) :
    Prop where
  ne_nil : n.documents ≠ []
  sorted : OrdList.Sorted n.documents
  candidates : ∀ d, d ∈ n.liveCandidates ↔ 0 < (f d).live

namespace ListingTrie

/-- The trie has a document for exactly the prefixes with a retained path, and says of each what
there is to say. -/
inductive Exact : ListingTrie → (List PathPair → PrefixFacts) → Prop
  | intro {t : ListingTrie} {F : List PathPair → PrefixFacts}
      (absent : ∀ x, t.child x = none → ∀ q, (F (x :: q)).IsEmpty)
      (present : ∀ x n, t.child x = some n → n.Has (F [x]))
      (below : ∀ x n, t.child x = some n → Exact n.children fun q => F (x :: q))
      (sorted : OrdList.Sorted t.collections)
      (collections : ∀ c n, OrdList.get c t.collections = some n → n.Has fun d => F [(c, d)]) :
      Exact t F

variable {c : CollectionId} {q rest : List PathPair}

/-- Putting a collection in place changes the documents of that collection. -/
theorem child_setCollection {t : ListingTrie} {n : ListingTrieCollection} {y : PathPair} :
    (mk (OrdList.insert c n t.collections)).child y =
      if y.1 = c then OrdList.get y.2 n.documents else t.child y := by
  unfold child collectionOrEmpty
  simp only [collections, OrdList.get_insert]
  split_ifs with h
  · rfl
  · rfl

theorem child_eraseCollection {t : ListingTrie} {y : PathPair} :
    (mk (OrdList.erase c t.collections)).child y = if y.1 = c then none else t.child y := by
  unfold child collectionOrEmpty
  simp only [collections, OrdList.get_erase]
  split_ifs with h
  · rfl
  · rfl

theorem insert_isEmpty (d : DocumentId) (n : ListingTrieDocument)
    (l : List (DocumentId × ListingTrieDocument)) : (OrdList.insert d n l).isEmpty = false := by
  cases l with
  | nil => rfl
  | cons =>
    unfold OrdList.insert
    split_ifs <;> rfl

variable {x y : PathPair} {pairs : List PathPair}

theorem pair_eq_iff : y = x ↔ y.1 = x.1 ∧ y.2 = x.2 := Prod.ext_iff

namespace Exact

variable {t : ListingTrie} {F F' : List PathPair → PrefixFacts} {x : PathPair}

theorem absent (h : Exact t F) (hx : t.child x = none) (q : List PathPair) : (F (x :: q)).IsEmpty := by
  cases h with
  | intro absent => exact absent x hx q

theorem present (h : Exact t F) {n : ListingTrieDocument} (hx : t.child x = some n) : n.Has (F [x]) := by
  cases h with
  | intro _ present => exact present x n hx

variable {n : ListingTrieDocument}

theorem children (h : Exact t F) (hx : t.child x = some n) : Exact n.children fun q => F (x :: q) := by
  cases h with
  | intro _ _ below => exact below x n hx

theorem sorted (h : Exact t F) : OrdList.Sorted t.collections := by
  cases h with
  | intro _ _ _ sorted => exact sorted

theorem collections (h : Exact t F) {c : CollectionId} {n : ListingTrieCollection}
    (hc : OrdList.get c t.collections = some n) : n.Has fun d => F [(c, d)] := by
  cases h with
  | intro _ _ _ _ collections => exact collections c n hc

/-- The facts about the empty prefix do not matter. -/
theorem congr (h : Exact t F) (hF : ∀ x q, F' (x :: q) = F (x :: q)) : Exact t F' := by
  cases h with
  | intro absent present below sorted collections =>
    refine .intro (fun x hx q => ?_) (fun x n hx => ?_) (fun x n hx => ?_) sorted fun c n hc => ?_
    · rw [hF]
      exact absent x hx q
    · rw [hF]
      exact present x n hx
    · simp only [hF]
      exact below x n hx
    · simp only [hF]
      exact collections c n hc

theorem empty (hF : ∀ x q, (F (x :: q)).IsEmpty) : Exact .empty F :=
  .intro (fun x _ q => hF x q) nofun nofun List.Pairwise.nil nofun

/-- The document one step down, or an empty one, has an exact trie below it. -/
theorem children_getD (h : Exact t F) (x : PathPair) :
    Exact ((t.child x).getD .empty).children fun q => F (x :: q) := by
  cases hx : t.child x with
  | none => exact empty fun y q => h.absent hx (y :: q)
  | some => exact h.children hx

theorem facts_getD (h : Exact t F) (x : PathPair) :
    ((t.child x).getD .empty).retainedSubtreePaths = (F [x]).retained ∧
      ((t.child x).getD .empty).liveSubtreePaths = (F [x]).live ∧
      ((t.child x).getD .empty).retainedHere = (F [x]).here := by
  cases hx : t.child x with
  | none =>
    obtain ⟨hret, hlive, hhere⟩ := h.absent hx []
    exact ⟨hret.symm, hlive.symm, hhere.symm⟩
  | some => exact ⟨(h.present hx).retained, (h.present hx).live, (h.present hx).here⟩

theorem documents_sorted (h : Exact t F) : OrdList.Sorted (t.collectionOrEmpty c).documents := by
  unfold collectionOrEmpty
  cases hc : OrdList.get c t.collections with
  | none => exact List.Pairwise.nil
  | some => exact (h.collections hc).sorted

/-- The candidates of a collection, none if it does not exist. -/
theorem candidates_getD (h : Exact t F) (c : CollectionId) (d : DocumentId) :
    d ∈ (t.collectionOrEmpty c).liveCandidates ↔ 0 < (F [(c, d)]).live := by
  unfold collectionOrEmpty
  cases hc : OrdList.get c t.collections with
  | none =>
    have hx : t.child (c, d) = none := by simp [child, collectionOrEmpty, hc]; rfl
    rw [(h.absent hx []).2.1]
    simp [ListingTrieCollection.empty, ListingTrieCollection.liveCandidates]
  | some => exact (h.collections hc).candidates d

/-- Replacing one document, and whether it is a candidate, by one with new facts. -/
theorem setChild (h : Exact t F) {candidates : SortedSet DocumentId}
    (ho : ∀ y q, y ≠ x → F' (y :: q) = F (y :: q)) (hn : n.Has (F' [x]))
    (hb : Exact n.children fun q => F' (x :: q)) (hself : x.2 ∈ candidates ↔ 0 < (F' [x]).live)
    (hcandidates : ∀ d, d ≠ x.2 → (d ∈ candidates ↔ d ∈ (t.collectionOrEmpty x.1).liveCandidates)) :
    Exact (mk (OrdList.insert x.1 (.mk (OrdList.insert x.2 n (t.collectionOrEmpty x.1).documents)
      candidates) t.collections)) F' := by
  have hchild : ∀ y, (mk (OrdList.insert x.1 (.mk (OrdList.insert x.2 n
      (t.collectionOrEmpty x.1).documents) candidates) t.collections)).child y =
      if y = x then some n else t.child y := fun y => by
    rw [child_setCollection, ListingTrieCollection.documents]
    by_cases hc : y.1 = x.1
    · rw [if_pos hc, OrdList.get_insert]
      simp only [pair_eq_iff, hc, true_and]
      split_ifs with hd
      · rfl
      · unfold child
        rw [hc]
    · rw [if_neg hc, if_neg fun h => hc (congrArg Prod.fst h)]
  refine .intro (fun y hy q => ?_) (fun y m hy => ?_) (fun y m hy => ?_) h.sorted.insert
    fun c m hc => ?_
  · rw [hchild] at hy
    split_ifs at hy with hyx
    rw [ho y q hyx]
    exact h.absent hy q
  · rw [hchild] at hy
    split_ifs at hy with hyx
    · cases hy
      rw [hyx]
      exact hn
    · rw [ho y [] hyx]
      exact h.present hy
  · rw [hchild] at hy
    split_ifs at hy with hyx
    · cases hy
      rw [hyx]
      exact hb
    · simp only [ho y _ hyx]
      exact h.children hy
  · rw [ListingTrie.collections, OrdList.get_insert] at hc
    split_ifs at hc with hcx
    · cases hc
      subst hcx
      refine ⟨fun hnil => ?_, h.documents_sorted.insert, fun d => ?_⟩
      · have he := insert_isEmpty x.2 n (t.collectionOrEmpty x.1).documents
        rw [show OrdList.insert x.2 n (t.collectionOrEmpty x.1).documents = [] from hnil] at he
        cases he
      · by_cases hd : d = x.2
        · subst hd
          exact hself
        · rw [ho _ [] fun heq => hd (congrArg Prod.snd heq)]
          exact (hcandidates d hd).trans (h.candidates_getD x.1 d)
    · obtain ⟨hne, hs, hcand⟩ := h.collections hc
      refine ⟨hne, hs, fun d => ?_⟩
      rw [hcand, ho _ [] fun heq => hcx (congrArg Prod.fst heq)]

/-- Dropping one document, and its collection if nothing is left of it. -/
theorem eraseChild (h : Exact t F) (ho : ∀ y q, y ≠ x → F' (y :: q) = F (y :: q))
    (hself : ∀ q, (F' (x :: q)).IsEmpty) :
    Exact (if (OrdList.erase x.2 (t.collectionOrEmpty x.1).documents).isEmpty then
        mk (OrdList.erase x.1 t.collections)
      else mk (OrdList.insert x.1 (.mk (OrdList.erase x.2 (t.collectionOrEmpty x.1).documents)
        ((t.collectionOrEmpty x.1).liveCandidates.erase x.2)) t.collections)) F' := by
  have hdocs : ∀ y : PathPair, y.1 = x.1 →
      OrdList.get y.2 (OrdList.erase x.2 (t.collectionOrEmpty x.1).documents) =
        if y = x then none else t.child y := fun y hy => by
    rw [OrdList.get_erase]
    simp only [pair_eq_iff, hy, true_and]
    split_ifs with hd
    · rfl
    · unfold child
      rw [hy]
  -- whichever way it is dropped, the document is gone and the others stay
  have hdrop : ∀ t' : ListingTrie, (∀ y, t'.child y = if y = x then none else t.child y) →
      OrdList.Sorted t'.collections →
      (∀ c n, OrdList.get c t'.collections = some n → n.Has fun d => F' [(c, d)]) →
      Exact t' F' := fun t' hchild hs hcollections => by
    refine .intro (fun y hy q => ?_) (fun y m hy => ?_) (fun y m hy => ?_) hs hcollections
    · rw [hchild] at hy
      split_ifs at hy with hyx
      · rw [hyx]
        exact hself q
      · rw [ho y q hyx]
        exact h.absent hy q
    · rw [hchild] at hy
      split_ifs at hy with hyx
      rw [ho y [] hyx]
      exact h.present hy
    · rw [hchild] at hy
      split_ifs at hy with hyx
      simp only [ho y _ hyx]
      exact h.children hy
  have hkept : ∀ c n, c ≠ x.1 → OrdList.get c t.collections = some n →
      n.Has fun d => F' [(c, d)] := fun c n hcx hc => by
    obtain ⟨hne, hs, hcand⟩ := h.collections hc
    refine ⟨hne, hs, fun d => ?_⟩
    rw [hcand, ho _ [] fun heq => hcx (congrArg Prod.fst heq)]
  split_ifs with he
  · refine hdrop _ (fun y => ?_) h.sorted.erase fun c n hc => ?_
    · rw [child_eraseCollection]
      split_ifs with h1 h2 h2
      · rfl
      · have hnone := hdocs y h1
        rw [List.isEmpty_iff.1 he, if_neg h2] at hnone
        exact hnone
      · exact absurd (congrArg Prod.fst h2) h1
      · rfl
    · rw [ListingTrie.collections, OrdList.get_erase] at hc
      split_ifs at hc with hcx
      exact hkept c n hcx hc
  · refine hdrop _ (fun y => ?_) h.sorted.insert fun c n hc => ?_
    · rw [child_setCollection]
      split_ifs with h1 h2 h2
      · exact (hdocs y h1).trans (if_pos h2)
      · exact (hdocs y h1).trans (if_neg h2)
      · exact absurd (congrArg Prod.fst h2) h1
      · rfl
    · rw [ListingTrie.collections, OrdList.get_insert] at hc
      split_ifs at hc with hcx
      · cases hc
        subst hcx
        refine ⟨fun hnil => he (List.isEmpty_iff.2 hnil), h.documents_sorted.erase, fun d => ?_⟩
        rw [ListingTrieCollection.liveCandidates, SortedSet.mem_erase, h.candidates_getD]
        by_cases hd : d = x.2
        · subst hd
          rw [(hself []).2.1]
          simp
        · rw [ho _ [] fun heq => hd (congrArg Prod.snd heq)]
          exact and_iff_right hd
      · exact hkept c n hcx hc

/-- Where a path counts there is a document. -/
theorem exists_child (h : Exact t F) (hx : 0 < (F [x]).retained) :
    ∃ n, OrdList.get x.1 t.collections = some (t.collectionOrEmpty x.1) ∧
      OrdList.get x.2 (t.collectionOrEmpty x.1).documents = some n ∧ t.child x = some n := by
  cases hc : t.child x with
  | none => exact absurd (h.absent hc []).1 hx.ne'
  | some n =>
    refine ⟨n, ?_, hc, rfl⟩
    unfold child collectionOrEmpty at hc
    unfold collectionOrEmpty
    cases hget : OrdList.get x.1 t.collections with
    | none =>
      rw [hget] at hc
      cases hc
    | some => rfl

end Exact

/-! ### Operations -/

/-- One, if the first argument is a beginning of the second. -/
def prefixCount (q pairs : List PathPair) : ℕ := if q <+: pairs then 1 else 0

theorem prefixCount_cons_of_ne (h : y ≠ x) (q rest : List PathPair) :
    prefixCount (y :: q) (x :: rest) = 0 := if_neg fun hp => h (List.cons_prefix_cons.1 hp).1

theorem prefixCount_cons_self : prefixCount (x :: q) (x :: rest) = prefixCount q rest := by
  simp [prefixCount, List.cons_prefix_cons]

theorem prefixCount_cons_nil : prefixCount (x :: q) [] = 0 :=
  if_neg (by simp)

theorem prefixCount_nil : prefixCount [] rest = 1 := if_pos (by simp)

variable {t : ListingTrie} {F F' : List PathPair → PrefixFacts}

/-- A new path counts under each of its prefixes, and stands for them. -/
theorem exact_insertRetainedPairs {path : DocumentPath} (h : Exact t F)
    (hnames : ∀ q, q <+: pairs → (F q).names path) (hF : ∀ q, F' q = { F q with
      retained := (F q).retained + prefixCount q pairs
      here := if q = pairs then some path else (F q).here }) :
    Exact (insertRetainedPairs path pairs t) F' := by
  induction pairs generalizing t F F' with
  | nil =>
    refine h.congr fun x q => ?_
    rw [hF, prefixCount_cons_nil, add_zero, if_neg (by simp)]
  | cons x rest ih =>
    obtain ⟨c, d⟩ := x
    obtain ⟨hret, hlive, hhere⟩ := h.facts_getD (c, d)
    have hself := hF [(c, d)]
    rw [prefixCount_cons_self, prefixCount_nil] at hself
    refine Exact.setChild (x := (c, d)) h (fun y q hy => ?_) ?_ ?_ ?_ fun _ _ => Iff.rfl
    · rw [hF, prefixCount_cons_of_ne hy, add_zero, if_neg fun heq => hy (List.cons.inj heq).1]
    · rw [hself]
      refine ⟨congrArg (· + 1) hret, Nat.succ_pos _, hlive, ?_, path, rfl, hnames [(c, d)] ⟨rest, rfl⟩⟩
      simp only [List.cons.injEq, true_and, List.nil_eq, List.isEmpty_iff]
      split_ifs
      · rfl
      · exact hhere
    · refine ih (h.children_getD (c, d))
        (fun q hq => hnames _ (List.cons_prefix_cons.2 ⟨rfl, hq⟩)) fun q => ?_
      rw [hF, prefixCount_cons_self]
      simp only [List.cons.injEq, true_and]
    · rw [hself]
      exact h.candidates_getD c d

/-- A path that becomes live, or stops being live, counts under each of its prefixes. -/
theorem exact_adjustLivePairs {increase : Bool} {live : List PathPair → ℕ} (h : Exact t F)
    (hret : ∀ q, q <+: pairs → 0 < (F q).retained)
    (hup : increase = true → ∀ q, live q = (F q).live + prefixCount q pairs)
    (hdown : increase = false → ∀ q, (F q).live = live q + prefixCount q pairs) :
    Exact (adjustLivePairs increase pairs t) fun q => { F q with live := live q } := by
  induction pairs generalizing t F live with
  | nil =>
    refine h.congr fun x q => ?_
    have heq : live (x :: q) = (F (x :: q)).live := by
      cases increase with
      | true => rw [hup rfl, prefixCount_cons_nil, add_zero]
      | false => rw [hdown rfl, prefixCount_cons_nil, add_zero]
    rw [heq]
  | cons x rest ih =>
    obtain ⟨n, hc, hd, hn⟩ := h.exists_child (x := x) (hret [x] ⟨rest, rfl⟩)
    have hnode := h.present hn
    have hcount : (if increase then n.liveSubtreePaths + 1 else n.liveSubtreePaths - 1) = live [x] := by
      cases increase with
      | true => rw [if_pos rfl, hnode.live, hup rfl, prefixCount_cons_self, prefixCount_nil]
      | false =>
        rw [if_neg Bool.false_ne_true, hnode.live, hdown rfl, prefixCount_cons_self,
          prefixCount_nil, Nat.add_sub_cancel]
    have ho : ∀ y q, y ≠ x → live (y :: q) = (F (y :: q)).live := fun y q hy => by
      cases increase with
      | true => rw [hup rfl, prefixCount_cons_of_ne hy, add_zero]
      | false => rw [hdown rfl, prefixCount_cons_of_ne hy, add_zero]
    have hb : Exact (adjustLivePairs increase rest n.children)
        fun q => { F (x :: q) with live := live (x :: q) } := by
      refine ih (h.children hn) (fun q hq => hret _ (List.cons_prefix_cons.2 ⟨rfl, hq⟩))
        (fun hi q => ?_) fun hi q => ?_
      · rw [hup hi, prefixCount_cons_self]
      · rw [hdown hi, prefixCount_cons_self]
    obtain ⟨c, d⟩ := x
    have hcand := h.candidates_getD c d
    rw [← hnode.live] at hcand
    simp only [adjustLivePairs, hc, hd, hcount]
    refine Exact.setChild (x := (c, d)) h (fun y q hy => ?_)
      ⟨hnode.retained, hnode.retained_pos, rfl, hnode.here, hnode.names⟩ hb ?_ fun e he => ?_
    · rw [ho y q hy]
    · -- the candidates change only when the count starts or stops being zero
      split_ifs with hdiff hlive
      · simpa [SortedSet.mem_add] using hlive
      · simpa [SortedSet.mem_erase] using hlive
      · rw [hcand]
        simpa using hdiff
    · split_ifs
      · rw [SortedSet.mem_add, or_iff_right he]
      · rw [SortedSet.mem_erase, and_iff_right he]
      · rfl

/-- A path taken out no longer counts, and prefixes of no path disappear. -/
theorem exact_removeRetainedPairs (h : Exact t F)
    (hret : ∀ q, (F q).retained = (F' q).retained + prefixCount q pairs) (hF : ∀ q, F' q = { F q with
      retained := (F' q).retained
      here := if q = pairs then none else (F q).here })
    (he : ∀ q q', (F' q).retained = 0 → (F' (q ++ q')).IsEmpty) : Exact (removeRetainedPairs pairs t) F' := by
  induction pairs generalizing t F F' with
  | nil =>
    refine h.congr fun x q => ?_
    have heq := hret (x :: q)
    rw [prefixCount_cons_nil, add_zero] at heq
    rw [hF, if_neg (by simp), ← heq]
  | cons x rest ih =>
    have hx : (F [x]).retained = (F' [x]).retained + 1 := by
      rw [hret, prefixCount_cons_self, prefixCount_nil]
    obtain ⟨n, hc, hd, hn⟩ := h.exists_child (x := x) (hx ▸ Nat.succ_pos _)
    have hp := h.present hn
    have hself := hF [x]
    have ho : ∀ y q, y ≠ x → F' (y :: q) = F (y :: q) := fun y q hy => by
      have heq := hret (y :: q)
      rw [prefixCount_cons_of_ne hy, add_zero] at heq
      rw [hF, if_neg fun heq => hy (List.cons.inj heq).1, ← heq]
    have hb : Exact (removeRetainedPairs rest n.children) fun q => F' (x :: q) := by
      refine ih (h.children hn) (fun q => ?_) (fun q => ?_) fun q q' => he (x :: q) q'
      · rw [hret, prefixCount_cons_self]
      · rw [hF]
        simp only [List.cons.injEq, true_and]
    have hnode : n.retainedSubtreePaths - 1 = (F' [x]).retained := by
      rw [hp.retained, hx, Nat.add_sub_cancel]
    obtain ⟨c, d⟩ := x
    simp only [removeRetainedPairs, hc, hd, ListingTrieDocument.retainedSubtreePaths_mk, hnode]
    by_cases hzero : (F' [(c, d)]).retained = 0
    · rw [if_pos hzero]
      exact Exact.eraseChild (x := (c, d)) h ho fun q => he [(c, d)] q hzero
    · rw [if_neg hzero]
      have hne := insert_isEmpty d (ListingTrieDocument.mk (F' [(c, d)]).retained
        n.liveSubtreePaths (if rest.isEmpty then none else n.retainedHere) n.representative
        (removeRetainedPairs rest n.children)) (t.collectionOrEmpty c).documents
      rw [if_neg (by rw [ListingTrieCollection.documents, hne]; exact Bool.false_ne_true)]
      refine Exact.setChild (x := (c, d)) h ho ⟨rfl, Nat.pos_of_ne_zero hzero, ?_, ?_, ?_⟩
        hb ?_ fun _ _ => Iff.rfl
      · rw [hself]
        exact hp.live
      · rw [hself]
        simp only [List.cons.injEq, true_and, List.nil_eq, List.isEmpty_iff]
        split_ifs
        · rfl
        · exact hp.here
      · rw [hself]
        exact hp.names
      · rw [hself]
        exact h.candidates_getD c d

end ListingTrie

end Fireemu
