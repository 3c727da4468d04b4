import Fireemu.Firestore.ScopeIndex

/-!
# What the scope indexes hold

`ScopeIndexes.Exact` says what the indexes of a database hold, for its retained paths, its live
paths and its latest documents.  Each operation of the indexes moves it along with the paths and
the documents.
-/

namespace Fireemu

open Library (SortedMap SortedSet GroupedIndex GroupedIndex.Exact)
open ListingTrie (prefixCount)
open List Library.SortedMap Library.SortedSet

namespace DocumentPath

/-- Whether a path is of a database. -/
def InDatabase (database : ProjectId × DatabaseId) (p : DocumentPath) : Prop :=
  p.project = database.1 ∧ p.database = database.2

/-- In one database a path is given by its pairs. -/
theorem InDatabase.eq_of_pairs {database : ProjectId × DatabaseId} {p q : DocumentPath}
    (hp : p.InDatabase database) (hq : q.InDatabase database) (h : p.pairs = q.pairs) : p = q := by
  refine key_injective ?_
  rw [key, key, hp.1, hp.2, hq.1, hq.2, h]

end DocumentPath

/-! ### Facts about prefixes -/

section PrefixFacts

variable {database : ProjectId × DatabaseId} {retained live : SortedSet DocumentPath} {path : DocumentPath}
  {q : List PathPair}

/-- The number of paths at or below a prefix. -/
def countUnder (paths : SortedSet DocumentPath) (q : List PathPair) : ℕ :=
  paths.sum fun p _ => prefixCount q p.pairs

/-- The path that ends at a prefix. -/
def pathAt (paths : SortedSet DocumentPath) (q : List PathPair) : Option DocumentPath :=
  paths.toList.find? fun p => p.pairs = q

/-- What there is to say about a prefix, for the paths of a database. -/
def prefixFacts (database : ProjectId × DatabaseId) (retained live : SortedSet DocumentPath)
    (q : List PathPair) : PrefixFacts where
  retained := countUnder retained q
  live := countUnder live q
  here := pathAt retained q
  names p := p.InDatabase database ∧ q <+: p.pairs

theorem countUnder_add (h : path ∉ live) :
    countUnder (live.add path) q = countUnder live q + prefixCount q path.pairs := by
  have hnone : live.get path = none := Option.eq_none_iff_forall_not_mem.2 fun _ hget => h hget
  rw [countUnder, SortedSet.add, sum_insert_of_get_none _ _ hnone, add_comm]
  rfl

theorem countUnder_erase (h : path ∈ live) :
    countUnder live q = countUnder (live.erase path) q + prefixCount q path.pairs := by
  rw [countUnder, sum_erase live _ path, term_of_get h, add_comm]
  rfl

theorem countUnder_eq_zero : countUnder retained q = 0 ↔ ∀ p ∈ retained, ¬ q <+: p.pairs := by
  rw [countUnder, SortedMap.sum, sum_eq_zero_iff, List.forall_mem_map]
  constructor
  · intro h p hp hprefix
    have hzero := h (p, ()) (mem_entries.2 hp)
    rw [prefixCount, if_pos hprefix] at hzero
    cases hzero
  · intro h e he
    exact if_neg (h e.1 (mem_entries.1 he))

theorem countUnder_pos (h : path ∈ retained) (hq : q <+: path.pairs) : 0 < countUnder retained q :=
  Nat.pos_of_ne_zero fun hzero => countUnder_eq_zero.1 hzero path h hq

theorem pathAt_eq_some (hd : ∀ p ∈ retained, p.InDatabase database) :
    pathAt retained q = some path ↔ path ∈ retained ∧ path.pairs = q := by
  unfold pathAt
  constructor
  · intro h
    exact ⟨SortedSet.mem_toList.1 (mem_of_find?_eq_some h), by simpa using List.find?_some h⟩
  · rintro ⟨hmem, hpairs⟩
    obtain ⟨p, hp⟩ := Option.isSome_iff_exists.1 (List.find?_isSome.2
      ⟨path, SortedSet.mem_toList.2 hmem, by simpa using hpairs⟩ :
        (retained.toList.find? fun p => p.pairs = q).isSome)
    have hp' : p.pairs = q := by simpa using List.find?_some hp
    have hmem' := SortedSet.mem_toList.1 (mem_of_find?_eq_some hp)
    rw [hp, (hd p hmem').eq_of_pairs (hd path hmem) (hp'.trans hpairs.symm)]

theorem pathAt_add (hd : ∀ p ∈ retained, p.InDatabase database)
    (hpath : path.InDatabase database) (hnew : path ∉ retained) :
    pathAt (retained.add path) q = if q = path.pairs then some path else pathAt retained q := by
  have hadd : ∀ p ∈ retained.add path, p.InDatabase database := fun p hp =>
    (mem_add.1 hp).elim (fun h => h ▸ hpath) (hd p)
  refine Option.ext fun p => ?_
  rw [pathAt_eq_some hadd, mem_add]
  split_ifs with hq
  · rw [Option.some_inj]
    constructor
    · rintro ⟨rfl | hp, hpairs⟩
      · rfl
      · exact (hpath.eq_of_pairs (hd p hp) (hq.symm.trans hpairs.symm))
    · rintro rfl
      exact ⟨.inl rfl, hq.symm⟩
  · rw [pathAt_eq_some hd]
    refine and_congr_left fun hpairs => or_iff_right ?_
    rintro rfl
    exact hq hpairs.symm

theorem pathAt_erase (hd : ∀ p ∈ retained, p.InDatabase database) (hold : path ∈ retained) :
    pathAt (retained.erase path) q = if q = path.pairs then none else pathAt retained q := by
  have he : ∀ p ∈ (retained.erase path : SortedSet DocumentPath),
      p.InDatabase database := fun p hp => hd p (mem_erase.1 hp).2
  refine Option.ext fun p => ?_
  rw [pathAt_eq_some he, mem_erase]
  split_ifs with hq
  · refine iff_of_false ?_ nofun
    rintro ⟨⟨hne, hp⟩, hpairs⟩
    exact hne ((hd p hp).eq_of_pairs (hd path hold) (hpairs.trans hq))
  · rw [pathAt_eq_some hd]
    refine and_congr_left fun hpairs => and_iff_right ?_
    rintro rfl
    exact hq hpairs.symm

/-- Under a prefix of no retained path there is nothing. -/
theorem prefixFacts_isEmpty (hd : ∀ p ∈ retained, p.InDatabase database) (hlive : ∀ p ∈ live, p ∈ retained)
    (h : ∀ p ∈ retained, ¬ q <+: p.pairs) : (prefixFacts database retained live q).IsEmpty := by
  refine ⟨countUnder_eq_zero.2 h, countUnder_eq_zero.2 fun p hp => h p (hlive p hp), ?_⟩
  refine Option.eq_none_iff_forall_not_mem.2 fun p hp => ?_
  obtain ⟨hmem, rfl⟩ := (pathAt_eq_some hd).1 hp
  exact h p hmem (prefix_refl _)

end PrefixFacts

/-! ### Expiry indexes -/

/-- The entries are those of the documents of a group whose expiry field holds a timestamp. -/
def TtlExpiryIndex.Exact (get : DocumentPath → Option Document) (group : CollectionId)
    (index : TtlExpiryIndex) : Prop :=
  ∀ t p, toLex (t, p) ∈ index.entries ↔
    p.collectionId = group ∧ ScopeIndexes.expiryTimestamp index.field (get p) = some t

namespace ScopeIndexes

variable {ix : ScopeIndexes} {get : DocumentPath → Option Document} {path : DocumentPath}

/-- Every registered expiry index is exact. -/
def TtlExact (get : DocumentPath → Option Document) (ix : ScopeIndexes) : Prop :=
  ∀ group index, ix.ttlExpiryIndexes.get group = some index → index.Exact get group

variable {field : FieldPath} {current : Option Document} {group : CollectionId}

theorem expiryTimestamp_none : expiryTimestamp field none = none := rfl

/-- The expiry index of a group after the entry of a path is entered or taken out. -/
theorem get_updateTtlExpiryPath {insert : Bool} {index : TtlExpiryIndex}
    (h : (ix.updateTtlExpiryPath path current insert).ttlExpiryIndexes.get group = some index) :
    ∃ old, ix.ttlExpiryIndexes.get group = some old ∧ index.field = old.field ∧
      ∀ t p, toLex (t, p) ∈ index.entries ↔
        if p = path ∧ p.collectionId = group ∧ expiryTimestamp old.field current = some t
        then insert = true else toLex (t, p) ∈ old.entries := by
  unfold updateTtlExpiryPath at h
  by_cases hg : path.collectionId = group
  · subst hg
    cases hget : ix.ttlExpiryIndexes.get path.collectionId with
    | none =>
      rw [hget] at h
      cases hget.symm.trans h
    | some old =>
      rw [hget] at h
      dsimp only at h
      cases ht : expiryTimestamp old.field current with
      | none =>
        rw [ht] at h
        cases hget.symm.trans h
        exact ⟨index, rfl, rfl, by simp [ht]⟩
      | some t =>
        rw [ht] at h
        dsimp only at h
        rw [get_insert_self] at h
        cases h
        refine ⟨old, rfl, rfl, fun t' p => ?_⟩
        have hpair : toLex (t', p) = toLex (t, path) ↔ t' = t ∧ p = path :=
          toLex.injective.eq_iff.trans Prod.mk_inj
        cases insert <;> simp [hpair, ht] <;> grind
  · refine ⟨index, ?_, rfl, fun t p => by rw [if_neg (by rintro ⟨rfl, hgroup, -⟩; exact hg hgroup)]⟩
    split at h
    · exact h
    · split at h
      · exact h
      · rwa [get_insert_of_ne _ _ (Ne.symm hg)] at h

/-- Taking out the entry of a path makes the indexes those without its document. -/
theorem TtlExact.remove (h : ix.TtlExact get) (path : DocumentPath) :
    (ix.updateTtlExpiryPath path (get path) false).TtlExact (Function.update get path none) := by
  intro group index hi t p
  obtain ⟨old, hold, hf, he⟩ := get_updateTtlExpiryPath hi
  rw [he, hf, h group old hold, Function.update_apply]
  by_cases hp : p = path
  · subst hp
    simp [expiryTimestamp_none]
  · simp [hp]

/-- Entering a path that had no document. -/
theorem TtlExact.insert (h : ix.TtlExact get) (hnone : get path = none) (current : Option Document) :
    (ix.updateTtlExpiryPath path current true).TtlExact (Function.update get path current) := by
  intro group index hi t p
  obtain ⟨old, hold, hf, he⟩ := get_updateTtlExpiryPath hi
  rw [he, hf, h group old hold, Function.update_apply]
  by_cases hp : p = path
  · subst hp
    simp [hnone, expiryTimestamp_none]
  · simp [hp]

/-! ### Exactness -/

variable {database : ProjectId × DatabaseId} {retained live : SortedSet DocumentPath}

/-- The indexes hold the retained paths, the live paths and the expiry entries of the latest
documents, and nothing else. -/
structure Exact (database : ProjectId × DatabaseId) (retained live : SortedSet DocumentPath)
    (get : DocumentPath → Option Document) (ix : ScopeIndexes) : Prop where
  inDatabase : ∀ p ∈ retained, p.InDatabase database
  live_retained : ∀ p ∈ live, p ∈ retained
  direct : GroupedIndex.Exact directKey (· ∈ retained) ix.directCollectionPaths
  liveDirect : GroupedIndex.Exact directKey (· ∈ live) ix.liveDirectCollectionPaths
  group : GroupedIndex.Exact DocumentPath.collectionId (· ∈ retained) ix.collectionGroupPaths
  liveGroup : GroupedIndex.Exact DocumentPath.collectionId (· ∈ live) ix.liveCollectionGroupPaths
  livePaths : ix.livePaths = live
  trie : ix.listingTrie.Exact (prefixFacts database retained live)
  ttl : ix.TtlExact get

theorem Exact.empty (database : ProjectId × DatabaseId) (get : DocumentPath → Option Document) :
    Exact database SortedMap.empty SortedMap.empty get empty where
  inDatabase _ hp := absurd hp (SortedSet.not_mem_empty _)
  live_retained _ hp := hp
  direct := GroupedIndex.Exact.empty SortedSet.not_mem_empty
  liveDirect := GroupedIndex.Exact.empty SortedSet.not_mem_empty
  group := GroupedIndex.Exact.empty SortedSet.not_mem_empty
  liveGroup := GroupedIndex.Exact.empty SortedSet.not_mem_empty
  livePaths := rfl
  trie := ListingTrie.Exact.empty fun _ _ => ⟨rfl, rfl, rfl⟩
  ttl _ _ h := by cases h

theorem Exact.insertScopePath (h : Exact database retained live get ix) (hpath : path.InDatabase database)
    (hnew : path ∉ retained) : Exact database (retained.add path) live get (ix.insertScopePath path) where
  inDatabase p hp := (mem_add.1 hp).elim (fun heq => heq ▸ hpath) (h.inDatabase p)
  live_retained p hp := mem_add.2 (.inr (h.live_retained p hp))
  direct := h.direct.addTo path fun _ => mem_add
  liveDirect := h.liveDirect
  group := h.group.addTo path fun _ => mem_add
  liveGroup := h.liveGroup
  livePaths := h.livePaths
  trie := by
    refine ListingTrie.exact_insertRetainedPairs h.trie (fun q hq => ⟨hpath, hq⟩) fun q => ?_
    simp only [prefixFacts, countUnder_add hnew, pathAt_add h.inDatabase hpath hnew]
  ttl := h.ttl

theorem Exact.insertLiveScopePath (h : Exact database retained live get ix) (hpath : path ∈ retained)
    (hnew : path ∉ live) : Exact database retained (live.add path) get (ix.insertLiveScopePath path) where
  inDatabase := h.inDatabase
  live_retained p hp := (mem_add.1 hp).elim (fun heq => heq ▸ hpath) (h.live_retained p)
  direct := h.direct
  liveDirect := h.liveDirect.addTo path fun _ => mem_add
  group := h.group
  liveGroup := h.liveGroup.addTo path fun _ => mem_add
  livePaths := congrArg (SortedSet.add · path) h.livePaths
  trie := ListingTrie.exact_adjustLivePairs h.trie (fun _ hq => countUnder_pos hpath hq)
    (fun _ _ => countUnder_add hnew) nofun
  ttl := h.ttl

theorem Exact.removeLiveScopePath (h : Exact database retained live get ix) (hold : path ∈ live) :
    Exact database retained (live.erase path) get (ix.removeLiveScopePath path) where
  inDatabase := h.inDatabase
  live_retained p hp := h.live_retained p (mem_erase.1 hp).2
  direct := h.direct
  liveDirect := h.liveDirect.removeFrom path fun _ => mem_erase
  group := h.group
  liveGroup := h.liveGroup.removeFrom path fun _ => mem_erase
  livePaths := congrArg (SortedMap.erase · path) h.livePaths
  trie := ListingTrie.exact_adjustLivePairs h.trie
    (fun _ hq => countUnder_pos (h.live_retained path hold) hq) nofun
    fun _ _ => countUnder_erase hold
  ttl := h.ttl

theorem Exact.removeScopePath (h : Exact database retained live get ix) (hold : path ∈ retained)
    (hdead : path ∉ live) : Exact database (retained.erase path) live get (ix.removeScopePath path) := by
  have hlive : ∀ p ∈ live, p ∈ (retained.erase path : SortedSet DocumentPath) :=
    fun p hp => mem_erase.2 ⟨fun heq => hdead (heq ▸ hp), h.live_retained p hp⟩
  have hd : ∀ p ∈ (retained.erase path : SortedSet DocumentPath),
      p.InDatabase database := fun p hp => h.inDatabase p (mem_erase.1 hp).2
  exact {
    inDatabase := hd
    live_retained := hlive
    direct := h.direct.removeFrom path fun _ => mem_erase
    liveDirect := h.liveDirect
    group := h.group.removeFrom path fun _ => mem_erase
    liveGroup := h.liveGroup
    livePaths := h.livePaths
    trie := by
      refine ListingTrie.exact_removeRetainedPairs h.trie (fun q => countUnder_erase hold)
        (fun q => ?_) fun q q' hzero => ?_
      · simp only [prefixFacts, pathAt_erase h.inDatabase hold]
      · refine prefixFacts_isEmpty hd hlive fun p hp hprefix => ?_
        exact countUnder_eq_zero.1 hzero p hp ((prefix_append q q').trans hprefix)
    ttl := h.ttl }

/-- Only the expiry indexes know the documents. -/
theorem Exact.withTtl (h : Exact database retained live get ix)
    {indexes : SortedMap CollectionId TtlExpiryIndex} {get' : DocumentPath → Option Document}
    (httl : TtlExact get' { ix with ttlExpiryIndexes := indexes }) :
    Exact database retained live get' { ix with ttlExpiryIndexes := indexes } :=
  { inDatabase := h.inDatabase, live_retained := h.live_retained, direct := h.direct,
    liveDirect := h.liveDirect, group := h.group, liveGroup := h.liveGroup,
    livePaths := h.livePaths, trie := h.trie, ttl := httl }

theorem updateTtlExpiryPath_eq {insert : Bool} : ix.updateTtlExpiryPath path current insert =
      { ix with ttlExpiryIndexes := (ix.updateTtlExpiryPath path current insert).ttlExpiryIndexes }
    := by
  unfold updateTtlExpiryPath
  cases ix.ttlExpiryIndexes.get path.collectionId with
  | none => rfl
  | some index =>
    dsimp only
    cases expiryTimestamp index.field current with
    | none => rfl
    | some => rfl

theorem Exact.removeTtl (h : Exact database retained live get ix) (path : DocumentPath) :
    Exact database retained live (Function.update get path none)
      (ix.updateTtlExpiryPath path (get path) false) := by
  have httl := h.ttl.remove path
  rw [updateTtlExpiryPath_eq] at httl ⊢
  exact h.withTtl httl

theorem Exact.insertTtl (h : Exact database retained live get ix) (hnone : get path = none)
    (current : Option Document) : Exact database retained live (Function.update get path current)
      (ix.updateTtlExpiryPath path current true) := by
  have httl := h.ttl.insert hnone current
  rw [updateTtlExpiryPath_eq] at httl ⊢
  exact h.withTtl httl

/-! ### Synchronization -/

theorem mem_ttlEntries (h : Exact database retained live get ix) (hlive : ∀ p, p ∈ live ↔ (get p).isSome) :
    TtlExpiryIndex.Exact get group ⟨field, ttlEntries ix get group field⟩ := by
  have hfold : ∀ step : SortedSet (Timestamp ×ₗ DocumentPath) → DocumentPath → SortedSet (Timestamp ×ₗ DocumentPath),
      (∀ entries a t p, toLex (t, p) ∈ step entries a ↔
        toLex (t, p) ∈ entries ∨ p = a ∧ expiryTimestamp field (get p) = some t) →
      ∀ (paths : List DocumentPath) entries t p, toLex (t, p) ∈ paths.foldl step entries ↔
        toLex (t, p) ∈ entries ∨ p ∈ paths ∧ expiryTimestamp field (get p) = some t := by
    intro step hstep paths
    induction paths with
    | nil => simp
    | cons a paths ih =>
      intro entries t p
      rw [foldl_cons, ih, hstep, mem_cons, or_assoc, or_and_right]
  intro t p
  refine (hfold _ (fun entries a t p => ?_) _ _ t p).trans ?_
  · cases ha : expiryTimestamp field (get a) with
    | none =>
      rw [or_iff_left]
      rintro ⟨rfl, ht⟩
      rw [ha] at ht
      cases ht
    | some =>
      dsimp only
      rw [mem_add, toLex_inj, Prod.mk.injEq, or_comm, and_comm]
      refine or_congr_right (and_congr_right fun hp => ?_)
      rw [hp, ha, Option.some.injEq, eq_comm]
  rw [SortedSet.mem_toList, h.liveGroup.mem_group, hlive, and_assoc, or_iff_right (SortedSet.not_mem_empty _)]
  refine and_congr_right fun _ => and_iff_right_of_imp fun ht => ?_
  cases hp : get p with
  | none =>
    rw [hp] at ht
    cases ht
  | some => rfl

theorem Exact.syncTtlExpiryIndexes (h : Exact database retained live get ix)
    (hlive : ∀ p, p ∈ live ↔ (get p).isSome) (catalog : TtlCatalog) :
    Exact database retained live get (ix.syncTtlExpiryIndexes get catalog) := by
  refine h.withTtl ?_
  -- each group is kept as it was or built anew
  refine foldlRecOn (motive := fun indexes : SortedMap CollectionId TtlExpiryIndex =>
    ∀ g index, indexes.get g = some index → index.Exact get g) _ _ (fun g index hget => h.ttl g index ?_)
    fun indexes hi e _ => ?_
  · rw [SortedMap.get_filter] at hget
    exact Option.eq_some_of_filter_eq_some hget
  · have hnew : ∀ g index, (indexes.insert e.1
        ⟨e.2.field, ttlEntries ix get e.1 e.2.field⟩).get g = some index → index.Exact get g :=
      fun g index hget => by
        rw [get_insert] at hget
        split_ifs at hget with hg
        · cases hget
          rw [hg]
          exact mem_ttlEntries h hlive
        · exact hi g index hget
    dsimp only
    split
    · split_ifs
      · exact hi
      · exact hnew
    · exact hnew

/-- Rebuilt indexes are exact for the paths they are built from. -/
theorem exact_rebuildScopePaths {paths : List (DocumentPath × Bool)} (hn : (paths.map Prod.fst).Nodup)
    (hd : ∀ e ∈ paths, e.1.InDatabase database) (hret : ∀ p, p ∈ retained ↔ p ∈ paths.map Prod.fst)
    (hlive : ∀ p, p ∈ live ↔ (p, true) ∈ paths) :
    Exact database retained live get (rebuildScopePaths paths) := by
  have hfold : ∀ (paths : List (DocumentPath × Bool)) (ix : ScopeIndexes)
      (retained live retained' live' : SortedSet DocumentPath),
      Exact database retained live get ix → (paths.map Prod.fst).Nodup →
      (∀ e ∈ paths, e.1.InDatabase database ∧ e.1 ∉ retained) →
      (∀ p, p ∈ retained' ↔ p ∈ retained ∨ p ∈ paths.map Prod.fst) →
      (∀ p, p ∈ live' ↔ p ∈ live ∨ (p, true) ∈ paths) →
      Exact database retained' live' get (paths.foldl (fun ix e =>
        let ix := ix.insertScopePath e.1
        if e.2 then ix.insertLiveScopePath e.1 else ix) ix) := by
    intro paths
    induction paths with
    | nil =>
      intro ix retained live retained' live' hix _ _ hret hlive
      have hr : retained' = retained := ext_mem fun p => by simp [hret p]
      have hl : live' = live := ext_mem fun p => by simp [hlive p]
      rw [hr, hl]
      exact hix
    | cons e paths ih =>
      intro ix retained live retained' live' hix hall hp hret hlive
      obtain ⟨hnot, hn⟩ := nodup_cons.1 hall
      obtain ⟨⟨hdb, hnew⟩, hrest⟩ := forall_mem_cons.1 hp
      have hi := hix.insertScopePath hdb hnew
      have hlater : ∀ e' ∈ paths, e'.1.InDatabase database ∧ e'.1 ∉ retained.add e.1 :=
        fun e' he' => ⟨(hrest e' he').1, fun hmem => (mem_add.1 hmem).elim
          (fun heq => hnot (heq ▸ mem_map_of_mem he')) (hrest e' he').2⟩
      have hadd : ∀ p, p ∈ retained' ↔ p ∈ retained.add e.1 ∨ p ∈ paths.map Prod.fst := fun p => by
        rw [hret, mem_add, map_cons, mem_cons, or_left_comm, or_assoc]
      obtain ⟨p, isLive⟩ := e
      cases isLive with
      | true =>
        refine ih _ _ (live.add p) _ _ (hi.insertLiveScopePath (mem_add.2 (.inl rfl))
          fun hmem => hnew (hix.live_retained p hmem)) hn hlater hadd fun p' => ?_
        rw [hlive, mem_add, mem_cons, Prod.mk.injEq, and_iff_left rfl, or_left_comm, or_assoc]
      | false =>
        refine ih _ _ live _ _ hi hn hlater hadd fun p' => ?_
        rw [hlive, mem_cons, Prod.mk.injEq]
        simp
  refine hfold paths empty _ _ retained live (Exact.empty database get) hn
    (fun e he => ⟨hd e he, SortedSet.not_mem_empty _⟩) (fun p => ?_) fun p => ?_
  · rw [hret, or_iff_right (SortedSet.not_mem_empty p)]
  · rw [hlive, or_iff_right (SortedSet.not_mem_empty p)]

end ScopeIndexes

end Fireemu
