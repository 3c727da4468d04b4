import Fireemu.Storage.UploadAccounting

/-!
# Captures and restorations of generations

A capture is a part of the generations of a store, with their blobs.  A restoration gives up the
generations of its scope and takes over those of the capture; as all blobs are known to one ledger, the
blobs that come back are not in use elsewhere (`takesOver_restoreContent`).
-/

namespace Fireemu.Storage

open Library (SortedMap SortedSet Act Holdings)
open Library.Holdings (Owned Covered Recorded TakesOver Part)
open List Library.SortedMap Library.Holdings

/-! ### Removal -/

theorem holdings_removeObject (s : StorageState) (key : ObjectKey) :
    (s.removeObject key).holdings = s.holdings.release ObjectMetadata.blob (.live key) := by
  unfold StorageState.removeObject
  cases hget : s.objects.get key with
  | none => exact (release_of_none (holdings_live.trans hget)).symm
  | some =>
    rw [release_of_some (holdings_live.trans hget)]
    simp only [StorageState.removeBlob_eq]
    exact Holdings.ext (referents_erase_live _ _ _) rfl rfl

theorem holdings_removeVersion (s : StorageState) (key : GenerationKey) :
    (s.removeVersion key).holdings = s.holdings.release ObjectMetadata.blob (.old key) := by
  unfold StorageState.removeVersion
  cases hget : s.noncurrent.get key with
  | none =>
    exact (release_of_none (by rw [holdings_old, hget]; rfl)).symm
  | some version =>
    rw [release_of_some (o := version.object) (by rw [holdings_old, hget]; rfl)]
    simp only [StorageState.removeBlob_eq]
    exact Holdings.ext (referents_erase_old _ _ _) rfl rfl

/-- Giving up generations one after another. -/
theorem holdings_foldl_release {K : Type} {f : StorageState → K → StorageState} {ref : K → Ref}
    (h : ∀ s k, (f s k).holdings = s.holdings.release ObjectMetadata.blob (ref k)) (keys : List K)
    (s : StorageState) :
    (keys.foldl f s).holdings = Holdings.releaseAll ObjectMetadata.blob s.holdings (keys.map ref) := by
  induction keys generalizing s with
  | nil => rfl
  | cons k keys ih =>
    refine (ih (f s k)).trans ?_
    rw [h]
    rfl

/-- The generations of a scope. -/
def StorageState.ownedRefs (s : StorageState) (owned : Str → Bool) : List Ref :=
  (s.ownedObjects owned).keys.map .live ++ (s.ownedVersions owned).keys.map .old

theorem holdings_withoutGenerations (s : StorageState) (owned : Str → Bool) :
    (s.withoutGenerations owned).holdings =
      Holdings.releaseAll ObjectMetadata.blob s.holdings (s.ownedRefs owned) := by
  have ho := holdings_foldl_release holdings_removeObject (s.ownedObjects owned).keys s
  have hv := holdings_foldl_release holdings_removeVersion (s.ownedVersions owned).keys
    ((s.ownedObjects owned).keys.foldl StorageState.removeObject s)
  rw [ho, Holdings.releaseAll, Holdings.releaseAll, ← foldl_append] at hv
  have hsame : ((s.ownedObjects owned).keys.foldl StorageState.removeObject s).ownedVersions owned =
      s.ownedVersions owned := by
    unfold StorageState.ownedVersions
    rw [noncurrent_foldl_removeObject]
  rw [← hsame] at hv
  rw [StorageState.ownedRefs, ← hsame]
  exact hv

variable {s : StorageState} {owned : Str → Bool}

variable {r : Ref}

theorem mem_ownedRefs :
    r ∈ s.ownedRefs owned ↔ owned r.bucket.1 = true ∧ ∃ object, s.holdings.refs r = some object := by
  cases r with
  | live =>
    simp only [StorageState.ownedRefs, StorageState.ownedObjects, mem_append, mem_map, Ref.live.injEq,
      exists_eq_right, reduceCtorEq, and_false, exists_false, or_false, mem_keys_iff_exists,
      get_filter_eq_some, exists_and_right, Ref.bucket, holdings_live]
    exact and_comm
  | old =>
    simp only [StorageState.ownedRefs, StorageState.ownedVersions, mem_append, mem_map, Ref.old.injEq,
      exists_eq_right, reduceCtorEq, and_false, exists_false, false_or, mem_keys_iff_exists,
      get_filter_eq_some, exists_and_right, Ref.bucket, holdings_old_eq_some]
    constructor
    · rintro ⟨⟨version, hv⟩, ho⟩
      exact ⟨ho, version.object, version.timeDeleted, hv⟩
    · rintro ⟨ho, object, t, hv⟩
      exact ⟨⟨_, hv⟩, ho⟩

/-- The metadata of the generations of a scope. -/
def StorageState.ownedMetadata (s : StorageState) (owned : Str → Bool) : List ObjectMetadata :=
  (s.ownedObjects owned).entries.map (·.2) ++ (s.ownedVersions owned).entries.map fun e => e.2.object

theorem mem_ownedMetadata {object : ObjectMetadata} :
    object ∈ s.ownedMetadata owned ↔ ∃ r : Ref, owned r.bucket.1 = true ∧ s.holdings.refs r = some object := by
  rw [StorageState.ownedMetadata, mem_append, mem_map, mem_map]
  constructor
  · rintro (⟨⟨key, _⟩, hmem, rfl⟩ | ⟨⟨key, version⟩, hmem, rfl⟩)
    · obtain ⟨hget, ho⟩ := get_filter_eq_some.1 (mem_entries.1 hmem)
      exact ⟨.live key, ho, hget⟩
    · obtain ⟨hget, ho⟩ := get_filter_eq_some.1 (mem_entries.1 hmem)
      exact ⟨.old key, ho, holdings_old_eq_some.2 ⟨_, hget⟩⟩
  · rintro ⟨key | key, ho, hget⟩
    · exact .inl ⟨(key, object), mem_entries.2 (get_filter_eq_some.2 ⟨hget, ho⟩), rfl⟩
    · obtain ⟨t, hv⟩ := holdings_old_eq_some.1 hget
      exact .inr ⟨(key, ⟨object, t⟩), mem_entries.2 (get_filter_eq_some.2 ⟨hv, ho⟩), rfl⟩

/-- The buckets of a scope. -/
def inScope (owned : Str → Bool) (bucket : BucketName) : Bool := owned bucket.1

theorem takesOver_withoutGenerations (hs : Sound s) (owned : Str → Bool) :
    TakesOver ObjectMetadata.blob Ref.bucket (inScope owned) s.holdings Holdings.empty
      (s.withoutGenerations owned).holdings := by
  rw [holdings_withoutGenerations]
  exact hs.owned.takesOver_releaseAll (fun r hr => (mem_ownedRefs.1 hr).1)
    fun r object hr ho => mem_ownedRefs.2 ⟨hr, object, ho⟩

/-! ### Restoration -/

section

variable (captured s : StorageState)

/-- Takes a blob over from a capture. -/
def StorageState.adoptBlob (blob : ℕ) : StorageState :=
  match captured.blobs.get blob with
  | some bytes => s.insertBlob blob bytes
  | none => s

theorem Counted.adoptBlob {s : StorageState} (hs : Counted s) (blob : ℕ) :
    Counted (captured.adoptBlob s blob) := by
  unfold StorageState.adoptBlob
  cases captured.blobs.get blob with
  | none => exact hs
  | some bytes => exact hs.insertBlob blob bytes

theorem adoptBlob_eq (blob : ℕ) : ∃ storedBytes, captured.adoptBlob s blob =
    { s with blobs := s.blobs.adopt captured.blobs blob, storedBytes } := by
  unfold StorageState.adoptBlob SortedMap.adopt
  cases captured.blobs.get blob with
  | none => exact ⟨_, rfl⟩
  | some => exact ⟨_, rfl⟩

theorem blobs_adoptBlob {blob : ℕ} : (captured.adoptBlob s blob).blobs = s.blobs.adopt captured.blobs blob := by
  obtain ⟨_, ha⟩ := adoptBlob_eq captured s blob
  rw [ha]

theorem restoreObject_eq {e : ObjectKey × ObjectMetadata} :
    captured.restoreObject s e =
      { captured.adoptBlob s e.2.blob with objects := s.objects.insert e.1 e.2 } := by
  obtain ⟨_, ha⟩ := adoptBlob_eq captured s e.2.blob
  have : (captured.adoptBlob s e.2.blob).objects = s.objects := by rw [ha]
  rw [← this]
  rfl

theorem restoreVersion_eq {e : GenerationKey × NoncurrentVersion} :
    captured.restoreVersion s e =
      { captured.adoptBlob s e.2.object.blob with noncurrent := s.noncurrent.insert e.1 e.2 } := by
  obtain ⟨_, ha⟩ := adoptBlob_eq captured s e.2.object.blob
  have : (captured.adoptBlob s e.2.object.blob).noncurrent = s.noncurrent := by rw [ha]
  rw [← this]
  rfl

theorem foldl_restoreObject_eq (l : List (ObjectKey × ObjectMetadata)) :
    ∃ blobs storedBytes, l.foldl captured.restoreObject s =
      { s with objects := l.foldl (fun m e => m.insert e.1 e.2) s.objects, blobs, storedBytes } := by
  induction l generalizing s with
  | nil => exact ⟨_, _, rfl⟩
  | cons e l ih =>
    obtain ⟨blobs, storedBytes, hrest⟩ := ih (captured.restoreObject s e)
    obtain ⟨_, ha⟩ := adoptBlob_eq captured s e.2.blob
    refine ⟨blobs, storedBytes, ?_⟩
    rw [foldl_cons, hrest, restoreObject_eq, ha]
    rfl

theorem foldl_restoreVersion_eq (l : List (GenerationKey × NoncurrentVersion)) :
    ∃ blobs storedBytes, l.foldl captured.restoreVersion s =
      { s with noncurrent := l.foldl (fun m e => m.insert e.1 e.2) s.noncurrent, blobs, storedBytes } := by
  induction l generalizing s with
  | nil => exact ⟨_, _, rfl⟩
  | cons e l ih =>
    obtain ⟨blobs, storedBytes, hrest⟩ := ih (captured.restoreVersion s e)
    obtain ⟨_, ha⟩ := adoptBlob_eq captured s e.2.object.blob
    refine ⟨blobs, storedBytes, ?_⟩
    rw [foldl_cons, hrest, restoreVersion_eq, ha]
    rfl

theorem counted_foldl {K : Type} {f : StorageState → K → StorageState}
    (h : ∀ s k, Counted s → Counted (f s k)) (l : List K) {s : StorageState} (hs : Counted s) :
    Counted (l.foldl f s) :=
  l.foldlRecOn f hs fun s hs k _ => h s k hs

variable (owned : Str → Bool)

/-- The store after generations are taken over, before the rest. -/
def StorageState.restoreGenerations : StorageState :=
  (captured.ownedVersions owned).entries.foldl captured.restoreVersion
    ((captured.ownedObjects owned).entries.foldl captured.restoreObject s)

/-- What a restoration does. -/
theorem restoreGenerations_eq : ∃ blobs storedBytes, captured.restoreGenerations s owned = { s with
      objects := s.objects.union (captured.ownedObjects owned)
      noncurrent := s.noncurrent.union (captured.ownedVersions owned)
      blobs, storedBytes } := by
  obtain ⟨_, _, ho⟩ := foldl_restoreObject_eq captured s (captured.ownedObjects owned).entries
  obtain ⟨blobs, storedBytes, hv⟩ := foldl_restoreVersion_eq captured
    ((captured.ownedObjects owned).entries.foldl captured.restoreObject s) (captured.ownedVersions owned).entries
  refine ⟨blobs, storedBytes, hv.trans ?_⟩
  rw [ho]
  rfl

/-- The blobs of the generations taken over come from the capture. -/
theorem blobs_restoreGenerations (i : ℕ) : (captured.restoreGenerations s owned).blobs.get i =
    if i ∈ (captured.ownedMetadata owned).map (·.blob) then (captured.blobs.get i).or (s.blobs.get i)
    else s.blobs.get i := by
  have ho := foldl_or (f := captured.restoreObject) (fun s => s.blobs.get i)
    (fun s e => by
      rw [restoreObject_eq, blobs_adoptBlob]
      exact get_adopt s.blobs captured.blobs i e.2.blob) (captured.ownedObjects owned).entries s
  have hversions := foldl_or (f := captured.restoreVersion) (fun s => s.blobs.get i)
    (fun s e => by
      rw [restoreVersion_eq, blobs_adoptBlob]
      exact get_adopt s.blobs captured.blobs i e.2.object.blob) (captured.ownedVersions owned).entries
    ((captured.ownedObjects owned).entries.foldl captured.restoreObject s)
  have hmem : i ∈ (captured.ownedMetadata owned).map (·.blob) ↔
      i ∈ (captured.ownedObjects owned).entries.map (·.2.blob) ∨
        i ∈ (captured.ownedVersions owned).entries.map (·.2.object.blob) := by
    rw [StorageState.ownedMetadata, map_append, mem_append, map_map, map_map]
    rfl
  refine hversions.trans ?_
  simp only [ho, hmem]
  by_cases hv : i ∈ (captured.ownedVersions owned).entries.map (·.2.object.blob)
  · simp only [hv, or_true, if_true]
    cases captured.blobs.get i with
    | none => simp
    | some => rfl
  · simp only [if_neg hv, or_iff_left hv]

theorem Counted.restoreGenerations {s : StorageState} (hs : Counted s) :
    Counted (captured.restoreGenerations s owned) := by
  refine counted_foldl (fun s e hs => ?_) _ (counted_foldl (fun s e hs => ?_) _ hs)
  · rw [restoreVersion_eq]
    exact hs.adoptBlob captured _
  · rw [restoreObject_eq]
    exact hs.adoptBlob captured _

end

/-- What a store holds after the content of a scope is taken over from a capture. -/
structure Restored (captured s : StorageState) (owned : Str → Bool) (s' : StorageState) : Prop where
  objects : s'.objects = s.objects.union (captured.ownedObjects owned)
  noncurrent : s'.noncurrent = s.noncurrent.union (captured.ownedVersions owned)
  versioning : s'.versioning = s.versioning.union (captured.versioning.filter fun bucket _ => owned bucket.1)
  publicRead : s'.publicRead = SortedMap.union s.publicRead
    (captured.publicRead.filter fun key _ => owned (ofLex key).1.1)
  nextBlob : s'.nextBlob = max s.nextBlob captured.nextBlob
  nextGeneration : s'.nextGeneration = max s.nextGeneration captured.nextGeneration

theorem restored_restoreContent (captured s : StorageState) (owned : Str → Bool) :
    Restored captured s owned (captured.restoreContent owned s) := by
  obtain ⟨_, _, hg⟩ := restoreGenerations_eq captured s owned
  exact ⟨congrArg (·.objects) hg, congrArg (·.noncurrent) hg,
    congrArg (SortedMap.union · _) (congrArg (·.versioning) hg),
    congrArg (SortedMap.union · _) (congrArg (·.publicRead) hg),
    congrArg (max · _) (congrArg (·.nextBlob) hg), congrArg (max · _) (congrArg (·.nextGeneration) hg)⟩

theorem refs_restoreContent (captured s : StorageState) (owned : Str → Bool) (r : Ref) :
    (captured.restoreContent owned s).holdings.refs r =
      (if inScope owned r.bucket then captured.holdings.refs r else none).or (s.holdings.refs r) := by
  have hrestored := restored_restoreContent captured s owned
  cases r with
  | live =>
    rw [holdings_live, hrestored.objects, get_union, StorageState.ownedObjects, get_filter_key]
    rfl
  | old =>
    rw [holdings_old, hrestored.noncurrent, get_union, StorageState.ownedVersions,
      get_filter_key, Option.map_or, apply_ite (Option.map _)]
    rfl

/-- A restoration gives up the generations of its scope and takes over those of the capture. -/
theorem takesOver_restoreContent {captured : StorageState} (hs : Sound s) (hcaptured : Sound captured) :
    TakesOver ObjectMetadata.blob Ref.bucket (inScope owned) s.holdings captured.holdings
      (captured.restoreContent owned (s.withoutBuckets owned)).holdings := by
  have hb := fun i => blobs_restoreGenerations captured (s.withoutBuckets owned) owned i
  refine (takesOver_withoutGenerations hs owned).adopt (refs_restoreContent captured _ owned)
    (fun r object hr ho => ?_) (fun i hi => ?_) (restored_restoreContent captured _ owned).nextBlob
  · obtain ⟨bytes, hbytes, -⟩ := hcaptured.owned.held r object ho
    have hmem : object.blob ∈ (captured.ownedMetadata owned).map (·.blob) :=
      mem_map.2 ⟨object, mem_ownedMetadata.2 ⟨r, hr, ho⟩, rfl⟩
    refine (hb object.blob).trans ?_
    rw [if_pos hmem]
    change Option.or (captured.holdings.blobs.get object.blob) _ = captured.holdings.blobs.get object.blob
    rw [hbytes]
    rfl
  · have hmem : i ∉ (captured.ownedMetadata owned).map (·.blob) := by
      rintro hmem
      obtain ⟨object, ho, hblob⟩ := mem_map.1 hmem
      obtain ⟨r, hr, hget⟩ := mem_ownedMetadata.1 ho
      exact hi r object hr hget hblob
    exact (hb i).trans (if_neg hmem)

/-! ### Captures -/

theorem blobsOf_eq_some {objects : List ObjectMetadata} {i : ℕ} {bytes : List Byte} :
    (s.blobsOf objects).get i = some bytes ↔ i ∈ objects.map (·.blob) ∧ s.blobs.get i = some bytes := by
  have hfold := foldl_or (f := fun blobs (object : ObjectMetadata) => blobs.adopt s.blobs object.blob)
    (fun blobs => blobs.get i) (fun blobs object => get_adopt blobs s.blobs i object.blob) objects
    SortedMap.empty
  have hb : s.blobsOf objects = objects.foldl (fun blobs object => blobs.adopt s.blobs object.blob)
      SortedMap.empty := by
    unfold StorageState.blobsOf SortedMap.adopt
    congr 1
    funext blobs object
    cases s.blobs.get object.blob <;> rfl
  rw [hb, hfold]
  split_ifs with hmem <;> simp [hmem]

theorem refs_captureBuckets :
    (s.captureBuckets owned).holdings.refs r = if inScope owned r.bucket then s.holdings.refs r else none := by
  cases r with
  | live key => exact get_filter_key s.objects (fun key => owned (ofLex key).1.1) key
  | old key =>
    refine (congrArg (Option.map _)
      (get_filter_key s.noncurrent (fun key => owned (ofLex key).1.1) key)).trans ?_
    rw [apply_ite (Option.map _)]
    rfl

theorem part_captureBuckets : Part ObjectMetadata.blob (s.captureBuckets owned).holdings s.holdings where
  refs r object hr := by
    rw [refs_captureBuckets] at hr
    split_ifs at hr
    exact hr
  blobs i bytes hi := (blobsOf_eq_some.1 hi).2
  held r object hr := by
    rw [refs_captureBuckets] at hr
    split_ifs at hr with ho
    have hmem : object.blob ∈ (s.ownedMetadata owned).map (·.blob) :=
      mem_map.2 ⟨object, mem_ownedMetadata.2 ⟨r, ho, hr⟩, rfl⟩
    refine Option.ext fun bytes => ?_
    exact blobsOf_eq_some.trans (and_iff_right hmem)
  next := rfl

theorem Sound.captureBuckets (hs : Sound s) (owned : Str → Bool) : Sound (s.captureBuckets owned) where
  owned := part_captureBuckets.owned hs.owned
  drawn r object hr := hs.drawn r object (part_captureBuckets.refs r object hr)
  counted := rfl

end Fireemu.Storage
