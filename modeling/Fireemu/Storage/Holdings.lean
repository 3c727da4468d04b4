import Fireemu.Library.Ownership
import Fireemu.Storage.Guard

/-!
# Generations and their blobs

The generations of a store, live and noncurrent, are references to blobs.  Every change of the store is
made of moves of such holdings: a write releases the live generation or transfers it to the noncurrent
ones, and allocates a new one.  A reference is abandoned only where a live generation that stops being
live carries the number of a noncurrent one; stores without such generations are `Numbered`.
-/

namespace Fireemu.Storage

open Library (SortedMap SortedSet Act Holdings)
open Library.Holdings (Owned Covered Steps update_eq_some)
open StorageState (putEvents)
open Library.SortedMap Function StorageState Library.Holdings

variable {name name' : ObjectName} {n next : ℕ} {now : LogicalInstant} {digests : ObjectDigests}
  {plan : StorageState.PlannedPut} {key : ObjectKey}

theorem objectKey_inj {bucket bucket' : BucketName} :
    objectKey bucket name = objectKey bucket' name' ↔ bucket = bucket' ∧ name = name' := by
  unfold objectKey
  rw [toLex.injective.eq_iff, Prod.mk.injEq]

theorem generationKey_inj {bucket bucket' : BucketName} {n' : ℕ} :
    generationKey bucket name n = generationKey bucket' name' n' ↔
      bucket = bucket' ∧ name = name' ∧ n = n' := by
  unfold generationKey
  rw [toLex.injective.eq_iff, Prod.mk.injEq, toLex.injective.eq_iff, Prod.mk.injEq]

/-- A generation of an object: the live one, or a noncurrent one. -/
inductive Ref
  | live (key : ObjectKey)
  | old (key : GenerationKey)
  deriving DecidableEq

namespace Ref

/-- The bucket of a generation. -/
def bucket : Ref → BucketName
  | .live key => (ofLex key).1
  | .old key => (ofLex key).1

/-- The generation with some metadata is kept under the names in it. -/
def Names : Ref → ObjectMetadata → Prop
  | .live key, object => key = objectKey object.bucket object.name
  | .old key, object => key = generationKey object.bucket object.name object.generation

variable {r : Ref}

theorem Names.bucket {object : ObjectMetadata} (h : r.Names object) : r.bucket = object.bucket := by
  cases r <;> cases h <;> rfl

theorem Names.congr {object next : ObjectMetadata} (h : r.Names object) (hsame : next.SameGeneration object) :
    r.Names next := by
  obtain ⟨hb, hname, hg, -, -⟩ := hsame
  cases r <;> simp only [Names, hb, hname, hg] at h ⊢ <;> exact h

end Ref

/-- The metadata of the generations. -/
def referents (objects : SortedMap ObjectKey ObjectMetadata)
    (noncurrent : SortedMap GenerationKey NoncurrentVersion) : Ref → Option ObjectMetadata
  | .live key => objects.get key
  | .old key => (noncurrent.get key).map (·.object)

section

variable (objects : SortedMap ObjectKey ObjectMetadata)
  (noncurrent : SortedMap GenerationKey NoncurrentVersion)

theorem referents_insert_live (key : ObjectKey) (object : ObjectMetadata) :
    referents (objects.insert key object) noncurrent =
      Function.update (referents objects noncurrent) (.live key) (some object) := by
  funext r
  cases r <;> simp [referents, update_apply, get_insert]

theorem referents_erase_live (key : ObjectKey) :
    referents (objects.erase key) noncurrent =
      Function.update (referents objects noncurrent) (.live key) none := by
  funext r
  cases r <;> simp [referents, update_apply, get_erase]

theorem referents_insert_old (key : GenerationKey) (version : NoncurrentVersion) :
    referents objects (noncurrent.insert key version) =
      Function.update (referents objects noncurrent) (.old key) (some version.object) := by
  funext r
  cases r with
  | live => simp [referents]
  | old =>
    simp only [referents, update_apply, get_insert, Ref.old.injEq]
    split_ifs <;> rfl

theorem referents_erase_old (key : GenerationKey) :
    referents objects (noncurrent.erase key) =
      Function.update (referents objects noncurrent) (.old key) none := by
  funext r
  cases r with
  | live => simp [referents]
  | old =>
    simp only [referents, update_apply, get_erase, Ref.old.injEq]
    split_ifs <;> rfl

end

variable {s s' : StorageState} {r : Ref} {object : ObjectMetadata} {blob : ℕ} {bytes : List Byte}
  {events batch : List StorageEvent} {leaks : Prop}

/-- The generations of a store and their blobs. -/
def StorageState.holdings (s : StorageState) : Holdings Ref ObjectMetadata (List Byte) :=
  ⟨referents s.objects s.noncurrent, s.blobs, s.nextBlob⟩

/-- The bytes of a generation are as many as its metadata says. -/
def Fits (object : ObjectMetadata) (bytes : List Byte) : Prop := bytes.length = object.size

/-- A generation with a number that has been drawn, kept under its names. -/
def Ref.Drawn (next : ℕ) (r : Ref) (object : ObjectMetadata) : Prop :=
  r.Names object ∧ object.generation ≤ next

/-- The moves of generations with numbers up to one. -/
abbrev Moves (next : ℕ) (leaks : Prop) :
    Holdings Ref ObjectMetadata (List Byte) → Holdings Ref ObjectMetadata (List Byte) → Prop :=
  Steps ObjectMetadata.blob Fits Ref.bucket (Ref.Drawn next) leaks

/-- The blobs are counted. -/
def Counted (s : StorageState) : Prop := s.storedBytes = blobBytes s.blobs

/-- What holds of every store. -/
structure Sound (s : StorageState) : Prop where
  owned : s.holdings.Owned ObjectMetadata.blob Fits
  drawn : ∀ r object, s.holdings.refs r = some object → r.Drawn s.nextGeneration object
  counted : Counted s

/-- No live generation carries the number of a noncurrent one of its object. -/
def Numbered (s : StorageState) : Prop :=
  ∀ key object, s.holdings.refs (.live key) = some object →
    s.holdings.refs (.old (generationKey object.bucket object.name object.generation)) = none

/-! ### Plans -/

/-- What a plan replaces for good, and what its application removes. -/
def Replaces (s : StorageState) (plan : StorageState.PlannedPut) : Prop :=
  plan.replaced = if plan.archive.isSome then none else s.objects.get plan.key

/-- What a plan of a write says. -/
structure Planned (s : StorageState) (bucket : BucketName) (name : ObjectName) (size : ℕ)
    (digests : ObjectDigests) (now : LogicalInstant) (plan : StorageState.PlannedPut) : Prop where
  key : plan.key = objectKey bucket name
  bucket : plan.object.bucket = bucket
  name : plan.object.name = name
  size : plan.object.size = size
  md5 : plan.object.md5 = digests.md5
  crc32c : plan.object.crc32c = digests.crc32c
  blob : plan.object.blob = s.nextBlob + 1
  nextBlob : plan.nextBlob = s.nextBlob + 1
  generation : plan.object.generation = plan.nextGeneration
  nextGeneration : s.nextGeneration < plan.nextGeneration
  archive : plan.archive = none ∨ ∃ live, s.objects.get plan.key = some live ∧ plan.archive = some ⟨live, now⟩
  replaced : Replaces s plan
  checked : s.checkStoredBytes plan.replaced plan.object.size = .ok ()

theorem nextGenerationPreview_lt (h : s.nextGenerationPreview now = .ok n) : s.nextGeneration < n := by
  unfold StorageState.nextGenerationPreview at h
  cases hs : checkedAdd s.nextGeneration 1 with
  | none => simp [hs] at h
  | some =>
    obtain ⟨-, rfl⟩ := checkedAdd_eq_some.1 hs
    simp only [hs] at h
    split_ifs at h <;> cases h <;> omega

theorem planned_of_planPut {bucket : BucketName} {size : ℕ} {metadata : NewMetadata} {pre : Precondition}
    (h : s.planPut bucket name size digests metadata pre now = .ok plan) :
    Planned s bucket name size digests now plan := by
  unfold StorageState.planPut at h
  simp only [bind, Except.bind, pure, Except.pure, throw, throwThe, MonadExceptOf.throw] at h
  split at h
  · cases h
  cases hpre : pre.check (s.objects.get (objectKey bucket name)) with
  | error => simp [hpre] at h
  | ok =>
    simp only [hpre] at h
    split at h
    · cases h
    rename_i hcheck
    cases hblob : checkedAdd s.nextBlob 1 with
    | none => simp [hblob] at h
    | some =>
      obtain ⟨-, rfl⟩ := checkedAdd_eq_some.1 hblob
      cases hg : s.nextGenerationPreview now with
      | error => simp [hblob, hg] at h
      | ok =>
        simp only [hblob, hg, Except.ok.injEq] at h
        subst h
        refine ⟨rfl, rfl, rfl, rfl, rfl, rfl, rfl, rfl, rfl, nextGenerationPreview_lt hg, ?_, rfl, hcheck⟩
        dsimp only
        split_ifs
        · cases hlive : s.objects.get (objectKey bucket name) with
          | none => exact .inl rfl
          | some live => exact .inr ⟨live, rfl, rfl⟩
        · exact .inl rfl

/-! ### Bytes stored -/

theorem StorageState.blobLength_le (s : StorageState) {blob : ℕ} : s.blobLength blob ≤ blobBytes s.blobs := by
  unfold blobBytes
  rw [sum_erase s.blobs _ blob]
  exact Nat.le_add_right _ _

theorem blobBytes_erase : blobBytes (s.blobs.erase blob) = blobBytes s.blobs - s.blobLength blob := by
  have := sum_erase s.blobs (fun _ bytes => bytes.length) blob
  change blobBytes s.blobs = s.blobLength blob + blobBytes (s.blobs.erase blob) at this
  omega

theorem blobBytes_insert {bytes : List Byte} :
    blobBytes (s.blobs.insert blob bytes) = blobBytes s.blobs + bytes.length - s.blobLength blob := by
  have := sum_insert s.blobs (fun _ bytes => bytes.length) blob bytes
  change s.blobLength blob + blobBytes (s.blobs.insert blob bytes) = bytes.length + blobBytes s.blobs at this
  omega

theorem Counted.removeBlob (hs : Counted s) (blob : ℕ) : Counted (s.removeBlob blob) := by
  rw [removeBlob_eq]
  unfold Counted at *
  rw [blobBytes_erase, ← hs]

theorem Counted.insertBlob (hs : Counted s) (blob : ℕ) (bytes : List Byte) :
    Counted (s.insertBlob blob bytes) := by
  unfold Counted StorageState.insertBlob at *
  dsimp only
  rw [blobBytes_insert, ← hs]
  rfl

theorem nextGeneration_applyPlannedPut (s : StorageState) (plan : StorageState.PlannedPut)
    (bytes : List Byte) (events : List StorageEvent) :
    (s.applyPlannedPut plan bytes events).nextGeneration = plan.nextGeneration := by
  obtain ⟨_, _, _, h⟩ := s.applyPlannedPut_eq plan bytes events
  rw [h]

theorem Counted.applyPlannedPut (hs : Counted s) (plan : StorageState.PlannedPut) (bytes : List Byte)
    (events : List StorageEvent) : Counted (s.applyPlannedPut plan bytes events) := by
  unfold StorageState.applyPlannedPut
  cases s.objects.get plan.key with
  | none => exact Counted.insertBlob (by exact hs) _ _
  | some =>
    cases plan.archive with
    | none => exact Counted.insertBlob (Counted.removeBlob (by exact hs) _) _ _
    | some => exact Counted.insertBlob (by exact hs) _ _

theorem Counted.installImported (hs : Counted s) (object : ObjectMetadata) (bytes : List Byte) :
    Counted (s.installImported object bytes) := by
  unfold StorageState.installImported
  cases s.objects.get (objectKey object.bucket object.name) with
  | none => exact Counted.insertBlob (by exact hs) _ _
  | some =>
    refine Counted.insertBlob (Counted.removeBlob ?_ _) _ _
    split_ifs <;> exact hs

theorem Change.counted {s' : StorageState} {object : ObjectMetadata} {batch : List StorageEvent}
    (h : Change s object batch s') (hs : Counted s) : Counted s' := by
  cases h with
  | write => exact hs.applyPlannedPut _ _ _
  | update => exact hs
  | updateVersion => exact hs
  | archive => exact hs
  | drop =>
    unfold Counted at *
    rw [blobBytes_erase, ← hs]
  | dropVersion =>
    unfold Counted at *
    rw [blobBytes_erase, ← hs]

/-! ### Moves of a store -/

theorem holdings_live : s.holdings.refs (.live key) = s.objects.get key :=
  rfl

theorem holdings_old {key : GenerationKey} :
    s.holdings.refs (.old key) = (s.noncurrent.get key).map (·.object) := rfl

/-- A live generation becomes noncurrent; it takes the place of a noncurrent one with its number. -/
theorem moves_transfer (hs : Sound s) (hnext : s.nextGeneration ≤ next) {object : ObjectMetadata}
    (hget : s.objects.get key = some object) :
    Moves next (¬ Numbered s) s.holdings (s.holdings.transfer (.live key)
      (.old (generationKey object.bucket object.name object.generation))) := by
  obtain ⟨hnames, hg⟩ := hs.drawn (.live key) object hget
  exact Steps.transfer (by simp) (holdings_live.trans hget) hnames.bucket.symm
    ⟨rfl, hg.trans hnext⟩ fun hused hn => hused (hn key object hget)

section

variable {plan : StorageState.PlannedPut} {old : ObjectMetadata} {now : LogicalInstant} (hblob : plan.nextBlob = plan.object.blob)

include hblob

theorem holdings_applyPlannedPut_of_none (hget : s.objects.get plan.key = none) :
    (s.applyPlannedPut plan bytes events).holdings =
      s.holdings.allocate ObjectMetadata.blob (.live plan.key) plan.object bytes := by
  unfold StorageState.applyPlannedPut
  rw [hget]
  exact Holdings.ext (referents_insert_live _ _ _ _) rfl hblob

theorem holdings_applyPlannedPut_of_replaced (hget : s.objects.get plan.key = some old)
    (ha : plan.archive = none) :
    (s.applyPlannedPut plan bytes events).holdings =
      (s.holdings.release ObjectMetadata.blob (.live plan.key)).allocate ObjectMetadata.blob
        (.live plan.key) plan.object bytes := by
  unfold StorageState.applyPlannedPut
  rw [hget, ha, release_of_some (holdings_live.trans hget)]
  simp only [removeBlob_eq]
  refine Holdings.ext ?_ rfl hblob
  exact (referents_insert_live _ _ _ _).trans (update_idem _ _ _).symm

theorem holdings_applyPlannedPut_of_archived (hget : s.objects.get plan.key = some old)
    (ha : plan.archive = some ⟨old, now⟩) :
    (s.applyPlannedPut plan bytes events).holdings = (s.holdings.transfer (.live plan.key)
        (.old (generationKey old.bucket old.name old.generation))).allocate ObjectMetadata.blob
        (.live plan.key) plan.object bytes := by
  have hlive : s.holdings.refs (.live plan.key) = some old := hget
  have hrefs : referents (s.objects.insert plan.key plan.object)
      (s.noncurrent.insert (generationKey old.bucket old.name old.generation) ⟨old, now⟩) =
      Function.update (s.holdings.transfer (.live plan.key)
        (.old (generationKey old.bucket old.name old.generation))).refs (.live plan.key)
        (some plan.object) := by
    rw [referents_insert_old, referents_insert_live, Holdings.transfer, hlive,
      update_comm (by simp), update_comm (by simp : Ref.live plan.key ≠ .old _), update_idem]
    rfl
  unfold StorageState.applyPlannedPut
  rw [hget, ha]
  exact Holdings.ext hrefs rfl hblob

end

/-- What a write does to the generations. -/
theorem moves_applyPlannedPut (hs : Sound s) {bucket : BucketName}
    (h : Planned s bucket name bytes.length digests now plan) :
    Moves plan.nextGeneration (¬ Numbered s) s.holdings
      (s.applyPlannedPut plan bytes events).holdings := by
  have hblob : plan.nextBlob = plan.object.blob := h.nextBlob.trans h.blob.symm
  have hnames : Ref.Drawn plan.nextGeneration (.live plan.key) plan.object :=
    ⟨by rw [Ref.Names, h.key, h.bucket, h.name], h.generation.le⟩
  -- whatever becomes of the live generation, a new one is allocated
  have ha : ∀ t : Holdings Ref ObjectMetadata (List Byte), t.refs (.live plan.key) = none →
      t.next = s.nextBlob → Moves plan.nextGeneration (¬ Numbered s) s.holdings t →
      Moves plan.nextGeneration (¬ Numbered s) s.holdings
        (t.allocate ObjectMetadata.blob (.live plan.key) plan.object bytes) := fun t hfree hnext hm =>
    .tail hm (.allocate hfree (by rw [h.blob, hnext]) h.size.symm hnames)
  cases hget : s.objects.get plan.key with
  | none =>
    rw [holdings_applyPlannedPut_of_none hblob hget]
    exact ha s.holdings hget rfl .refl
  | some =>
    rcases h.archive with harchive | ⟨live, hlive, harchive⟩
    · rw [holdings_applyPlannedPut_of_replaced hblob hget harchive]
      refine ha _ ?_ (next_release _ _) (.single (.release _))
      rw [refs_release, update_self]
    · rw [hget] at hlive
      cases hlive
      rw [holdings_applyPlannedPut_of_archived hblob hget harchive]
      exact ha _ (refs_transfer_self _ (by simp)) rfl
        (moves_transfer hs h.nextGeneration.le hget)

/-- New metadata of a generation. -/
theorem moves_revise (hs : Sound s) {next : ObjectMetadata} (hget : s.holdings.refs r = some object)
    (hsame : next.SameGeneration object) :
    Moves s.nextGeneration leaks s.holdings (s.holdings.revise r next) := by
  obtain ⟨hnames, hg⟩ := hs.drawn r object hget
  exact .single (.revise hget hsame.blob (fun _ (hb : Fits object _) => hb.trans hsame.size.symm)
    ⟨hnames.congr hsame, hsame.generation.le.trans hg⟩)

theorem moves_release : Moves next leaks s.holdings (s.holdings.release ObjectMetadata.blob r) :=
  .single (.release r)

/-- Every change is made of moves. -/
theorem Change.moves (h : Change s object batch s') (hs : Sound s) :
    Moves s'.nextGeneration (¬ Numbered s) s.holdings s'.holdings := by
  cases h with
  | @write _ _ _ _ _ _ plan bytes hplan =>
    have hnext : (s.applyPlannedPut plan bytes (putEvents plan)).nextGeneration = plan.nextGeneration :=
      nextGeneration_applyPlannedPut ..
    rw [hnext]
    exact moves_applyPlannedPut hs (planned_of_planPut hplan)
  | update rng hget hsame =>
    convert moves_revise hs (holdings_live.trans hget) hsame using 1
    exact Holdings.ext (referents_insert_live _ _ _ _) rfl rfl
  | @updateVersion key version next hget hsame =>
    have hold : s.holdings.refs (.old key) = some version.object := by rw [holdings_old, hget]; rfl
    convert moves_revise hs hold hsame using 1
    exact Holdings.ext (referents_insert_old _ _ _ _) rfl rfl
  | @archive bucket name _ now hget =>
    obtain ⟨hb, hname⟩ := objectKey_inj.1 (hs.drawn (.live (objectKey bucket name)) object hget).1
    convert moves_transfer hs le_rfl hget using 1
    refine Holdings.ext ?_ rfl rfl
    rw [Holdings.transfer, holdings_live, hget, ← hb, ← hname]
    exact (referents_insert_old _ _ _ _).trans (by rw [referents_erase_live]; rfl)
  | @drop bucket name _ hget =>
    convert moves_release using 1
    rw [release_of_some (holdings_live.trans hget)]
    exact Holdings.ext (referents_erase_live _ _ _) rfl rfl
  | @dropVersion key version hget =>
    have hold : s.holdings.refs (.old key) = some version.object := by rw [holdings_old, hget]; rfl
    convert moves_release using 1
    rw [release_of_some hold]
    exact Holdings.ext (referents_erase_old _ _ _) rfl rfl

theorem Change.nextGeneration_le (h : Change s object batch s') : s.nextGeneration ≤ s'.nextGeneration := by
  cases h with
  | write bytes hplan =>
    rw [nextGeneration_applyPlannedPut]
    exact (planned_of_planPut hplan).nextGeneration.le
  | update => exact le_rfl
  | updateVersion => exact le_rfl
  | archive => exact le_rfl
  | drop => exact le_rfl
  | dropVersion => exact le_rfl

/-- Moves keep a store sound. -/
theorem Sound.moves (hs : Sound s) (hm : Moves s'.nextGeneration leaks s.holdings s'.holdings)
    (hnext : s.nextGeneration ≤ s'.nextGeneration) (hc : Counted s') : Sound s' := by
  refine ⟨hm.owned hs.owned, hm.named fun r object hr => ?_, hc⟩
  obtain ⟨hnames, hg⟩ := hs.drawn r object hr
  exact ⟨hnames, hg.trans hnext⟩

theorem Sound.change (hs : Sound s) (h : Change s object batch s') : Sound s' :=
  hs.moves (h.moves hs) h.nextGeneration_le (h.counted hs.counted)

/-! ### Numbers -/

/-- What becomes of the numbers of the generations. -/
structure Renumbered (s s' : StorageState) : Prop where
  /-- A live generation was live before, or it is new. -/
  live : ∀ key object, s'.holdings.refs (.live key) = some object → s.nextGeneration < object.generation ∨
      ∃ before, s.holdings.refs (.live key) = some before ∧ object.SameGeneration before
  /-- A noncurrent generation was so before, or it was live and is not any longer. -/
  old : ∀ key object, s'.holdings.refs (.old key) = some object →
    (∃ before, s.holdings.refs (.old key) = some before ∧ object.SameGeneration before) ∨
      ∃ liveKey, s.holdings.refs (.live liveKey) = some object ∧
        ∀ next, s'.holdings.refs (.live liveKey) = some next → s.nextGeneration < next.generation

theorem sameGeneration_refl : object.SameGeneration object :=
  ⟨rfl, rfl, rfl, rfl, rfl⟩

theorem Numbered.renumbered (hn : Numbered s) (hs : Sound s) (hs' : Sound s') (h : Renumbered s s') :
    Numbered s' := by
  intro key object hlive
  rw [Option.eq_none_iff_forall_ne_some]
  intro version hold
  have hv := (hs'.drawn _ version hold).1
  obtain ⟨hbucket, hname, hg⟩ := generationKey_inj.1 hv
  rcases h.old _ version hold with ⟨before, hb, hsame⟩ | ⟨liveKey, hwas, hgone⟩
  · rcases h.live key object hlive with hnew | ⟨was, hwas, hsame'⟩
    · -- a new number is larger than all numbers before
      have := (hs.drawn _ before hb).2
      rw [← hsame.generation, ← hg] at this
      omega
    · have hnone := hn key was hwas
      rw [← hsame'.bucket, ← hsame'.name, ← hsame'.generation] at hnone
      rw [hnone] at hb
      cases hb
  · have hkey : liveKey = key := by
      have hnames := (hs.drawn _ version hwas).1
      have hnames' := (hs'.drawn _ object hlive).1
      rw [Ref.Names] at hnames hnames'
      rw [hnames, hnames', hbucket, hname]
    have hnew := hgone object (hkey ▸ hlive)
    have := (hs.drawn _ version hwas).2
    omega

theorem objects_applyPlannedPut :
    (s.applyPlannedPut plan bytes events).objects = s.objects.insert plan.key plan.object := by
  obtain ⟨_, _, _, h⟩ := s.applyPlannedPut_eq plan bytes events
  rw [h]

/-- A write makes at most the live generation noncurrent. -/
theorem noncurrent_applyPlannedPut (s : StorageState) (plan : StorageState.PlannedPut) (bytes : List Byte)
    (events : List StorageEvent) :
    (s.applyPlannedPut plan bytes events).noncurrent = s.noncurrent ∨
      ∃ old version, s.objects.get plan.key = some old ∧ plan.archive = some version ∧
        (s.applyPlannedPut plan bytes events).noncurrent =
          s.noncurrent.insert (generationKey old.bucket old.name old.generation) version := by
  unfold StorageState.applyPlannedPut
  cases hget : s.objects.get plan.key with
  | none => exact .inl rfl
  | some old =>
    cases ha : plan.archive with
    | none =>
      dsimp only
      rw [removeBlob_eq]
      exact .inl rfl
    | some version => exact .inr ⟨old, version, rfl, rfl, rfl⟩

theorem holdings_old_eq_some {key : GenerationKey} :
    s.holdings.refs (.old key) = some object ↔ ∃ t, s.noncurrent.get key = some ⟨object, t⟩ := by
  rw [holdings_old, Option.map_eq_some_iff]
  constructor
  · rintro ⟨version, hv, rfl⟩
    exact ⟨version.timeDeleted, hv⟩
  · rintro ⟨t, hv⟩
    exact ⟨_, hv, rfl⟩

theorem renumbered_old_of_eq (h : s'.noncurrent = s.noncurrent) {key : GenerationKey}
    (hold : s'.holdings.refs (.old key) = some object) :
    ∃ before, s.holdings.refs (.old key) = some before ∧ object.SameGeneration before := by
  rw [holdings_old, h] at hold
  exact ⟨object, hold, sameGeneration_refl⟩

theorem renumbered_live_of_eq (h : s'.objects = s.objects)
    (hlive : s'.holdings.refs (.live key) = some object) :
    ∃ before, s.holdings.refs (.live key) = some before ∧ object.SameGeneration before := by
  rw [holdings_live, h] at hlive
  exact ⟨object, hlive, sameGeneration_refl⟩

theorem Change.renumbered (h : Change s object batch s') : Renumbered s s' := by
  cases h with
  | @write _ _ _ _ _ _ plan bytes hplan =>
    have hp := planned_of_planPut hplan
    have hlive : ∀ key next, (s.applyPlannedPut plan bytes (putEvents plan)).holdings.refs (.live key) =
        some next → (key = plan.key ∧ s.nextGeneration < next.generation) ∨
          key ≠ plan.key ∧ s.holdings.refs (.live key) = some next := by
      intro key next hnext
      rw [holdings_live, objects_applyPlannedPut, get_insert] at hnext
      split_ifs at hnext with hkey
      · cases hnext
        exact .inl ⟨hkey, hp.generation ▸ hp.nextGeneration⟩
      · exact .inr ⟨hkey, hnext⟩
    refine ⟨fun key next hnext => ?_, fun key version hv => ?_⟩
    · rcases hlive key next hnext with ⟨-, hnew⟩ | ⟨-, hb⟩
      · exact .inl hnew
      · exact .inr ⟨next, hb, sameGeneration_refl⟩
    · rcases noncurrent_applyPlannedPut s plan bytes (putEvents plan) with
        hsame | ⟨old, archived, hget, ha, hi⟩
      · exact .inl (renumbered_old_of_eq hsame hv)
      · obtain ⟨t, ht⟩ := holdings_old_eq_some.1 hv
        rw [hi, get_insert] at ht
        split_ifs at ht with hkey
        · cases ht
          rcases hp.archive with hnone | ⟨live, hlive', hsome⟩
          · rw [hnone] at ha
            cases ha
          · rw [ha] at hsome
            cases hsome
            refine .inr ⟨plan.key, hlive', fun next hnext => ?_⟩
            rcases hlive plan.key next hnext with ⟨-, hnew⟩ | ⟨hne, -⟩
            · exact hnew
            · exact absurd rfl hne
        · exact .inl ⟨version, holdings_old_eq_some.2 ⟨t, ht⟩, sameGeneration_refl⟩
  | @update bucket name live next rng hget hsame =>
    refine ⟨fun key new hnew => .inr ?_, fun key version hv => .inl (renumbered_old_of_eq rfl hv)⟩
    rw [holdings_live, get_insert] at hnew
    split_ifs at hnew with hkey
    · cases hnew
      exact ⟨live, hkey ▸ hget, hsame⟩
    · exact ⟨new, hnew, sameGeneration_refl⟩
  | @updateVersion key version next hget hsame =>
    refine ⟨fun key new hnew => .inr (renumbered_live_of_eq rfl hnew), fun key' version' hv => .inl ?_⟩
    obtain ⟨t, ht⟩ := holdings_old_eq_some.1 hv
    rw [get_insert] at ht
    split_ifs at ht with hkey
    · cases ht
      exact ⟨version.object, holdings_old_eq_some.2 ⟨_, hkey ▸ hget⟩, hsame⟩
    · exact ⟨version', holdings_old_eq_some.2 ⟨t, ht⟩, sameGeneration_refl⟩
  | @archive bucket name live now hget =>
    refine ⟨fun key new hnew => .inr ?_, fun key version hv => ?_⟩
    · rw [holdings_live, get_erase] at hnew
      split_ifs at hnew
      exact ⟨new, hnew, sameGeneration_refl⟩
    · obtain ⟨t, ht⟩ := holdings_old_eq_some.1 hv
      rw [get_insert] at ht
      split_ifs at ht
      · cases ht
        refine .inr ⟨objectKey bucket name, hget, fun next hnext => ?_⟩
        rw [holdings_live, get_erase_self] at hnext
        cases hnext
      · exact .inl ⟨version, holdings_old_eq_some.2 ⟨t, ht⟩, sameGeneration_refl⟩
  | drop =>
    refine ⟨fun key new hnew => .inr ?_, fun key version hv => .inl (renumbered_old_of_eq rfl hv)⟩
    rw [holdings_live, get_erase] at hnew
    split_ifs at hnew
    exact ⟨new, hnew, sameGeneration_refl⟩
  | dropVersion =>
    refine ⟨fun key new hnew => .inr (renumbered_live_of_eq rfl hnew), fun key version hv => .inl ?_⟩
    obtain ⟨t, ht⟩ := holdings_old_eq_some.1 hv
    rw [get_erase] at ht
    split_ifs at ht
    exact ⟨version, holdings_old_eq_some.2 ⟨t, ht⟩, sameGeneration_refl⟩

/-! ### Imports -/

theorem nextGeneration_installImported :
    (s.installImported object bytes).nextGeneration = max s.nextGeneration object.generation := by
  obtain ⟨_, _, h⟩ := s.installImported_eq object bytes
  rw [h]

/-- An import releases the live generation and allocates a new one. -/
theorem holdings_installImported :
    (s.installImported object bytes).holdings =
      (s.holdings.release ObjectMetadata.blob (.live (objectKey object.bucket object.name))).allocate
        ObjectMetadata.blob (.live (objectKey object.bucket object.name)) object bytes := by
  unfold StorageState.installImported
  cases hget : s.objects.get (objectKey object.bucket object.name) with
  | none =>
    rw [release_of_none (holdings_live.trans hget)]
    exact Holdings.ext (referents_insert_live _ _ _ _) rfl rfl
  | some =>
    rw [release_of_some (holdings_live.trans hget)]
    have hrefs : referents (s.objects.insert (objectKey object.bucket object.name) object) s.noncurrent =
        Function.update (Function.update s.holdings.refs (.live (objectKey object.bucket object.name)) none)
          (.live (objectKey object.bucket object.name)) (some object) :=
      (referents_insert_live _ _ _ _).trans (update_idem _ _ _).symm
    simp only [removeBlob_eq]
    split_ifs <;> exact Holdings.ext hrefs rfl rfl

/-- What an import does to the generations. -/
theorem moves_installImported (leaks : Prop) (hblob : object.blob = s.nextBlob + 1)
    (hsize : object.size = bytes.length) :
    Moves (s.installImported object bytes).nextGeneration leaks s.holdings
      (s.installImported object bytes).holdings := by
  rw [holdings_installImported, nextGeneration_installImported]
  refine .tail (moves_release) (.allocate ?_ ?_ hsize.symm ⟨rfl, le_max_right _ _⟩)
  · rw [refs_release, update_self]
  · rw [next_release]
    exact hblob

theorem Sound.installImported (hs : Sound s) (hblob : object.blob = s.nextBlob + 1)
    (hsize : object.size = bytes.length) : Sound (s.installImported object bytes) :=
  hs.moves (moves_installImported False hblob hsize)
    ((le_max_left _ _).trans nextGeneration_installImported.ge)
    (hs.counted.installImported object bytes)

/-- An import keeps the numbers apart if no noncurrent generation carries its number. -/
theorem Numbered.installImported (hn : Numbered s)
    (hfree : s.noncurrent.get (generationKey object.bucket object.name object.generation) = none) :
    Numbered (s.installImported object bytes) := by
  intro key live hlive
  have hrefs : (s.installImported object bytes).holdings.refs =
      Function.update s.holdings.refs (.live (objectKey object.bucket object.name)) (some object) := by
    rw [holdings_installImported, Holdings.allocate, refs_release]
    exact update_idem _ _ _
  rw [hrefs] at hlive ⊢
  rw [update_of_ne (by simp)]
  rcases update_eq_some.1 hlive with ⟨-, ho⟩ | ⟨-, hlive⟩
  · cases ho
    rw [holdings_old, hfree]
    rfl
  · exact hn key live hlive

end Fireemu.Storage
