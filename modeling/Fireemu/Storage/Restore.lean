import Fireemu.Storage.Ownership

/-!
# Restoration is a frame

A restoration of a capture brings the buckets of the scope back to what they held when the capture was
made, and leaves the other buckets alone.  For the sessions of uploads this rests on their identifiers:
an identifier belongs to one bucket for good (`Session.Booked`).
-/

namespace Fireemu.Storage

open Library (SortedMap SortedSet Act Holdings)
open List Option Library.SortedMap Storage.Session

/-! ### The buckets of sessions -/

variable {command : Command} {a b s : StorageState} {session session' : Session} {step : SessionStep}
  {owned : Str → Bool}

theorem Evolves.bucket {id : UploadId} {u u' : UploadSession} (h : Evolves command id u u') :
    u'.bucket = u.bucket := by
  cases h with
  | settles hgrows hsettles => cases hgrows <;> cases hsettles <;> rfl
  | rolledBack =>
    unfold UploadSession.rollback
    split_ifs <;> rfl

/-- Which bucket each identifier of a session belongs to. -/
abbrev Owners := UploadId → Option BucketName

/-- The sessions of a store are in their buckets. -/
def Owners.Agree (owners : Owners) (s : StorageState) : Prop :=
  ∀ id u, s.uploads.get id = some u → owners id = some u.bucket

/-- The sessions of a store and of its captures are in their buckets. -/
structure Session.Booked (owners : Owners) (session : Session) : Prop where
  store : owners.Agree session.store
  captures : ∀ captured ∈ session.captures, owners.Agree captured
  drawn : ∀ id bucket, owners id = some bucket →
    ∃ n token, id = uploadId n token ∧ n ≤ session.store.nextUpload

/-- The owners with those of the sessions of a store. -/
def Owners.extend (owners : Owners) (s : StorageState) : Owners := fun id =>
  (owners id).or ((s.uploads.get id).map (·.bucket))

variable {owners : Owners}

theorem Owners.Agree.extend (h : owners.Agree s) (t : StorageState) :
    (owners.extend t).Agree s := fun id u hget => by rw [Owners.extend, h id u hget]; rfl

/-- A call keeps every session in its bucket. -/
theorem Effect.agree {s' : StorageState} (h : Effect command s s') (hs : owners.Agree s)
    (hd : ∀ id bucket, owners id = some bucket → ∃ n token, id = uploadId n token ∧ n ≤ s.nextUpload) :
    (owners.extend s').Agree s' := by
  intro id u' hget
  rw [Owners.extend, hget]
  rcases h.sessions id u' hget with ⟨u, hu, he⟩ | hf
  · rw [hs id u hu, he.bucket]
    rfl
  · -- a new identifier has no owner yet
    have hnone : owners id = none := by
      rw [eq_none_iff_forall_ne_some]
      intro bucket hb
      obtain ⟨n, token, rfl, hn, -⟩ := hf.drawn
      obtain ⟨m, token', hid, hm⟩ := hd _ bucket hb
      exact absurd (uploadId_sequence hid) (by omega)
    rw [hnone]
    rfl

theorem Session.Booked.moves (h : session.Booked owners) (hm : session.Moves step session') :
    ∃ owners' : Owners, session'.Booked owners' := by
  cases hm with
  | @command command store he =>
    refine ⟨owners.extend store, he.agree h.store h.drawn,
      fun captured hcaptured => (h.captures captured hcaptured).extend store, fun id bucket hid => ?_⟩
    rcases or_eq_some_iff.1 hid with hold | ⟨-, hnew⟩
    · obtain ⟨n, token, rfl, hn⟩ := h.drawn id bucket hold
      exact ⟨n, token, rfl, hn.trans he.next⟩
    · obtain ⟨u, hu, -⟩ := map_eq_some_iff.1 hnew
      exact he.accounted.drawn id u hu
  | capture =>
    refine ⟨owners, h.store, forall_mem_append.2 ⟨h.captures, forall_mem_singleton.2 ?_⟩, h.drawn⟩
    exact fun id u hget => h.store id u (get_filter_eq_some.1 hget).1
  | @restore owned index captured hcaptured hfits =>
    have hnext := (uploads_restoreContent owned captured (session.store.withoutBuckets owned)).2
    refine ⟨owners, fun id u hget => ?_, h.captures, fun id bucket hid => ?_⟩
    · rcases upload_of_restoreContent hget with hrestored | hkept
      · exact h.captures captured hcaptured id u hrestored
      · exact h.store id u (upload_of_withoutBuckets hkept)
    · obtain ⟨n, token, rfl, hn⟩ := h.drawn id bucket hid
      refine ⟨n, token, rfl, ?_⟩
      have hsame : (session.store.withoutBuckets owned).nextUpload = session.store.nextUpload :=
        (sameUploads_withoutGenerations owned session.store).next
      change n ≤ (captured.restoreContent owned (session.store.withoutBuckets owned)).nextUpload
      rw [hnext, hsame]
      exact hn.trans (le_max_left _ _)
  | unchanged => exact ⟨owners, h⟩

/-! ### Buckets -/

/-- What a bucket holds in one store it holds in the other one. -/
structure SameBucket (bucket : BucketName) (s s' : StorageState) : Prop where
  objects : ∀ name, s'.objects.get (objectKey bucket name) = s.objects.get (objectKey bucket name)
  noncurrent : ∀ name generation, s'.noncurrent.get (generationKey bucket name generation) =
    s.noncurrent.get (generationKey bucket name generation)
  bytes : ∀ r object, r.bucket = bucket → s.holdings.refs r = some object →
    s'.blobs.get object.blob = s.blobs.get object.blob
  versioning : s'.versioning.get bucket = s.versioning.get bucket
  publicRead : ∀ name generation, generationKey bucket name generation ∈ s'.publicRead ↔
    generationKey bucket name generation ∈ s.publicRead
  uploads : ∀ id u, u.bucket = bucket → (s'.uploads.get id = some u ↔ s.uploads.get id = some u)

section

variable (owned : Str → Bool) (captured a b : StorageState)

theorem objects_takenOver {key : ObjectKey} :
    (captured.restoreContent owned (b.withoutBuckets owned)).objects.get key =
      if owned (ofLex key).1.1 then captured.objects.get key else b.objects.get key := by
  rw [(restored_restoreContent captured _ owned).objects,
    show (b.withoutBuckets owned).objects = _ from objects_withoutGenerations]
  exact get_replace b.objects captured.objects (fun key => owned (ofLex key).1.1) key

theorem noncurrent_takenOver (key : GenerationKey) :
    (captured.restoreContent owned (b.withoutBuckets owned)).noncurrent.get key =
      if owned (ofLex key).1.1 then captured.noncurrent.get key else b.noncurrent.get key := by
  rw [(restored_restoreContent captured _ owned).noncurrent,
    show (b.withoutBuckets owned).noncurrent = _ from noncurrent_withoutGenerations]
  exact get_replace b.noncurrent captured.noncurrent (fun key => owned (ofLex key).1.1) key

theorem versioning_takenOver (key : BucketName) :
    (captured.restoreContent owned (b.withoutBuckets owned)).versioning.get key =
      if owned key.1 then captured.versioning.get key else b.versioning.get key := by
  rw [(restored_restoreContent captured _ owned).versioning,
    show (b.withoutBuckets owned).versioning = _ from versioning_withoutGenerations]
  exact get_replace b.versioning captured.versioning (fun key => owned key.1) key

theorem publicRead_takenOver {key : GenerationKey} :
    (captured.restoreContent owned (b.withoutBuckets owned)).publicRead.get key =
      if owned (ofLex key).1.1 then captured.publicRead.get key else b.publicRead.get key := by
  rw [(restored_restoreContent captured _ owned).publicRead,
    show (b.withoutBuckets owned).publicRead = _ from publicRead_withoutGenerations]
  exact get_replace b.publicRead captured.publicRead (fun key => owned (ofLex key).1.1) key

/-- A store with the buckets of a scope brought back to what another one holds there. -/
def StorageState.restoredFrom : StorageState :=
  (a.captureBuckets owned).restoreContent owned (b.withoutBuckets owned)

variable {owned a b} {id : UploadId} {u : UploadSession}

/-- The sessions of the scope come back. -/
theorem uploads_restoredFrom_of_owned (ho : owned u.bucket.1 = true) :
    (a.restoredFrom owned b).uploads.get id = some u ↔ a.uploads.get id = some u := by
  rw [StorageState.restoredFrom, (uploads_restoreContent owned _ _).1, get_union, or_eq_some_iff]
  constructor
  · rintro (hrestored | ⟨-, hkept⟩)
    · exact (get_filter_eq_some.1 (get_filter_eq_some.1 hrestored).1).1
    · have := (get_filter_eq_some.1 hkept).2
      simp [ho] at this
  · exact fun hget => .inl (get_filter_eq_some.2 ⟨get_filter_eq_some.2 ⟨hget, ho⟩, ho⟩)

/-- The other sessions stay, as no identifier of theirs was one of the scope. -/
theorem uploads_restoredFrom_of_not_owned (hb : owners.Agree b) (ha : owners.Agree (a.captureBuckets owned))
    (ho : owned u.bucket.1 = false) :
    (a.restoredFrom owned b).uploads.get id = some u ↔ b.uploads.get id = some u := by
  have hsame : (b.withoutGenerations owned).uploads = b.uploads :=
    (sameUploads_withoutGenerations owned b).uploads
  rw [StorageState.restoredFrom, (uploads_restoreContent owned _ _).1, get_union,
    or_eq_some_iff, StorageState.withoutBuckets]
  change _ ∨ _ ∧ ((b.withoutGenerations owned).uploads.filter _).get id = some u ↔ _
  rw [hsame]
  simp only [get_filter_eq_some]
  constructor
  · rintro (hrestored | ⟨-, hkept, -⟩)
    · have := hrestored.2
      rw [ho] at this
      cases this
    · exact hkept
  · intro hget
    refine .inr ⟨?_, hget, by rw [ho]; rfl⟩
    rw [eq_none_iff_forall_ne_some]
    intro v hv
    obtain ⟨hv, howned⟩ := get_filter_eq_some.1 hv
    have hbucket := (ha id v hv).symm.trans (hb id u hget)
    rw [Option.some.injEq] at hbucket
    rw [hbucket, ho] at howned
    cases howned

end

/-- The buckets of the scope hold what they held when they were captured. -/
theorem sameBucket_of_owned (ha : Sound a) (hb : Sound b) {bucket : BucketName} (ho : owned bucket.1 = true) :
    SameBucket bucket a (a.restoredFrom owned b) where
  objects name := (objects_takenOver owned _ b).trans ((if_pos ho).trans (get_filter_of_pos _ ho))
  noncurrent name generation :=
    (noncurrent_takenOver owned _ b _).trans ((if_pos ho).trans (get_filter_of_pos _ ho))
  bytes r object hbucket hr := by
    have htake : inScope owned r.bucket = true := by rw [hbucket]; exact ho
    have hcaptured : (a.captureBuckets owned).holdings.refs r = some object := by
      rw [refs_captureBuckets, if_pos htake, hr]
    exact ((takesOver_restoreContent hb (ha.captureBuckets owned)).taken r object htake hcaptured).trans
      (part_captureBuckets.held r object hcaptured)
  versioning := (versioning_takenOver owned _ b _).trans ((if_pos ho).trans (get_filter_of_pos _ ho))
  publicRead name generation := Eq.congr_left
    ((publicRead_takenOver owned _ b).trans
      ((if_pos ho).trans (get_filter_of_pos _ ho)))
  uploads id u hbucket := uploads_restoredFrom_of_owned (by rw [hbucket]; exact ho)

/-- The other buckets stay as they were. -/
theorem sameBucket_of_not_owned {ledger : Library.Holdings.Ledger BucketName (List Byte)}
    (ha : Filed ledger (a.captureBuckets owned)) (hb : Filed ledger b) (hbooked : owners.Agree b)
    (hbooked' : owners.Agree (a.captureBuckets owned)) {bucket : BucketName} (ho : owned bucket.1 = false) :
    SameBucket bucket b (a.restoredFrom owned b) := by
  have hneg : ¬ owned bucket.1 = true := by
    rw [ho]
    exact Bool.false_ne_true
  exact {
    objects := fun name => (objects_takenOver owned _ b).trans (if_neg hneg)
    noncurrent := fun name generation => (noncurrent_takenOver owned _ b _).trans (if_neg hneg)
    bytes := fun r object hbucket hr =>
      (takesOver_restoreContent hb.sound ha.sound).blobs_kept hb.recorded ha.recorded hr
        (by rw [hbucket]; exact ho)
    versioning := (versioning_takenOver owned _ b _).trans (if_neg hneg)
    publicRead := fun name generation => Eq.congr_left
      ((publicRead_takenOver owned _ b).trans (if_neg hneg))
    uploads := fun id u hbucket =>
      uploads_restoredFrom_of_not_owned hbooked hbooked' (by rw [hbucket]; exact ho) }

/-! ### Runs -/

/-- What every run of a session keeps. -/
structure Session.Kept (session : Session) : Prop where
  filed : ∃ ledger, session.Filed ledger
  booked : ∃ owners, session.Booked owners

theorem Session.Kept.moves (h : session.Kept) (hm : session.Moves step session') : session'.Kept := by
  obtain ⟨⟨_, hf⟩, ⟨_, hb⟩⟩ := h
  obtain ⟨ledger, -, hf⟩ := hf.moves hm
  exact ⟨⟨ledger, hf⟩, hb.moves hm⟩

theorem Session.Moves.captures (h : session.Moves step session') {captured : StorageState}
    (hcaptured : captured ∈ session.captures) : captured ∈ session'.captures := by
  cases h with
  | command | restore | unchanged => exact hcaptured
  | capture => exact mem_append_left _ hcaptured

theorem Session.kept_new (seed : BitVec 64) : (Session.new seed).Kept :=
  ⟨⟨_, filed_new⟩, fun _ => none, fun _ _ hget => (nomatch hget),
    fun _ hcaptured => (not_mem_nil hcaptured).elim, fun _ _ hid => (nomatch hid)⟩

theorem Session.run_append (session : Session) (steps steps' : List SessionStep) :
    session.run (steps ++ steps') = (session.run steps).bind fun session' => session'.run steps' :=
  foldlM_append

/-- A capture of a store that is restored at any later time brings the buckets of its scope back, leaves the
other buckets alone, and keeps the totals exact and the counters where they are. -/
theorem restoreBuckets_frame (seed : BitVec 64) (owned : Str → Bool) (before after : List SessionStep) :
    ∃ earlier later s', (Session.new seed).run before = some earlier ∧
      (Session.new seed).run (before ++ .capture owned :: after) = some later ∧
      restoreBuckets owned (earlier.store.captureBuckets owned) later.store = (.ok (), s') ∧
      (∀ bucket, owned bucket.1 = true → SameBucket bucket earlier.store s') ∧
      (∀ bucket, owned bucket.1 = false → SameBucket bucket later.store s') ∧
      s'.storedBytes = blobBytes s'.blobs ∧ s'.retainedUploadBytes = uploadBytes s'.uploads ∧
      later.store.nextGeneration ≤ s'.nextGeneration ∧ later.store.nextBlob ≤ s'.nextBlob := by
  obtain ⟨a, hbefore, haccounted, hkept⟩ := (accounted_new seed).run
    (P := fun _ session => session.Kept) before (kept_new seed)
    fun _ _ _ _ _ h _ hmoves => h.moves hmoves
  have hcapture : a.Moves (.capture owned) _ := .capture owned
  obtain ⟨b, hafter, hbaccounted, hbkept, hmem⟩ := (haccounted.moves hcapture).run
    (P := fun _ session => session.Kept ∧ a.store.captureBuckets owned ∈ session.captures) after
    ⟨hkept.moves hcapture, mem_append_right _ mem_cons_self⟩
    fun _ _ _ _ _ h _ hmoves => ⟨h.1.moves hmoves, hmoves.captures h.2⟩
  obtain ⟨⟨_, hafiled⟩, -⟩ := hkept
  obtain ⟨⟨_, hbfiled⟩, ⟨_, hbooked⟩⟩ := hbkept
  have hfiled := filed_restoreContent hbfiled.store (hbfiled.captures _ hmem) owned
  have hrestored := restored_restoreContent (a.store.captureBuckets owned) (b.store.withoutBuckets owned) owned
  refine ⟨a, b, a.store.restoredFrom owned b.store, hbefore, ?_, restoreBuckets_eq hbaccounted.store owned _,
    fun bucket howned => sameBucket_of_owned hafiled.store.sound hbfiled.store.sound howned,
    fun bucket hother => sameBucket_of_not_owned (hbfiled.captures _ hmem) hbfiled.store hbooked.store
      (hbooked.captures _ hmem) hother, hfiled.sound.counted, rfl, ?_, ?_⟩
  · rw [run_append, hbefore]
    exact (run_cons _ _ _).trans hafter
  · refine (nextGeneration_withoutGenerations b.store owned).ge.trans ?_
    exact (le_max_left _ _).trans hrestored.nextGeneration.ge
  · exact (le_max_left _ _).trans
      (takesOver_restoreContent hbfiled.store.sound (hbfiled.captures _ hmem).sound).next.ge

end Fireemu.Storage
