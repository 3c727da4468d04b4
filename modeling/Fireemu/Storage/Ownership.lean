import Fireemu.Storage.Admission
import Fireemu.Storage.Capture

/-!
# Generations own their blobs

Along every run of a session each generation has its blob, alone, and the blobs are counted.  That every
blob has a generation, and that no two generations of an object have the same number, depends on the
imports: an import that takes the number of a noncurrent generation breaks both.
-/

namespace Fireemu.Storage

open Library (SortedMap SortedSet Act Holdings)
open Library.Holdings (Owned Covered Recorded TakesOver)
open List

/-- A sound store whose blobs are in a ledger. -/
structure Filed (ledger : Library.Holdings.Ledger BucketName (List Byte)) (s : StorageState) : Prop where
  sound : Sound s
  recorded : Recorded ObjectMetadata.blob Ref.bucket ledger s.holdings

/-- A store in which every blob has a generation and no two generations of an object have one number. -/
structure Tidy (s : StorageState) : Prop where
  covered : s.holdings.Covered ObjectMetadata.blob
  numbered : Numbered s

/-! ### Advances -/

/-- What has been recorded stays, in a ledger that knows what is new. -/
def Files (ledger : Library.Holdings.Ledger BucketName (List Byte)) (s' : StorageState) : Prop :=
  ∃ ledger' : Library.Holdings.Ledger BucketName (List Byte), ledger'.Extends ledger ∧ ledger'.Drawn s'.nextBlob ∧ Filed ledger' s'

section

variable {ledger : Library.Holdings.Ledger BucketName (List Byte)} {s s' : StorageState}

theorem Filed.files (hs : Filed ledger s) (hd : ledger.Drawn s.nextBlob) : Files ledger s :=
  ⟨ledger, fun _ _ hx => hx, hd, hs⟩

theorem Filed.moves (hs : Filed ledger s) (hd : ledger.Drawn s.nextBlob) {next : ℕ} {leaks : Prop}
    (hm : Moves next leaks s.holdings s'.holdings) (hsound : Sound s') : Files ledger s' := by
  obtain ⟨ledger', hext, hrecorded, hd'⟩ := hm.recorded hs.recorded hd
  exact ⟨ledger', hext, hd', hsound, hrecorded⟩

theorem SameContents.sound (h : SameContents s s') (hs : Sound s) : Sound s' := by
  refine ⟨by rw [h.holdings]; exact hs.owned, by rw [h.holdings, h.nextGeneration]; exact hs.drawn, ?_⟩
  rw [Counted, h.storedBytes, h.blobs]
  exact hs.counted

/-- The default of the content disposition changes the contents as an update of the metadata does. -/
theorem sameContents_defaultContentDisposition (s : StorageState) (bucket : BucketName) (name : ObjectName)
    (value : Str) :
    SameContents s (s.defaultContentDisposition bucket name value) ∨
      ∃ object batch t, Change s object batch t ∧
        SameContents t (s.defaultContentDisposition bucket name value) := by
  unfold StorageState.defaultContentDisposition
  rw [SortedMap.modify]
  cases hget : s.objects.get (objectKey bucket name) with
  | none => exact .inl ⟨rfl, rfl, rfl, rfl, rfl, rfl⟩
  | some object =>
    exact .inr ⟨{ object with contentDisposition := object.contentDisposition.or (some value) }, _, _,
      .update s.rng hget ⟨rfl, rfl, rfl, rfl, rfl⟩, ⟨rfl, rfl, rfl, rfl, rfl, rfl⟩⟩

theorem Filed.sameContents (hs : Filed ledger s) (h : SameContents s s') : Filed ledger s' :=
  ⟨h.sound hs.sound, by rw [h.holdings]; exact hs.recorded⟩

theorem Files.sameContents (hs : Files ledger s) (h : SameContents s s') : Files ledger s' := by
  obtain ⟨ledger', hext, hd, hf⟩ := hs
  exact ⟨ledger', hext, by rwa [h.nextBlob], hf.sameContents h⟩

theorem Tidy.sameContents (hs : Tidy s) (h : SameContents s s') : Tidy s' := by
  refine ⟨by rw [h.holdings]; exact hs.covered, ?_⟩
  unfold Numbered
  rw [h.holdings]
  exact hs.numbered

variable {c : Holdings Ref ObjectMetadata (List Byte)} {owned : Str → Bool} {object : ObjectMetadata}
  {clean : Prop}

/-- The generations of some buckets are replaced by recorded ones. -/
theorem Filed.takesOver (hs : Filed ledger s) (hc : Recorded ObjectMetadata.blob Ref.bucket ledger c)
    (hco : Owned ObjectMetadata.blob Fits c)
    (hd : ∀ r object, c.refs r = some object → r.Drawn s'.nextGeneration object)
    (ht : TakesOver ObjectMetadata.blob Ref.bucket (inScope owned) s.holdings c s'.holdings)
    (hnext : s.nextGeneration ≤ s'.nextGeneration) (hcounted : Counted s') : Filed ledger s' := by
  refine ⟨⟨ht.owned hs.recorded hc hs.sound.owned hco, fun r object hr => ?_, hcounted⟩,
    ht.recorded hs.recorded hc⟩
  rcases ht.refs_eq_some.1 hr with ⟨-, hr⟩ | ⟨-, hr⟩
  · exact hd r object hr
  · obtain ⟨hnames, hg⟩ := hs.sound.drawn r object hr
    exact ⟨hnames, hg.trans hnext⟩

theorem Tidy.takesOver (hs : Tidy s) (hc : ∀ key object, c.refs (.live key) = some object →
      c.refs (.old (generationKey object.bucket object.name object.generation)) = none)
    (ht : TakesOver ObjectMetadata.blob Ref.bucket (inScope owned) s.holdings c s'.holdings)
    (hsound : Sound s') : Tidy s' := by
  refine ⟨ht.covered hs.covered, fun key object hlive => ?_⟩
  -- both generations are of one bucket, so they come from the same side
  have hb : (Ref.old (generationKey object.bucket object.name object.generation)).bucket =
      (Ref.live key).bucket := (hsound.drawn _ object hlive).1.bucket.symm
  rw [ht.refs] at hlive ⊢
  rw [hb]
  split_ifs at hlive ⊢
  · exact hc key object hlive
  · exact hs.numbered key object hlive

theorem counted_withoutGenerations (hs : Counted s) : Counted (s.withoutGenerations owned) := by
  refine counted_foldl (fun s key hs => ?_) _ (counted_foldl (fun s key hs => ?_) _ hs)
  · unfold StorageState.removeVersion
    cases s.noncurrent.get key with
    | none => exact hs
    | some => exact Counted.removeBlob (by exact hs) _
  · unfold StorageState.removeObject
    cases s.objects.get key with
    | none => exact hs
    | some => exact Counted.removeBlob (by exact hs) _

variable {r : Ref}

theorem refs_clear : s.clear.holdings.refs r = none := by
  cases r <;> rfl

theorem not_refs_clear : s.clear.holdings.refs r ≠ some object := by
  rw [refs_clear]
  exact nofun

theorem sound_clear : Sound s.clear :=
  ⟨⟨fun _ _ hr => (not_refs_clear hr).elim, fun _ _ _ _ hr => (not_refs_clear hr).elim,
    fun _ _ hi => nomatch hi⟩, fun _ _ hr => (not_refs_clear hr).elim, rfl⟩

/-- Every advance is recorded. -/
theorem Advance.files (h : Advance clean s s') (hs : Filed ledger s) (hd : ledger.Drawn s.nextBlob) :
    Files ledger s' := by
  cases h with
  | same h => exact (hs.files hd).sameContents h
  | change h => exact hs.moves hd (h.moves hs.sound) (hs.sound.change h)
  | imported hblob hsize =>
    exact hs.moves hd (moves_installImported False hblob hsize) (hs.sound.installImported hblob hsize)
  | described bucket name value =>
    rcases sameContents_defaultContentDisposition s bucket name value with h | ⟨object, batch, t, hc, h⟩
    · exact (hs.files hd).sameContents h
    · exact (hs.moves hd (hc.moves hs.sound) (hs.sound.change hc)).sameContents h
  | removed owned =>
    have ht := takesOver_withoutGenerations hs.sound owned
    refine Filed.files (hs.takesOver Holdings.recorded_empty Holdings.owned_empty (fun _ _ hr => nomatch hr) ht
      (nextGeneration_withoutGenerations s owned).ge (counted_withoutGenerations hs.sound.counted)) ?_
    have hnext : (s.withoutGenerations owned).nextBlob = s.nextBlob := ht.next.trans (Nat.max_zero _)
    rwa [hnext]
  | cleared =>
    exact Filed.files ⟨sound_clear, fun _ _ hi => (nomatch hi), fun _ _ hr => (not_refs_clear hr).elim⟩
      hd

theorem Change.tidy {batch : List StorageEvent} (h : Change s object batch s') (hs : Sound s) (ht : Tidy s) :
    Tidy s' := by
  have hm := h.moves hs
  rw [eq_false (not_not.2 ht.numbered)] at hm
  exact ⟨hm.covered ht.covered, ht.numbered.renumbered hs (hs.change h) h.renumbered⟩

/-- A clean advance keeps a store tidy. -/
theorem Advance.tidy (h : Advance clean s s') (hclean : clean) (hs : Filed ledger s)
    (hd : ledger.Drawn s.nextBlob) (ht : Tidy s) : Tidy s' := by
  cases h with
  | same h => exact ht.sameContents h
  | change h => exact h.tidy hs.sound ht
  | imported hblob hsize hfree =>
    exact ⟨(moves_installImported False hblob hsize).covered ht.covered,
      ht.numbered.installImported (hfree hclean)⟩
  | described bucket name value =>
    rcases sameContents_defaultContentDisposition s bucket name value with h | ⟨object, batch, t, hc, h⟩
    · exact ht.sameContents h
    · exact (hc.tidy hs.sound ht).sameContents h
  | removed owned =>
    obtain ⟨_, -, -, hf⟩ := (Advance.removed owned : Advance clean s _).files hs hd
    exact ht.takesOver (c := Holdings.empty) (fun _ _ hr => nomatch hr) (takesOver_withoutGenerations hs.sound owned) hf.sound
  | cleared => exact ⟨fun _ _ hi => (nomatch hi), fun _ _ hr => (not_refs_clear hr).elim⟩

theorem Advances.files (h : Advances clean s s') (hs : Filed ledger s) (hd : ledger.Drawn s.nextBlob) :
    Files ledger s' := by
  induction h with
  | refl => exact hs.files hd
  | tail _ hstep ih =>
    obtain ⟨ledger₁, hext₁, hd₁, hf₁⟩ := ih
    obtain ⟨ledger₂, hext₂, hd₂, hf₂⟩ := hstep.files hf₁ hd₁
    exact ⟨ledger₂, fun i x hx => hext₂ i x (hext₁ i x hx), hd₂, hf₂⟩

theorem Advances.tidy (h : Advances clean s s') (hc : clean) (hs : Filed ledger s)
    (hd : ledger.Drawn s.nextBlob) (ht : Tidy s) : Tidy s' := by
  induction h with
  | refl => exact ht
  | tail hb hstep ih =>
    obtain ⟨_, -, hd₁, hf₁⟩ := Advances.files hb hs hd
    exact hstep.tidy hc hf₁ hd₁ ih

theorem filed_restoreContent {captured : StorageState} (hs : Filed ledger s) (hcaptured : Filed ledger captured)
    (owned : Str → Bool) : Filed ledger (captured.restoreContent owned (s.withoutBuckets owned)) := by
  have hnext : (captured.restoreContent owned (s.withoutBuckets owned)).nextGeneration =
      max s.nextGeneration captured.nextGeneration := by
    rw [(restored_restoreContent captured _ owned).nextGeneration]
    exact congrArg (max · _) (nextGeneration_withoutGenerations s owned)
  have hc : Counted (s.withoutBuckets owned) := counted_withoutGenerations hs.sound.counted
  refine hs.takesOver hcaptured.recorded hcaptured.sound.owned (fun r object hr => ?_)
    (takesOver_restoreContent hs.sound hcaptured.sound) ((le_max_left _ _).trans hnext.ge)
    (hc.restoreGenerations captured owned)
  obtain ⟨hnames, hg⟩ := hcaptured.sound.drawn r object hr
  exact ⟨hnames, hg.trans ((le_max_right _ _).trans hnext.ge)⟩

end

/-! ### Sessions -/

/-- A session whose store and captures are in one ledger. -/
structure Session.Filed (ledger : Library.Holdings.Ledger BucketName (List Byte)) (session : Session) : Prop where
  store : Storage.Filed ledger session.store
  captures : ∀ captured ∈ session.captures, Storage.Filed ledger captured
  drawn : ledger.Drawn session.store.nextBlob

/-- A session whose store and captures are tidy. -/
structure Session.Tidy (session : Session) : Prop where
  store : Storage.Tidy session.store
  captures : ∀ captured ∈ session.captures, Numbered captured

variable {ledger : Library.Holdings.Ledger BucketName (List Byte)} {s : StorageState}
  {session session' : Session} {step : SessionStep}

theorem Filed.mono {ledger' : Library.Holdings.Ledger BucketName (List Byte)} (hs : Filed ledger s)
    (hext : ledger'.Extends ledger) : Filed ledger' s := ⟨hs.sound, hs.recorded.mono hext⟩

theorem Session.Filed.moves (h : session.Filed ledger) (hm : session.Moves step session') :
    ∃ ledger' : Library.Holdings.Ledger BucketName (List Byte), ledger'.Extends ledger ∧ session'.Filed ledger' := by
  have hsame : ∀ i x, ledger i = some x → ledger i = some x := fun _ _ hx => hx
  cases hm with
  | command command he =>
    obtain ⟨ledger', hext, hd, hf⟩ := Advances.files he.contents h.store h.drawn
    exact ⟨ledger', hext, hf, fun captured hcaptured => (h.captures captured hcaptured).mono hext, hd⟩
  | capture owned =>
    refine ⟨ledger, hsame, h.store, forall_mem_append.2 ⟨h.captures, forall_mem_singleton.2 ?_⟩, h.drawn⟩
    exact ⟨h.store.sound.captureBuckets owned, part_captureBuckets.recorded h.store.recorded⟩
  | restore owned hcaptured =>
    have hf := h.captures _ hcaptured
    refine ⟨ledger, hsame, filed_restoreContent h.store hf owned, h.captures, fun i x hx => ?_⟩
    exact (h.drawn i x hx).trans
      ((le_max_left _ _).trans (takesOver_restoreContent h.store.sound hf.sound).next.ge)
  | unchanged => exact ⟨ledger, hsame, h⟩

/-- Whether a step is not an import, or a clean one. -/
def SessionStep.clean (s : StorageState) : SessionStep → Bool
  | .command call => call.clean s
  | _ => true

theorem Numbered.captureBuckets (hs : Numbered s) (owned : Str → Bool) :
    Numbered (s.captureBuckets owned) := by
  intro key object hlive
  rw [Option.eq_none_iff_forall_ne_some]
  intro version hold
  have hnone := hs key object (part_captureBuckets.refs _ object hlive)
  rw [part_captureBuckets.refs _ version hold] at hnone
  cases hnone

theorem Session.Tidy.moves (ht : session.Tidy) (h : session.Filed ledger) (hc : step.clean session.store)
    (hm : session.Moves step session') : session'.Tidy := by
  cases hm with
  | command command he =>
    exact ⟨Advances.tidy he.contents hc h.store h.drawn ht.store, ht.captures⟩
  | capture owned =>
    have hnew := forall_mem_singleton.2 (ht.store.numbered.captureBuckets owned)
    exact ⟨ht.store, forall_mem_append.2 ⟨ht.captures, hnew⟩⟩
  | restore owned hcaptured =>
    have hf := h.captures _ hcaptured
    exact ⟨ht.store.takesOver (ht.captures _ hcaptured)
      (takesOver_restoreContent h.store.sound hf.sound)
      (filed_restoreContent h.store hf owned).sound, ht.captures⟩
  | unchanged => exact ht

/-- Whether no import of a run succeeds under the number of a noncurrent generation of its object. -/
def Session.clean (session : Session) : List SessionStep → Bool
  | [] => true
  | step :: steps => step.clean session.store && (session.step step).all fun session' => session'.clean steps

variable {seed : BitVec 64}

theorem Session.filed_new : (Session.new seed).Filed fun _ => none := by
  have hrefs : ∀ r, (StorageState.new seed).holdings.refs r = none := fun r => by cases r <;> rfl
  have hno : ∀ {P : Prop} {r : Ref} {object : ObjectMetadata},
      (StorageState.new seed).holdings.refs r = some object → P := fun {_ r _} hr => by
    rw [hrefs r] at hr
    cases hr
  exact ⟨⟨⟨⟨fun _ _ hr => hno hr, fun _ _ _ _ hr => hno hr, fun _ _ hi => (nomatch hi)⟩,
    fun _ _ hr => hno hr, rfl⟩, fun _ _ hi => (nomatch hi), fun _ _ hr => hno hr⟩,
    fun _ hcaptured => (not_mem_nil hcaptured).elim, fun _ _ hx => (nomatch hx)⟩

theorem Session.tidy_new : (Session.new seed).Tidy :=
  ⟨⟨fun _ _ hi => (nomatch hi), fun _ _ hr => (nomatch hr)⟩, fun _ hcaptured => (not_mem_nil hcaptured).elim⟩

/-- The generations of an object are told apart by their numbers. -/
theorem Numbered.eq_of_generation_eq (hn : Numbered s) (hs : Sound s) {r r' : Ref}
    {object object' : ObjectMetadata} (hr : s.holdings.refs r = some object)
    (hr' : s.holdings.refs r' = some object') (hb : object.bucket = object'.bucket)
    (hname : object.name = object'.name) (hg : object.generation = object'.generation) : r = r' := by
  have hnames := (hs.drawn r object hr).1
  have hnames' := (hs.drawn r' object' hr').1
  -- a noncurrent generation is kept under the number of a live one only if they collide
  have hm : ∀ {key key' object object'}, s.holdings.refs (.live key) = some object →
      s.holdings.refs (.old key') = some object' → key' ≠
        generationKey object.bucket object.name object.generation := fun hlive hold heq => by
    rw [heq, hn _ _ hlive] at hold
    cases hold
  cases r with
  | live =>
    cases r' with
    | live => rw [Ref.Names] at hnames hnames'; rw [hnames, hnames', hb, hname]
    | old =>
      refine absurd ?_ (hm hr hr')
      rw [Ref.Names] at hnames'
      rw [hnames', hb, hname, hg]
  | old =>
    cases r' with
    | live =>
      refine absurd ?_ (hm hr' hr)
      rw [Ref.Names] at hnames
      rw [hnames, hb, hname, hg]
    | old => rw [Ref.Names] at hnames hnames'; rw [hnames, hnames', hb, hname, hg]

/-- Along every run each generation has its blob, of its size and alone; the blobs are counted; and the
counters are not behind.  As long as no import takes the number of a noncurrent generation of its object,
every blob has exactly one generation and no two generations of an object have one number. -/
theorem generations_own_their_blobs (seed : BitVec 64) (steps : List SessionStep) :
    ∃ session, (Session.new seed).run steps = some session ∧
      (∀ r object, session.store.holdings.refs r = some object →
        ∃ bytes, session.store.blobs.get object.blob = some bytes ∧ bytes.length = object.size) ∧
      (∀ r r' object object', session.store.holdings.refs r = some object →
        session.store.holdings.refs r' = some object' → object.blob = object'.blob → r = r') ∧
      session.store.storedBytes = blobBytes session.store.blobs ∧
      (∀ r object, session.store.holdings.refs r = some object →
        object.generation ≤ session.store.nextGeneration) ∧
      (∀ blob bytes, session.store.blobs.get blob = some bytes → blob ≤ session.store.nextBlob) ∧
      ((Session.new seed).clean steps = true →
        (∀ blob bytes, session.store.blobs.get blob = some bytes →
          ∃! r, ∃ object, session.store.holdings.refs r = some object ∧ object.blob = blob) ∧
        ∀ r r' object object', session.store.holdings.refs r = some object →
          session.store.holdings.refs r' = some object' → object.bucket = object'.bucket →
          object.name = object'.name → object.generation = object'.generation → r = r') := by
  obtain ⟨session, hrun, -, ⟨ledger, hfiled⟩, htidy⟩ := (Session.accounted_new seed).run
    (P := fun rest session => (∃ ledger, session.Filed ledger) ∧
      ((Session.new seed).clean steps = true → session.Tidy ∧ session.clean rest = true))
    steps ⟨⟨_, Session.filed_new⟩, fun hclean => ⟨Session.tidy_new, hclean⟩⟩
    fun session session' step rest _ hP hstep hmoves => by
      obtain ⟨⟨ledger, hfiled⟩, htidy⟩ := hP
      obtain ⟨ledger', -, hfiled'⟩ := hfiled.moves hmoves
      refine ⟨⟨ledger', hfiled'⟩, fun hclean => ?_⟩
      obtain ⟨htidy, hrest⟩ := htidy hclean
      rw [Session.clean, hstep, Bool.and_eq_true] at hrest
      exact ⟨htidy.moves hfiled hrest.1 hmoves, hrest.2⟩
  have hsound := hfiled.store.sound
  refine ⟨session, hrun, hsound.owned.held, hsound.owned.alone, hsound.counted,
    fun r object hr => (hsound.drawn r object hr).2, hsound.owned.drawn, fun hclean => ?_⟩
  obtain ⟨⟨htidy, -⟩, -⟩ := htidy hclean
  refine ⟨fun blob bytes hblob => ?_, fun r r' object object' hr hr' =>
    htidy.numbered.eq_of_generation_eq hsound hr hr'⟩
  obtain ⟨r, object, hr, hobject⟩ := htidy.covered blob bytes hblob
  refine ⟨r, ⟨object, hr, hobject⟩, fun r' hr' => ?_⟩
  obtain ⟨object', hr', hobject'⟩ := hr'
  exact hsound.owned.alone r' r object' object hr' hr (hobject'.trans hobject.symm)

/-- The import of an object. -/
def importStep (generation : ℕ) : SessionStep := .command (.insertImported (sampleImport generation) [0])

/-- Its deletion. -/
def deleteStep : SessionStep := .command (.mutate sampleDelete fun _ => .ok ())

/-- The numbers of the generations of a store, live and noncurrent ones. -/
def StorageState.generations (s : StorageState) : List (Str × Str × ℕ) × List (Str × Str × ℕ) :=
  (s.objects.entries.map fun e => (e.2.bucket.1, e.2.name.1, e.2.generation),
    s.noncurrent.entries.map fun e => (e.2.object.bucket.1, e.2.object.name.1, e.2.object.generation))

/-- An object with two noncurrent generations and a live one, and an import under the number of a
noncurrent one that is refused for its size. -/
def versionedHistory : List SessionStep :=
  [.command (.setVersioning sampleBucket true), importStep 1, deleteStep, importStep 2, deleteStep,
    importStep 3, .command (.insertImported { sampleImport 1 with size := some 2 } [0])]

/-- The blobs of its generations are counted, and their numbers differ. -/
theorem generations_own_their_blobs_versioned : (Session.new 0).clean versionedHistory = true ∧
    ∃ session, (Session.new 0).run versionedHistory = some session ∧
      session.store.generations = ([(['b'], ['n'], 3)], [(['b'], ['n'], 1), (['b'], ['n'], 2)]) ∧
      session.store.storedBytes = blobBytes session.store.blobs ∧
      ∃! r, ∃ object, session.store.holdings.refs r = some object ∧ object.blob = 2 := by
  have hclean : (Session.new 0).clean versionedHistory = true := by decide +kernel
  obtain ⟨session, hrun, -, -, hcounted, -, -, htidy⟩ := generations_own_their_blobs 0 versionedHistory
  have hshape : ((Session.new 0).run versionedHistory).map (·.store.generations) =
      some ([(['b'], ['n'], 3)], [(['b'], ['n'], 1), (['b'], ['n'], 2)]) := by decide +kernel
  have hblob : ((Session.new 0).run versionedHistory).map (fun session => (session.store.blobs.get 2).isSome) =
      some true := by decide +kernel
  rw [hrun, Option.map_some, Option.some_inj] at hshape hblob
  obtain ⟨bytes, hbytes⟩ := Option.isSome_iff_exists.1 hblob
  exact ⟨hclean, session, hrun, hshape, hcounted, (htidy hclean).1 2 bytes hbytes⟩

/-- An object becomes noncurrent, and another one is imported under its number. -/
def collidingImport : List SessionStep :=
  [.command (.setVersioning sampleBucket true), importStep 1, deleteStep, importStep 1]

/-- The blobs of the live and of the noncurrent generations, and all blobs. -/
def StorageState.blobNumbers (s : StorageState) : List ℕ × List ℕ × List ℕ :=
  (s.objects.entries.map (·.2.blob), s.noncurrent.entries.map (·.2.object.blob), s.blobs.keys)

/-- The live object then has the number of the noncurrent one, whose blob is left behind when the live one
becomes noncurrent too. -/
theorem import_under_noncurrent_number :
    ((Session.new 0).run collidingImport).map (·.store.generations) =
        some ([(['b'], ['n'], 1)], [(['b'], ['n'], 1)]) ∧
      ((Session.new 0).run (collidingImport ++ [deleteStep])).map (·.store.blobNumbers) =
        some ([], [2], [1, 2]) := by
  constructor <;> decide +kernel

end Fireemu.Storage
