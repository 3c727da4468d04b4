import Fireemu.Firestore.Publication
import Fireemu.Library.Fallible

/-!
# Runs of a store

What a commit and an import do to a coherent store, and the runs of a database: any sequence of
commits, imports, compactions, changes of the time-to-live catalog and visible snapshots.

A store holds one database, so the paths of a run's requests are all of that database.
-/

namespace Fireemu

open Library
open List Library.SortedMap Bool

/-! ### Staging -/

/-- A working copy of a path over a store. -/
structure StagedDocument.Sound (store : Store) (path : DocumentPath) (stage : StagedDocument) :
    Prop where
  before : stage.before = store.newest path
  path_eq : ∀ d, stage.current = some d → d.document.path = path
  unchanged : stage.changed = false → stage.current = stage.before

/-- The stored document of a working copy. -/
def StagedDocument.document (stage : StagedDocument) : Option Document :=
  stage.current.map RetainedDocument.document

section staging

variable {config : Config} {store : Store} {commitTime : LogicalInstant} {nextVersion : CommitVersion}
  {staged staged' : Staged} {write : Write} {result : WriteResult}

theorem stageOf_insert {stage : StagedDocument} {path p : DocumentPath} :
    Staged.stageOf (staged.insert path stage) store p =
      if p = path then stage else staged.stageOf store p := by
  unfold Staged.stageOf
  rw [get_insert]
  split_ifs
  · rfl
  · rfl

/-- What a write that is not a verify leaves, as it is stored. -/
theorem checkedResult_document {current next : Option Document} {reported : WriteResult}
    {retained : Option RetainedDocument}
    (ha : applyWrite write current commitTime nextVersion = .ok (next, reported))
    (h : checkedResult config write next = .ok retained) (hv : write.op.isVerify = false) :
    retained.map RetainedDocument.document = next ∧
      ∀ d, retained = some d → d.document.path = write.op.path := by
  unfold applyWrite at ha
  unfold checkedResult at h
  cases hop : write.op with
  | verify =>
    rw [hop] at hv
    cases hv
  | delete =>
    rw [hop] at ha h
    dsimp only at ha
    split_ifs at ha
    cases ha
    cases h
    exact ⟨rfl, nofun⟩
  | set =>
    rw [hop] at ha h
    obtain ⟨transformed, -, ha⟩ := bind_eq_ok.1 ha
    cases ha
    obtain ⟨bytes, -, h⟩ := bind_eq_ok.1 h
    obtain ⟨_, -, h⟩ := bind_eq_ok.1 h
    cases h
    refine ⟨rfl, fun d hd => ?_⟩
    cases hd
    rfl

/-- A staged write keeps the working copy of its path, or changes its content. -/
theorem stageWrite_ok
    (h : stageWrite config store commitTime nextVersion staged write = .ok (staged', result)) :
    ∃ stage next reported, staged' = staged.insert write.op.path stage ∧
      applyWrite write (staged.stageOf store write.op.path).document commitTime nextVersion =
        .ok (next, reported) ∧ (unchangedBy write (staged.stageOf store write.op.path).document next = true ∧
          stage = staged.stageOf store write.op.path ∨
        unchangedBy write (staged.stageOf store write.op.path).document next = false ∧
          stage.changed = true ∧ stage.before = (staged.stageOf store write.op.path).before ∧
          stage.document = next ∧ ∀ d, stage.current = some d → d.document.path = write.op.path) := by
  unfold stageWrite at h
  obtain ⟨_, -, h⟩ := bind_eq_ok.1 h
  obtain ⟨_, -, h⟩ := bind_eq_ok.1 h
  obtain ⟨⟨next, reported⟩, ha, h⟩ := bind_eq_ok.1 h
  obtain ⟨retained, hret, h⟩ := bind_eq_ok.1 h
  rw [refusing, mapError_eq_ok] at ha hret
  cases h
  refine ⟨_, next, reported, rfl, ha, ?_⟩
  split_ifs with hu
  · exact .inl ⟨hu, rfl⟩
  · rw [not_eq_true] at hu
    obtain ⟨hv, -⟩ := or_eq_false_iff.1 hu
    obtain ⟨hd, hpath⟩ := checkedResult_document ha hret hv
    exact .inr ⟨hu, rfl, rfl, hd, hpath⟩

variable {writes : List Write} {results : List WriteResult}

/-- An induction over staged writes: what one staged write keeps, all of them keep. -/
theorem stageWrites_induction {motive : List Write → Staged → Prop}
    (h : stageWrites config store commitTime nextVersion staged writes = .ok (staged', results))
    (hs : motive writes staged)
    (hstep : ∀ write writes staged staged' result, motive (write :: writes) staged →
      stageWrite config store commitTime nextVersion staged write = .ok (staged', result) →
      motive writes staged') : motive [] staged' := by
  induction writes generalizing staged results with
  | nil =>
    cases h
    exact hs
  | cons write writes ih =>
    obtain ⟨⟨staged₁, result⟩, hf, h⟩ := bind_eq_ok.1 h
    obtain ⟨⟨staged₂, results⟩, hrest, h⟩ := bind_eq_ok.1 h
    cases h
    exact ih hrest (hstep write writes staged _ _ hs hf)

/-- Working copies of paths of a database. -/
def Staged.Sound (database : ProjectId × DatabaseId) (store : Store) (staged : Staged) : Prop :=
  ∀ p stage, staged.get p = some stage → p.InDatabase database ∧ stage.Sound store p

variable {database : ProjectId × DatabaseId} {p : DocumentPath}

theorem Staged.Sound.stageOf (h : staged.Sound database store) (hs : store.Coherent database)
    (p : DocumentPath) : (staged.stageOf store p).Sound store p := by
  unfold Staged.stageOf
  cases hp : staged.get p with
  | none => exact ⟨rfl, fun d hd => hs.path_of_newest hd, fun _ => rfl⟩
  | some stage => exact (h p stage hp).2

theorem sound_of_stageWrites (hstore : store.Coherent database)
    (hw : ∀ write ∈ writes, write.op.path.InDatabase database)
    (h : stageWrites config store commitTime nextVersion SortedMap.empty writes = .ok (staged', results)) :
    staged'.Sound database store := by
  refine (stageWrites_induction (motive := fun writes staged => staged.Sound database store ∧
    ∀ write ∈ writes, write.op.path.InDatabase database) h ⟨nofun, hw⟩ ?_).1
  rintro write writes staged staged' result ⟨hs, hw⟩ hstep
  obtain ⟨hpath, hw⟩ := forall_mem_cons.1 hw
  obtain ⟨stage, _, _, rfl, -, hstage⟩ := stageWrite_ok hstep
  refine ⟨fun p stage' hp => ?_, hw⟩
  rw [get_insert] at hp
  split_ifs at hp with hpp
  · cases hp
    subst hpp
    have hold := hs.stageOf hstore write.op.path
    rcases hstage with ⟨-, rfl⟩ | ⟨-, hc, hb, -, hpathEq⟩
    · exact ⟨hpath, hold⟩
    · exact ⟨hpath, hb.trans hold.before, hpathEq, fun hf => by
        rw [hc] at hf
        cases hf⟩
  · exact hs p stage' hp

/-- Whether a write changes the content of its document. -/
def changesContent (commitTime : LogicalInstant) (nextVersion : CommitVersion)
    (documents : DocumentPath → Option Document) (write : Write) : Bool :=
  match applyWrite write (documents write.op.path) commitTime nextVersion with
  | .error _ => false
  | .ok (next, _) => !unchangedBy write (documents write.op.path) next

/-- The documents after a write. -/
def afterWrite (commitTime : LogicalInstant) (nextVersion : CommitVersion)
    (documents : DocumentPath → Option Document) (write : Write) : DocumentPath → Option Document :=
  match applyWrite write (documents write.op.path) commitTime nextVersion with
  | .error _ => documents
  | .ok (next, _) =>
      if unchangedBy write (documents write.op.path) next then documents
      else Function.update documents write.op.path next

/-- Whether one of the writes changes the content of a document, each applied to what the earlier ones
leave. -/
def touches (commitTime : LogicalInstant) (nextVersion : CommitVersion) (path : DocumentPath) :
    List Write → (DocumentPath → Option Document) → Bool
  | [], _ => false
  | write :: writes, documents =>
      (decide (write.op.path = path) && changesContent commitTime nextVersion documents write) ||
        touches commitTime nextVersion path writes (afterWrite commitTime nextVersion documents write)

theorem documents_stageWrite
    (h : stageWrite config store commitTime nextVersion staged write = .ok (staged', result)) :
    (fun p => (staged'.stageOf store p).document) =
      afterWrite commitTime nextVersion (fun p => (staged.stageOf store p).document) write := by
  obtain ⟨stage, next, reported, rfl, ha, hs⟩ := stageWrite_ok h
  funext p
  simp only [afterWrite, ha, stageOf_insert]
  rcases hs with ⟨hu, rfl⟩ | ⟨hu, -, -, hd, -⟩
  · rw [if_pos hu]
    split_ifs with hp
    · rw [hp]
    · rfl
  · rw [if_neg (eq_false_iff.1 hu), Function.update_apply]
    split_ifs
    · exact hd
    · rfl

/-- A staged write marks its document if it changes the content. -/
theorem changed_stageWrite
    (h : stageWrite config store commitTime nextVersion staged write = .ok (staged', result)) :
    (staged'.stageOf store p).changed = ((staged.stageOf store p).changed ||
      (decide (write.op.path = p) &&
        changesContent commitTime nextVersion (fun p => (staged.stageOf store p).document) write)) := by
  obtain ⟨stage, next, reported, rfl, ha, hs⟩ := stageWrite_ok h
  simp only [changesContent, ha, stageOf_insert]
  by_cases hp : p = write.op.path
  · subst hp
    rcases hs with ⟨hu, rfl⟩ | ⟨hu, hc, -⟩
    · simp [hu]
    · simp [hu, hc]
  · simp [hp, Ne.symm hp]

/-- The documents that are marked are those the writes touch. -/
theorem changed_stageWrites
    (h : stageWrites config store commitTime nextVersion staged writes = .ok (staged', results)) :
    (staged'.stageOf store p).changed = ((staged.stageOf store p).changed ||
      touches commitTime nextVersion p writes fun p => (staged.stageOf store p).document) := by
  induction writes generalizing staged results with
  | nil =>
    cases h
    simp [touches]
  | cons write writes ih =>
    obtain ⟨⟨staged₁, result⟩, hf, h⟩ := bind_eq_ok.1 h
    obtain ⟨⟨staged₂, results⟩, hrest, h⟩ := bind_eq_ok.1 h
    cases h
    rw [ih hrest, changed_stageWrite hf, documents_stageWrite hf, touches, Bool.or_assoc]

/-- Staging applies the writes in order. -/
theorem documents_stageWrites
    (h : stageWrites config store commitTime nextVersion SortedMap.empty writes = .ok (staged', results)) :
    (fun p => (staged'.stageOf store p).document) =
      writes.foldl (afterWrite commitTime nextVersion) store.get := by
  refine stageWrites_induction (motive := fun rest staged => rest.foldl
    (afterWrite commitTime nextVersion) (fun p => (staged.stageOf store p).document) =
      writes.foldl (afterWrite commitTime nextVersion) store.get) h rfl ?_
  intro write rest staged staged' result hm hstep
  rw [documents_stageWrite hstep]
  exact hm

/-- What a write replaces has its time and version. -/
theorem afterWrite_stamps {documents : DocumentPath → Option Document} :
    afterWrite commitTime nextVersion documents write p = documents p ∨
      ∀ d, afterWrite commitTime nextVersion documents write p = some d →
        d.version = nextVersion ∧ d.updateTime = commitTime := by
  unfold afterWrite
  cases ha : applyWrite write (documents write.op.path) commitTime nextVersion with
  | error => exact .inl rfl
  | ok =>
    dsimp only
    split_ifs with hu
    · exact .inl rfl
    rw [Function.update_apply]
    split_ifs
    · refine .inr fun d hd => ?_
      unfold applyWrite at ha
      cases hop : write.op with
      | verify => simp [unchangedBy, hop, WriteOp.isVerify] at hu
      | delete =>
        rw [hop] at ha
        dsimp only at ha
        split_ifs at ha
        cases ha
        cases hd
      | set =>
        rw [hop] at ha
        obtain ⟨transformed, -, ha⟩ := bind_eq_ok.1 ha
        cases ha
        cases hd
        exact ⟨rfl, rfl⟩
    · exact .inl rfl

theorem foldl_afterWrite_stamps (documents : DocumentPath → Option Document) :
    writes.foldl (afterWrite commitTime nextVersion) documents p = documents p ∨
      ∀ d, writes.foldl (afterWrite commitTime nextVersion) documents p = some d →
        d.version = nextVersion ∧ d.updateTime = commitTime := by
  induction writes generalizing documents with
  | nil => exact .inl rfl
  | cons write writes ih =>
    rcases ih (afterWrite commitTime nextVersion documents write) with hsame | hs
    · rw [foldl_cons, hsame]
      exact afterWrite_stamps
    · exact .inr hs

end staging

variable {staged : Staged}

theorem stagedChanges_eq : stagedChanges staged =
    (staged.entries.filter fun e => e.2.changed).map fun e => ⟨e.1, e.2.before, e.2.current⟩ := by
  rw [← filterMap_eq_map, filterMap_filter]
  rfl

theorem stagedChanges_nodup : ((stagedChanges staged).map StagedChange.path).Nodup := by
  rw [stagedChanges_eq, map_map]
  exact (keys_nodup staged).sublist (filter_sublist.map Prod.fst)

/-- The changes are those of the changed working copies. -/
theorem mem_stagedChanges {change : StagedChange} (h : change ∈ stagedChanges staged) :
    ∃ stage, staged.get change.path = some stage ∧
      change.before = stage.before ∧ change.after = stage.current := by
  rw [stagedChanges_eq] at h
  obtain ⟨⟨p, stage⟩, hmem, rfl⟩ := mem_map.1 h
  exact ⟨stage, mem_entries.1 (mem_of_mem_filter hmem), rfl, rfl⟩

/-- A document is published if its working copy is marked. -/
theorem mem_path_stagedChanges {store : Store} {p : DocumentPath} :
    p ∈ (stagedChanges staged).map StagedChange.path ↔ (staged.stageOf store p).changed = true := by
  rw [stagedChanges_eq, map_map, mem_map]
  constructor
  · rintro ⟨e, hmem, rfl⟩
    obtain ⟨hmem, hc⟩ := mem_filter.1 hmem
    have hget : staged.get e.1 = some e.2 := mem_entries.1 hmem
    simpa [Staged.stageOf, hget] using hc
  · intro hc
    cases hget : staged.get p with
    | none => simp [Staged.stageOf, hget] at hc
    | some stage =>
      refine ⟨(p, stage), mem_filter.2 ⟨mem_entries.2 hget, ?_⟩, rfl⟩
      simpa [Staged.stageOf, hget] using hc

namespace Store

variable {database : ProjectId × DatabaseId} {s s' : Store}

theorem Coherent.lt_succ (h : s.Coherent database) {path : DocumentPath} :
    ∀ e ∈ s.versionsOf path, e.1 < s.version + 1 := fun e he => by
  unfold versionsOf at he
  cases hp : s.history.get path with
  | none => simp [hp] at he
  | some versions =>
    rw [hp] at he
    exact Nat.lt_succ_of_le ((h.chain path versions hp).le_version e he)

/-- The changes of sound working copies can be published. -/
theorem Coherent.allPublishable (hs : s.Coherent database) (h : staged.Sound database s) :
    s.AllPublishable database (s.version + 1) (stagedChanges staged) := by
  refine ⟨stagedChanges_nodup, fun change hc => ?_⟩
  obtain ⟨stage, hget, hb, ha⟩ := mem_stagedChanges hc
  obtain ⟨hd, hstage⟩ := h _ _ hget
  exact ⟨hd, hb.trans hstage.before, ha ▸ hstage.path_eq, hs.lt_succ⟩

/-! ### Commits -/

variable {floor : CommitVersion} {n : ℕ}

theorem baseCompactionReclaim_store :
    (s.baseCompactionReclaim floor).2 =
      { s with compactionForecast := (s.baseCompactionReclaim floor).2.compactionForecast } := by
  unfold baseCompactionReclaim
  split_ifs
  · rfl
  · split <;> rfl

theorem projectedHistoryUsage_store (s : Store) (n : ℕ) (staged : List StagedChange)
    (oldest : Option CommitVersion) (now : LogicalInstant) :
    (s.projectedHistoryUsage n staged oldest now).2 = { s with
      compactionForecast := (s.projectedHistoryUsage n staged oldest now).2.compactionForecast } :=
  baseCompactionReclaim_store

/-- What a commit that is accepted has done before it compacts. -/
structure Committed (config : Config) (s : Store) (writes : List Write) (pins : Pins)
    (now : LogicalInstant) (result : CommitResult) (s' : Store) : Prop where
  staged : ∃ working results usage exact,
    stageWrites config s result.commitTime (s.version + 1) SortedMap.empty writes = .ok (working, results) ∧
    result.changes = (stagedChanges working).map StagedChange.toDocumentChange ∧
    s' = (s.commitStaged config.maxVersionsPerPath (stagedChanges working) result.commitTime
      (if writes.isEmpty then pins.firstReadTime else none).isNone usage exact).compact
        pins.oldest now
  commitTime : result.commitTime =
    (if writes.isEmpty then pins.firstReadTime else none).getD (s.nextCommitTime now)
  version : result.version = if result.changes.isEmpty then s.version else s.version + 1

/-- A commit is refused and changes at most a forecast, or it is accepted. -/
theorem commit_cases (config : Config) (s : Store) (writes : List Write) (pins : Pins) (now : LogicalInstant)
    (admission : CommitResult → HistoryProjection → Except FirestoreError Unit) :
    (∃ e forecast, s.commit config writes pins now admission =
      (.error e, { s with compactionForecast := forecast })) ∨
    ∃ result s', s.commit config writes pins now admission = (.ok result, s') ∧
      Committed config s writes pins now result s' := by
  unfold commit
  split
  · exact .inl ⟨_, s.compactionForecast, rfl⟩
  dsimp only
  split
  · exact .inl ⟨_, s.compactionForecast, rfl⟩
  rename_i working results hstage
  have hs := s.projectedHistoryUsage_store config.maxVersionsPerPath (stagedChanges working)
    pins.projectedOldest now
  generalize s.projectedHistoryUsage config.maxVersionsPerPath (stagedChanges working)
    pins.projectedOldest now = projected at hs
  obtain ⟨⟨uncompacted, after, exact⟩, s'⟩ := projected
  dsimp only at hs ⊢
  split
  · exact .inl ⟨_, s'.compactionForecast, by rw [← hs]⟩
  split
  · exact .inl ⟨_, s'.compactionForecast, by rw [← hs]⟩
  refine .inr ⟨_, _, rfl, ⟨working, results, uncompacted, exact, hstage, rfl, ?_⟩, rfl, ?_⟩
  · rw [hs]
    rfl
  · rw [isEmpty_map]

/-- What a commit may do to a store: some documents are replaced in a new version, and the others stay. -/
structure Advanced (s s' : Store) (changes : List DocumentChange) : Prop where
  version : s'.version = if changes.isEmpty then s.version else s.version + 1
  nodup : (changes.map DocumentChange.path).Nodup
  before : ∀ change ∈ changes, change.before = s.get change.path
  after : ∀ change ∈ changes, s'.get change.path = change.after
  frame : ∀ p ∉ changes.map DocumentChange.path, s'.get p = s.get p

variable {changes : List DocumentChange} {s'' : Store} {now commitTime : LogicalInstant} {config : Config}
  {writes : List Write} {pins : Pins} {result : CommitResult} {documents : List ImportedDocument}

theorem Advanced.compactTo (h : Advanced s s' changes) (hcompacted : CompactedTo floor s' s'') :
    Advanced s s'' changes := by
  have hget : ∀ p, s''.get p = s'.get p := fun p => by rw [get, get, hcompacted.newest]
  exact {
    version := hcompacted.version.trans h.version
    nodup := h.nodup
    before := h.before
    after := fun c hc => (hget c.path).trans (h.after c hc)
    frame := fun p hp => (hget p).trans (h.frame p hp) }

theorem toDocumentChange_path {changes : List StagedChange} :
    (changes.map StagedChange.toDocumentChange).map DocumentChange.path = changes.map StagedChange.path := by
  rw [map_map]
  rfl

/-- Publishing replaces the documents of the changes, whatever is recorded beside history. -/
theorem Coherent.advanced_publish {changes : List StagedChange} (h : s.Coherent database)
    (hchanges : s.AllPublishable database (s.version + 1) changes) (hne : ¬ changes.isEmpty = true)
    (hh : s'.history = s.history) (hi : s'.indexes = s.indexes) (hv : s'.version = s.version) :
    (s'.publish n commitTime changes).Coherent database ∧ Advanced s (s'.publish n commitTime changes)
        (changes.map StagedChange.toDocumentChange) := by
  have hversions : ∀ p, s'.versionsOf p = s.versionsOf p := fun p => by
    rw [versionsOf, versionsOf, hh]
  have hn : ∀ p, s'.newest p = s.newest p := fun p => by rw [newest, newest, hversions]
  have hpublishable : s'.AllPublishable database (s'.version + 1) changes := by
    refine ⟨hchanges.nodup, fun c hc => ?_⟩
    obtain ⟨hd, hb, hpath, hlt⟩ := hchanges.each c hc
    exact ⟨hd, hb.trans (hn _).symm, hpath, by rwa [hversions, hv]⟩
  obtain ⟨hcoherent, hnext, hlast, hf⟩ :=
    (h.congr hh hi hv.ge).publish n commitTime hpublishable
  rw [hv] at hnext hlast
  have ho : ∀ p ∉ changes.map StagedChange.path,
      (s'.publish n commitTime changes).versionsOf p = s.versionsOf p := fun p hp => by
    rw [versionsOf, versionsOf, hf p hp, hh]
  refine ⟨hcoherent, ?_, ?_, fun c hc => ?_, fun c hc => ?_, fun p hp => ?_⟩
  · rw [isEmpty_map, if_neg hne, hnext]
  · rw [toDocumentChange_path]
    exact hchanges.nodup
  · obtain ⟨change, hchange, rfl⟩ := mem_map.1 hc
    rw [StagedChange.toDocumentChange, (hchanges.each change hchange).before]
    rfl
  · obtain ⟨change, hchange, rfl⟩ := mem_map.1 hc
    rw [StagedChange.toDocumentChange, get, newest, hlast change hchange]
    rfl
  · rw [toDocumentChange_path] at hp
    rw [get, newest, ho p hp]
    rfl

/-- An accepted commit replaces the documents it reports. -/
theorem Coherent.committed (h : s.Coherent database)
    (hw : ∀ write ∈ writes, write.op.path.InDatabase database)
    (hcom : Committed config s writes pins now result s') :
    s'.Coherent database ∧ Advanced s s' result.changes := by
  obtain ⟨working, results, usage, exact, hstage, hchanges, rfl⟩ := hcom.staged
  rw [hchanges]
  have hp := h.allPublishable (sound_of_stageWrites h hw hstage)
  have hs : ∀ consumes, (s.commitStaged config.maxVersionsPerPath (stagedChanges working)
      result.commitTime consumes usage exact).Coherent database ∧
      Advanced s (s.commitStaged config.maxVersionsPerPath (stagedChanges working)
        result.commitTime consumes usage exact)
        ((stagedChanges working).map StagedChange.toDocumentChange) := fun consumes => by
    unfold commitStaged
    by_cases hempty : (stagedChanges working).isEmpty = true
    · rw [if_pos hempty, isEmpty_iff.1 hempty]
      exact ⟨h.congr rfl rfl le_rfl, rfl, nodup_nil, nofun, nofun, fun _ _ => rfl⟩
    · rw [if_neg hempty]
      exact h.advanced_publish hp hempty rfl rfl rfl
  obtain ⟨hcoherent, ha⟩ := hs _
  obtain ⟨hcompact, hc⟩ := hcoherent.compactTo _
  exact ⟨hcompact, ha.compactTo hc⟩

/-- An accepted commit leaves its working copies as the latest documents. -/
theorem Coherent.get_committed (h : s.Coherent database)
    (hw : ∀ write ∈ writes, write.op.path.InDatabase database)
    (hcom : Committed config s writes pins now result s') :
    s'.get = writes.foldl (afterWrite result.commitTime (s.version + 1)) s.get := by
  obtain ⟨working, results, usage, exact, hstage, hchanges, -⟩ := hcom.staged
  obtain ⟨-, ha⟩ := h.committed hw hcom
  have hsound := sound_of_stageWrites h hw hstage
  rw [← documents_stageWrites hstage]
  funext p
  by_cases hp : p ∈ (stagedChanges working).map StagedChange.path
  · obtain ⟨change, hchange, rfl⟩ := mem_map.1 hp
    obtain ⟨stage, hget, -, hafter⟩ := mem_stagedChanges hchange
    refine (ha.after change.toDocumentChange (hchanges ▸ mem_map_of_mem hchange)).trans ?_
    rw [Staged.stageOf, hget, StagedChange.toDocumentChange, hafter]
    rfl
  · rw [ha.frame p (by rwa [hchanges, toDocumentChange_path]), get]
    have hu : (working.stageOf s p).changed = false := by
      rwa [mem_path_stagedChanges, not_eq_true] at hp
    have hs := hsound.stageOf h p
    rw [StagedDocument.document, hs.unchanged hu, hs.before]

/-! ### Imports -/

/-- Staged documents of an import are under their own paths. -/
theorem stageImport_ok {nextVersion : CommitVersion} {staged : SortedMap DocumentPath RetainedDocument}
    (hd : ∀ d ∈ documents, d.path.InDatabase database)
    (h : stageImport config commitTime nextVersion documents = .ok staged) :
    ∀ p d, staged.get p = some d → p.InDatabase database ∧ d.document.path = p := by
  refine foldlM_rule (fun staged : SortedMap DocumentPath RetainedDocument =>
    ∀ p d, staged.get p = some d → p.InDatabase database ∧ d.document.path = p)
    (fun staged staged' imported hi hs hstep p d hp => ?_) (fun _ _ hp => by cases hp) h
  obtain ⟨bytes, -, hstep⟩ := bind_eq_ok.1 hstep
  obtain ⟨_, -, hstep⟩ := bind_eq_ok.1 hstep
  cases hstep
  rw [get_insert] at hp
  split_ifs at hp with heq
  · cases hp
    rw [heq]
    exact ⟨hd imported hi, rfl⟩
  · exact hs p d hp

/-- The changes an import publishes. -/
def importedChanges (s : Store) (staged : SortedMap DocumentPath RetainedDocument) : List StagedChange :=
  staged.entries.map fun e => ⟨e.1, s.newest e.1, some e.2⟩

theorem install_eq (staged : SortedMap DocumentPath RetainedDocument) : s.install n commitTime staged =
      rebuildHistoryUsage (({ s with
        lastCommitTime := some commitTime, compactionForecast := none } : Store).publish n commitTime
          (s.importedChanges staged)) := by
  unfold install
  dsimp only
  rw [foldl_publishImported (keys_nodup staged)]
  rfl

/-- An import keeps a store coherent. -/
theorem Coherent.importDocuments {oldest : Option CommitVersion} (h : s.Coherent database)
    (hd : ∀ d ∈ documents, d.path.InDatabase database) :
    (s.importDocuments config documents oldest now).2.Coherent database := by
  unfold Store.importDocuments
  dsimp only
  split
  · exact h
  · rename_i staged hstage
    split_ifs with hempty
    · exact h.congr rfl rfl le_rfl
    · have hs := stageImport_ok hd hstage
      have hp : s.AllPublishable database (s.version + 1) (s.importedChanges staged) := by
        refine ⟨?_, fun change hchange => ?_⟩
        · rw [importedChanges, map_map]
          exact keys_nodup staged
        · obtain ⟨⟨p, d⟩, hmem, rfl⟩ := mem_map.1 hchange
          obtain ⟨hdb, hpath⟩ := hs p d (mem_entries.1 hmem)
          refine ⟨hdb, rfl, fun d' hd' => ?_, h.lt_succ⟩
          cases hd'
          exact hpath
      have hi : (s.install config.maxVersionsPerPath (s.nextCommitTime now) staged).Coherent database := by
        have hpublish : (({ s with
            lastCommitTime := some (s.nextCommitTime now), compactionForecast := none } : Store).publish
              config.maxVersionsPerPath (s.nextCommitTime now) (s.importedChanges staged)).Coherent
                database := by
          refine (h.advanced_publish hp ?_ ?_ ?_ ?_).1
          · rwa [importedChanges, isEmpty_map]
          all_goals rfl
        rw [install_eq]
        exact hpublish.congr rfl rfl le_rfl
      exact (hi.compactTo _).1

end Store

/-! ### Runs -/

/-- What a database is asked to do. -/
inductive StoreRequest
  | commit (config : Config) (writes : List Write) (pins : Pins) (now : LogicalInstant)
      (admission : CommitResult → HistoryProjection → Except FirestoreError Unit)
  | importDocuments (config : Config) (documents : List Store.ImportedDocument)
      (oldest : Option CommitVersion) (now : LogicalInstant)
  | compact (oldest : Option CommitVersion) (now : LogicalInstant)
  /-- A selection of expired documents first makes the expiry indexes those of its catalog. -/
  | syncTtlExpiryIndexes (catalog : TtlCatalog)
  /-- A report of the history that can be reclaimed is remembered. -/
  | forecast (floor : CommitVersion)
  | visibleSnapshot

/-- Whether the documents of a request are of a database. -/
def StoreRequest.InDatabase (database : ProjectId × DatabaseId) : StoreRequest → Prop
  | .commit _ writes _ _ _ => ∀ write ∈ writes, write.op.path.InDatabase database
  | .importDocuments _ documents _ _ => ∀ document ∈ documents, document.path.InDatabase database
  | .compact _ _ | .syncTtlExpiryIndexes _ | .forecast _ | .visibleSnapshot => True

/-- A request to a database. -/
abbrev DatabaseRequest (database : ProjectId × DatabaseId) :=
  {request : StoreRequest // request.InDatabase database}

namespace Store

variable {database : ProjectId × DatabaseId} {s s' : Store}

/-- What a request leaves. -/
def step (s : Store) : StoreRequest → Store
  | .commit config writes pins now admission => (s.commit config writes pins now admission).2
  | .importDocuments config documents oldest now =>
      (s.importDocuments config documents oldest now).2
  | .compact oldest now => s.compact oldest now
  | .syncTtlExpiryIndexes catalog => s.syncTtlExpiryIndexes catalog
  | .forecast floor => (s.baseCompactionReclaim floor).2
  | .visibleSnapshot => s.visibleSnapshot

/-- A run of a database. -/
def run (s : Store) (requests : List (DatabaseRequest database)) : Store :=
  requests.foldl (fun s request => s.step request.1) s

/-- A step keeps a store coherent. -/
theorem Coherent.step (h : s.Coherent database) (request : DatabaseRequest database) :
    (s.step request.1).Coherent database := by
  obtain ⟨request, hrequest⟩ := request
  cases request with
  | commit config writes pins now admission =>
    unfold Store.step
    rcases s.commit_cases config writes pins now admission with
      ⟨e, forecast, heq⟩ | ⟨result, s', heq, hcom⟩
    · simp only [heq]
      exact h.congr rfl rfl le_rfl
    · simp only [heq]
      exact (h.committed hrequest hcom).1
  | importDocuments => exact h.importDocuments hrequest
  | compact oldest now => exact (h.compactTo (s.retentionFloor oldest now)).1
  | syncTtlExpiryIndexes catalog =>
    exact ⟨h.chain, h.indexes.syncTtlExpiryIndexes (fun _ => mem_live_iff_get) catalog⟩
  | forecast floor =>
    change (s.baseCompactionReclaim floor).2.Coherent database
    rw [baseCompactionReclaim_store]
    exact h.congr rfl rfl le_rfl
  | visibleSnapshot => exact h.visibleSnapshot

/-- Every store of a run of a database is coherent. -/
theorem Coherent.run (h : s.Coherent database) (requests : List (DatabaseRequest database)) :
    (s.run requests).Coherent database := by
  induction requests generalizing s with
  | nil => exact h
  | cons request requests ih => exact ih (h.step request)

/-- The scope indexes project history, after any run of a database. -/
theorem run_indexes_exact (requests : List (DatabaseRequest database)) :
    ((empty.run requests).indexes).Exact database (empty.run requests).retained
      (empty.run requests).live (empty.run requests).get :=
  ((coherent_empty database).run requests).indexes

/-- The retention floor stays at or below a snapshot in use, unless the capacity floor passed it. -/
theorem retentionFloor_le {oldest r : CommitVersion} (h : oldest ≤ r) (hcapacity : s.capacityFloor ≤ r)
    {now : LogicalInstant} : s.retentionFloor (some oldest) now ≤ r :=
  (min_le_left _ _).trans (max_le ((min_le_right _ _).trans h) hcapacity)

/-- What a commit reports is what its writes touch. -/
theorem mem_changes_iff (hcom : Committed config s writes pins now result s') {p : DocumentPath} :
    p ∈ result.changes.map DocumentChange.path ↔
      touches result.commitTime (s.version + 1) p writes s.get = true := by
  obtain ⟨working, results, usage, exact, hstage, hchanges, -⟩ := hcom.staged
  have htouched : (working.stageOf s p).changed =
      touches result.commitTime (s.version + 1) p writes s.get := changed_stageWrites hstage
  rw [← htouched, hchanges, toDocumentChange_path, mem_path_stagedChanges]

/-- A commit reports each document that changes once, with what it was and what it becomes; and
everything it reports has changed exactly if each document has changed in the end or was never touched
by a write. -/
theorem commit_reports_changes (requests : List (DatabaseRequest database)) (config : Config)
    (writes : List Write) (pins : Pins) (now : LogicalInstant)
    (admission : CommitResult → HistoryProjection → Except FirestoreError Unit)
    (hwrites : ∀ write ∈ writes, write.op.path.InDatabase database) (result : CommitResult)
    (haccepted : ((empty.run requests).commit config writes pins now admission).1 = .ok result) :
    let s : Store := empty.run requests
    let s' := (s.commit config writes pins now admission).2
    (∀ change ∈ result.changes, change.before = s.get change.path ∧ change.after = s'.get change.path) ∧
    (∀ p, s'.get p ≠ s.get p → (result.changes.map DocumentChange.path).count p = 1) ∧
    (result.changes.map DocumentChange.path).Nodup ∧
    ((∀ change ∈ result.changes, sameContent change.before change.after = false) ↔
      ∀ p, sameContent (s.get p)
          (writes.foldl (afterWrite (s.nextCommitTime now) (s.version + 1)) s.get p) = false ∨
        touches (s.nextCommitTime now) (s.version + 1) p writes s.get = false) := by
  have hcoherent := (coherent_empty database).run requests
  generalize empty.run requests = s at haccepted hcoherent
  rcases s.commit_cases config writes pins now admission with
    ⟨e, forecast, heq⟩ | ⟨result', s', heq, hcommit⟩
  · rw [heq] at haccepted
    cases haccepted
  rw [heq] at haccepted
  cases haccepted
  obtain ⟨-, hadvanced⟩ := hcoherent.committed hwrites hcommit
  dsimp only
  rw [heq]
  refine ⟨fun c hc => ⟨hadvanced.before c hc, (hadvanced.after c hc).symm⟩, fun p hp => ?_,
    hadvanced.nodup, ?_⟩
  · refine count_eq_one_of_mem hadvanced.nodup ?_
    by_contra hnot
    exact hp (hadvanced.frame p hnot)
  cases writes with
  | nil =>
    have hnone : result.changes = [] := by
      refine eq_nil_iff_forall_not_mem.2 fun c hc => ?_
      simpa [touches] using (mem_changes_iff hcommit).1 (mem_map_of_mem hc)
    simp [hnone, touches]
  | cons write writes =>
    have htime : result.commitTime = s.nextCommitTime now := hcommit.commitTime
    rw [← htime, ← hcoherent.get_committed hwrites hcommit]
    constructor
    · intro hall p
      by_cases hp : p ∈ result.changes.map DocumentChange.path
      · obtain ⟨c, hc, rfl⟩ := mem_map.1 hp
        rw [← hadvanced.before c hc, hadvanced.after c hc]
        exact .inl (hall c hc)
      · rw [mem_changes_iff hcommit, not_eq_true] at hp
        exact .inr hp
    · intro hall c hc
      rw [hadvanced.before c hc, ← hadvanced.after c hc]
      have htouched := (mem_changes_iff hcommit).1 (mem_map_of_mem hc)
      exact (hall c.path).resolve_right (by simp [htouched])

/-- The document `c/d` of the default database of a project. -/
def firstDocument : DocumentPath where
  project := ⟨"demo".toList, by decide⟩
  database := ⟨"(default)".toList, by decide⟩
  pairs := [(⟨"c".toList, by decide⟩, ⟨"d".toList, by decide⟩)]
  ne_nil := cons_ne_nil _ _
  depth_le := by decide
  nameBytes_le := by decide

/-- A database without indexes and with room for history. -/
def plainConfig : Config where
  limitScope := .production
  writeRoute := .commit
  indexCatalog := ⟨fun _ _ _ => .ok (), fun _ _ _ => .ok ()⟩
  maxVersionsPerPath := 1000
  maxVersionsPerPath_pos := by decide
  historyLimits := ⟨1000000, 1000000⟩

/-- The requests of no run. -/
def noRequests : List (DatabaseRequest (firstDocument.project, firstDocument.database)) := []

/-- A document that is written twice. -/
def twoSets : List Write :=
  [⟨.set firstDocument [("a".toList, .boolean true)] none, none, []⟩,
    ⟨.set firstDocument [("a".toList, .boolean false)] none, none, []⟩]

/-- A commit that writes a document twice reports it once, and it has changed. -/
theorem commit_reports_changes_twice : ∃ result,
    ((empty.run noRequests).commit plainConfig twoSets ⟨none, none, none⟩ 0 fun _ _ => .ok ()).1 =
      .ok result ∧ result.changes.map DocumentChange.path = [firstDocument] ∧
    ∀ change ∈ result.changes, sameContent change.before change.after = false := by
  have hpaths : ((empty.run noRequests).commit plainConfig twoSets ⟨none, none, none⟩ 0
      fun _ _ => .ok ()).1.toOption.map (fun result => result.changes.map DocumentChange.path) =
        some [firstDocument] := by decide
  cases hcommit : ((empty.run noRequests).commit plainConfig twoSets ⟨none, none, none⟩ 0
      fun _ _ => .ok ()).1 with
  | error e =>
    rw [hcommit] at hpaths
    cases hpaths
  | ok result =>
    rw [hcommit] at hpaths
    refine ⟨result, rfl, Option.some_inj.1 hpaths, ?_⟩
    refine (commit_reports_changes noRequests plainConfig twoSets ⟨none, none, none⟩ 0
      (fun _ _ => .ok ()) (fun write hwrite => ?_) result hcommit).2.2.2.2 fun p => ?_
    · obtain rfl | rfl := mem_pair.1 hwrite <;> exact ⟨rfl, rfl⟩
    · by_cases hp : p = firstDocument
      · subst hp
        exact .inl (by decide)
      · exact .inr (by simp [touches, twoSets, WriteOp.path, Ne.symm hp])

/-- A document that is created and deleted by one commit is reported, although it was not there
before and is not there afterwards. -/
theorem commit_reports_created_then_deleted :
    ((empty.run noRequests).commit plainConfig
      [⟨.set firstDocument [] none, none, []⟩, ⟨.delete firstDocument, none, []⟩]
      ⟨none, none, none⟩ 0 fun _ _ => .ok ()).1.toOption.map
        (fun result => result.changes.map fun change =>
          (change.path, sameContent change.before change.after)) = some [(firstDocument, true)] := by decide

end Store

end Fireemu
