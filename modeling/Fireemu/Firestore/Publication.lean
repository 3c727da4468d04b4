import Fireemu.Firestore.Commit
import Fireemu.Firestore.IndexExact

/-!
# Publication and compaction

What publishing a version, dropping old versions and taking the visible snapshot do to history, and
that each of them keeps a store coherent: every retained path has a chain of versions in ascending
order, and the scope indexes are exact for the retained paths, the live paths and the latest
documents.
-/

namespace Fireemu

open Library
open List Library.SortedMap Library.SortedSet Function

/-! ### Coherence -/

/-- The retained versions of a path. -/
structure Chain (path : DocumentPath) (version : CommitVersion) (versions : Versions) : Prop where
  ne_nil : versions ≠ []
  ascending : VersionChain.Ascending versions
  le_version : ∀ e ∈ versions, e.1 ≤ version
  path_eq : ∀ e ∈ versions, ∀ d, e.2 = some d → d.document.path = path

theorem Chain.drop {path : DocumentPath} {version : CommitVersion} {versions : Versions} {n : ℕ}
    (h : Chain path version versions) (hne : versions.drop n ≠ []) :
    Chain path version (versions.drop n) where
  ne_nil := hne
  ascending := h.ascending.drop _
  le_version e he := h.le_version e (mem_of_mem_drop he)
  path_eq e he := h.path_eq e (mem_of_mem_drop he)

namespace Store

variable {database : ProjectId × DatabaseId} {s s' : Store} {path : DocumentPath}

/-- The paths with a retained version. -/
def retained (s : Store) : SortedSet DocumentPath := s.history.mapValues fun _ _ => ()

/-- The paths whose newest version is a document. -/
def live (s : Store) : SortedSet DocumentPath :=
  SortedMap.mapValues
    (s.history.filter fun _ versions => (versions.getLast?.bind Prod.snd).isSome)
    fun _ _ => ()

theorem mem_retained : path ∈ s.retained ↔ (s.history.get path).isSome := by
  rw [SortedSet.mem_def, retained, SortedMap.get_mapValues]
  cases s.history.get path <;> simp

theorem mem_live : path ∈ s.live ↔ (s.newest path).isSome := by
  rw [SortedSet.mem_def, live, SortedMap.get_mapValues, SortedMap.get_filter, newest, versionsOf]
  cases s.history.get path with
  | none => simp
  | some versions => by_cases h : (versions.getLast?.bind Prod.snd).isSome <;> simp [h]

theorem mem_live_iff_get : path ∈ s.live ↔ (s.get path).isSome := by
  rw [mem_live, get, Option.isSome_map]

/-- Sound history with exact indexes. -/
structure Coherent (database : ProjectId × DatabaseId) (s : Store) : Prop where
  chain : ∀ p versions, s.history.get p = some versions → Chain p s.version versions
  indexes : s.indexes.Exact database s.retained s.live s.get

theorem coherent_empty (database : ProjectId × DatabaseId) : Coherent database empty where
  chain _ _ h := by cases h
  indexes := ScopeIndexes.Exact.empty database _

/-- Coherence is about the history, its version and the indexes. -/
theorem Coherent.congr (h : s.Coherent database) (hh : s'.history = s.history) (hi : s'.indexes = s.indexes)
    (hv : s.version ≤ s'.version) : s'.Coherent database := by
  have hget : s'.get = s.get := by
    funext p
    rw [get, get, newest, newest, versionsOf, versionsOf, hh]
  refine ⟨fun p versions hp => ?_, ?_⟩
  · rw [hh] at hp
    obtain ⟨hne, hasc, hle, hpath⟩ := h.chain p versions hp
    exact ⟨hne, hasc, fun e he => (hle e he).trans hv, hpath⟩
  · rw [hi, hget, retained, live, hh]
    exact h.indexes

/-- At the latest version a read gives the latest document. -/
theorem Coherent.getAt_version (h : s.Coherent database) : s.getAt path s.version = s.get path := by
  have hle : ∀ e ∈ s.versionsOf path, e.1 ≤ s.version := fun e he => by
    unfold versionsOf at he
    cases hp : s.history.get path with
    | none => simp [hp] at he
    | some versions =>
      rw [hp] at he
      exact (h.chain path versions hp).le_version e he
  rw [getAt, VersionChain.lookup_eq_getLast? hle]
  rfl

variable {floor version : CommitVersion} {d : Document} {n : ℕ} {changes : List StagedChange}

/-- A path with a document at some version is retained. -/
theorem mem_retained_of_getAt (h : s.getAt path version = some d) : path ∈ s.retained := by
  rw [mem_retained]
  unfold getAt versionsOf at h
  cases hp : s.history.get path with
  | none => simp [hp] at h
  | some => rfl

/-- A document is kept under its own path. -/
theorem Coherent.path_of_getAt (h : s.Coherent database) (hd : s.getAt path version = some d) :
    d.path = path := by
  obtain ⟨r, hr, rfl⟩ := Option.map_eq_some_iff.1 hd
  obtain ⟨e, he, hr⟩ := Option.bind_eq_some_iff.1 hr
  have hmem := (VersionChain.mem_of_lookup he).1
  unfold versionsOf at hmem
  cases hp : s.history.get path with
  | none => simp [hp] at hmem
  | some versions =>
    rw [hp] at hmem
    exact (h.chain path versions hp).path_eq e hmem r hr

/-- The newest document of a path is kept under the path. -/
theorem Coherent.path_of_newest (h : s.Coherent database) {d : RetainedDocument}
    (hd : s.newest path = some d) : d.document.path = path := by
  have hget : s.getAt path s.version = some d.document := by
    rw [h.getAt_version, get, hd]
    rfl
  exact h.path_of_getAt hget

/-! ### Publication -/

theorem recordCapacityPressure_eq :
    s.recordCapacityPressure n path =
      { s with capacityFloor := (s.recordCapacityPressure n path).capacityFloor } := by
  unfold recordCapacityPressure
  split
  · rfl
  · split_ifs
    · rfl
    · split <;> rfl

@[simp] theorem recordCapacityPressure_history {s : Store} {n : ℕ} {path : DocumentPath} :
    (s.recordCapacityPressure n path).history = s.history := by rw [recordCapacityPressure_eq]

@[simp] theorem recordCapacityPressure_indexes {s : Store} {n : ℕ} {path : DocumentPath} :
    (s.recordCapacityPressure n path).indexes = s.indexes := by rw [recordCapacityPressure_eq]

@[simp] theorem recordCapacityPressure_version {s : Store} {n : ℕ} {path : DocumentPath} :
    (s.recordCapacityPressure n path).version = s.version := by rw [recordCapacityPressure_eq]

/-- A change that can be published at a version. -/
structure Publishable (database : ProjectId × DatabaseId) (nextVersion : CommitVersion) (s : Store)
    (change : StagedChange) : Prop where
  inDatabase : change.path.InDatabase database
  before : change.before = s.newest change.path
  path_eq : ∀ d, change.after = some d → d.document.path = change.path
  lt_version : ∀ e ∈ s.versionsOf change.path, e.1 < nextVersion

section publishChange

variable {change : StagedChange} {n : ℕ} {nextVersion : CommitVersion}

@[simp] theorem publishChange_version : (publishChange n nextVersion s change).version = s.version := by
  simp [publishChange, refreshReclaimThreshold]

@[simp] theorem publishChange_history : (publishChange n nextVersion s change).history =
    s.history.insert change.path
      (s.versionsOf change.path ++ [(nextVersion, change.after)]) := by
  simp [publishChange, refreshReclaimThreshold]

variable {p : DocumentPath}

/-- The newest version of the changed path is the one published. -/
theorem versionsOf_publishChange :
    (publishChange n nextVersion s change).versionsOf p =
      if p = change.path then s.versionsOf change.path ++ [(nextVersion, change.after)]
      else s.versionsOf p := by
  rw [versionsOf, publishChange_history, get_insert]
  split_ifs
  · rfl
  · rfl

/-- The newest document of the changed path is the one published. -/
theorem newest_publishChange :
    (publishChange n nextVersion s change).newest p =
      if p = change.path then change.after else s.newest p := by
  rw [newest, versionsOf_publishChange]
  split_ifs
  · simp
  · rfl

theorem get_publishChange : (publishChange n nextVersion s change).get =
    Function.update s.get change.path (change.after.map RetainedDocument.document) := by
  funext p
  rw [get, newest_publishChange, update_apply]
  split_ifs with h
  · rfl
  · rfl

theorem retained_publishChange :
    (publishChange n nextVersion s change).retained = s.retained.add change.path := by
  refine ext_mem fun p => ?_
  rw [mem_retained, publishChange_history, get_insert, mem_add, mem_retained]
  split_ifs with h
  · simp [h]
  · simp [h]

theorem publishChange_indexes : (publishChange n nextVersion s change).indexes =
    (s.indexChange change).updateTtlExpiryPath change.path
      (change.after.map RetainedDocument.document) true := by
  have hget : change.after.map RetainedDocument.document =
      (publishChange n nextVersion s change).get change.path := by
    rw [get_publishChange, update_self]
  rw [hget]
  simp [publishChange, refreshReclaimThreshold, get, newest, versionsOf]

/-- The indexes follow a published change. -/
theorem exact_publishChange (h : s.Coherent database) (hc : Publishable database nextVersion s change) :
    (publishChange n nextVersion s change).indexes.Exact database
      (publishChange n nextVersion s change).retained (publishChange n nextVersion s change).live
      (publishChange n nextVersion s change).get := by
  have hbef : change.before.isSome ↔ change.path ∈ s.live := by rw [hc.before, mem_live]
  have hret : (if s.history.contains change.path then s.indexes
      else s.indexes.insertScopePath change.path).Exact database (s.retained.add change.path)
        s.live s.get := by
    by_cases hold : change.path ∈ s.retained
    · have hadd : s.retained.add change.path = s.retained := ext_mem fun p =>
        mem_add.trans (or_iff_right_of_imp fun heq => heq ▸ hold)
      rw [SortedMap.contains, if_pos (mem_retained.1 hold), hadd]
      exact h.indexes
    · rw [SortedMap.contains, if_neg fun hget => hold (mem_retained.2 hget)]
      exact h.indexes.insertScopePath hc.inDatabase hold
  have hpath : change.path ∈ s.retained.add change.path := mem_add.2 (.inl rfl)
  -- the path becomes live, stops being live, or stays what it was
  have hlive : ∀ ix : ScopeIndexes, ix.Exact database (s.retained.add change.path) s.live s.get →
      (if change.before.isNone && change.after.isSome then ix.insertLiveScopePath change.path
        else if change.before.isSome && change.after.isNone then ix.removeLiveScopePath change.path
        else ix).Exact database (s.retained.add change.path)
          (publishChange n nextVersion s change).live s.get := fun ix hix => by
    have hmem : ∀ p, p ∈ (publishChange n nextVersion s change).live ↔
        if p = change.path then change.after.isSome = true else p ∈ s.live := fun p => by
      rw [mem_live, newest_publishChange]
      split_ifs
      · rfl
      · rw [mem_live]
    split_ifs with hup hdown
    · simp only [Bool.and_eq_true, Option.isNone_iff_eq_none] at hup
      have hnew : change.path ∉ s.live := by simp [← hbef, hup.1]
      have heq : (publishChange n nextVersion s change).live = s.live.add change.path :=
        ext_mem fun p => by
          rw [hmem, mem_add]
          split_ifs with hp
          · simp [hp, hup.2]
          · simp [hp]
      rw [heq]
      exact hix.insertLiveScopePath hpath hnew
    · simp only [Bool.and_eq_true, Option.isNone_iff_eq_none] at hdown
      have heq : (publishChange n nextVersion s change).live = s.live.erase change.path := ext_mem fun p => by
        rw [hmem, mem_erase]
        split_ifs with hp
        · simp [hp, hdown.2]
        · simp [hp]
      rw [heq]
      exact hix.removeLiveScopePath (hbef.1 hdown.1)
    · have heq : (publishChange n nextVersion s change).live = s.live :=
        ext_mem fun p => by
          rw [hmem]
          split_ifs with hp
          · rw [hp, ← hbef]
            cases hb : change.before <;> cases ha : change.after <;> simp_all
          · rfl
      rw [heq]
      exact hix
  have httl := ((hlive _ hret).removeTtl change.path).insertTtl (update_self ..)
    (change.after.map RetainedDocument.document)
  rw [update_idem] at httl
  rw [publishChange_indexes, retained_publishChange, get_publishChange]
  exact httl

/-- A published change keeps the store coherent. -/
theorem Coherent.publishChange (h : s.Coherent database) (hv : s.version = nextVersion)
    (hc : Publishable database nextVersion s change) :
    (publishChange n nextVersion s change).Coherent database := by
  refine ⟨fun p versions hp => ?_, exact_publishChange h hc⟩
  rw [publishChange_history, get_insert] at hp
  rw [publishChange_version]
  split_ifs at hp with hpath
  · cases hp
    subst hpath
    have hold : ∀ e ∈ s.versionsOf change.path,
        ∀ d, e.2 = some d → d.document.path = change.path := fun e he => by
      unfold versionsOf at he
      cases hget : s.history.get change.path with
      | none => simp [hget] at he
      | some =>
        rw [hget] at he
        exact (h.chain _ _ hget).path_eq e he
    have hasc : VersionChain.Ascending (s.versionsOf change.path) := by
      unfold versionsOf
      cases hget : s.history.get change.path with
      | none => exact .nil
      | some => exact (h.chain _ _ hget).ascending
    refine ⟨by simp, hasc.append_singleton hc.lt_version, fun e he => ?_, fun e he => ?_⟩
    · rcases mem_append.1 he with he | he
      · exact (hc.lt_version e he).le.trans hv.ge
      · rw [mem_singleton.1 he]
        exact hv.ge
    · rcases mem_append.1 he with he | he
      · exact hold e he
      · rw [mem_singleton.1 he]
        exact hc.path_eq
  · exact h.chain p versions hp

end publishChange

/-! ### Whole publications -/

/-- Changes that can be published one after another at a version. -/
structure AllPublishable (database : ProjectId × DatabaseId) (nextVersion : CommitVersion)
    (s : Store) (changes : List StagedChange) : Prop where
  nodup : (changes.map StagedChange.path).Nodup
  each : ∀ change ∈ changes, Publishable database nextVersion s change

/-- Published changes keep the store coherent, push their documents and leave the other paths. -/
theorem Coherent.foldl_publishChange (h : s.Coherent database)
    (hchanges : AllPublishable database s.version s changes) :
    (changes.foldl (Store.publishChange n s.version) s).Coherent database ∧
      (changes.foldl (Store.publishChange n s.version) s).version = s.version ∧ (∀ change ∈ changes,
        ((changes.foldl (Store.publishChange n s.version) s).versionsOf change.path).getLast? =
          some (s.version, change.after)) ∧ ∀ p ∉ changes.map StagedChange.path, SortedMap.get
        (changes.foldl (Store.publishChange n s.version) s).history p = s.history.get p := by
  induction changes generalizing s with
  | nil => exact ⟨h, rfl, nofun, fun _ _ => rfl⟩
  | cons change changes ih =>
    obtain ⟨hnot, hn⟩ := nodup_cons.1 hchanges.nodup
    have hfirst := hchanges.each change mem_cons_self
    have ho : ∀ p ≠ change.path, (s.publishChange n s.version change).history.get p =
        s.history.get p := fun p hp => by
      rw [publishChange_history, get_insert_of_ne _ _ hp]
    have hstep := h.publishChange (n := n) rfl hfirst
    have hrest : AllPublishable database (s.publishChange n s.version change).version
        (s.publishChange n s.version change) changes := by
      refine ⟨hn, fun c hc => ?_⟩
      have hne : c.path ≠ change.path := fun heq => hnot (heq ▸ mem_map_of_mem hc)
      obtain ⟨hdb, hb, hpath, hlt⟩ := hchanges.each c (mem_cons_of_mem _ hc)
      refine ⟨hdb, ?_, hpath, ?_⟩
      · rw [newest_publishChange, if_neg hne, hb]
      · rw [publishChange_version, versionsOf, ho c.path hne]
        exact hlt
    obtain ⟨hcoherent, hv, hlast, hf⟩ := ih hstep hrest
    rw [publishChange_version] at hcoherent hv hlast hf
    rw [foldl_cons]
    refine ⟨hcoherent, hv, fun c hc => ?_, fun p hp => ?_⟩
    · rcases mem_cons.1 hc with rfl | hc
      · rw [versionsOf, hf c.path hnot]
        change ((s.publishChange n s.version c).versionsOf c.path).getLast? = _
        rw [versionsOf_publishChange, if_pos rfl, getLast?_concat]
      · exact hlast c hc
    · rw [map_cons, mem_cons, not_or] at hp
      rw [hf p hp.2, ho p hp.1]

/-- Staged changes become the latest documents of one more version. -/
theorem Coherent.publish (n : ℕ) (commitTime : LogicalInstant) (h : s.Coherent database)
    (hchanges : AllPublishable database (s.version + 1) s changes) :
    (s.publish n commitTime changes).Coherent database ∧
      (s.publish n commitTime changes).version = s.version + 1 ∧
      (∀ change ∈ changes, ((s.publish n commitTime changes).versionsOf change.path).getLast? =
        some (s.version + 1, change.after)) ∧
      ∀ p ∉ changes.map StagedChange.path, (s.publish n commitTime changes).history.get p = s.history.get p :=
  Coherent.foldl_publishChange (s := { s with
    version := s.version + 1, commitTimes := s.commitTimes ++ [(s.version + 1, commitTime)] })
    (h.congr rfl rfl (Nat.le_succ _)) ⟨hchanges.nodup, fun c hc =>
      ⟨(hchanges.each c hc).inDatabase, (hchanges.each c hc).before, (hchanges.each c hc).path_eq,
        (hchanges.each c hc).lt_version⟩⟩

/-- Importing documents is publishing them over what is there. -/
theorem foldl_publishImported {nextVersion : CommitVersion} {entries : List (DocumentPath × RetainedDocument)}
    (hn : (entries.map Prod.fst).Nodup) :
    entries.foldl (publishImported n nextVersion) s =
      (entries.map fun e => (⟨e.1, s.newest e.1, some e.2⟩ : StagedChange)).foldl
        (publishChange n nextVersion) s := by
  induction entries generalizing s with
  | nil => rfl
  | cons e entries ih =>
    obtain ⟨hnot, hn⟩ := nodup_cons.1 hn
    rw [foldl_cons, ih hn, map_cons, foldl_cons]
    congr 1
    refine map_congr_left fun e' he' => ?_
    have hne : e'.1 ≠ e.1 := fun heq => hnot (heq ▸ mem_map_of_mem he')
    rw [publishImported, newest_publishChange, if_neg hne]

/-! ### Compaction -/

/-- What a compaction has done so far: nothing a read at or after the floor can tell. -/
structure Compaction.Sound (floor : CommitVersion) (s : Store) (acc : Compaction) : Prop where
  store_eq : acc.store = { s with history := acc.store.history, reclaim := acc.store.reclaim }
  chain : ∀ p versions, acc.store.history.get p = some versions → Chain p s.version versions
  newest : ∀ p, acc.store.newest p = s.newest p
  getAt : ∀ p v, floor ≤ v → acc.store.getAt p v = s.getAt p v
  retained : ∀ p, p ∈ s.retained ↔ p ∈ acc.store.retained ∨ p ∈ acc.removedPaths
  nodup : acc.removedPaths.Nodup
  removed : ∀ p ∈ acc.removedPaths, p ∉ acc.store.retained

/-- Of an emptied path nothing can be read at or after the floor. -/
theorem lookup_of_emptied {remaining : Versions} (h : emptied remaining floor = true) (v : CommitVersion) :
    (VersionChain.lookup remaining v).bind Prod.snd = none ∧ remaining.getLast?.bind Prod.snd = none := by
  match remaining, h with
  | [], _ => exact ⟨rfl, rfl⟩
  | [(w, none)], _ =>
    refine ⟨?_, rfl⟩
    rw [VersionChain.lookup]
    by_cases hw : w ≤ v <;> simp [hw]

/-- Replacing the versions of one path by some that read the same, or by none. -/
theorem Compaction.Sound.replace {acc acc' : Compaction} (h : acc.Sound floor s) {versions : Versions}
    (kept : Option Versions) (hget : acc.store.history.get path = some versions)
    (hs : acc'.store = { acc.store with history := acc'.store.history, reclaim := acc'.store.reclaim })
    (hself : acc'.store.history.get path = kept)
    (ho : ∀ p ≠ path, acc'.store.history.get p = acc.store.history.get p)
    (hremoved : acc'.removedPaths = if kept.isNone then acc.removedPaths ++ [path] else acc.removedPaths)
    (hc : ∀ l, kept = some l → Chain path s.version l)
    (hn : (kept.getD []).getLast?.bind Prod.snd = versions.getLast?.bind Prod.snd)
    (hread : ∀ v, floor ≤ v → (VersionChain.lookup (kept.getD []) v).bind Prod.snd =
      (VersionChain.lookup versions v).bind Prod.snd) : acc'.Sound floor s := by
  have hh : ∀ p, acc'.store.history.get p = if p = path then kept else acc.store.history.get p := fun p => by
    split_ifs with hp
    · rw [hp, hself]
    · exact ho p hp
  have hret : ∀ p, p ∈ acc'.store.retained ↔
      if p = path then kept.isSome = true else p ∈ acc.store.retained := fun p => by
    rw [mem_retained, hh]
    split_ifs
    · rfl
    · rw [mem_retained]
  have hpath : path ∈ acc.store.retained := mem_retained.2 (by rw [hget]; rfl)
  have hnot : path ∉ acc.removedPaths := fun hmem => h.removed path hmem hpath
  refine ⟨?_, fun p l hl => ?_, fun p => ?_, fun p v hv => ?_, fun p => ?_, ?_, fun p hp => ?_⟩
  · rw [hs, h.store_eq]
  · rw [hh] at hl
    split_ifs at hl with hp
    · rw [hp]
      exact hc l hl
    · exact h.chain p l hl
  · rw [← h.newest]
    simp only [Store.newest, versionsOf, hh]
    split_ifs with hp
    · rw [hp, hget]
      exact hn
    · rfl
  · rw [← h.getAt p v hv]
    simp only [Store.getAt, versionsOf, hh]
    split_ifs with hp
    · rw [hp, hget, hread v hv]
      rfl
    · rfl
  · rw [h.retained, hret, hremoved]
    cases kept with
    | none => by_cases hp : p = path <;> simp [hp, hpath]
    | some => by_cases hp : p = path <;> simp [hp, hpath]
  · rw [hremoved]
    split_ifs
    · exact List.Nodup.append h.nodup (nodup_singleton path) (by simpa using hnot)
    · exact h.nodup
  · rw [hremoved] at hp
    rw [hret]
    cases kept with
    | none =>
      simp only [Option.isNone_none, if_true, mem_append, mem_singleton] at hp
      split_ifs with heq
      · simp
      · exact h.removed p (hp.resolve_right heq)
    | some =>
      simp only [Option.isNone_some, Bool.false_eq_true, if_false] at hp
      have hne : p ≠ path := fun heq => hnot (heq ▸ hp)
      rw [if_neg hne]
      exact h.removed p hp

/-- One more path is compacted. -/
theorem Compaction.Sound.compactPath {floor : CommitVersion} {acc : Compaction}
    (h : acc.Sound floor s) (prefixAccounting : Bool) (path : DocumentPath) :
    (compactPath prefixAccounting floor acc path).Sound floor s := by
  -- repairing a threshold changes nothing else
  have hsame : ({ acc with store := acc.store.refreshReclaimThreshold path } :
      Compaction).Sound floor s := by
    refine ⟨?_, h.chain, h.newest, h.getAt, h.retained, h.nodup, h.removed⟩
    rw [refreshReclaimThreshold, h.store_eq]
  unfold Store.compactPath
  cases hget : acc.store.history.get path with
  | none =>
    simp only [hget]
    exact hsame
  | some versions =>
    simp only [hget]
    have hc := h.chain path versions hget
    have hlast := VersionChain.getLast?_drop_cut hc.ascending floor
    have hread := fun v (hv : floor ≤ v) => VersionChain.lookup_drop_cut hc.ascending hv
    by_cases hskip : (prefixAccounting && VersionChain.cut versions floor == 0 &&
        !emptied (versions.drop (VersionChain.cut versions floor)) floor) = true
    · rw [if_pos hskip]
      exact hsame
    · rw [if_neg hskip]
      by_cases hgone : emptied (versions.drop (VersionChain.cut versions floor)) floor = true
      · simp only [hgone, if_true]
        refine h.replace none hget rfl (get_erase_self _ _)
          (fun p hp => get_erase_of_ne _ hp) rfl nofun ?_ fun v hv => ?_
        · rw [← hlast, (lookup_of_emptied hgone floor).2]
          rfl
        · rw [← hread v hv, (lookup_of_emptied hgone v).1]
          rfl
      · simp only [hgone, Bool.false_eq_true, if_false]
        refine h.replace (some (versions.drop (VersionChain.cut versions floor))) hget rfl
          (get_insert_self _ _ _) (fun p hp => get_insert_of_ne _ _ hp) rfl
          (fun l hl => ?_) ?_ fun v hv => ?_
        · cases hl
          exact hc.drop fun hnil => hgone (by simp [emptied, hnil])
        · rw [Option.getD_some, hlast]
        · rw [Option.getD_some, hread v hv]

/-- A whole compaction changes no read at or after the new floor. -/
structure CompactedTo (floor : CommitVersion) (s s' : Store) : Prop where
  version : s'.version = s.version
  lastCommitTime : s'.lastCommitTime = s.lastCommitTime
  compactionFloor : s'.compactionFloor = max s.compactionFloor floor
  newest : ∀ p, s'.newest p = s.newest p
  getAt : ∀ p v, s'.compactionFloor ≤ v → s'.getAt p v = s.getAt p v

theorem foldl_bookUsageChange_eq (s : Store) {changes : List (HistoryUsage × HistoryUsage)} :
    changes.foldl bookUsageChange s = { s with
        historyUsage := (changes.foldl bookUsageChange s).historyUsage
        historyAccountingExact := (changes.foldl bookUsageChange s).historyAccountingExact } := by
  induction changes generalizing s with
  | nil => rfl
  | cons change changes ih =>
    rw [foldl_cons, ih]
    rfl

/-- Dropping paths from the indexes that are no longer retained. -/
theorem foldl_dropScopePath {removed : List DocumentPath} {paths : SortedSet DocumentPath}
    (hi : s.indexes.Exact database paths s.live s.get)
    (hpaths : ∀ p, p ∈ paths ↔ p ∈ s.retained ∨ p ∈ removed) (hn : removed.Nodup)
    (hremoved : ∀ p ∈ removed, p ∉ s.retained) :
    ∃ ix, removed.foldl dropScopePath s = { s with indexes := ix } ∧
      ix.Exact database s.retained s.live s.get := by
  induction removed generalizing s paths with
  | nil =>
    have heq : paths = s.retained := ext_mem fun p => by simp [hpaths p]
    exact ⟨s.indexes, rfl, heq ▸ hi⟩
  | cons p removed ih =>
    obtain ⟨hnot, hn⟩ := nodup_cons.1 hn
    have hp := hremoved p mem_cons_self
    have hdead : p ∉ s.live := fun hlive => by
      rw [mem_retained, Bool.not_eq_true, Option.isSome_eq_false_iff, Option.isNone_iff_eq_none] at hp
      simp [mem_live, newest, versionsOf, hp] at hlive
    have hstep := hi.removeScopePath ((hpaths p).2 (.inr mem_cons_self)) hdead
    refine ih (s := s.dropScopePath p) hstep (fun p' => ?_) hn fun p' hp' =>
      hremoved p' (mem_cons_of_mem p hp')
    change p' ∈ paths.erase p ↔ p' ∈ s.retained ∨ p' ∈ removed
    rw [mem_erase, hpaths, mem_cons]
    constructor
    · rintro ⟨hne, h | h⟩
      · exact .inl h
      · exact .inr (h.resolve_left hne)
    · rintro (h | h)
      · exact ⟨fun heq => hp (heq ▸ h), .inl h⟩
      · exact ⟨fun heq => hnot (heq ▸ h), .inr (.inr h)⟩

/-- What is left to do once the paths are compacted. -/
theorem Compaction.Sound.finish {s₀ : Store} {acc : Compaction} (hfold : acc.Sound floor s₀)
    (h : s.Coherent database) (hf : ¬ floor ≤ s.compactionFloor)
    (hs₀ : ({ s with compactionForecast := none, compactionFloor := floor } :
      Store).trimCommitTimes floor = s₀) :
    (acc.removedPaths.foldl dropScopePath
      (acc.usageChanges.foldl bookUsageChange acc.store)).Coherent database ∧
    CompactedTo floor s (acc.removedPaths.foldl dropScopePath
      (acc.usageChanges.foldl bookUsageChange acc.store)) := by
  -- booking the usage and dropping the removed paths touch neither history nor version
  rw [foldl_bookUsageChange_eq]
  generalize (acc.usageChanges.foldl bookUsageChange acc.store).historyUsage = usage
  generalize (acc.usageChanges.foldl bookUsageChange acc.store).historyAccountingExact = exact
  have hlive : acc.store.live = s.live := ext_mem fun p => by
    rw [mem_live, mem_live, hfold.newest, ← hs₀]
    rfl
  have hget : acc.store.get = s.get := by
    funext p
    rw [get, hfold.newest, ← hs₀]
    rfl
  have hret : ∀ p, p ∈ s.retained ↔ p ∈ acc.store.retained ∨ p ∈ acc.removedPaths := by
    have hsame : s.retained = s₀.retained := by rw [← hs₀]; rfl
    rw [hsame]
    exact hfold.retained
  have hi : acc.store.indexes.Exact database s.retained acc.store.live acc.store.get := by
    have heq : acc.store.indexes = s.indexes := by
      rw [hfold.store_eq, ← hs₀]
      rfl
    rw [heq, hlive, hget]
    exact h.indexes
  obtain ⟨ix, hix, hexact⟩ := foldl_dropScopePath
    (s := { acc.store with historyUsage := usage, historyAccountingExact := exact }) hi
    hret hfold.nodup hfold.removed
  dsimp only at hix
  rw [hix]
  have hs : acc.store = { s with
      history := acc.store.history
      compactionFloor := floor
      commitTimes := s.commitTimes.dropWhile fun e => decide (e.1 < floor)
      historyUsage := acc.store.historyUsage
      historyAccountingExact := acc.store.historyAccountingExact
      compactionForecast := none
      reclaim := acc.store.reclaim } := by
    rw [hfold.store_eq, ← hs₀]
    rfl
  have hver := congrArg Store.version hs
  have hlast := congrArg lastCommitTime hs
  have hc := congrArg Store.compactionFloor hs
  refine ⟨⟨fun p versions hp => ?_, hexact⟩, hver, hlast, ?_, fun p => ?_, fun p v hv => ?_⟩
  · have hchain := hfold.chain p versions hp
    rw [← hs₀] at hchain
    exact hver.symm ▸ hchain
  · rw [max_eq_right (not_le.1 hf).le]
    exact hc
  · have hn := hfold.newest p
    rw [← hs₀] at hn
    exact hn
  · have hread := hfold.getAt p v (hc.ge.trans hv)
    rw [← hs₀] at hread
    exact hread

/-- Compaction keeps a store coherent. -/
theorem Coherent.compactTo (h : s.Coherent database) (floor : CommitVersion) :
    (s.compactTo floor).Coherent database ∧ CompactedTo floor s (s.compactTo floor) := by
  unfold Store.compactTo
  split_ifs with hf
  · exact ⟨h, rfl, rfl, (max_eq_left hf).symm, fun _ => rfl, fun _ _ _ => rfl⟩
  · have hfold : ∀ (candidates : List DocumentPath) (prefixAccounting : Bool) (s₀ : Store)
        (acc : Compaction), acc.Sound floor s₀ →
        (candidates.foldl (Store.compactPath prefixAccounting floor) acc).Sound floor s₀ := by
      intro candidates prefixAccounting s₀
      induction candidates with
      | nil => exact fun _ hacc => hacc
      | cons p candidates ih => exact fun acc hacc => ih _ (hacc.compactPath _ p)
    refine (hfold _ _ _ _ ?_).finish h hf rfl
    exact ⟨rfl, h.chain, fun _ => rfl, fun _ _ _ => rfl, by simp, nodup_nil, nofun⟩

/-! ### The visible snapshot -/

theorem get_visibleSnapshot_history (s : Store) (p : DocumentPath) :
    s.visibleSnapshot.history.get p =
      if (s.newest p).isSome then some (s.versionsOf p).getLast?.toList else none := by
  change (SortedMap.mapValues _ _).get p = _
  rw [SortedMap.get_mapValues, SortedMap.get_filter, newest, versionsOf]
  cases s.history.get p with
  | none => rfl
  | some =>
    rw [Option.getD_some, Option.filter]
    split_ifs <;> rfl

theorem newest_visibleSnapshot (s : Store) (p : DocumentPath) : s.visibleSnapshot.newest p = s.newest p := by
  have hh := get_visibleSnapshot_history s p
  rw [newest, versionsOf, hh]
  split_ifs with h
  · rw [Option.getD_some, newest]
    cases (s.versionsOf p).getLast? <;> rfl
  · rw [Bool.not_eq_true, Option.isSome_eq_false_iff, Option.isNone_iff_eq_none] at h
    rw [h]
    rfl

/-- The visible snapshot of a coherent store is coherent. -/
theorem Coherent.visibleSnapshot (h : s.Coherent database) : s.visibleSnapshot.Coherent database := by
  have hc : ∀ p versions, s.visibleSnapshot.history.get p = some versions →
      Chain p s.version versions ∧ p ∈ s.live := fun p versions hp => by
    rw [get_visibleSnapshot_history] at hp
    split_ifs at hp with hn
    cases hp
    refine ⟨?_, mem_live.2 hn⟩
    unfold newest versionsOf at hn
    unfold versionsOf
    cases hget : s.history.get p with
    | none => simp [hget] at hn
    | some versions =>
      obtain ⟨hne, -, hle, hpath⟩ := h.chain p versions hget
      rw [Option.getD_some, getLast?_eq_some_getLast hne]
      have hmem := getLast_mem hne
      refine ⟨cons_ne_nil _ _, pairwise_singleton _ _, fun e he => ?_, fun e he => ?_⟩
      · rw [mem_singleton.1 he]
        exact hle _ hmem
      · rw [mem_singleton.1 he]
        exact hpath _ hmem
  refine ⟨fun p versions hp => (hc p versions hp).1, ?_⟩
  refine ScopeIndexes.exact_rebuildScopePaths ?_ (fun e he => ?_) (fun p => ?_) fun p => ?_
  · rw [map_map]
    exact keys_nodup s.visibleSnapshot.history
  · obtain ⟨⟨p, versions⟩, hmem, rfl⟩ := mem_map.1 he
    exact h.indexes.inDatabase p
      (h.indexes.live_retained p (hc p versions (mem_entries.1 hmem)).2)
  · rw [map_map]
    exact mem_retained.trans mem_keys.symm
  · rw [mem_live, newest, versionsOf]
    constructor
    · intro hp
      cases hget : s.visibleSnapshot.history.get p with
      | none => simp [hget] at hp
      | some versions =>
        rw [hget] at hp
        exact mem_map.2 ⟨(p, versions), mem_entries.2 hget, Prod.ext rfl hp⟩
    · intro hp
      obtain ⟨⟨p', versions⟩, hmem, heq⟩ := mem_map.1 hp
      have hget : s.visibleSnapshot.history.get p' = some versions :=
        mem_entries.1 hmem
      have hp' : p' = p := congrArg Prod.fst heq
      rw [← hp', hget]
      exact congrArg Prod.snd heq

end Store

end Fireemu
