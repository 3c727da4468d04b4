import Fireemu.Firestore.State
import Fireemu.Firestore.StoreRun

/-!
# Runs of a Firestore database

Every operation keeps the index of snapshots in step with the transactions that hold them, and its
store is that of a run of requests to the store alone.  So what holds for all runs of a store holds
here, and a compaction knows the snapshots that are in use.
-/

namespace Fireemu

open Library Library.SortedMap

/-! ### The snapshots in use -/

/-- The snapshot an active transaction holds. -/
def Transaction.pin (t : Transaction) : Option CommitVersion :=
  if t.state = .active then some t.readVersion else none

namespace Ledger

/-- How many transactions hold a snapshot. -/
def pinCount (l : Ledger) (v : CommitVersion) : ℕ :=
  l.transactions.sum fun _ t => if t.pin = some v then 1 else 0

/-- The index counts the transactions that hold each snapshot, and the next identifier is new. -/
structure Counted (l : Ledger) : Prop where
  exact : RefCounts.Exact l.activeTransactionVersions l.pinCount
  fresh : ∀ id, l.nextTransaction < id → l.get id = none

/-- The index after a transaction holds another snapshot than before. -/
def repin (before after : Option CommitVersion) (versions : RefCounts CommitVersion) :
    RefCounts CommitVersion :=
  if before = after then versions
  else
    let released := before.elim versions versions.release
    after.elim released (released.acquire 1 ·)

variable {l l' : Ledger} {id : TransactionId} {t t' : Transaction} {o : Option Transaction}
  {scope : LimitScope} {now : LogicalInstant} {state : TransactionState}

/-- Another transaction in one place changes the counts of what it held and of what it holds. -/
theorem pinCount_edit (hget : ∀ j, l'.get j = if j = id then o else l.get j) (v : CommitVersion) :
    (if (l.get id).bind Transaction.pin = some v then 1 else 0) + l'.pinCount v =
      (if o.bind Transaction.pin = some v then 1 else 0) + l.pinCount v := by
  have hterm : ∀ o : Option Transaction, (o.map fun t => if t.pin = some v then 1 else 0).getD 0 =
      if o.bind Transaction.pin = some v then 1 else 0 := by
    intro o
    cases o <;> simp
  rw [← hterm, ← hterm]
  exact sum_replace hget fun _ t => if t.pin = some v then 1 else 0

/-- A table with something else in one place keeps the count if the index is changed with it. -/
theorem Counted.edit (h : l.Counted) (hget : ∀ j, l'.get j = if j = id then o else l.get j)
    (hnext : l.nextTransaction ≤ l'.nextTransaction) (hid : o.isSome → id ≤ l'.nextTransaction)
    (hv : l'.activeTransactionVersions =
      repin ((l.get id).bind Transaction.pin) (o.bind Transaction.pin) l.activeTransactionVersions) :
    l'.Counted := by
  refine ⟨?_, fun j hj => ?_⟩
  · have hc := pinCount_edit hget
    rw [hv, repin]
    generalize (l.get id).bind Transaction.pin = before at hc
    generalize o.bind Transaction.pin = after at hc
    by_cases hsame : before = after
    · rw [if_pos hsame]
      exact h.exact.congr fun v => Nat.add_left_cancel (hsame ▸ hc v)
    rw [if_neg hsame]
    cases before <;> cases after
    · exact absurd rfl hsame
    · exact (h.exact.acquire one_ne_zero _).congr fun v => by grind
    · exact (h.exact.release _).congr fun v => by grind
    · exact ((h.exact.release _).acquire one_ne_zero _).congr fun v => by grind
  · rw [hget]
    split_ifs with hj'
    · cases o with
      | none => rfl
      | some => exact absurd (hid rfl) (not_le.2 (hj' ▸ hj))
    · exact h.fresh j (hnext.trans_lt hj)

/-- The identifier of a transaction is not a new one. -/
theorem Counted.le_next (h : l.Counted) (ht : l.get id = some t) : id ≤ l.nextTransaction := by
  by_contra hlt
  rw [h.fresh id (not_le.1 hlt)] at ht
  cases ht

theorem Counted.update (h : l.Counted) {f : Transaction → Transaction}
    (hf : ∀ t, l.get id = some t → (f t).pin = t.pin) : (l.update id f).Counted := by
  refine h.edit (o := (l.get id).map f) (get_modify _ _ · _) le_rfl ?_ ?_
  · cases ht : l.get id with
    | none => exact nofun
    | some t => exact fun _ => h.le_next ht
  · cases ht : l.get id with
    | none => rfl
    | some t => exact (if_pos (hf t ht).symm).symm

theorem Counted.releaseActive (h : l.Counted) (ht : l.get id = some t) (ha : t.state = .active)
    (ho : o.bind Transaction.pin = none) : (l.releaseActive scope id t o).Counted := by
  refine h.edit (o := o) (fun j => ?_) le_rfl (fun _ => h.le_next ht) ?_
  · cases o with
    | none => exact get_erase _ _ _
    | some => exact get_insert _ _ _ _
  · simp [ho, ht, repin, Transaction.pin, ha, Ledger.releaseActive]

/-- The oldest snapshot of the index is not after a snapshot in use. -/
theorem Counted.oldestActiveVersion_le (h : l.Counted) (ht : l.get id = some t) (ha : t.state = .active) :
    ∃ oldest, l.oldestActiveVersion = some oldest ∧ oldest ≤ t.readVersion := by
  have hpos : 0 < l.pinCount t.readVersion := by
    have := sum_erase l.transactions (fun _ u => if u.pin = some t.readVersion then 1 else 0) id
    rw [term_of_get ht, Transaction.pin, if_pos ha, if_pos rfl] at this
    unfold pinCount
    omega
  have hmem : t.readVersion ∈ l.activeTransactionVersions.keys := by
    rw [mem_keys, h.exact, if_neg hpos.ne']
    rfl
  have hsorted := l.activeTransactionVersions.keys_sorted
  unfold oldestActiveVersion
  generalize l.activeTransactionVersions.keys = keys at hmem hsorted
  cases keys with
  | nil => cases hmem
  | cons oldest rest =>
    refine ⟨oldest, rfl, ?_⟩
    rcases List.mem_cons.1 hmem with heq | hrest
    · exact heq.ge
    · exact ((List.pairwise_cons.1 hsorted).1 _ hrest).le

/-! ### Maintenance -/

/-- Maintenance keeps the count, and the active transactions that have time left. -/
structure Maintains (scope : LimitScope) (now : LogicalInstant) (l l' : Ledger) : Prop where
  counted : l.Counted → l'.Counted
  kept : ∀ id t, t.state = .active → now < t.deadline scope → l.get id = some t → l'.get id = some t

theorem Maintains.refl (l : Ledger) : Maintains scope now l l := ⟨fun h => h, fun _ _ _ _ h => h⟩

theorem Maintains.trans {l'' : Ledger} (h : Maintains scope now l l') (h' : Maintains scope now l' l'') :
    Maintains scope now l l'' :=
  ⟨fun hc => h'.counted (h.counted hc), fun id t ha hd ht => h'.kept id t ha hd (h.kept id t ha hd ht)⟩

theorem Maintains.foldl {α β : Type} {f : β → α → β} (g : β → Ledger) {as : List α}
    (h : ∀ b, ∀ a ∈ as, Maintains scope now (g b) (g (f b a))) (b : β) :
    Maintains scope now (g b) (g (as.foldl f b)) :=
  as.foldlRecOn (motive := fun b' => Maintains scope now (g b) (g b')) f (.refl _) fun b' hb a ha =>
    hb.trans (h b' a ha)

/-- Only a transaction that is not active is dropped. -/
theorem maintains_dropFinished {deadlines : Deadlines} :
    Maintains scope now l ((l.dropFinished id deadlines).removeFinished id) := by
  unfold removeFinished
  split_ifs with hany
  · obtain ⟨t, ht, hstate⟩ := (Option.any_eq_true _ _).1 hany
    rw [decide_eq_true_eq] at hstate
    refine ⟨fun h => h.edit (o := none) (get_erase _ _ ·) le_rfl nofun ?_, fun j u ha _ hu => ?_⟩
    · simp [show l.get id = some t from ht, repin, Transaction.pin, hstate, dropFinished]
    · refine (get_erase_of_ne _ ?_).trans hu
      rintro rfl
      exact hstate (Option.some.inj (ht.symm.trans hu) ▸ ha)
  · exact ⟨fun h => ⟨h.exact, h.fresh⟩, fun _ _ _ _ h => h⟩

theorem maintains_evictLoop (fuel : ℕ) (l : Ledger) : Maintains scope now l (evictLoop scope fuel l) := by
  induction fuel generalizing l with
  | zero => exact .refl l
  | succ fuel ih =>
    unfold evictLoop
    by_cases hsize : l.finishedTransactions.size ≤ maxFinishedTransactionLineage
    · rw [if_pos hsize]
      exact .refl l
    · rw [if_neg hsize]
      dsimp only
      split
      · exact .refl l
      · exact maintains_dropFinished.trans (ih _)

theorem maintains_forgetElapsedFinishedTransactions :
    Maintains scope now l (l.forgetElapsedFinishedTransactions scope now).2 :=
  (Maintains.foldl (fun l => l) (fun _ _ _ => maintains_dropFinished) l).trans (maintains_evictLoop _ _)

/-- Only a transaction whose deadline has passed is finished. -/
theorem maintains_expire {acc : Bool × Ledger} {entry : LogicalInstant ×ₗ TransactionId}
    (hdue : (ofLex entry).1 ≤ now) : Maintains scope now acc.2 (expire scope acc entry).2 := by
  unfold expire
  dsimp only
  split
  · exact ⟨fun h => ⟨h.exact, h.fresh⟩, fun _ _ _ _ h => h⟩
  · rename_i t hfilter
    obtain ⟨ht, hstate⟩ := Option.filter_eq_some_iff.1 hfilter
    rw [decide_eq_true_eq] at hstate
    refine ⟨fun h => ?_, fun j u _ hd hu => ?_⟩
    · have hr : (acc.2.releaseActive scope (ofLex entry).2 t (some (t.expired (ofLex entry).1))).Counted :=
        h.releaseActive ht hstate.1 rfl
      exact ⟨hr.exact, hr.fresh⟩
    · refine (get_insert_of_ne _ _ ?_).trans hu
      rintro rfl
      cases ht.symm.trans hu
      exact (hdue.trans_lt hd).ne' hstate.2

theorem maintains_pruneTransactions : Maintains scope now l (l.pruneTransactions scope now).2 := by
  refine (Maintains.foldl Prod.snd (fun _ entry he => maintains_expire ?_) (false, l)).trans
    maintains_forgetElapsedFinishedTransactions
  exact of_decide_eq_true (List.all_eq_true.1 List.all_takeWhile entry he)

theorem Counted.finishTransaction (h : l.Counted) (hstate : state ≠ .active) :
    (l.finishTransaction scope id state).Counted := by
  have hsync : ∀ {l : Ledger}, l.Counted → (l.syncEvictableFinishedTransaction scope id).Counted := by
    intro l h
    unfold syncEvictableFinishedTransaction
    split_ifs <;> exact ⟨h.exact, h.fresh⟩
  unfold Ledger.finishTransaction
  split
  · rename_i hnone
    refine hsync (h.update fun t ht => ?_)
    rw [ht, Option.filter_eq_none_iff] at hnone
    simpa [Transaction.pin, hstate] using hnone t rfl
  · rename_i t hfilter
    obtain ⟨ht, ha⟩ := Option.filter_eq_some_iff.1 hfilter
    have hr : (l.releaseActive scope id t (some (t.ended state))).Counted :=
      h.releaseActive ht (of_decide_eq_true ha) (by simp [Transaction.pin, Transaction.ended, hstate])
    have hevict (l : Ledger) : Maintains scope 0 l (l.evictFinishedTransactions scope) :=
      maintains_evictLoop _ l
    exact (hevict _).counted (hsync ⟨hr.exact, hr.fresh⟩)

theorem Counted.keepLifetimeExpiredTransaction (h : l.Counted) {deadline : LogicalInstant} :
    (l.keepLifetimeExpiredTransaction scope id deadline).2.Counted := by
  unfold Ledger.keepLifetimeExpiredTransaction
  split
  · exact h
  · have hu : (l.update id fun t => { t with lifetimeExpired := true }).Counted := h.update fun _ _ => rfl
    exact ⟨hu.exact, hu.fresh⟩

theorem Counted.abandonTransaction (h : l.Counted) : (l.abandonTransaction scope id).Counted := by
  unfold Ledger.abandonTransaction
  split
  · exact h
  rename_i t ht
  split_ifs with ha
  · exact h.releaseActive ht ha rfl
  · refine h.edit (o := none) (get_erase _ _ ·) le_rfl nofun ?_
    simp [ht, repin, Transaction.pin, ha, dropFinished]

end Ledger

/-! ### Operations -/

namespace Store

variable {database : ProjectId × DatabaseId} {s s' s'' : Store}

/-- A run of requests leads from one store to another. -/
def Reaches (database : ProjectId × DatabaseId) (s s' : Store) : Prop :=
  ∃ requests : List (DatabaseRequest database), s' = s.run requests

theorem Reaches.trans (h : s.Reaches database s') (h' : s'.Reaches database s'') : s.Reaches database s'' := by
  obtain ⟨requests, rfl⟩ := h
  obtain ⟨requests', rfl⟩ := h'
  exact ⟨requests ++ requests', (List.foldl_append ..).symm⟩

theorem reaches_step (request : StoreRequest) (h : request.InDatabase database) :
    s.Reaches database (s.step request) :=
  ⟨[⟨request, h⟩], rfl⟩

/-- Nothing that can be read from the second store was different in the first. -/
structure ReadsAs (s s' : Store) : Prop where
  version : s'.version = s.version
  lastCommitTime : s'.lastCommitTime = s.lastCommitTime
  floor_le : s.compactionFloor ≤ s'.compactionFloor
  get : s'.get = s.get
  getAt : ∀ p v, s'.compactionFloor ≤ v → s'.getAt p v = s.getAt p v

theorem Coherent.readsAs_compact (h : s.Coherent database) (oldest : Option CommitVersion)
    (now : LogicalInstant) : s.ReadsAs (s.compact oldest now) := by
  obtain ⟨-, hc⟩ := h.compactTo (s.retentionFloor oldest now)
  refine ⟨hc.version, hc.lastCommitTime, hc.compactionFloor ▸ le_max_left _ _, ?_, hc.getAt⟩
  funext p
  exact congrArg (Option.map RetainedDocument.document) (hc.newest p)

end Store

namespace FirestoreState

/-- The index keeps counting, and the store goes through requests to a store. -/
structure Leads (database : ProjectId × DatabaseId) (s s' : FirestoreState) : Prop where
  counted : s.ledger.Counted → s'.ledger.Counted
  store : s.store.Reaches database s'.store

/-- Besides, no read changes. -/
structure Tidies (database : ProjectId × DatabaseId) (s s' : FirestoreState) : Prop
    extends Leads database s s' where
  reads : s.store.Coherent database → s.store.ReadsAs s'.store

variable {database : ProjectId × DatabaseId} {s s' s'' : FirestoreState}

section operations

variable {now : LogicalInstant} {id : TransactionId} {state : TransactionState}
  {f : Transaction → Transaction} {writes : List Write}

theorem Leads.trans (h : Leads database s s') (h' : Leads database s' s'') : Leads database s s'' :=
  ⟨fun hc => h'.counted (h.counted hc), h.store.trans h'.store⟩

theorem Leads.coherent (h : Leads database s s') (hc : s.store.Coherent database) :
    s'.store.Coherent database := by
  obtain ⟨requests, hs⟩ := h.store
  exact hs ▸ hc.run requests

theorem Tidies.trans (h : Tidies database s s') (h' : Tidies database s' s'') : Tidies database s s'' := by
  refine ⟨h.toLeads.trans h'.toLeads, fun hc => ?_⟩
  have hr := h.reads hc
  have hr' := h'.reads (h.coherent hc)
  exact ⟨hr'.version.trans hr.version, hr'.lastCommitTime.trans hr.lastCommitTime,
    hr.floor_le.trans hr'.floor_le, hr'.get.trans hr.get,
    fun p v hv => (hr'.getAt p v hv).trans (hr.getAt p v (hr'.floor_le.trans hv))⟩

/-- An operation on the table alone. -/
theorem tidies_ledger {l : Ledger} (h : s.ledger.Counted → l.Counted) :
    Tidies database s { s with ledger := l } :=
  ⟨⟨h, [], rfl⟩, fun _ => ⟨rfl, rfl, le_rfl, rfl, fun _ _ _ => rfl⟩⟩

theorem Tidies.refl (s : FirestoreState) : Tidies database s s := tidies_ledger fun h => h

theorem tidies_ite {α : Type} {p : Prop} [Decidable p] {a b : Outcome α} (ha : p → Tidies database s a.2)
    (hb : ¬ p → Tidies database s b.2) : Tidies database s (if p then a else b).2 := by
  split_ifs with hp
  · exact ha hp
  · exact hb hp

theorem tidies_if (p : Prop) [Decidable p] (ha : Tidies database s s') (hb : Tidies database s s'') :
    Tidies database s (if p then s' else s'') := by
  split_ifs
  · exact ha
  · exact hb

theorem tidies_prune (s : FirestoreState) (now : LogicalInstant) :
    Tidies database s (s.pruneTransactions now).2 :=
  tidies_ledger Ledger.maintains_pruneTransactions.counted

theorem tidies_compact (s : FirestoreState) (now : LogicalInstant) : Tidies database s (s.compact now) := by
  refine (tidies_prune s now).trans ?_
  unfold compact
  generalize (s.pruneTransactions now).2 = s
  exact ⟨⟨fun h => h, Store.reaches_step (.compact s.ledger.oldestActiveVersion now) trivial⟩,
    fun hc => hc.readsAs_compact _ now⟩

theorem tidies_finish (s : FirestoreState) (id : TransactionId) (state : TransactionState)
    (hstate : state ≠ .active) : Tidies database s (s.finishTransaction id state) :=
  tidies_ledger fun h => h.finishTransaction hstate

theorem tidies_update (hf : ∀ t, s.ledger.get id = some t → (f t).pin = t.pin) :
    Tidies database s (s.update id f) :=
  tidies_ledger fun h => h.update hf

theorem tidies_insertTransaction {readOnly : Bool} {readVersion : CommitVersion} {readTime : LogicalInstant}
    (hf : ∀ t, (f t).pin = t.pin) :
    Tidies database s (s.insertTransaction now readOnly readVersion readTime f).2 := by
  refine (tidies_prune s now).trans ?_
  unfold insertTransaction
  generalize (s.pruneTransactions now).2 = s
  dsimp only
  split
  · exact .refl s
  · refine tidies_ledger fun h => ?_
    have hadd : (s.ledger.addActive s.scope (.begin readOnly readVersion readTime now)).Counted := by
      refine h.edit (get_insert _ _ · _) (Nat.le_succ _) (fun _ => le_rfl) ?_
      simp [h.fresh _ (Nat.lt_succ_self _), Ledger.repin, Transaction.pin, Transaction.begin, Ledger.addActive]
    exact hadd.update fun t _ => hf t

theorem tidies_beginTransactionAt {readTime : LogicalInstant} :
    Tidies database s (s.beginTransactionAt now readTime).2 := by
  unfold beginTransactionAt
  split
  · exact .refl s
  · exact tidies_insertTransaction fun _ => rfl

theorem tidies_retryEnded {retriedWhileLive : Bool} :
    Tidies database s (s.retryEnded id now retriedWhileLive).2 := by
  unfold retryEnded
  split
  · exact .refl s
  rename_i ended hended
  refine tidies_ite (fun _ => .refl s) fun hrefused => ?_
  split
  · exact .refl s
  refine .trans (tidies_update fun t ht => ?_) (tidies_insertTransaction fun _ => rfl)
  cases hended.symm.trans ht
  split_ifs with hfinished
  · rfl
  -- an active attempt is not retryable
  have hstate : ended.state ≠ .active := fun ha => hrefused (by simp [ha, TransactionState.retryable])
  simp [Transaction.pin, hstate]

theorem tidies_retryTransaction : Tidies database s (s.retryTransaction id now).2 := by
  refine (tidies_prune s now).trans ?_
  unfold retryTransaction
  dsimp only
  split
  · exact .refl _
  · exact tidies_ite (fun _ => .refl _) fun _ => tidies_ite
      (fun _ => (tidies_finish _ id .rolledBack nofun).trans tidies_retryEnded) fun _ => tidies_retryEnded

theorem transaction_ok {t : Transaction} (h : s.transaction id = .ok t) :
    s.ledger.get id = some t ∧ t.state = .active := by
  unfold transaction at h
  split at h
  · cases h
  · split_ifs at h with ha
    cases h
    exact ⟨‹_›, ha.1⟩

theorem tidies_expireTransaction {deadline : LogicalInstant} :
    Tidies database s (s.expireTransaction id now deadline).2 :=
  .trans (.trans (tidies_finish s id .finished nofun)
    (tidies_ledger fun h => h.keepLifetimeExpiredTransaction)) (tidies_compact _ now)

theorem tidies_pruneInProduction (s : FirestoreState) (now : LogicalInstant) :
    Tidies database s (s.pruneInProduction now) :=
  tidies_if _ (tidies_prune s now) (.refl s)

theorem tidies_touchTransaction : Tidies database s (s.touchTransaction id now).2 := by
  have hprune : Tidies database s (if s.scope = .production ∧ (s.pruneTransactions now).1 = true then
      (s.pruneTransactions now).2.compact now else s.pruneInProduction now) :=
    tidies_if _ ((tidies_prune s now).trans (tidies_compact _ now)) (tidies_pruneInProduction s now)
  unfold touchTransaction
  generalize (if s.scope = .production ∧ (s.pruneTransactions now).1 = true then
      (s.pruneTransactions now).2.compact now else s.pruneInProduction now) = s at hprune
  refine hprune.trans (tidies_ite (fun hserves => tidies_update fun t ht => ?_) fun _ => ?_)
  · -- the token is a retried one, so it holds no snapshot
    simp only [servesRetriedRead, ht, Option.any_some, Bool.and_eq_true, decide_eq_true_eq] at hserves
    unfold pinned
    split_ifs
    · simp [Transaction.pin, hserves.2.1.1]
    · rfl
  · split
    · exact .refl s
    rename_i t ht
    obtain ⟨hget, ha⟩ := transaction_ok ht
    refine tidies_ite (fun _ => tidies_expireTransaction) fun _ => tidies_ledger fun h =>
      h.edit (get_insert _ _ · _) le_rfl (fun _ => h.le_next hget) ?_
    have ha' : (touched s.store.version (s.readTime now) now t).state = .active := by
      unfold touched pinned
      split_ifs <;> exact ha
    simp [hget, Ledger.repin, Transaction.pin, ha, ha', Ledger.rekey, eq_comm]

theorem tidies_observe {readSet : SortedMap DocumentPath (Option CommitVersion)}
    {queries : List TransactionQueryObservation} {conflictLedgerBytes total : ℕ} :
    Tidies database s (s.observe id readSet queries conflictLedgerBytes total) := by
  refine tidies_ledger fun h => ?_
  have hu : (s.ledger.update id fun t => { t with readSet, queries, conflictLedgerBytes }).Counted :=
    h.update fun _ _ => rfl
  exact ⟨hu.exact, hu.fresh⟩

theorem tidies_rollback : Tidies database s (s.rollback id).2 := by
  refine tidies_ite (fun _ => tidies_ite (fun _ => .refl s) fun _ => .refl s) fun _ => ?_
  refine tidies_ite (fun _ => .refl s) fun _ => ?_
  split
  · exact .refl s
  · exact tidies_finish s id .rolledBack nofun

theorem tidies_rollbackAt : Tidies database s (s.rollbackAt id now).2 := by
  have hin : ∀ s : FirestoreState, Tidies database s (s.rollbackInTime id now).2 := fun s =>
    tidies_ite (fun _ => .refl s) fun _ => tidies_rollback
  exact tidies_ite (fun _ => tidies_rollback) fun _ =>
    tidies_ite (fun _ => (tidies_prune s now).trans (hin _)) fun _ =>
      (tidies_ledger Ledger.maintains_forgetElapsedFinishedTransactions.counted).trans (hin _)

/-! ### Commits -/

variable {context : CommitContext} {owner : Option CommitWaitOwner} {own : Option TransactionId}

theorem tidies_setWait {pending : Option (List Write)} :
    Tidies database s (s.setWait context id owner pending) :=
  tidies_update fun t _ => by cases owner <;> rfl

theorem tidies_abortVictim (s : FirestoreState) (id : TransactionId) :
    Tidies database s (s.abortVictim id) := by
  have hmark : Tidies database s (s.update id fun t => { t with deadlockVictim := true }) :=
    tidies_update fun _ _ => rfl
  exact hmark.trans (tidies_finish _ id .retryableAborted nofun)

theorem tidies_checkContention : Tidies database s (s.checkContention context writes own now owner).2 := by
  have hwait : Tidies database s (own.elim s fun id => s.setWait context id owner none) := by
    cases own
    · exact .refl s
    · exact tidies_setWait
  refine hwait.trans ?_
  unfold checkContention
  generalize (own.elim s fun id => s.setWait context id owner none) = s
  refine tidies_ite (fun _ => .refl s) fun _ => (tidies_prune s now).trans ?_
  generalize (s.pruneTransactions now).2 = s
  refine tidies_ite (fun _ => .refl s) fun _ => ?_
  split
  · exact .refl s
  split
  · exact .refl s
  refine tidies_ite (fun _ => tidies_abortVictim s _) fun _ => ?_
  dsimp only
  generalize List.map Prod.fst _ = victims
  have habort : Tidies database s (victims.foldl abortVictim s) :=
    victims.foldlRecOn _ (.refl s) fun s' h id _ => h.trans (tidies_abortVictim s' id)
  exact habort.trans (tidies_ite (fun _ => .refl _) fun _ => tidies_setWait)

theorem tidies_validateTransactionCommit :
    Tidies database s (s.validateTransactionCommit context id writes now).2 := by
  refine (tidies_pruneInProduction s now).trans ?_
  unfold validateTransactionCommit
  generalize s.pruneInProduction now = s
  dsimp only
  split
  · exact .refl s
  refine tidies_ite (fun _ => tidies_expireTransaction) fun _ => tidies_ite (fun _ => ?_) fun _ => ?_
  · exact tidies_ite (fun _ => .refl s) fun _ =>
      tidies_if _ (tidies_finish s id .commitRefused nofun) (.refl s)
  split
  · exact .refl s
  · exact tidies_finish s id .retryableAborted nofun
  · exact .refl s

/-- Whatever a commit does before it stages its writes changes no read. -/
theorem tidies_prepareCommit : Tidies database s (s.prepareCommit context writes own now owner).2 := by
  have hvalidate : Tidies database s (own.elim (.ok (), s) fun id =>
      s.validateTransactionCommit context id writes now).2 := by
    cases own
    · exact .refl s
    · exact tidies_validateTransactionCommit
  unfold prepareCommit
  split
  · rename_i heq
    rwa [heq] at hvalidate
  · rename_i heq
    rw [heq] at hvalidate
    exact hvalidate.trans tidies_checkContention

theorem counted_endedBy (h : s.ledger.Counted) (hstate : state ≠ .active) :
    (s.endedBy own state).Counted := by
  cases own
  · exact h
  · exact h.finishTransaction hstate

/-- A commit is refused before its writes are staged, or it is a commit to the store that its checks
leave. -/
theorem commit_cases (database : ProjectId × DatabaseId) (s : FirestoreState) (context : CommitContext)
    (writes : List Write) (own : Option TransactionId) (now : LogicalInstant) (owner : Option CommitWaitOwner) :
    let outcome := s.commitWithHistoryAdmissionOwned context writes own now owner
    (∃ e, outcome.1 = .error e ∧ Tidies database s outcome.2) ∨
    ∃ s₁ pins, Tidies database s s₁ ∧ (s₁.ledger.Counted → outcome.2.ledger.Counted) ∧
      let committed := s₁.store.commit s₁.config writes pins now context.admission
      outcome.1 = committed.1.mapError CommitRefusal.error ∧ outcome.2.store = committed.2 := by
  have hprepare : Tidies database s (s.prepareCommit context writes own now owner).2 := tidies_prepareCommit
  unfold commitWithHistoryAdmissionOwned
  split
  · rename_i e s₁ heq
    rw [heq] at hprepare
    exact .inl ⟨e, rfl, hprepare⟩
  rename_i s₁ heq
  rw [heq] at hprepare
  refine .inr ⟨s₁, s₁.pinsOf own now, hprepare, ?_⟩
  split
  · rename_i hcommit
    rw [hcommit]
    exact ⟨fun h => Ledger.maintains_pruneTransactions.counted (counted_endedBy h nofun), rfl, rfl⟩
  · rename_i hcommit
    rw [hcommit]
    refine ⟨fun h => ?_, rfl, rfl⟩
    dsimp only
    split_ifs
    · exact counted_endedBy h nofun
    · exact h

theorem leads_commit (hwrites : ∀ write ∈ writes, write.op.path.InDatabase database) :
    Leads database s (s.commitWithHistoryAdmissionOwned context writes own now owner).2 := by
  rcases s.commit_cases database context writes own now owner with
    ⟨e, -, htidy⟩ | ⟨s₁, pins, htidy, hcounted, -, hstore⟩
  · exact htidy.toLeads
  · refine htidy.toLeads.trans ⟨hcounted, ?_⟩
    rw [hstore]
    exact Store.reaches_step (.commit s₁.config writes pins now context.admission) hwrites

theorem leads_importDocuments {documents : List Store.ImportedDocument}
    (hdocuments : ∀ document ∈ documents, document.path.InDatabase database) :
    Leads database s (s.importDocuments now documents).2 := by
  have hstore : s.store.Reaches database (s.store.importDocuments s.config documents
      (s.ledger.pruneTransactions s.scope now).2.oldestActiveVersion now).2 :=
    Store.reaches_step (.importDocuments s.config documents _ now) hdocuments
  unfold importDocuments
  dsimp only
  split
  · rename_i himport
    rw [himport] at hstore
    refine ⟨fun h => ?_, hstore⟩
    dsimp only
    split_ifs
    · exact h
    · exact Ledger.maintains_pruneTransactions.counted h
  · rename_i himport
    rw [himport] at hstore
    exact ⟨fun h => h, hstore⟩

end operations

/-! ### Runs -/

/-- What a Firestore database can do.  A read that is recorded for a transaction replaces what it has
observed, and one that is too large to be recorded ends it. -/
inductive Step (database : ProjectId × DatabaseId) (s : FirestoreState) : FirestoreState → Prop
  | beginTransaction (readOnly now) : Step database s (s.beginTransaction now readOnly).2
  | beginReadOnlyTransaction (now) : Step database s (s.beginReadOnlyTransaction now).2
  | beginReadWriteTransaction (now) : Step database s (s.beginReadWriteTransaction now).2
  | beginTransactionAt (readTime now) : Step database s (s.beginTransactionAt now readTime).2
  | retryTransaction (id now) : Step database s (s.retryTransaction id now).2
  | touchTransaction (id now) : Step database s (s.touchTransaction id now).2
  | observe (id readSet queries bytes total) : Step database s (s.observe id readSet queries bytes total)
  | refuseObservation (id) : Step database s (s.finishTransaction id .retryableAborted)
  | stopWaitingToCommit (id) : Step database s (s.update id fun t => { t with waitingToCommit := none })
  | rollback (id) : Step database s (s.rollback id).2
  | rollbackAt (id now) : Step database s (s.rollbackAt id now).2
  | abandonTransaction (id) : Step database s { s with ledger := s.ledger.abandonTransaction s.scope id }
  | commit (context own now owner) (writes : List Write)
      (h : ∀ write ∈ writes, write.op.path.InDatabase database) :
      Step database s (s.commitWithHistoryAdmissionOwned context writes own now owner).2
  | importDocuments (now) (documents : List Store.ImportedDocument)
      (h : ∀ document ∈ documents, document.path.InDatabase database) :
      Step database s (s.importDocuments now documents).2
  | compact (now) : Step database s (s.compact now)
  | syncTtlExpiryIndexes (catalog) : Step database s { s with store := s.store.syncTtlExpiryIndexes catalog }
  | reclaimableHistoryUsage (now) : Step database s { s with
      store := (s.store.baseCompactionReclaim (s.store.retentionFloor s.ledger.oldestActiveVersion now)).2 }
  | visibleSnapshot : Step database s s.visibleSnapshot
  | configure (config) : Step database s { s with config }

/-- The states a database can be in. -/
inductive Reachable (database : ProjectId × DatabaseId) : FirestoreState → Prop
  | new (config offset) : Reachable database (.new config offset)
  | step {s s' : FirestoreState} (h : Reachable database s) (h' : Step database s s') : Reachable database s'

theorem Step.leads (h : Step database s s') : Leads database s s' := by
  cases h with
  | beginTransaction | beginReadOnlyTransaction | beginReadWriteTransaction =>
    exact Tidies.toLeads (tidies_insertTransaction fun _ => rfl)
  | beginTransactionAt => exact tidies_beginTransactionAt.toLeads
  | retryTransaction => exact tidies_retryTransaction.toLeads
  | touchTransaction => exact tidies_touchTransaction.toLeads
  | observe => exact tidies_observe.toLeads
  | refuseObservation id => exact (tidies_finish s id .retryableAborted nofun).toLeads
  | stopWaitingToCommit => exact Tidies.toLeads (tidies_update fun _ _ => rfl)
  | rollback => exact tidies_rollback.toLeads
  | rollbackAt => exact tidies_rollbackAt.toLeads
  | abandonTransaction => exact (tidies_ledger fun h => h.abandonTransaction).toLeads
  | commit context own now owner writes h => exact leads_commit h
  | importDocuments now documents h => exact leads_importDocuments h
  | compact now => exact (tidies_compact s now).toLeads
  | syncTtlExpiryIndexes catalog =>
    exact ⟨fun h => h, Store.reaches_step (.syncTtlExpiryIndexes catalog) trivial⟩
  | reclaimableHistoryUsage => exact ⟨fun h => h, Store.reaches_step (.forecast _) trivial⟩
  | visibleSnapshot =>
    exact ⟨fun _ => ⟨fun _ => rfl, fun _ _ => rfl⟩, Store.reaches_step .visibleSnapshot trivial⟩
  | configure => exact ⟨fun h => h, [], rfl⟩

/-- In every state the index counts the snapshots in use, and the store is one of a run of requests. -/
theorem Reachable.leads (h : Reachable database s) :
    s.ledger.Counted ∧ Store.empty.Reaches database s.store := by
  induction h with
  | new => exact ⟨⟨fun _ => rfl, fun _ _ => rfl⟩, [], rfl⟩
  | step _ h' ih => exact ⟨h'.leads.counted ih.1, ih.2.trans h'.leads.store⟩

theorem Reachable.coherent (h : Reachable database s) : s.store.Coherent database := by
  obtain ⟨requests, hs⟩ := h.leads.2
  exact hs ▸ (Store.coherent_empty database).run requests

/-- Compaction changes no snapshot that can be answered afterwards.  It keeps the active transactions
that have time left, and the snapshot of every transaction that is active afterwards, unless it was
out of reach before or the capacity floor has passed it. -/
theorem compact_keeps_snapshots (s : {s : FirestoreState // s.Reachable database}) (now : LogicalInstant) :
    let s' := s.1.compact now
    s.1.store.compactionFloor ≤ s'.store.compactionFloor ∧ (∀ p, s'.store.get p = s.1.store.get p) ∧
    (∀ p v, s'.store.compactionFloor ≤ v → v ≤ s'.store.version →
      s'.store.getAt p v = s.1.store.getAt p v) ∧
    (∀ id t, s.1.ledger.get id = some t → t.state = .active → now < t.deadline s.1.scope →
      s'.ledger.get id = some t) ∧
    ∀ id t, s'.ledger.get id = some t → t.state = .active → s.1.store.compactionFloor ≤ t.readVersion →
      s'.store.compactionFloor ≤ t.readVersion ∨ t.readVersion < s.1.store.capacityFloor := by
  obtain ⟨s, hs⟩ := s
  intro s'
  have htidy : Tidies database s s' := tidies_compact s now
  have hreads := htidy.reads hs.coherent
  refine ⟨hreads.floor_le, fun p => congrFun hreads.get p, fun p v hv _ => hreads.getAt p v hv,
    fun id t ht ha hd => Ledger.maintains_pruneTransactions.kept id t ha hd ht, ?_⟩
  intro id t ht ha hold
  obtain ⟨oldest, ho, hle⟩ := (htidy.counted hs.leads.1).oldestActiveVersion_le ht ha
  by_cases hcapacity : s.store.capacityFloor ≤ t.readVersion
  · obtain ⟨-, hc⟩ := hs.coherent.compactTo (s.store.retentionFloor s'.ledger.oldestActiveVersion now)
    refine .inl (hc.compactionFloor.trans_le (max_le hold ?_))
    rw [ho]
    exact Store.retentionFloor_le hle hcapacity
  · exact .inr (not_le.1 hcapacity)

/-- A commit that is refused, wherever it is, changes no read, but for history out of reach.  One that is
accepted applies its writes in order, and all that it replaces has its version and its time. -/
theorem commit_atomic (s : {s : FirestoreState // s.Reachable database}) (context : CommitContext)
    (writes : List {write : Write // write.op.path.InDatabase database}) (own : Option TransactionId)
    (now : LogicalInstant) (owner : Option CommitWaitOwner) :
    let (answer, s') := s.1.commitWithHistoryAdmissionOwned context (writes.map Subtype.val) own now owner
    match answer with
    | .error _ => s'.store.version = s.1.store.version ∧
        s'.store.lastCommitTime = s.1.store.lastCommitTime ∧ s'.store.get = s.1.store.get ∧
        ∀ p v, s'.store.compactionFloor ≤ v → s'.store.getAt p v = s.1.store.getAt p v
    | .ok result =>
        s'.store.get = (writes.map Subtype.val).foldl
          (afterWrite result.commitTime (s.1.store.version + 1)) s.1.store.get ∧
        (∀ p d, s'.store.get p ≠ s.1.store.get p → s'.store.get p = some d →
          d.version = result.version ∧ d.updateTime = result.commitTime) ∧
        s'.store.version = result.version ∧ result.version =
          if result.changes.isEmpty then s.1.store.version else s.1.store.version + 1 := by
  obtain ⟨s, hs⟩ := s
  have hwrites : ∀ write ∈ writes.map Subtype.val, write.op.path.InDatabase database := by
    intro write hwrite
    obtain ⟨w, -, rfl⟩ := List.mem_map.1 hwrite
    exact w.2
  rcases s.commit_cases database context (writes.map Subtype.val) own now owner with
    ⟨e, he, htidy⟩ | ⟨s₁, pins, htidy, -, hanswer, hstore⟩
  · dsimp only
    rw [he]
    have hreads := htidy.reads hs.coherent
    exact ⟨hreads.version, hreads.lastCommitTime, hreads.get, hreads.getAt⟩
  have hreads := htidy.reads hs.coherent
  have hcoherent := htidy.coherent hs.coherent
  dsimp only
  rw [hanswer, hstore]
  rcases s₁.store.commit_cases s₁.config (writes.map Subtype.val) pins now context.admission with
    ⟨e, forecast, heq⟩ | ⟨result, s', heq, hcom⟩
  · rw [heq]
    exact ⟨hreads.version, hreads.lastCommitTime, hreads.get, hreads.getAt⟩
  · obtain ⟨-, hadvanced⟩ := hcoherent.committed hwrites hcom
    have hget := hcoherent.get_committed hwrites hcom
    rw [heq, ← hreads.version, ← hreads.get]
    refine ⟨hget, fun p d hne hd => ?_, hadvanced.version.trans hcom.version.symm, hcom.version⟩
    have hchanged : ¬ result.changes.isEmpty = true := fun hnone =>
      hne (hadvanced.frame p (by simp [List.isEmpty_iff.1 hnone]))
    rw [hcom.version, if_neg hchanged]
    rw [hget] at hne hd
    exact (foldl_afterWrite_stamps s₁.store.get).resolve_left hne d hd

end FirestoreState

end Fireemu
