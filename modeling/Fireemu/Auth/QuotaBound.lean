import Fireemu.Auth.QuotaRun

/-!
# The sign-up quota is not over-granted

With one enforced configuration and a clock that does not go back, no more sign-ups are committed in a window
than the limit allows (`Spent`): a bucket that is dropped had nothing committed, or its window has passed for
every call that is still to come.
-/

namespace Fireemu.Auth

open Library (SortedMap Act)
open List Library.SortedMap

/-- The instant of a call. -/
def QuotaCall.instant : QuotaCall → Option LogicalInstant
  | .reserve _ _ now => some now
  | .commit _ now => some now
  | _ => none

/-- The instants of some calls. -/
def instants (calls : List QuotaCall) : List LogicalInstant := calls.filterMap QuotaCall.instant

/-- A configuration that is enforced, with the same limit at all times. -/
structure Fixed (config : SignupQuotaConfig) : Prop where
  mode : config.mode = .enforce
  temporary : config.temporary = none
  limit : config.defaultQuotaPerHour ≤ 1000000

/-- The commits of a log and the buckets agree, with calls at some instants still to come. -/
structure Spent (config : SignupQuotaConfig) (later : List LogicalInstant) (log : List QuotaEntry)
    (q : SignupQuota) : Prop where
  tracked : ∀ key bucket, q.buckets.get key = some bucket →
    log.countP (QuotaEntry.commits key) = bucket.committed ∧
      bucket.committed + bucket.reserved ≤ config.defaultQuotaPerHour
  untracked : ∀ key, q.buckets.get key = none → log.countP (QuotaEntry.commits key) = 0 ∨
    log.countP (QuotaEntry.commits key) ≤ config.defaultQuotaPerHour ∧
      ∀ now ∈ later, key.window + nanosPerHour ≤ now
  room : q.trackedBucketCount ≤ config.maxTrackedBuckets
  config : q.config = config

variable {config : SignupQuotaConfig} {key : BucketKey} {q' : SignupQuota}

theorem Fixed.limitAt (hf : Fixed config) {q : SignupQuota} (hq : q.config = config) (now : LogicalInstant) :
    q.limitAt now = config.defaultQuotaPerHour := by
  unfold SignupQuota.limitAt
  rw [hq, hf.temporary]
  rfl

variable {now : LogicalInstant}

/-- The window of a bucket has not passed at an instant in it. -/
theorem lt_window_bucketKey {projectId peerIp : Str} :
    now < (bucketKey projectId peerIp now).window + nanosPerHour := by
  have h : now < (now / nanosPerHour + 1) * nanosPerHour := Int.lt_ediv_add_one_mul_self now (by decide)
  rwa [Int.add_mul, Int.one_mul] at h

theorem window_le_of_expired (h : SignupQuota.expired key now = true) : key.window + nanosPerHour ≤ now := by
  unfold SignupQuota.expired LogicalInstant.checkedAdd at h
  split_ifs at h
  · simpa using h
  · cases h

section

variable {config : SignupQuotaConfig} {later : List LogicalInstant} {log : List QuotaEntry} {q : SignupQuota}
  {entry : QuotaEntry} {now : LogicalInstant}

theorem Spent.le (h : Spent config later log q) (key : BucketKey) :
    log.countP (QuotaEntry.commits key) ≤ config.defaultQuotaPerHour := by
  cases hget : q.buckets.get key with
  | none => exact (h.untracked key hget).elim (fun hzero => hzero ▸ Nat.zero_le _) And.left
  | some bucket =>
    obtain ⟨hc, hle⟩ := h.tracked key bucket hget
    omega

theorem Spent.weaken {later' : List LogicalInstant} (h : Spent config later log q) (hsub : later' ⊆ later) :
    Spent config later' log q :=
  ⟨h.tracked, fun key hget => (h.untracked key hget).imp_right fun hp =>
    ⟨hp.1, fun now hnow => hp.2 now (hsub hnow)⟩, h.room, h.config⟩

/-- An entry that commits nothing. -/
theorem Spent.log_concat (h : Spent config later log q) (hentry : ∀ key, entry.commits key = false) :
    Spent config later (log ++ [entry]) q := by
  have hc : ∀ key, (log ++ [entry]).countP (QuotaEntry.commits key) = log.countP (QuotaEntry.commits key) :=
    fun key => by rw [countP_concat, hentry]; rfl
  refine ⟨fun key bucket hget => ?_, fun key hget => ?_, h.room, h.config⟩
  · rw [hc]
    exact h.tracked key bucket hget
  · rw [hc]
    exact h.untracked key hget

/-- Dropping the buckets of windows that have passed for every call to come. -/
theorem Spent.pruneExpiredBuckets (h : Spent config later log q) (hl : ∀ t ∈ later, now ≤ t) :
    Spent config later log (q.pruneExpiredBuckets now) := by
  refine ⟨fun key bucket hget => h.tracked key bucket (get_filter_eq_some.1 hget).1,
    fun key hget => ?_, (length_filter_le _ _).trans h.room, h.config⟩
  cases hb : q.buckets.get key with
  | none => exact h.untracked key hb
  | some bucket =>
    refine .inr ⟨h.le key, fun t ht => le_trans ?_ (hl t ht)⟩
    refine window_le_of_expired ?_
    by_contra he
    have : (q.pruneExpiredBuckets now).buckets.get key = some bucket :=
      get_filter_eq_some.2 ⟨hb, by simp [he]⟩
    rw [hget] at this
    cases this

theorem Spent.bucketAt (h : Spent config later log q) (hnow : now ∈ later) (projectId peerIp : Str) :
    log.countP (QuotaEntry.commits (bucketKey projectId peerIp now)) =
      (q.bucketAt (bucketKey projectId peerIp now)).committed := by
  unfold SignupQuota.bucketAt
  cases hget : q.buckets.get (bucketKey projectId peerIp now) with
  | some bucket => exact (h.tracked _ bucket hget).1
  | none =>
    -- the bucket of the present window has not been dropped with anything committed
    refine (h.untracked _ hget).resolve_right fun hp => ?_
    exact absurd (hp.2 now hnow) (not_le.2 (lt_window_bucketKey))

variable {bucket : Bucket} {token observed : ℕ}

/-- Storing a bucket adds at most one, and none if it was there. -/
theorem trackedBucketCount_insert {bound : ℕ} (hle : q.trackedBucketCount ≤ bound)
    (hnew : q.buckets.get key = none → q.trackedBucketCount < bound) :
    (q.buckets.insert key bucket).entries.length ≤ bound := by
  have hsum := sum_insert q.buckets (fun _ _ => 1) key bucket
  unfold SignupQuota.trackedBucketCount at hle hnew
  rw [length_entries] at hle hnew ⊢
  cases hget : q.buckets.get key with
  | none =>
    have := hnew hget
    rw [term_of_get_none hget] at hsum
    omega
  | some =>
    rw [term_of_get hget] at hsum
    omega

theorem Spent.hold (h : Spent config later log q) (hnow : now ∈ later) {projectId peerIp : Str}
    {nextToken : ℕ} (hcapacity : q.buckets.get (bucketKey projectId peerIp now) = none →
      q.trackedBucketCount < config.maxTrackedBuckets)
    (hroom : (q.bucketAt (bucketKey projectId peerIp now)).committed +
      (q.bucketAt (bucketKey projectId peerIp now)).reserved < config.defaultQuotaPerHour)
    (hentry : ∀ key, entry.commits key = false) :
    Spent config later (log ++ [entry]) (q.hold (bucketKey projectId peerIp now) token nextToken observed) := by
  refine Spent.log_concat ?_ hentry
  refine ⟨fun key bucket hget => ?_, fun key hget => ?_, trackedBucketCount_insert h.room hcapacity, h.config⟩
  · change (q.buckets.insert _ _).get key = some bucket at hget
    rw [get_insert] at hget
    split_ifs at hget with hkey
    · cases hget
      refine ⟨hkey ▸ h.bucketAt hnow projectId peerIp, ?_⟩
      change (q.bucketAt _).committed + min _ u64Max ≤ _
      omega
    · exact h.tracked key bucket hget
  · change (q.buckets.insert _ _).get key = none at hget
    rw [get_insert] at hget
    split_ifs at hget
    exact h.untracked key hget

theorem Spent.released (h : Spent config later log q) (hentry : ∀ key, entry.commits key = false)
    (hholds : Holds q key token bucket) :
    Spent config later (log ++ [entry]) (q.unhold key token (bucket.released observed)) := by
  obtain ⟨hc, hle⟩ := h.tracked key bucket hholds.tracked
  refine Spent.log_concat ?_ hentry
  unfold Bucket.released
  split_ifs with hzero
  · -- an empty bucket is dropped
    refine ⟨fun k b hget => ?_, fun k hget => ?_, (length_filter_le _ _).trans h.room, h.config⟩
    · change (q.buckets.erase key).get k = some b at hget
      rw [get_erase] at hget
      split_ifs at hget
      exact h.tracked k b hget
    · change (q.buckets.erase key).get k = none at hget
      rw [get_erase] at hget
      split_ifs at hget with hk
      · rw [hk, hc]
        exact .inl (Bucket.mk.injEq .. ▸ hzero).1
      · exact h.untracked k hget
  · refine ⟨fun k b hget => ?_, fun k hget => ?_, trackedBucketCount_insert h.room fun hnone => ?_, h.config⟩
    · change (q.buckets.insert key _).get k = some b at hget
      rw [get_insert] at hget
      split_ifs at hget with hk
      · cases hget
        refine ⟨hk ▸ hc, ?_⟩
        change bucket.committed + (bucket.reserved - 1) ≤ _
        omega
      · exact h.tracked k b hget
    · change (q.buckets.insert key _).get k = none at hget
      rw [get_insert] at hget
      split_ifs at hget
      exact h.untracked k hget
    · rw [hholds.tracked] at hnone
      cases hnone

theorem Spent.committed (hf : Fixed config) (h : Spent config later log q) {reservation : SignupReservation}
    (hkey : reservation.key = some key) (hholds : Holds q key reservation.token bucket) :
    Spent config later (log ++ [⟨.commit reservation now, none⟩]) (q.unhold key reservation.token
      (some ⟨saturatingAdd bucket.committed 1, bucket.reserved - 1, bucket.observedOverLimit⟩)) := by
  obtain ⟨hc, hle⟩ := h.tracked key bucket hholds.tracked
  have hl := hf.limit
  have hreserved := hholds.reserved
  have hlog : ∀ k, (log ++ [⟨.commit reservation now, none⟩] : List QuotaEntry).countP (QuotaEntry.commits k) =
      log.countP (QuotaEntry.commits k) + (decide (key = k)).toNat := fun k => by
    rw [countP_concat]
    simp [QuotaEntry.commits, hkey]
  have ho : ∀ k, k ≠ key → (log ++ [⟨.commit reservation now, none⟩] : List QuotaEntry).countP
      (QuotaEntry.commits k) = log.countP (QuotaEntry.commits k) := fun k hk => by
    rw [hlog, decide_eq_false (Ne.symm hk)]
    rfl
  have hsucc : saturatingAdd bucket.committed 1 = bucket.committed + 1 := by
    change min _ u64Max = _
    unfold u64Max
    omega
  refine ⟨fun k b hget => ?_, fun k hget => ?_, trackedBucketCount_insert h.room fun hnone => ?_, h.config⟩
  · change (q.buckets.insert key _).get k = some b at hget
    rw [get_insert] at hget
    split_ifs at hget with hk
    · cases hget
      subst hk
      rw [hlog, hc, hsucc, decide_eq_true rfl]
      refine ⟨rfl, ?_⟩
      change bucket.committed + 1 + (bucket.reserved - 1) ≤ _
      omega
    · rw [ho k hk]
      exact h.tracked k b hget
  · change (q.buckets.insert key _).get k = none at hget
    rw [get_insert] at hget
    split_ifs at hget with hk
    rw [ho k hk]
    exact h.untracked k hget
  · rw [hholds.tracked] at hnone
    cases hnone

/-- A call keeps what is spent, if the calls to come are not earlier. -/
theorem Spent.moves (hf : Fixed config) (h : Spent config later log q)
    (hs : ∀ config, entry.call ≠ .setConfig config)
    (hnow : ∀ now, entry.call.instant = some now → now ∈ later ∧ ∀ t ∈ later, now ≤ t) (hm : Moves q entry q') :
    Spent config later (log ++ [entry]) q' := by
  cases hm with
  | same hidle => exact h.log_concat hidle.2
  | pruned projectId peerIp now => exact (h.pruneExpiredBuckets (hnow now rfl).2).log_concat fun _ => rfl
  | @reserved projectId peerIp now token nextToken observed hcapacity hroom htoken =>
    obtain ⟨hmem, hl⟩ := hnow now rfl
    have hroom' := hroom (h.config ▸ hf.mode)
    rw [hf.limitAt h.config, saturatingAdd] at hroom'
    have hlimit := hf.limit
    refine (h.pruneExpiredBuckets hl).hold hmem (h.config ▸ hcapacity) ?_ fun _ => rfl
    unfold u64Max at hroom'
    omega
  | released hentry hcommits hholds => exact h.released hcommits hholds
  | committed hkey hholds => exact h.committed hf hkey hholds
  | configured config => exact absurd rfl (hs config)

end

variable {log : List QuotaEntry} {q : SignupQuota} {issued : ℕ}

/-! ### Runs -/

/-- The reservations of a log. -/
def granted (log : List QuotaEntry) : ℕ := log.countP QuotaEntry.grants

/-- What holds after some calls, of the log and the counter. -/
structure Kept (log : List QuotaEntry) (q : SignupQuota) (issued : ℕ) : Prop where
  sound : Sound issued q
  once : Once issued log q
  issued : issued ≤ granted log

theorem Kept.moves {entry : QuotaEntry} (h : Kept log q issued) (hfew : granted (log ++ [entry]) ≤ u64Max)
    (hm : Moves q entry q') : ∃ issued', Kept (log ++ [entry]) q' issued' := by
  have hg : granted (log ++ [entry]) = granted log + entry.grants.toNat := countP_concat
  have hi := h.issued
  obtain ⟨issued', hle, hge, hs⟩ := h.sound.moves (by omega) hm
  exact ⟨issued', hs, h.once.moves h.sound (by omega) hge hm, by omega⟩

/-- What each call keeps, a run keeps. -/
theorem run_induction {P : List QuotaCall → List QuotaEntry → SignupQuota → Prop}
    (hstep : ∀ c calls log entry q q', q.step c = some (entry, q') → P (c :: calls) log q →
      granted (log ++ [entry]) ≤ u64Max → P calls (log ++ [entry]) q') {calls : List QuotaCall}
    {log' : List QuotaEntry} (hrun : q.run calls = some (log', q')) (h : P calls log q)
    (hfew : granted (log ++ log') ≤ u64Max) : P [] (log ++ log') q' := by
  induction calls generalizing log log' q with
  | nil =>
    cases hrun
    simpa using h
  | cons c calls ih =>
    simp only [SignupQuota.run, Option.bind_eq_bind, Option.bind_eq_some_iff, Prod.exists, Option.pure_def,
      Option.some.injEq, Prod.mk.injEq] at hrun
    obtain ⟨entry, q₁, hf, log₁, q₂, hrest, rfl, rfl⟩ := hrun
    have ha : log ++ entry :: log₁ = log ++ [entry] ++ log₁ := by simp
    rw [ha] at hfew ⊢
    refine ih hrest (hstep c calls log entry q q₁ hf h ?_) hfew
    have hg : granted (log ++ [entry] ++ log₁) = granted (log ++ [entry]) + granted log₁ := countP_append
    omega

/-- A run does not panic before all tokens are drawn. -/
theorem Kept.run (h : Kept log q issued) (calls : List QuotaCall)
    (hfew : granted log + (calls.map QuotaCall.reserves).sum ≤ u64Max) :
    ∃ log' q', q.run calls = some (log', q') := by
  induction calls generalizing log q issued with
  | nil => exact ⟨[], q, rfl⟩
  | cons c calls ih =>
    rw [map_cons, sum_cons] at hfew
    have hi := h.issued
    obtain ⟨entry, q₁, hf⟩ := h.sound.step (c := c) (by omega)
    obtain ⟨hcall, hm⟩ := moves_of_step hf
    have hg : granted (log ++ [entry]) ≤ granted log + c.reserves := by
      unfold granted
      rw [countP_concat, ← hcall]
      refine Nat.add_le_add_left ?_ _
      obtain ⟨call, refusal⟩ := entry
      cases call <;> simp [QuotaEntry.grants, QuotaCall.reserves, Bool.toNat_le]
    obtain ⟨issued', hkept⟩ := h.moves (by omega) hm
    obtain ⟨log', q₂, hrest⟩ := ih hkept (by omega)
    exact ⟨entry :: log', q₂, by simp [SignupQuota.run, hf, hrest]⟩

theorem new_eq_ok (h : SignupQuota.new config = .ok q) :
    q = ⟨config, SortedMap.empty, SortedMap.empty, 1, 0⟩ ∧ config.defaultQuotaPerHour ≤ 1000000 := by
  unfold SignupQuota.new at h
  cases hv : config.validate with
  | error =>
    rw [hv] at h
    cases h
  | ok =>
    rw [hv] at h
    cases h
    refine ⟨rfl, ?_⟩
    by_contra hl
    have ha : ¬ config.algorithm ≠ .fixedWindowV1 := by
      cases config.algorithm
      exact fun h => h rfl
    rw [SignupQuotaConfig.validate, if_neg ha, if_pos (not_le.1 hl)] at hv
    cases hv

theorem kept_new (config : SignupQuotaConfig) :
    Kept [] ⟨config, SortedMap.empty, SortedMap.empty, 1, 0⟩ 0 := by
  refine ⟨⟨nofun, nofun, nofun, le_rfl, fun _ => rfl⟩, ⟨fun _ => Nat.zero_le _, nofun, fun _ _ => rfl⟩, le_rfl⟩

theorem spent_new {later : List LogicalInstant} :
    Spent config later [] ⟨config, SortedMap.empty, SortedMap.empty, 1, 0⟩ :=
  ⟨nofun, fun _ _ => .inl rfl, Nat.zero_le _, rfl⟩

/-- How a call ends, from its weakest precondition. -/
theorem result_of_wp {m : Quota Unit} {P : QuotaFailure → Prop}
    (h : Act.wp m (fun _ _ => True) (fun f _ => P f) q) :
    (m q).1 = .ok () ∨ ∃ f, P f ∧ (m q).1 = .error f := by
  unfold Act.wp at h
  split at h
  · rename_i hrun
    exact .inl (by rw [hrun])
  · rename_i f _ hrun
    exact .inr ⟨f, h, by rw [hrun]⟩

/-- A reservation that is held is finalized when it is committed or released. -/
theorem Sound.finalize (hq : Sound issued q) {reservation : SignupReservation}
    (hkey : reservation.key = some key) (ha : q.activeReservations.get reservation.token = some key) :
    (release reservation q).1 = .ok () ∧ ∀ now, (commit reservation now q).1 = .ok () ∨
      (commit reservation now q).1 = .error (.refused .staleReservation) := by
  obtain ⟨bucket, hb⟩ := hq.tracked _ key ha
  have hholds : Holds q key reservation.token bucket := ⟨ha, hb, hq.reserved_ne_zero ha hb⟩
  constructor
  · have hrelease : release reservation = releaseTracked key reservation.token reservation.wouldExceed := by
      simp only [release, hkey]
    rw [hrelease]
    refine (result_of_wp (P := fun _ => False) (wp_releaseTracked (fun hnone => hnone bucket hholds)
      fun _ _ _ => trivial)).resolve_right ?_
    rintro ⟨_, hf, -⟩
    exact hf
  · intro now
    refine (result_of_wp (P := fun f => f = .refused .staleReservation) (wp_commit (fun hnone => ?_)
      (fun k hk hnone => ?_) (fun _ _ _ _ _ => rfl) fun _ _ _ _ => trivial)).imp_right ?_
    · rw [hkey] at hnone
      cases hnone
    · rw [hkey] at hk
      cases hk
      exact absurd hholds (hnone bucket)
    · rintro ⟨_, rfl, he⟩
      exact he

/-- The sign-up quota is not over-granted. -/
theorem signup_quota_not_over_granted (config : SignupQuotaConfig) (q₀ : SignupQuota)
    (hnew : SignupQuota.new config = .ok q₀) (calls : List QuotaCall) (log : List QuotaEntry) (q : SignupQuota)
    (hrun : q₀.run calls = some (log, q)) (hfew : granted log < 2 ^ 64) :
    (∀ key bucket, q.buckets.get key = some bucket → bucket.reserved = q.holders key) ∧
    (∀ token key, q.activeReservations.get token = some key → (∃ bucket, q.buckets.get key = some bucket) ∧
      ∀ reservation : SignupReservation, reservation.key = some key → reservation.token = token →
        (release reservation q).1 = .ok () ∧ ∀ now, (commit reservation now q).1 = .ok () ∨
          (commit reservation now q).1 = .error (.refused .staleReservation)) ∧
    (∀ more : List QuotaCall, granted log + (more.map QuotaCall.reserves).sum < 2 ^ 64 →
      ∃ log' q', q.run more = some (log', q')) ∧ (∀ token, log.countP (QuotaEntry.finalizes token) ≤ 1) ∧
    (config.mode = .enforce → config.temporary = none → (∀ c ∈ calls, ∀ config', c ≠ .setConfig config') →
      (instants calls).Pairwise (· ≤ ·) →
      (∀ key, log.countP (QuotaEntry.commits key) ≤ config.defaultQuotaPerHour) ∧
        q.trackedBucketCount ≤ config.maxTrackedBuckets) := by
  obtain ⟨rfl, hlimit⟩ := new_eq_ok hnew
  have hbound : granted log ≤ u64Max := by
    unfold u64Max
    omega
  obtain ⟨issued, hkept⟩ := run_induction (P := fun _ log q => ∃ issued, Kept log q issued)
    (fun c calls log entry q q' hstep h hfew => h.elim fun _ h => h.moves hfew (moves_of_step hstep).2)
    hrun ⟨0, kept_new config⟩ hbound
  refine ⟨hkept.sound.reserved, fun token key hactive => ⟨hkept.sound.tracked token key hactive, ?_⟩,
    fun more hmore => hkept.run more ?_, hkept.once.once, fun hmode htemporary hsteady hordered => ?_⟩
  · rintro reservation hkey rfl
    exact hkept.sound.finalize hkey hactive
  · unfold u64Max
    exact Nat.le_sub_one_of_lt hmore
  · have hspent := run_induction (P := fun calls log q => (∀ c ∈ calls, ∀ config', c ≠ .setConfig config') ∧
      (instants calls).Pairwise (· ≤ ·) ∧ Spent config (instants calls) log q) ?_
      hrun ⟨hsteady, hordered, spent_new⟩ hbound
    · exact ⟨hspent.2.2.le, hspent.2.2.room⟩
    · rintro c calls log entry q q' hstep ⟨hsteady, hordered, hspent⟩ -
      obtain ⟨hcall, hmoves⟩ := moves_of_step hstep
      have hsuffix : instants calls <:+ instants (c :: calls) := by
        unfold instants
        rw [filterMap_cons]
        split
        · exact suffix_rfl
        · exact suffix_cons _ _
      refine ⟨fun c' hc' => hsteady c' (mem_cons_of_mem c hc'), hordered.sublist hsuffix.sublist, ?_⟩
      refine (hspent.moves ⟨hmode, htemporary, hlimit⟩ (hcall ▸ hsteady c mem_cons_self)
        (fun now hnow => ?_) hmoves).weaken hsuffix.subset
      rw [hcall] at hnow
      have hcons : instants (c :: calls) = now :: instants calls := filterMap_cons_some hnow
      rw [hcons] at hordered ⊢
      exact ⟨mem_cons_self, fun t ht => (mem_cons.1 ht).elim (fun h => h.ge)
        ((pairwise_cons.1 hordered).1 t)⟩

/-- One sign-up per hour. -/
def sampleConfig : SignupQuotaConfig := ⟨.enforce, .fixedWindowV1, 1, 1, none⟩

/-- A sign-up that is reserved and committed, and a second one that is refused. -/
def sampleCalls : List QuotaCall :=
  [.reserve ['p'] ['a'] 7, .commit ⟨some (bucketKey ['p'] ['a'] 7), 1, 0, 0, 1, .enforce, false⟩ 8,
    .reserve ['p'] ['a'] 9]

theorem signup_quota_one_per_hour : ∃ q₀ log q, SignupQuota.new sampleConfig = .ok q₀ ∧
    q₀.run sampleCalls = some (log, q) ∧ log.map QuotaEntry.refusal = [none, none, some .exceeded] ∧
    ∀ key, log.countP (QuotaEntry.commits key) ≤ 1 := by
  refine ⟨_, _, _, rfl, rfl, rfl, ?_⟩
  refine ((signup_quota_not_over_granted sampleConfig _ rfl sampleCalls _ _ rfl (by decide)).2.2.2.2 rfl rfl
    ?_ ?_).1
  · simp [sampleCalls]
  · simp [sampleCalls, instants, QuotaCall.instant]

end Fireemu.Auth
