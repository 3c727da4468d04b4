import Fireemu.Auth.SignupQuota
import Fireemu.Library.MapUnion

/-!
# Runs of the sign-up quota

What a call can do to a counter (`Moves`), and from it: a bucket counts the reservations that are held on it
(`Sound`), and a reservation is finalized once (`Once`).
-/

namespace Fireemu.Auth

open Library (SortedMap Act)
open Option Library.SortedMap Library.Act

/-! ### Calls -/

/-- The call took the reservation of a token out of those that are held. -/
def QuotaEntry.finalizes (token : ℕ) (entry : QuotaEntry) : Bool :=
  match entry.call with
  | .commit reservation _ => reservation.key.isSome && reservation.token = token &&
      (entry.refusal = none || entry.refusal = some .staleReservation)
  | .release reservation => reservation.key.isSome && reservation.token = token && entry.refusal = none
  | _ => false

/-- The call committed a sign-up to a bucket. -/
def QuotaEntry.commits (key : BucketKey) (entry : QuotaEntry) : Bool :=
  match entry.call with
  | .commit reservation _ => reservation.key = some key && entry.refusal = none
  | _ => false

/-- The call made a reservation. -/
def QuotaEntry.grants (entry : QuotaEntry) : Bool :=
  match entry.call with
  | .reserve .. => entry.refusal = none
  | _ => false

/-- An entry that neither finalizes nor commits anything. -/
def QuotaEntry.Idle (entry : QuotaEntry) : Prop :=
  (∀ token, entry.finalizes token = false) ∧ ∀ key, entry.commits key = false

namespace SignupQuota

/-- A bucket, or a new one. -/
def bucketAt (q : SignupQuota) (key : BucketKey) : Bucket := (q.buckets.get key).getD ⟨0, 0, 0⟩

/-- A counter in which one more reservation is held. -/
def hold (q : SignupQuota) (key : BucketKey) (token nextToken observedOverLimit : ℕ) : SignupQuota :=
  { q with
    nextToken
    activeReservations := q.activeReservations.insert token key
    buckets := q.buckets.insert key
      ⟨(q.bucketAt key).committed, saturatingAdd (q.bucketAt key).reserved 1, observedOverLimit⟩ }

/-- A counter in which a reservation is no longer held, with a new bucket or none. -/
def unhold (q : SignupQuota) (key : BucketKey) (token : ℕ) (bucket : Option Bucket) : SignupQuota :=
  { q with
    activeReservations := q.activeReservations.erase token
    buckets := match bucket with
      | none => q.buckets.erase key
      | some bucket => q.buckets.insert key bucket }

end SignupQuota

variable {q : SignupQuota} {token issued : ℕ} {key : BucketKey}

/-- A reservation that is held on a bucket. -/
structure Holds (q : SignupQuota) (key : BucketKey) (token : ℕ) (bucket : Bucket) : Prop where
  active : q.activeReservations.get token = some key
  tracked : q.buckets.get key = some bucket
  reserved : bucket.reserved ≠ 0

/-- The bucket after a reservation is released. -/
def Bucket.released (bucket : Bucket) (observed : ℕ) : Option Bucket :=
  if Bucket.mk bucket.committed (bucket.reserved - 1) observed = ⟨0, 0, 0⟩ then none
  else some ⟨bucket.committed, bucket.reserved - 1, observed⟩

/-- What a call can do to a counter. -/
inductive Moves (q : SignupQuota) : QuotaEntry → SignupQuota → Prop
  | same {entry : QuotaEntry} (hidle : entry.Idle) : Moves q entry q
  | pruned (projectId peerIp : Str) (now : LogicalInstant) (e : QuotaError) :
      Moves q ⟨.reserve projectId peerIp now, some e⟩ (q.pruneExpiredBuckets now)
  | reserved {projectId peerIp : Str} {now : LogicalInstant} {token nextToken observed : ℕ}
      (hcapacity : (q.pruneExpiredBuckets now).buckets.get (bucketKey projectId peerIp now) = none →
        (q.pruneExpiredBuckets now).trackedBucketCount < q.config.maxTrackedBuckets)
      (hroom : q.config.mode = .enforce →
        saturatingAdd ((q.pruneExpiredBuckets now).bucketAt (bucketKey projectId peerIp now)).committed
          ((q.pruneExpiredBuckets now).bucketAt (bucketKey projectId peerIp now)).reserved < q.limitAt now)
      (htoken : SignupQuota.freshToken q.activeReservations (q.activeReservations.entries.length + 1)
        q.nextToken = some (token, nextToken)) :
      Moves q ⟨.reserve projectId peerIp now, none⟩
        ((q.pruneExpiredBuckets now).hold (bucketKey projectId peerIp now) token nextToken observed)
  | released {entry : QuotaEntry} {key : BucketKey} {token observed : ℕ} {bucket : Bucket}
      (hentry : ∀ t, entry.finalizes t = decide (token = t)) (hcommits : ∀ key, entry.commits key = false)
      (hholds : Holds q key token bucket) : Moves q entry (q.unhold key token (bucket.released observed))
  | committed {reservation : SignupReservation} {now : LogicalInstant} {key : BucketKey} {bucket : Bucket}
      (hkey : reservation.key = some key) (hholds : Holds q key reservation.token bucket) :
      Moves q ⟨.commit reservation now, none⟩ (q.unhold key reservation.token
        (some ⟨saturatingAdd bucket.committed 1, bucket.reserved - 1, bucket.observedOverLimit⟩))
  | configured (config : SignupQuotaConfig) :
      Moves q ⟨.setConfig config, none⟩ { q with config, generation := wrappingSucc q.generation }

/-! ### What a bucket counts -/

/-- The reservations that are held on a bucket. -/
def SignupQuota.holders (q : SignupQuota) (key : BucketKey) : ℕ :=
  q.activeReservations.sum fun _ k => if k = key then 1 else 0

/-- The buckets count what is held on them, after a number of reservations. -/
structure Sound (issued : ℕ) (q : SignupQuota) : Prop where
  reserved : ∀ key bucket, q.buckets.get key = some bucket → bucket.reserved = q.holders key
  tracked : ∀ token key, q.activeReservations.get token = some key → ∃ bucket, q.buckets.get key = some bucket
  drawn : ∀ token key, q.activeReservations.get token = some key → token ≤ issued
  count : (q.activeReservations.sum fun _ _ => 1) ≤ issued
  next : issued < u64Max → q.nextToken = issued + 1

theorem holders_pos (h : q.activeReservations.get token = some key) : 0 < q.holders key := by
  have := sum_erase q.activeReservations (fun _ k => if k = key then 1 else 0) token
  rw [term_of_get h, if_pos rfl] at this
  unfold SignupQuota.holders
  omega

theorem Sound.reserved_ne_zero (hq : Sound issued q) {bucket : Bucket}
    (ha : q.activeReservations.get token = some key)
    (hb : q.buckets.get key = some bucket) : bucket.reserved ≠ 0 := by
  rw [hq.reserved key bucket hb]
  exact (holders_pos ha).ne'

/-- A token that has not been drawn is not in use. -/
theorem Sound.freshToken (hq : Sound issued q) (hi : issued < u64Max) :
    SignupQuota.freshToken q.activeReservations (q.activeReservations.entries.length + 1) q.nextToken =
      some (issued + 1, wrappingSucc (issued + 1)) := by
  have hfree : q.activeReservations.contains (issued + 1) = false := by
    rw [Bool.eq_false_iff]
    intro hc
    obtain ⟨key, hkey⟩ := mem_keys_iff_exists.1 (contains_iff.1 hc)
    have := hq.drawn _ key hkey
    omega
  rw [hq.next hi, SignupQuota.freshToken, if_neg (by simp [hfree])]

/-- A sound counter after its old buckets are dropped. -/
theorem Sound.pruneExpiredBuckets (hq : Sound issued q) (now : LogicalInstant) :
    Sound issued (q.pruneExpiredBuckets now) := by
  refine ⟨fun key bucket hget => hq.reserved key bucket (get_filter_eq_some.1 hget).1,
    fun token key ha => ?_, hq.drawn, hq.count, hq.next⟩
  obtain ⟨bucket, hb⟩ := hq.tracked token key ha
  refine ⟨bucket, get_filter_eq_some.2 ⟨hb, ?_⟩⟩
  simp [hq.reserved_ne_zero ha hb]

theorem holders_eq_zero (h : ∀ token, q.activeReservations.get token ≠ some key) : q.holders key = 0 := by
  have hzero : q.holders key = q.activeReservations.sum fun _ _ => 0 :=
    sum_congr fun token k hget => if_neg fun heq : k = key => h token (heq ▸ hget)
  rw [hzero]
  simp [SortedMap.sum]

theorem Sound.reserved_bucketAt (hq : Sound issued q) : (q.bucketAt key).reserved = q.holders key := by
  unfold SignupQuota.bucketAt
  cases hget : q.buckets.get key with
  | some bucket => exact hq.reserved key bucket hget
  | none =>
    refine (holders_eq_zero fun token ha => ?_).symm
    obtain ⟨bucket, hb⟩ := hq.tracked token key ha
    rw [hget] at hb
    cases hb

theorem Sound.holders_le (hq : Sound issued q) (key : BucketKey) : q.holders key ≤ issued := by
  refine le_trans (sum_le_sum fun token k _ => ?_) hq.count
  split_ifs <;> omega

/-- The holders of a bucket after a reservation is taken. -/
theorem holders_hold (hfree : q.activeReservations.get token = none) (key : BucketKey)
    (nextToken observed : ℕ) (k : BucketKey) :
    (q.hold key token nextToken observed).holders k = q.holders k + if key = k then 1 else 0 :=
  (sum_insert_of_get_none _ _ hfree).trans (add_comm _ _)

/-- The holders of a bucket after a reservation is given up. -/
theorem holders_unhold (ha : q.activeReservations.get token = some key) (bucket : Option Bucket)
    (k : BucketKey) : q.holders k = (q.unhold key token bucket).holders k + if key = k then 1 else 0 := by
  have he := sum_erase q.activeReservations (fun _ k' => if k' = k then 1 else 0) token
  rw [term_of_get ha] at he
  exact he.trans (add_comm _ _)

theorem Sound.hold (hq : Sound issued q) (hi : issued < u64Max) (key : BucketKey) (observed : ℕ) :
    Sound (issued + 1) (q.hold key (issued + 1) (wrappingSucc (issued + 1)) observed) := by
  have hfree : q.activeReservations.get (issued + 1) = none := by
    rw [eq_none_iff_forall_ne_some]
    intro k hk
    have := hq.drawn _ k hk
    omega
  refine ⟨fun k bucket hget => ?_, fun token k ha => ?_, fun token k ha => ?_, ?_, fun hlt => ?_⟩
  · rw [holders_hold hfree]
    change (q.buckets.insert key _).get k = some bucket at hget
    rw [get_insert] at hget
    split_ifs at hget with hk
    · cases hget
      have := hq.holders_le key
      rw [hk, if_pos rfl]
      change min ((q.bucketAt key).reserved + 1) u64Max = _
      rw [hq.reserved_bucketAt]
      omega
    · rw [if_neg (Ne.symm hk)]
      exact hq.reserved k bucket hget
  · change ∃ bucket, (q.buckets.insert key _).get k = some bucket
    rw [get_insert]
    split_ifs with hk
    · exact ⟨_, rfl⟩
    · change (q.activeReservations.insert (issued + 1) key).get token = some k at ha
      rw [get_insert] at ha
      split_ifs at ha with htoken
      · cases ha
        exact absurd rfl hk
      · exact hq.tracked token k ha
  · change (q.activeReservations.insert (issued + 1) key).get token = some k at ha
    rw [get_insert] at ha
    split_ifs at ha with htoken
    · exact htoken.le
    · exact (hq.drawn token k ha).trans (Nat.le_succ _)
  · have := sum_insert_of_get_none (fun _ _ => 1) key hfree
    have hc := hq.count
    change (q.activeReservations.insert (issued + 1) key).sum (fun _ _ => 1) ≤ _
    omega
  · change max ((issued + 1 + 1) % 2 ^ 64) 1 = issued + 1 + 1
    unfold u64Max at hlt
    omega

/-- A sound counter after a reservation is given up. -/
theorem Sound.unhold (hq : Sound issued q) (ha : q.activeReservations.get token = some key)
    {before : Bucket} (hbef : q.buckets.get key = some before) {after : Option Bucket}
    (hafter : ∀ bucket, after = some bucket → bucket.reserved = before.reserved - 1)
    (hnone : after = none → before.reserved = 1) : Sound issued (q.unhold key token after) := by
  have hh := fun k => holders_unhold ha after k
  have hreserved := hq.reserved key before hbef
  have hget : ∀ t k, (q.unhold key token after).activeReservations.get t = some k →
      t ≠ token ∧ q.activeReservations.get t = some k := fun t k ht => by
    change (q.activeReservations.erase token).get t = some k at ht
    rw [get_erase] at ht
    split_ifs at ht with htoken
    exact ⟨htoken, ht⟩
  refine ⟨fun k bucket hb => ?_, fun t k ht => ?_, fun t k ht => hq.drawn t k (hget t k ht).2, ?_, hq.next⟩
  · have hk := hh k
    cases after with
    | none =>
      change (q.buckets.erase key).get k = some bucket at hb
      rw [get_erase] at hb
      split_ifs at hb with heq
      rw [if_neg (Ne.symm heq)] at hk
      rw [hq.reserved k bucket hb, hk, add_zero]
    | some bucket' =>
      change (q.buckets.insert key bucket').get k = some bucket at hb
      rw [get_insert] at hb
      split_ifs at hb with heq
      · cases hb
        subst heq
        rw [if_pos rfl] at hk
        rw [hafter bucket rfl]
        omega
      · rw [if_neg (Ne.symm heq)] at hk
        rw [hq.reserved k bucket hb, hk, add_zero]
  · obtain ⟨bucket, hb⟩ := hq.tracked t k (hget t k ht).2
    cases after with
    | none =>
      -- the bucket of the last reservation goes, and no other reservation is held on it
      have hk := hh k
      have hpos := holders_pos ht
      refine ⟨bucket, ?_⟩
      change (q.buckets.erase key).get k = some bucket
      rw [get_erase_of_ne _ fun heq => ?_, hb]
      subst heq
      rw [if_pos rfl] at hk
      have := hnone rfl
      omega
    | some bucket' =>
      change ∃ bucket, (q.buckets.insert key bucket').get k = some bucket
      rw [get_insert]
      split_ifs
      · exact ⟨_, rfl⟩
      · exact ⟨bucket, hb⟩
  · have := sum_erase q.activeReservations (fun _ _ => 1) token
    have hc := hq.count
    change (q.activeReservations.erase token).sum (fun _ _ => 1) ≤ _
    omega

/-- A call keeps a counter sound. -/
theorem Sound.moves {q' : SignupQuota} {entry : QuotaEntry} (hq : Sound issued q)
    (hi : issued + entry.grants.toNat ≤ u64Max) (h : Moves q entry q') :
    ∃ issued' ≤ issued + entry.grants.toNat, issued ≤ issued' ∧ Sound issued' q' := by
  cases h with
  | same => exact ⟨issued, Nat.le_add_right _ _, le_rfl, hq⟩
  | pruned projectId peerIp now => exact ⟨issued, Nat.le_add_right _ _, le_rfl, hq.pruneExpiredBuckets now⟩
  | @reserved projectId peerIp now token nextToken observed hcapacity hroom htoken =>
    have hlt : issued < u64Max := hi
    rw [hq.freshToken hlt, Option.some.injEq, Prod.mk.injEq] at htoken
    obtain ⟨rfl, rfl⟩ := htoken
    exact ⟨issued + 1, le_rfl, Nat.le_succ _, (hq.pruneExpiredBuckets now).hold hlt _ observed⟩
  | @released _ key token observed bucket hentry hcommits hholds =>
    refine ⟨issued, Nat.le_add_right _ _, le_rfl, hq.unhold hholds.active hholds.tracked (fun b hb => ?_)
      fun hnone => ?_⟩
    · unfold Bucket.released at hb
      split_ifs at hb
      cases hb
      rfl
    · unfold Bucket.released at hnone
      split_ifs at hnone with hzero
      rw [Bucket.mk.injEq] at hzero
      have := hholds.reserved
      omega
  | committed hkey hholds =>
    refine ⟨issued, Nat.le_add_right _ _, le_rfl, hq.unhold hholds.active hholds.tracked (fun b hb => ?_)
      fun hnone => ?_⟩
    · cases hb
      rfl
    · cases hnone
  | configured => exact ⟨issued, Nat.le_add_right _ _, le_rfl, hq.reserved, hq.tracked, hq.drawn, hq.count, hq.next⟩

/-! ### The calls move the counter -/

section

variable {q : SignupQuota} {Q : Unit → SignupQuota → Prop} {E : QuotaFailure → SignupQuota → Prop}

theorem wp_releaseTracked {wouldExceed : Bool}
    (hi : (∀ bucket, ¬ Holds q key token bucket) → E (.refused .invalidReservation) q)
    (hreleased : ∀ bucket observed, Holds q key token bucket →
      Q () (q.unhold key token (bucket.released observed))) :
    Act.wp (releaseTracked key token wouldExceed) Q E q := by
  simp only [releaseTracked, wp_bind, wp_get, wp_require, wp_orElse, wp_modify]
  refine ⟨fun ha => ⟨fun bucket hbucket => ⟨fun hreserved => ?_, fun hreserved => ?_⟩, fun hnone => ?_⟩,
    fun ha => ?_⟩
  · have := hreleased bucket (if wouldExceed then bucket.observedOverLimit - 1 else bucket.observedOverLimit)
      ⟨ha, hbucket, hreserved⟩
    unfold Bucket.released SignupQuota.unhold at this
    split_ifs at this ⊢ <;> exact this
  · refine hi fun b hb => hreserved ?_
    have := hb.tracked
    rw [hbucket] at this
    cases this
    exact hb.reserved
  · refine hi fun b hb => ?_
    have := hb.tracked
    rw [hnone] at this
    cases this
  · exact hi fun b hb => ha hb.active

variable {now : LogicalInstant}

theorem wp_commit {reservation : SignupReservation}
    (hnone : reservation.key = none → Q () q ∧ E (.refused .staleReservation) q)
    (hi : ∀ key, reservation.key = some key → (∀ bucket, ¬ Holds q key reservation.token bucket) →
      E (.refused .invalidReservation) q)
    (hs : ∀ key bucket observed, reservation.key = some key → Holds q key reservation.token bucket →
      E (.refused .staleReservation) (q.unhold key reservation.token (bucket.released observed)))
    (hc : ∀ key bucket, reservation.key = some key → Holds q key reservation.token bucket →
      Q () (q.unhold key reservation.token
        (some ⟨saturatingAdd bucket.committed 1, bucket.reserved - 1, bucket.observedOverLimit⟩))) :
    Act.wp (commit reservation now) Q E q := by
  rw [commit, wp_bind, wp_get]
  cases hkey : reservation.key with
  | none =>
    obtain ⟨hQ, hE⟩ := hnone hkey
    exact wp_require.2 ⟨fun _ => hQ, fun _ => hE⟩
  | some key =>
    simp only [wp_bind, wp_require, wp_ite]
    refine ⟨fun ha => ⟨fun _ => ?_, fun _ => ?_⟩, fun ha => ?_⟩
    · refine wp_releaseTracked (fun h => hi key hkey h) fun bucket observed hholds => ?_
      exact wp_lift.2 ⟨fun _ h => (by cases h), fun e h => by cases h; exact hs key bucket observed hkey hholds⟩
    · simp only [wp_orElse, wp_modify]
      refine ⟨fun bucket hbucket => ⟨fun hreserved => hc key bucket hkey ⟨ha, hbucket, hreserved⟩,
        fun hreserved => hi key hkey fun b hb => hreserved ?_⟩, fun hm => hi key hkey fun b hb => ?_⟩
      · have := hb.tracked
        rw [hbucket] at this
        cases this
        exact hb.reserved
      · have := hb.tracked
        rw [hm] at this
        cases this
    · exact hi key hkey fun b hb => ha hb.active

/-- The buckets of a counter with one that it had or that is new. -/
structure Tracks (q : SignupQuota) (key : BucketKey) (wasTracked : Bool)
    (buckets : SortedMap BucketKey Bucket) : Prop where
  get : buckets.get key = some (q.bucketAt key)
  insert : ∀ bucket, buckets.insert key bucket = q.buckets.insert key bucket
  erase : (if wasTracked then buckets else buckets.erase key) = q.buckets
  room : q.buckets.get key = none → q.trackedBucketCount < q.config.maxTrackedBuckets

theorem wp_trackBucket {Q : Bool → SignupQuota → Prop} (hfull : E (.refused .bucketCapacity) q)
    (ht : ∀ wasTracked buckets, Tracks q key wasTracked buckets → Q wasTracked { q with buckets }) :
    Act.wp (trackBucket key) Q E q := by
  simp only [trackBucket, wp_bind, wp_get, wp_ite, wp_pure, wp_require, wp_modify, contains_iff, mem_keys]
  refine ⟨fun hsome => ht true q.buckets ⟨?_, fun _ => rfl, rfl, fun hnone => ?_⟩,
    fun hnone => ⟨fun hroom => ht false _ ⟨?_, fun bucket => ?_, ?_, fun _ => hroom⟩, fun _ => hfull⟩⟩
  · obtain ⟨bucket, hb⟩ := isSome_iff_exists.1 hsome
    simp [SignupQuota.bucketAt, hb]
  · simp [hnone] at hsome
  · simp only [not_isSome_iff_eq_none] at hnone
    simp [SignupQuota.bucketAt, hnone]
  · exact insert_insert _ _ _ _
  · simp only [not_isSome_iff_eq_none] at hnone
    exact erase_insert _ hnone

theorem wp_reserve {projectId peerIp : Str} {Q : SignupReservation → SignupQuota → Prop}
    (hsame : ∀ e, E (.refused e) q) (hoff : ∀ r, Q r q) (hp : ∀ e, E (.refused e) (q.pruneExpiredBuckets now))
    (hpanicked : ∀ s, SignupQuota.freshToken q.activeReservations (q.activeReservations.entries.length + 1)
      q.nextToken = none → E .panicked s) (hreserved : ∀ r token nextToken observed,
      ((q.pruneExpiredBuckets now).buckets.get (bucketKey projectId peerIp now) = none →
        (q.pruneExpiredBuckets now).trackedBucketCount < q.config.maxTrackedBuckets) →
      (q.config.mode = .enforce →
        saturatingAdd ((q.pruneExpiredBuckets now).bucketAt (bucketKey projectId peerIp now)).committed
          ((q.pruneExpiredBuckets now).bucketAt (bucketKey projectId peerIp now)).reserved < q.limitAt now) →
      SignupQuota.freshToken q.activeReservations (q.activeReservations.entries.length + 1) q.nextToken =
        some (token, nextToken) →
      Q r ((q.pruneExpiredBuckets now).hold (bucketKey projectId peerIp now) token nextToken observed)) :
    Act.wp (reserve projectId peerIp now) Q E q := by
  simp only [reserve, wp_bind, wp_get, wp_require, wp_ite, wp_pure, wp_modify]
  refine ⟨fun _ => ⟨fun _ => hoff _, fun _ => ?_⟩, fun _ => hsame _⟩
  refine wp_trackBucket (hp _) fun wasTracked buckets hb => ?_
  have herase := hb.erase
  simp only [hb.get, any_some, decide_eq_true_eq, wp_lift, wp_orElse]
  refine ⟨fun _ => ?_, fun hroom => ⟨fun bucket hbucket => ?_, fun hnone => by cases hnone⟩⟩
  · -- what was refused leaves the counter as the pruning left it
    cases wasTracked with
    | true =>
      refine ⟨fun h => (by cases h), fun _ => ⟨fun _ h => (by cases h), fun e he => ?_⟩⟩
      cases he
      rw [if_pos rfl] at herase
      rw [herase]
      exact hp .exceeded
    | false =>
      refine ⟨fun _ => ⟨fun _ h => (by cases h), fun e he => ?_⟩, fun h => absurd rfl h⟩
      cases he
      rw [if_neg (by decide)] at herase
      rw [herase]
      exact hp .exceeded
  · cases hbucket
    simp only [holdReservation, wp_bind, wp_get, wp_orElse, wp_modify, wp_pure]
    refine ⟨fun drawn hd => ?_, hpanicked _⟩
    rw [hb.insert]
    exact hreserved _ drawn.1 drawn.2 _ hb.room
      (fun henforce => not_le.1 fun hle => hroom ⟨hle, henforce⟩) hd

end

variable {q q' : SignupQuota} {entry : QuotaEntry} {issued issued' : ℕ} {log : List QuotaEntry}

/-- The reservations that a call asks for. -/
def QuotaCall.reserves : QuotaCall → ℕ
  | .reserve .. => 1
  | _ => 0

theorem QuotaEntry.idle_reserve (projectId peerIp : Str) (now : LogicalInstant) (refusal : Option QuotaError) :
    (⟨.reserve projectId peerIp now, refusal⟩ : QuotaEntry).Idle :=
  ⟨fun _ => rfl, fun _ => rfl⟩

theorem QuotaEntry.idle_untracked {reservation : SignupReservation} (hkey : reservation.key = none)
    (now : LogicalInstant) (refusal : Option QuotaError) :
    (⟨.commit reservation now, refusal⟩ : QuotaEntry).Idle ∧ (⟨.release reservation, refusal⟩ : QuotaEntry).Idle := by
  simp [Idle, finalizes, commits, hkey]

/-- What a call does: it moves the counter, or it panics because no token is free. -/
theorem wp_call (q : SignupQuota) (c : QuotaCall) :
    Act.wp (fun q => q.call c : Quota Unit) (fun _ q' => Moves q ⟨c, none⟩ q')
      (fun f q' => match f with
        | .refused e => Moves q ⟨c, some e⟩ q'
        | .panicked => c.reserves = 1 ∧ SignupQuota.freshToken q.activeReservations
            (q.activeReservations.entries.length + 1) q.nextToken = none) q := by
  cases c with
  | reserve =>
    refine wp_bind.2 (wp_reserve (fun e => .same (QuotaEntry.idle_reserve ..))
      (fun r => .same (QuotaEntry.idle_reserve ..)) (fun e => .pruned ..) (fun s h => ⟨rfl, h⟩) ?_)
    intro r token nextToken observed hcapacity hroom htoken
    exact .reserved hcapacity hroom htoken
  | commit =>
    refine wp_commit (fun hkey => ?_) (fun key hkey _ => ?_) (fun key bucket observed hkey hholds => ?_)
      fun key bucket hkey hholds => .committed hkey hholds
    · exact ⟨.same (QuotaEntry.idle_untracked hkey ..).1, .same (QuotaEntry.idle_untracked hkey ..).1⟩
    · exact .same (by simp [QuotaEntry.Idle, QuotaEntry.finalizes, QuotaEntry.commits])
    · exact .released (fun t => by simp [QuotaEntry.finalizes, hkey]) (fun k => by simp [QuotaEntry.commits]) hholds
  | release reservation =>
    cases hkey : reservation.key with
    | none =>
      have hrelease : release reservation = pure () := by simp only [release, hkey]
      change Act.wp (release reservation) _ _ q
      rw [hrelease]
      exact .same (QuotaEntry.idle_untracked hkey 0 none).2
    | some key =>
      have hrelease : release reservation = releaseTracked key reservation.token reservation.wouldExceed := by
        simp only [release, hkey]
      change Act.wp (release reservation) _ _ q
      rw [hrelease]
      refine wp_releaseTracked (fun _ => ?_) fun bucket observed hholds => ?_
      · exact .same (by simp [QuotaEntry.Idle, QuotaEntry.finalizes, QuotaEntry.commits])
      · exact .released (fun t => by simp [QuotaEntry.finalizes, hkey]) (fun k => by simp [QuotaEntry.commits]) hholds
  | setConfig config =>
    change Moves q ⟨.setConfig config, none⟩ (setConfig config q).2
    unfold setConfig
    cases config.validate with
    | error => exact .same ⟨fun _ => rfl, fun _ => rfl⟩
    | ok => exact .configured config

variable {c : QuotaCall}

theorem moves_of_step (h : q.step c = some (entry, q')) : entry.call = c ∧ Moves q entry q' := by
  have hcall := wp_call q c
  unfold SignupQuota.step at h
  split at h
  · rename_i hrun
    cases h
    exact ⟨rfl, wp_of_ok hcall hrun⟩
  · rename_i hrun
    cases h
    exact ⟨rfl, wp_of_error hcall hrun⟩
  · cases h

/-- A call does not panic before all tokens are drawn. -/
theorem Sound.step (hq : Sound issued q) (hi : issued + c.reserves ≤ u64Max) :
    ∃ entry q', q.step c = some (entry, q') := by
  have hcall := wp_call q c
  unfold SignupQuota.step
  split
  · exact ⟨_, _, rfl⟩
  · exact ⟨_, _, rfl⟩
  · rename_i hrun
    obtain ⟨hreserves, hnone⟩ := wp_of_error hcall hrun
    rw [hq.freshToken (by omega)] at hnone
    cases hnone

/-! ### Finalized once -/

/-- Each token is finalized at most once, and not while it is in use or before it is drawn. -/
structure Once (issued : ℕ) (log : List QuotaEntry) (q : SignupQuota) : Prop where
  once : ∀ token, log.countP (QuotaEntry.finalizes token) ≤ 1
  active : ∀ token key, q.activeReservations.get token = some key → log.countP (QuotaEntry.finalizes token) = 0
  undrawn : ∀ token, issued < token → log.countP (QuotaEntry.finalizes token) = 0

theorem countP_concat {p : QuotaEntry → Bool} :
    (log ++ [entry]).countP p = log.countP p + (p entry).toNat := by
  cases h : p entry <;> simp [h]

/-- An entry that finalizes nothing, after which what is held was held or is undrawn. -/
theorem Once.idle (h : Once issued log q) (hle : issued ≤ issued')
    (hentry : ∀ token, entry.finalizes token = false)
    (ha : ∀ token key, q'.activeReservations.get token = some key →
      issued < token ∨ q.activeReservations.get token = some key) : Once issued' (log ++ [entry]) q' := by
  have hc : ∀ token, (log ++ [entry]).countP (QuotaEntry.finalizes token) =
      log.countP (QuotaEntry.finalizes token) := fun token => by rw [countP_concat, hentry]; rfl
  refine ⟨fun token => hc token ▸ h.once token, fun token key hkey => ?_,
    fun token htoken => hc token ▸ h.undrawn token (hle.trans_lt htoken)⟩
  rw [hc]
  exact (ha token key hkey).elim (h.undrawn token) (h.active token key)

/-- An entry that finalizes a reservation that is held. -/
theorem Once.unhold (hq : Sound issued q) (h : Once issued log q) (hle : issued ≤ issued')
    (ha : q.activeReservations.get token = some key) (hentry : ∀ t, entry.finalizes t = decide (token = t))
    (bucket : Option Bucket) : Once issued' (log ++ [entry]) (q.unhold key token bucket) := by
  have hc : ∀ t, (log ++ [entry]).countP (QuotaEntry.finalizes t) =
      log.countP (QuotaEntry.finalizes t) + (decide (token = t)).toNat := fun t => by
    rw [countP_concat, hentry]
  have ho : ∀ t, t ≠ token → (log ++ [entry]).countP (QuotaEntry.finalizes t) =
      log.countP (QuotaEntry.finalizes t) := fun t ht => by
    rw [hc, decide_eq_false (Ne.symm ht)]
    rfl
  refine ⟨fun t => ?_, fun t k hk => ?_, fun t ht => ?_⟩
  · by_cases heq : t = token
    · subst heq
      rw [hc, h.active t key ha, zero_add]
      exact Bool.toNat_le _
    · rw [ho t heq]
      exact h.once t
  · change (q.activeReservations.erase token).get t = some k at hk
    rw [get_erase] at hk
    split_ifs at hk with heq
    rw [ho t heq]
    exact h.active t k hk
  · have hd := hq.drawn token key ha
    rw [ho t (by omega)]
    exact h.undrawn t (by omega)

theorem Once.moves (hq : Sound issued q) (h : Once issued log q) (hi : issued + entry.grants.toNat ≤ u64Max)
    (hle : issued ≤ issued') (hm : Moves q entry q') : Once issued' (log ++ [entry]) q' := by
  cases hm with
  | same hidle => exact h.idle hle hidle.1 fun _ _ => .inr
  | pruned => exact h.idle hle (fun _ => rfl) fun _ _ => .inr
  | @reserved projectId peerIp now token nextToken observed hcapacity hroom htoken =>
    refine h.idle hle (fun _ => rfl) fun t k hk => ?_
    rw [hq.freshToken hi, Option.some.injEq, Prod.mk.injEq] at htoken
    change (q.activeReservations.insert token _).get t = some k at hk
    rw [get_insert] at hk
    split_ifs at hk with heq
    · exact .inl (by omega)
    · exact .inr hk
  | released hentry hcommits hholds => exact h.unhold hq hle hholds.active hentry _
  | committed hkey hholds =>
    exact h.unhold hq hle hholds.active (fun t => by simp [QuotaEntry.finalizes, hkey]) _
  | configured => exact h.idle hle (fun _ => rfl) fun _ _ => .inr

end Fireemu.Auth
