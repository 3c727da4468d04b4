import Fireemu.Library.Act
import Fireemu.Library.SortedMap
import Fireemu.Types.Ids
import Fireemu.Types.Machine
import Fireemu.Types.Time

/-!
# The sign-up quota

A bounded fixed-window counter of sign-ups (`signup_quota.rs`).  A sign-up reserves one unit of the bucket of
its project, peer and hour, and later commits or releases it.  Reservations that are held are in
`activeReservations`; a bucket counts what is committed and what is held.
-/

namespace Fireemu.Auth

open Library (SortedMap Act)

/-- The local quota simulation mode. -/
inductive QuotaMode
  | off
  | observe
  | enforce
  deriving DecidableEq

/-- The only supported algorithm: UTC-aligned half-open hourly windows. -/
inductive QuotaAlgorithm
  | fixedWindowV1
  deriving DecidableEq

/-- Invalid local quota configuration. -/
inductive QuotaConfigError
  | unsupportedAlgorithm
  | defaultQuotaOutOfRange
  | bucketLimitOutOfRange
  | quotaOutOfRange
  | durationNotPositive
  | intervalOverflow
  deriving DecidableEq

/-- A temporary quota interval. -/
structure TemporaryQuota where
  quota : ℕ
  startTime : LogicalInstant
  duration : LogicalDuration
  deriving DecidableEq

/-- Creates a validated temporary quota. -/
def TemporaryQuota.new (quota : ℕ) (startTime : LogicalInstant) (duration : LogicalDuration) :
    Except QuotaConfigError TemporaryQuota :=
  if 2 ^ 63 - 1 < quota then .error .quotaOutOfRange
  else if duration ≤ 0 then .error .durationNotPositive
  else match LogicalInstant.checkedAdd startTime duration with
    | none => .error .intervalOverflow
    | some _ => .ok ⟨quota, startTime, duration⟩

def TemporaryQuota.activeAt (temporary : TemporaryQuota) (now : LogicalInstant) : Bool :=
  temporary.startTime ≤ now &&
    (LogicalInstant.checkedAdd temporary.startTime temporary.duration).any (now < ·)

/-- Configuration of the counter. -/
structure SignupQuotaConfig where
  mode : QuotaMode
  algorithm : QuotaAlgorithm
  defaultQuotaPerHour : ℕ
  maxTrackedBuckets : ℕ
  temporary : Option TemporaryQuota
  deriving DecidableEq

/-- Validates a local simulation configuration. -/
def SignupQuotaConfig.validate (config : SignupQuotaConfig) : Except QuotaConfigError Unit := do
  if config.algorithm ≠ .fixedWindowV1 then throw .unsupportedAlgorithm
  if 1000000 < config.defaultQuotaPerHour then throw .defaultQuotaOutOfRange
  if ¬ (1 ≤ config.maxTrackedBuckets ∧ config.maxTrackedBuckets ≤ 65536) then throw .bucketLimitOutOfRange
  match config.temporary with
  | none => return ()
  | some temporary => do
      let _ ← TemporaryQuota.new temporary.quota temporary.startTime temporary.duration

/-- Runtime quota errors. -/
inductive QuotaError
  | invalidPeerAddress
  | exceeded
  | bucketCapacity
  | invalidReservation
  | staleReservation
  deriving DecidableEq

/-- How a call can fail: it is refused, or an expectation does not hold or a loop does not end. -/
inductive QuotaFailure
  | refused (error : QuotaError)
  | panicked
  deriving DecidableEq

/-- Project, peer address and start of the window. -/
abbrev BucketKey := Str ×ₗ Str ×ₗ LogicalInstant

structure Bucket where
  committed : ℕ
  reserved : ℕ
  observedOverLimit : ℕ
  deriving DecidableEq

/-- A reservation held between an accepted sign-up preflight and its commit. -/
structure SignupReservation where
  key : Option BucketKey
  token : ℕ
  generation : ℕ
  windowStart : LogicalInstant
  limit : ℕ
  mode : QuotaMode
  /-- In observe mode: the request exceeded the configured limit. -/
  wouldExceed : Bool
  deriving DecidableEq

/-- A bounded local sign-up counter. -/
structure SignupQuota where
  config : SignupQuotaConfig
  buckets : SortedMap BucketKey Bucket
  activeReservations : SortedMap ℕ BucketKey
  nextToken : ℕ
  generation : ℕ

/-- A call on the counter. -/
abbrev Quota (α : Type) := Act QuotaFailure SignupQuota α

def nanosPerHour : ℤ := 3600000000000

/-- The start of the hour of an instant. -/
def windowStart (now : LogicalInstant) : LogicalInstant := now / nanosPerHour * nanosPerHour

/-- The bucket of a sign-up. -/
def bucketKey (projectId peerIp : Str) (now : LogicalInstant) : BucketKey :=
  toLex (projectId, toLex (peerIp, windowStart now))

/-- The start of the window of a bucket. -/
def BucketKey.window (key : BucketKey) : LogicalInstant := (ofLex (ofLex key).2).2

/-- `wrapping_add(1).max(1)` on 64 bits. -/
def wrappingSucc (n : ℕ) : ℕ := max ((n + 1) % 2 ^ 64) 1

namespace SignupQuota

/-- A counter from a validated local configuration. -/
def new (config : SignupQuotaConfig) : Except QuotaConfigError SignupQuota := do
  config.validate
  return ⟨config, SortedMap.empty, SortedMap.empty, 1, 0⟩

/-- The quota of an instant. -/
def limitAt (q : SignupQuota) (now : LogicalInstant) : ℕ :=
  match q.config.temporary.filter fun temporary => temporary.activeAt now with
  | none => q.config.defaultQuotaPerHour
  | some temporary => temporary.quota

/-- Whether the window of a bucket has passed. -/
def expired (key : BucketKey) (now : LogicalInstant) : Bool :=
  (LogicalInstant.checkedAdd key.window nanosPerHour).any (· ≤ now)

/-- Drops the buckets of windows that have passed, except those in use. -/
def pruneExpiredBuckets (q : SignupQuota) (now : LogicalInstant) : SignupQuota :=
  { q with buckets := q.buckets.filter fun key bucket =>
      !expired key now || bucket.reserved ≠ 0 || (q.activeReservations.entries.any fun e => e.2 = key) }

/-- The number of retained buckets. -/
def trackedBucketCount (q : SignupQuota) : ℕ := q.buckets.entries.length

/-- The first token from one on that is not in use, and the token after it. -/
def freshToken (active : SortedMap ℕ BucketKey) : ℕ → ℕ → Option (ℕ × ℕ)
  | 0, _ => none
  | fuel + 1, token =>
      if active.contains token then freshToken active fuel (wrappingSucc token)
      else some (token, wrappingSucc token)

end SignupQuota

/-- Makes sure that there is a bucket; whether there was one. -/
def trackBucket (key : BucketKey) : Quota Bool := do
  let q ← Act.get
  if q.buckets.contains key then return true
  else do
    Act.require (q.trackedBucketCount < q.config.maxTrackedBuckets) (.refused .bucketCapacity)
    Act.modify fun q => { q with buckets := q.buckets.insert key ⟨0, 0, 0⟩ }
    return false

/-- Draws a token for a reservation of a bucket. -/
def holdReservation (key : BucketKey) : Quota ℕ := do
  let q ← Act.get
  -- the loop ends after as many tries as there are tokens in use
  let (token, nextToken) ← Act.orElse
    (SignupQuota.freshToken q.activeReservations (q.activeReservations.entries.length + 1) q.nextToken) .panicked
  Act.modify fun q => { q with nextToken, activeReservations := q.activeReservations.insert token key }
  return token

/-- Reserves one successful end-user account creation. -/
def reserve (projectId peerIp : Str) (now : LogicalInstant) : Quota SignupReservation := do
  Act.require (peerIp ≠ [] ∧ peerIp.any Str.isControl = false) (.refused .invalidPeerAddress)
  let q ← Act.get
  if q.config.mode = .off then
    return ⟨none, 0, q.generation, windowStart now, q.limitAt now, q.config.mode, false⟩
  else do
    let key := bucketKey projectId peerIp now
    let limit := q.limitAt now
    Act.modify (·.pruneExpiredBuckets now)
    let bucketWasTracked ← trackBucket key
    let q ← Act.get
    let wouldExceed := (q.buckets.get key).any fun bucket =>
      limit ≤ saturatingAdd bucket.committed bucket.reserved
    if wouldExceed ∧ q.config.mode = .enforce then do
      if !bucketWasTracked then
        Act.modify fun q => { q with buckets := q.buckets.erase key }
      Act.lift (.error (.refused .exceeded))
    else do
      let bucket ← Act.orElse (q.buckets.get key) .panicked
      Act.modify fun q => { q with buckets := q.buckets.insert key { bucket with
        reserved := saturatingAdd bucket.reserved 1
        observedOverLimit :=
          if wouldExceed then saturatingAdd bucket.observedOverLimit 1 else bucket.observedOverLimit } }
      let token ← holdReservation key
      return ⟨some key, token, q.generation, windowStart now, limit, q.config.mode, wouldExceed⟩

/-- Gives up a reservation that is held. -/
def releaseTracked (key : BucketKey) (token : ℕ) (wouldExceed : Bool) : Quota Unit := do
  let q ← Act.get
  Act.require (q.activeReservations.get token = some key) (.refused .invalidReservation)
  let bucket ← Act.orElse (q.buckets.get key) (.refused .invalidReservation)
  Act.require (bucket.reserved ≠ 0) (.refused .invalidReservation)
  let bucket := { bucket with
    reserved := bucket.reserved - 1
    observedOverLimit := if wouldExceed then bucket.observedOverLimit - 1 else bucket.observedOverLimit }
  Act.modify fun q => { q with
    activeReservations := q.activeReservations.erase token
    buckets := if bucket = ⟨0, 0, 0⟩ then q.buckets.erase key else q.buckets.insert key bucket }

/-- Commits a previously accepted reservation after the account exists. -/
def commit (reservation : SignupReservation) (now : LogicalInstant) : Quota Unit := do
  let q ← Act.get
  match reservation.key with
  | none =>
      Act.require (reservation.token = 0 ∧ reservation.generation = q.generation ∧
        reservation.mode = q.config.mode ∧ q.config.mode = .off) (.refused .staleReservation)
  | some key => do
      Act.require (q.activeReservations.get reservation.token = some key) (.refused .invalidReservation)
      if reservation.generation ≠ q.generation ∨ reservation.windowStart ≠ windowStart now ∨
          reservation.limit ≠ q.limitAt now ∨ reservation.mode ≠ q.config.mode then do
        releaseTracked key reservation.token reservation.wouldExceed
        Act.lift (.error (.refused .staleReservation))
      else do
        let bucket ← Act.orElse (q.buckets.get key) (.refused .invalidReservation)
        Act.require (bucket.reserved ≠ 0) (.refused .invalidReservation)
        Act.modify fun q => { q with
          activeReservations := q.activeReservations.erase reservation.token
          buckets := q.buckets.insert key { bucket with
            reserved := bucket.reserved - 1
            committed := saturatingAdd bucket.committed 1 } }

/-- Releases a reservation when account creation fails before commit. -/
def release (reservation : SignupReservation) : Quota Unit :=
  match reservation.key with
  | none => return ()
  | some key => releaseTracked key reservation.token reservation.wouldExceed

/-- Replaces the configuration without changing already counted usage. -/
def setConfig (config : SignupQuotaConfig) (q : SignupQuota) : Except QuotaConfigError Unit × SignupQuota :=
  match config.validate with
  | .error e => (.error e, q)
  | .ok () => (.ok (), { q with config, generation := wrappingSucc q.generation })

/-- The calls on a counter. -/
inductive QuotaCall
  | reserve (projectId peerIp : Str) (now : LogicalInstant)
  | commit (reservation : SignupReservation) (now : LogicalInstant)
  | release (reservation : SignupReservation)
  | setConfig (config : SignupQuotaConfig)

/-- A call with its result: an error of the counter, if it was refused with one. -/
structure QuotaEntry where
  call : QuotaCall
  refusal : Option QuotaError

namespace SignupQuota

/-- Runs a call for its effect. -/
def call (q : SignupQuota) : QuotaCall → Except QuotaFailure Unit × SignupQuota
  | .reserve projectId peerIp now => (do let _ ← Auth.reserve projectId peerIp now : Quota Unit) q
  | .commit reservation now => Auth.commit reservation now q
  | .release reservation => Auth.release reservation q
  | .setConfig config => (.ok (), (Auth.setConfig config q).2)

/-- One call, with what is written to the log; `none` if it panics. -/
def step (q : SignupQuota) (c : QuotaCall) : Option (QuotaEntry × SignupQuota) :=
  match q.call c with
  | (.ok (), q') => some (⟨c, none⟩, q')
  | (.error (.refused e), q') => some (⟨c, some e⟩, q')
  | (.error .panicked, _) => none

/-- A sequence of calls and their log. -/
def run (q : SignupQuota) : List QuotaCall → Option (List QuotaEntry × SignupQuota)
  | [] => some ([], q)
  | c :: calls => do
      let (entry, q) ← q.step c
      let (log, q) ← q.run calls
      return (entry :: log, q)

end SignupQuota

end Fireemu.Auth
