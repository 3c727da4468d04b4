import Fireemu.Library.Fallible
import Fireemu.Types.Ids
import Fireemu.Types.Time

/-!
# Events and their delivery states

A logical event with its delivery state and the transitions of the event state machine (`event.rs`, `state.rs`),
and the retry policy that a failed attempt is decided by (`retry.rs`).
-/

namespace Fireemu.Events

/-- A 128-bit event id. -/
abbrev EventId := Fin (2 ^ 128)

/-- A session epoch. -/
abbrev Epoch := ℕ

/-- The fields of a logical event that its delivery depends on. -/
structure LogicalEvent where
  eventId : EventId
  epoch : Epoch
  logicalTime : LogicalInstant
  deriving DecidableEq

/-! ### Retry policy -/

/-- Bounded retry policy. -/
structure RetryPolicy where
  maxAttempts : ℕ
  baseBackoff : LogicalDuration
  maxBackoff : LogicalDuration
  maxDoublings : Option ℕ
  maxRetryDuration : Option LogicalDuration
  one_le_maxAttempts : 1 ≤ maxAttempts
  baseBackoff_nonneg : 0 ≤ baseBackoff
  baseBackoff_le : baseBackoff ≤ maxBackoff

/-- Invalid retry policy parameters. -/
inductive RetryPolicyError
  | zeroAttempts
  | negativeBackoff
  | baseExceedsMax
  deriving DecidableEq

namespace RetryPolicy

/-- Validates and builds a policy; `maxAttempts` counts the first delivery. -/
def tryNew (maxAttempts : ℕ) (baseBackoff maxBackoff : LogicalDuration) : Except RetryPolicyError RetryPolicy :=
  if hattempts : maxAttempts = 0 then .error .zeroAttempts
  else if hnegative : baseBackoff < 0 ∨ maxBackoff < 0 then .error .negativeBackoff
  else if hmax : maxBackoff < baseBackoff then .error .baseExceedsMax
  else .ok ⟨maxAttempts, baseBackoff, maxBackoff, none, none, Nat.one_le_iff_ne_zero.2 hattempts,
    not_lt.1 fun h => hnegative (.inl h), not_lt.1 hmax⟩

/-- Builds a policy with a bounded exponential phase and a retry window. -/
def tryWithLimits (maxAttempts : ℕ) (baseBackoff maxBackoff : LogicalDuration) (maxDoublings : ℕ)
    (maxRetryDuration : Option LogicalDuration) : Except RetryPolicyError RetryPolicy :=
  if maxRetryDuration.any (· < 0) then .error .negativeBackoff
  else (tryNew maxAttempts baseBackoff maxBackoff).map fun policy =>
    { policy with maxDoublings := some maxDoublings, maxRetryDuration }

/-- The growth of the gap per step after the doublings. -/
def linearStepNanos : ℤ := 2000000000

/-- An `i128` result, if it is one. -/
def checkedI128 (n : ℤ) : Option ℤ := if i128Min ≤ n ∧ n ≤ i128Max then some n else none

/-- Backoff for the failure of an attempt (1-based). -/
def backoffForAttempt (policy : RetryPolicy) (attempt : ℕ) : LogicalDuration :=
  let shift := attempt - 1
  let doublings := policy.maxDoublings.elim shift (min shift)
  let exponential := if doublings < 120 then checkedI128 (policy.baseBackoff * 2 ^ doublings) else none
  let linearSteps := shift - doublings
  let scaled := exponential.bind fun unit => checkedI128 (unit + min (linearStepNanos * linearSteps) i128Max)
  scaled.elim policy.maxBackoff fun v => min v policy.maxBackoff

/-- Whether another attempt is allowed after one failed. -/
def allowsRetryAfter (policy : RetryPolicy) (attempt : ℕ) : Bool := attempt < policy.maxAttempts

/-- Whether a retry follows the failure of an attempt, some time after the first one. -/
def allowsRetryAfterElapsed (policy : RetryPolicy) (attempt : ℕ) (elapsed : LogicalDuration) : Bool :=
  policy.allowsRetryAfter attempt || policy.maxRetryDuration.any fun limit =>
    (checkedI128 (elapsed + policy.backoffForAttempt attempt)).any (· ≤ limit)

end RetryPolicy

/-! ### The state machine -/

/-- Delivery state of an event. -/
inductive EventState
  | pending
  | leased
  | running
  | succeeded
  | retryWaiting (retryAt : LogicalInstant)
  | deadLettered (attempts : ℕ)
  | cancelled
  | discardedStaleEpoch
  deriving DecidableEq

/-- Whether the state is terminal. -/
def EventState.isTerminal : EventState → Bool
  | .succeeded | .deadLettered _ | .cancelled | .discardedStaleEpoch => true
  | .pending | .leased | .running | .retryWaiting _ => false

/-- Stable name for traces. -/
def EventState.name : EventState → String
  | .pending => "Pending"
  | .leased => "Leased"
  | .running => "Running"
  | .succeeded => "Succeeded"
  | .retryWaiting _ => "RetryWaiting"
  | .deadLettered _ => "DeadLettered"
  | .cancelled => "Cancelled"
  | .discardedStaleEpoch => "DiscardedStaleEpoch"

/-- Transition errors. -/
inductive EventTransitionError
  | terminal (state : String)
  | invalidTransition (state action : String)
  | retryNotDue
  | epochIsCurrent
  | attemptOverflow
  | retryInstantOverflow
  deriving DecidableEq

/-- Outcome of a failed attempt. -/
inductive FailureOutcome
  | retryScheduled (retryAt : LogicalInstant)
  | deadLettered
  deriving DecidableEq

/-- An event together with its delivery state and the attempts started so far. -/
structure EventRecord where
  event : LogicalEvent
  state : EventState
  attempt : ℕ
  deriving DecidableEq

namespace EventRecord

/-- A freshly created event. -/
def new (event : LogicalEvent) : EventRecord := ⟨event, .pending, 0⟩

/-- Whether the event is terminal. -/
def isTerminal (r : EventRecord) : Bool := r.state.isTerminal

/-- Refuses an action on a terminal event, or one that the state does not allow. -/
def guard (r : EventRecord) (action : String) (allowed : Bool) : Except EventTransitionError Unit :=
  if r.state.isTerminal then .error (.terminal r.state.name)
  else if !allowed then .error (.invalidTransition r.state.name action)
  else .ok ()

/-- `Pending -> Leased`. -/
def lease (r : EventRecord) : Except EventTransitionError EventRecord := do
  r.guard "lease" (r.state = .pending)
  return { r with state := .leased }

/-- `Leased -> Running`, starting a new attempt. -/
def start (r : EventRecord) : Except EventTransitionError EventRecord := do
  r.guard "start" (r.state = .leased)
  if r.attempt = 2 ^ 32 - 1 then throw .attemptOverflow
  return { r with attempt := r.attempt + 1, state := .running }

/-- `Running -> Succeeded`. -/
def succeed (r : EventRecord) : Except EventTransitionError EventRecord := do
  r.guard "succeed" (r.state = .running)
  return { r with state := .succeeded }

/-- The time since the event. -/
def elapsed (now : LogicalInstant) (r : EventRecord) : LogicalDuration :=
  if now < r.event.logicalTime then 0
  else (LogicalInstant.checkedDurationSince now r.event.logicalTime).getD i128Max

/-- `Running -> RetryWaiting | DeadLettered` according to a policy. -/
def fail (policy : RetryPolicy) (now : LogicalInstant) (r : EventRecord) :
    Except EventTransitionError (FailureOutcome × EventRecord) := do
  r.guard "fail" (r.state = .running)
  if policy.allowsRetryAfterElapsed r.attempt (r.elapsed now) then
    match LogicalInstant.checkedAdd now (policy.backoffForAttempt r.attempt) with
    | none => throw .retryInstantOverflow
    | some retryAt => return (.retryScheduled retryAt, { r with state := .retryWaiting retryAt })
  else return (.deadLettered, { r with state := .deadLettered r.attempt })

/-- `Running -> Pending`: the attempt is given back. -/
def interrupt (r : EventRecord) : Except EventTransitionError EventRecord := do
  r.guard "interrupt" (r.state = .running)
  return { r with attempt := r.attempt - 1, state := .pending }

/-- `RetryWaiting -> Pending` once the retry instant has come. -/
def retryDue (now : LogicalInstant) (r : EventRecord) : Except EventTransitionError EventRecord := do
  match r.state with
  | .retryWaiting retryAt =>
      r.guard "retry" true
      if now < retryAt then throw .retryNotDue
  | _ => r.guard "retry" false
  return { r with state := .pending }

/-- Any non-terminal state `-> Cancelled`. -/
def cancel (r : EventRecord) : Except EventTransitionError EventRecord := do
  r.guard "cancel" true
  return { r with state := .cancelled }

/-- Any non-terminal state `-> DiscardedStaleEpoch` when the epoch is newer than the event's. -/
def discardStale (currentEpoch : Epoch) (r : EventRecord) : Except EventTransitionError EventRecord := do
  r.guard "discard" true
  if currentEpoch ≤ r.event.epoch then throw .epochIsCurrent
  return { r with state := .discardedStaleEpoch }

end EventRecord

/-- The transition methods. -/
inductive Transition
  | lease
  | start
  | succeed
  | fail (policy : RetryPolicy) (now : LogicalInstant)
  | interrupt
  | retryDue (now : LogicalInstant)
  | cancel
  | discardStale (currentEpoch : Epoch)

/-- Runs a transition method. -/
def Transition.attempt : Transition → EventRecord → Except EventTransitionError EventRecord
  | .lease => EventRecord.lease
  | .start => EventRecord.start
  | .succeed => EventRecord.succeed
  | .fail policy now => fun r => (EventRecord.fail policy now r).map Prod.snd
  | .interrupt => EventRecord.interrupt
  | .retryDue now => EventRecord.retryDue now
  | .cancel => EventRecord.cancel
  | .discardStale currentEpoch => EventRecord.discardStale currentEpoch

/-- The record after a transition method: unchanged when it is refused. -/
def Transition.apply (t : Transition) (r : EventRecord) : EventRecord :=
  match t.attempt r with
  | .ok r' => r'
  | .error _ => r

variable {r : EventRecord}

theorem guard_bind_eq_ok {action : String} {allowed : Bool} {α : Type}
    {k : Unit → Except EventTransitionError α} {a : α} (h : (r.guard action allowed >>= k) = .ok a) :
    r.isTerminal = false ∧ k () = .ok a := by
  obtain ⟨⟨⟩, hg, hk⟩ := Library.bind_eq_ok.1 h
  refine ⟨?_, hk⟩
  unfold EventRecord.guard at hg
  split_ifs at hg with ht
  exact Bool.eq_false_iff.2 ht

variable {t : Transition}

/-- A transition keeps the event, and a terminal event has none. -/
theorem attempt_eq_ok {r' : EventRecord} (h : t.attempt r = .ok r') :
    r.isTerminal = false ∧ r'.event = r.event := by
  cases t with
  | lease | succeed | interrupt | cancel =>
    refine (guard_bind_eq_ok h).imp_right fun hk => ?_
    cases hk
    rfl
  | start | discardStale =>
    refine (guard_bind_eq_ok h).imp_right fun hk => ?_
    split_ifs at hk
    · cases hk
    · cases hk
      rfl
  | fail =>
    obtain ⟨⟨outcome, _⟩, hfail, rfl⟩ := Library.map_eq_ok.1 h
    refine (guard_bind_eq_ok hfail).imp_right fun hk => ?_
    split_ifs at hk
    · split at hk <;> cases hk
      rfl
    · cases hk
      rfl
  | retryDue now =>
    change EventRecord.retryDue now r = .ok r' at h
    unfold EventRecord.retryDue at h
    split at h
    · refine (guard_bind_eq_ok h).imp_right fun hk => ?_
      split_ifs at hk <;> cases hk
      rfl
    · refine (guard_bind_eq_ok h).imp_right fun hk => ?_
      cases hk
      rfl

theorem apply_event : (t.apply r).event = r.event := by
  unfold Transition.apply
  cases h : t.attempt r with
  | error => rfl
  | ok => exact (attempt_eq_ok h).2

theorem apply_of_isTerminal (hr : r.isTerminal = true) : t.apply r = r := by
  unfold Transition.apply
  cases h : t.attempt r with
  | error => rfl
  | ok =>
    rw [(attempt_eq_ok h).1] at hr
    cases hr

end Fireemu.Events
