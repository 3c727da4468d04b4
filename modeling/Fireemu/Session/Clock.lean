import Fireemu.Library.Act
import Fireemu.Types.Machine
import Fireemu.Types.Time
import Mathlib.Data.Stream.Init

/-!
# The virtual clock

The clock of a session (`clock.rs`): an instant that moves when it is told to and, for a clock that follows
real time, the drift of a source since the last move.  The source is the stream of the readings still to come;
every sample takes one of them.
-/

namespace Fireemu.Session

open Library (Act)

/-- One reading of a following clock. -/
structure Sample where
  instant : LogicalInstant
  /-- Nanoseconds the source ran since the last move. -/
  drift : ℤ
  /-- Nanoseconds counted as elapsed: the drift, cut at the runtime range. -/
  counted : ℤ
  deriving DecidableEq

/-- What a clock that follows real time counts: the reading at the last move, and the most drift any read has
reported since. -/
structure Follow where
  readAt : ℤ
  peak : ℤ
  deriving DecidableEq

/-- One published clock state; elapsed time counts forward movement only. -/
structure ClockSnapshot where
  instant : LogicalInstant
  elapsedNanos : ℕ
  revision : ℕ
  deriving DecidableEq

/-- Errors from clock manipulation. -/
inductive ClockError
  | negativeDuration
  | overflow
  | outOfRange
  | wouldMoveBackwards (current requested : LogicalInstant)
  deriving DecidableEq

/-- A clock that only moves when told to, or that runs on from its last move. -/
structure VirtualClock where
  now : LogicalInstant
  follow : Option Follow
  backwardsSets : ℕ
  elapsedNanos : ℕ
  revision : ℕ
  range : Option (LogicalInstant × LogicalInstant)
  deriving DecidableEq

/-- A clock and the readings of its source that are still to come. -/
structure ClockState where
  clock : VirtualClock
  source : Stream' ℤ

/-- An operation on a clock. -/
abbrev Timed (α : Type) := Act ClockError ClockState α

/-- The largest `u128`. -/
def u128Max : ℕ := 2 ^ 128 - 1

/-- `saturating_add` on 128 bits. -/
def saturatingAdd128 (a b : ℕ) : ℕ := min (a + b) u128Max

/-- `saturating_add(1)` on 32 bits. -/
def saturatingSucc32 (n : ℕ) : ℕ := min (n + 1) (2 ^ 32 - 1)

namespace VirtualClock

/-- A clock at an instant. -/
def new (start : LogicalInstant) : VirtualClock := ⟨start, none, 0, 0, 0, none⟩

/-- A clock at an instant that runs with a source, which read `reading` then. -/
def followingWith (start : LogicalInstant) (reading : ℤ) : VirtualClock :=
  { new start with follow := some ⟨reading, 0⟩ }

/-- The reading of a clock for a drift of its source. -/
def sampleAt (clock : VirtualClock) (drift : ℤ) : Sample :=
  let instant :=
    if drift = 0 then clock.now else (LogicalInstant.checkedAdd clock.now drift).getD clock.now
  -- reads stay inside the runtime range that writers are held to
  let instant := match clock.range with
    | none => instant
    | some (_, maximum) => min instant maximum
  ⟨instant, drift, max (LogicalInstant.saturatingSub instant clock.now) 0⟩

/-- Whether a clock can move to an instant, against one sample of the running time. -/
def check (clock : VirtualClock) (instant : LogicalInstant) (sample : Sample) : Except ClockError Unit :=
  if clock.revision = u64Max ∨ (sample.instant < instant ∧
      u128Max < saturatingAdd128 clock.elapsedNanos sample.counted.natAbs + (instant - sample.instant).natAbs) then
    .error .overflow
  else if clock.range.any fun range => instant < range.1 || range.2 < instant then .error .outOfRange
  else .ok ()

/-- A clock moved to an instant, with the time a sample found passed since the last move. -/
def moveTo (clock : VirtualClock) (instant : LogicalInstant) (sample : Sample) : VirtualClock :=
  let elapsedNanos := saturatingAdd128 clock.elapsedNanos sample.counted.natAbs
  { clock with
    elapsedNanos := if sample.instant < instant
      then saturatingAdd128 elapsedNanos (instant - sample.instant).natAbs else elapsedNanos
    now := instant
    -- the drift just folded in is not counted again
    follow := clock.follow.map fun follow => ⟨follow.readAt + sample.drift, 0⟩
    revision := saturatingAdd clock.revision 1 }

end VirtualClock

/-- Nanoseconds the clock has run since its last move (zero for a frozen clock). -/
def driftNanos : Timed ℤ := do
  let s ← Act.get
  match s.clock.follow with
  | none => return 0
  | some follow => do
      let drift := max (s.source.head - follow.readAt) follow.peak
      Act.modify fun s => ⟨{ s.clock with follow := some { follow with peak := drift } }, s.source.tail⟩
      return drift

/-- One reading of the running time. -/
def sample : Timed Sample := do
  let drift ← driftNanos
  let s ← Act.get
  return s.clock.sampleAt drift

/-- The instant now: the last move plus the real time that has passed since. -/
def live : Timed LogicalInstant := do return (← sample).instant

/-- Current instant and monotonic timer and revision axes. -/
def snapshot : Timed ClockSnapshot := do
  let sample ← sample
  let s ← Act.get
  return ⟨sample.instant, saturatingAdd128 s.clock.elapsedNanos sample.counted.natAbs, s.clock.revision⟩

/-- Moves the clock to an instant; the snapshot is what the observers are handed. -/
def publish (instant : LogicalInstant) (sample : Sample) : Timed Unit := do
  Act.modify fun s => { s with clock := s.clock.moveTo instant sample }
  let _ ← snapshot

/-- Publishes the running time when a following clock has moved since its last publication. -/
def sync : Timed Bool := do
  let s ← Act.get
  if s.clock.follow = none then return false
  else do
    let sample ← sample
    let s ← Act.get
    if sample.instant ≤ s.clock.now ∨ (s.clock.check sample.instant sample).isOk = false then return false
    else do
      publish sample.instant sample
      return true

/-- Advances by a duration and returns the new instant. -/
def advance (duration : LogicalDuration) : Timed LogicalInstant := do
  Act.require (0 ≤ duration) .negativeDuration
  let sample ← sample
  let next ← Act.orElse (LogicalInstant.checkedAdd sample.instant duration) .overflow
  let s ← Act.get
  Act.lift (s.clock.check next sample)
  publish next sample
  return next

/-- Advances to an instant; rejects going backwards. -/
def advanceTo (instant : LogicalInstant) : Timed LogicalInstant := do
  let sample ← sample
  Act.require (sample.instant ≤ instant) (.wouldMoveBackwards sample.instant instant)
  let s ← Act.get
  Act.lift (s.clock.check instant sample)
  publish instant sample
  return instant

/-- Sets the clock even if it moves backwards. -/
def trySetAllowBackwards (instant : LogicalInstant) : Timed Unit := do
  let sample ← sample
  let s ← Act.get
  Act.lift (s.clock.check instant sample)
  if instant < sample.instant then
    Act.modify fun s => { s with clock := { s.clock with backwardsSets := saturatingSucc32 s.clock.backwardsSets } }
  publish instant sample

/-- Restricts every writer to a runtime range, within the one it already has. -/
def restrictRange (minimum maximum : LogicalInstant) : Timed Unit := do
  let s ← Act.get
  let range := match s.clock.range with
    | none => (minimum, maximum)
    | some (low, high) => (max low minimum, min high maximum)
  let now ← live
  Act.require (range.1 ≤ range.2 ∧ range.1 ≤ now ∧ now ≤ range.2) .outOfRange
  Act.modify fun s => { s with clock := { s.clock with range := some range } }

/-- The operations on a clock. -/
inductive ClockOp
  | read
  | sync
  | advance (duration : LogicalDuration)
  | advanceTo (instant : LogicalInstant)
  | trySetAllowBackwards (instant : LogicalInstant)
  | restrictRange (minimum maximum : LogicalInstant)

/-- Runs an operation; the result is the instant that it has moved the clock to, if it has. -/
def ClockOp.call : ClockOp → Timed (Option LogicalInstant)
  | .read => do
      let _ ← snapshot
      return none
  | .sync => do
      let moved ← Session.sync
      let s ← Act.get
      return if moved then some s.clock.now else none
  | .advance duration => do return some (← Session.advance duration)
  | .advanceTo instant => do return some (← Session.advanceTo instant)
  | .trySetAllowBackwards instant => do
      Session.trySetAllowBackwards instant
      return some instant
  | .restrictRange minimum maximum => do
      Session.restrictRange minimum maximum
      return none

/-- A sequence of operations; what they return does not stop it. -/
def run (ops : List ClockOp) (s : ClockState) : ClockState := ops.foldl (fun s op => (op.call s).2) s

end Fireemu.Session
