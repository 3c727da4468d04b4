import Fireemu.Session.Clock

/-!
# Runs of the virtual clock

What an operation can do to a clock (`Effect`), and from it what a run does: readings do not decrease except
across a rewind, and the elapsed time is the total of their forward movement.
-/

namespace Fireemu.Session

open Library (Act)
open List Library.Act

/-! ### Samples -/

namespace ClockState

/-- The drift that the next sample finds. -/
def drift (s : ClockState) : ℤ :=
  match s.clock.follow with
  | none => 0
  | some follow => max (s.source.head - follow.readAt) follow.peak

/-- The state after a sample. -/
def observed (s : ClockState) : ClockState :=
  match s.clock.follow with
  | none => s
  | some follow => ⟨{ s.clock with follow := some { follow with peak := s.drift } }, s.source.tail⟩

/-- The next sample. -/
def seen (s : ClockState) : Sample := s.clock.sampleAt s.drift

/-- The state after a move to an instant, with a number of rewinds. -/
def movedTo (s : ClockState) (target : LogicalInstant) (rewinds : ℕ) : ClockState :=
  ⟨{ s.observed.clock.moveTo target s.seen with backwardsSets := rewinds }, s.observed.source⟩

/-- What the next sample adds up is representable. -/
def Fits (s : ClockState) : Prop :=
  ∀ follow, s.clock.follow = some follow →
    (i128Min ≤ s.source.head - follow.readAt ∧ s.source.head - follow.readAt ≤ i128Max) ∧
      i128Min ≤ s.clock.now + s.drift ∧ s.clock.now + s.drift ≤ i128Max

end ClockState

section

variable (s : ClockState)

theorem observed_now : s.observed.clock.now = s.clock.now := by
  unfold ClockState.observed
  split <;> rfl

theorem observed_elapsedNanos : s.observed.clock.elapsedNanos = s.clock.elapsedNanos := by
  unfold ClockState.observed
  split <;> rfl

theorem observed_revision : s.observed.clock.revision = s.clock.revision := by
  unfold ClockState.observed
  split <;> rfl

theorem observed_range : s.observed.clock.range = s.clock.range := by
  unfold ClockState.observed
  split <;> rfl

theorem sampleAt_observed (drift : ℤ) : s.observed.clock.sampleAt drift = s.clock.sampleAt drift := by
  unfold VirtualClock.sampleAt
  rw [observed_now, observed_range]

theorem driftNanos_apply : driftNanos s = (.ok s.drift, s.observed) := by
  obtain ⟨⟨now, follow, rewinds, elapsed, revision, range⟩, source⟩ := s
  cases follow <;> rfl

theorem sample_apply : sample s = (.ok s.seen, s.observed) := by
  unfold sample
  rw [bind_apply, driftNanos_apply]
  exact congrArg (fun sample => (Except.ok sample, s.observed)) (sampleAt_observed s s.drift)

end

section

variable {s : ClockState} {E : ClockError → ClockState → Prop}

theorem wp_sample {Q : Sample → ClockState → Prop} : Act.wp sample Q E s ↔ Q s.seen s.observed := by
  unfold Act.wp
  rw [sample_apply]

theorem wp_snapshot {Q : ClockSnapshot → ClockState → Prop} : Act.wp snapshot Q E s ↔
    Q ⟨s.seen.instant, saturatingAdd128 s.clock.elapsedNanos s.seen.counted.natAbs, s.clock.revision⟩ s.observed := by
  simp only [snapshot, wp_bind, wp_sample, wp_get, wp_pure, observed_elapsedNanos, observed_revision]

theorem wp_publish {instant : LogicalInstant} {sample : Sample} {Q : Unit → ClockState → Prop} :
    Act.wp (publish instant sample) Q E s ↔
      Q () (ClockState.observed { s with clock := s.clock.moveTo instant sample }) := by
  simp only [publish, wp_bind, wp_modify, wp_snapshot, wp_pure]

end

/-! ### Operations -/

/-- What an operation can do to a clock, with its result. -/
inductive Effect (s : ClockState) : ClockOp → Except ClockError (Option LogicalInstant) → ClockState → Prop
  | early (op : ClockOp) (e : ClockError) : Effect s op (.error e) s
  | refused (op : ClockOp) (e : ClockError) : Effect s op (.error e) s.observed
  | frozen (op : ClockOp) : Effect s op (.ok none) s
  | sampled (op : ClockOp) : Effect s op (.ok none) s.observed
  | restricted (op : ClockOp) {low high : LogicalInstant}
      (hseen : low ≤ s.seen.instant ∧ s.seen.instant ≤ high)
      (hwithin : ∀ range, s.clock.range = some range → range.1 ≤ low ∧ high ≤ range.2) :
      Effect s op (.ok none)
        { s.observed with clock := { s.observed.clock with range := some (low, high) } }
  | moved {op : ClockOp} {target : LogicalInstant} (rewinds : ℕ)
      (hcheck : s.observed.clock.check target s.seen = .ok ())
      (hforward : op = .trySetAllowBackwards target ∨ s.seen.instant ≤ target) :
      Effect s op (.ok (some target)) (s.movedTo target rewinds).observed

variable {s : ClockState} {op : ClockOp}

theorem effect_of_wp
    (h : Act.wp op.call (fun r s' => Effect s op (.ok r) s') (fun e s' => Effect s op (.error e) s') s) :
    Effect s op (op.call s).1 (op.call s).2 := by
  unfold Act.wp at h
  split at h <;> rename_i hrun <;> rw [hrun] <;> exact h

theorem effect_call (s : ClockState) (op : ClockOp) : Effect s op (op.call s).1 (op.call s).2 := by
  refine effect_of_wp ?_
  cases op with
  | read =>
    simp only [ClockOp.call, wp_bind, wp_snapshot, wp_pure]
    exact .sampled _
  | sync =>
    simp only [ClockOp.call, sync, wp_bind, wp_get, wp_ite, wp_pure, wp_sample, wp_publish, if_true,
      observed_now]
    refine ⟨fun _ => .frozen _, fun _ => ⟨fun _ => .sampled _, fun hm => ?_⟩⟩
    refine .moved _ ?_ (.inr le_rfl)
    cases hcheck : s.observed.clock.check s.seen.instant s.seen with
    | error => exact absurd (.inr (by rw [hcheck]; rfl)) hm
    | ok => exact hcheck
  | advance duration =>
    simp only [ClockOp.call, advance, wp_bind, wp_require, wp_sample, wp_orElse, wp_get, wp_lift,
      wp_publish, wp_pure]
    refine ⟨fun hd => ⟨fun next hnext => ⟨fun _ hcheck => .moved _ hcheck (.inr ?_), fun e _ => .refused _ e⟩,
      fun _ => .refused _ _⟩, fun _ => .early _ _⟩
    unfold LogicalInstant.checkedAdd at hnext
    split_ifs at hnext
    cases hnext
    exact le_add_of_nonneg_right hd
  | advanceTo =>
    simp only [ClockOp.call, advanceTo, wp_bind, wp_require, wp_sample, wp_get, wp_lift, wp_publish, wp_pure]
    exact ⟨fun hforward => ⟨fun _ hcheck => .moved _ hcheck (.inr hforward), fun e _ => .refused _ e⟩,
      fun _ => .refused _ _⟩
  | trySetAllowBackwards =>
    simp only [ClockOp.call, trySetAllowBackwards, wp_bind, wp_ite, wp_sample, wp_get, wp_lift,
      wp_publish, wp_pure, wp_modify]
    exact ⟨fun _ hcheck => ⟨fun _ => .moved _ hcheck (.inl rfl), fun _ => .moved _ hcheck (.inl rfl)⟩,
      fun e _ => .refused _ e⟩
  | restrictRange =>
    simp only [ClockOp.call, restrictRange, live, wp_bind, wp_require, wp_sample, wp_get, wp_pure, wp_modify]
    refine ⟨fun hrange => .restricted _ hrange.2 fun range hold => ?_, fun _ => .refused _ _⟩
    rw [hold]
    exact ⟨le_max_left _ _, min_le_left _ _⟩

/-! ### What a clock has read -/

namespace VirtualClock

/-- The most drift that has been read since the last move. -/
def peak (clock : VirtualClock) : ℤ := clock.follow.elim 0 Follow.peak

/-- The last reading of a clock, or the instant it was moved to since. -/
def held (clock : VirtualClock) : LogicalInstant := (clock.sampleAt clock.peak).instant

/-- The time that a clock counts as elapsed up to its last reading. -/
def spent (clock : VirtualClock) : ℕ :=
  saturatingAdd128 clock.elapsedNanos (clock.sampleAt clock.peak).counted.natAbs

/-- An instant, cut at the end of the range. -/
def cut (clock : VirtualClock) (instant : LogicalInstant) : LogicalInstant :=
  clock.range.elim instant fun range => min instant range.2

/-- A drift for which the reading is the last move plus the drift. -/
structure Reaches (clock : VirtualClock) (drift : ℤ) : Prop where
  nonneg : 0 ≤ drift
  le : drift ≤ i128Max
  sum : drift = 0 ∨ i128Min ≤ clock.now + drift ∧ clock.now + drift ≤ i128Max

/-- A clock whose readings are in its range. -/
structure WellFormed (clock : VirtualClock) : Prop where
  reaches : clock.Reaches clock.peak
  low : ∀ range, clock.range = some range → range.1 ≤ clock.held
  high : ∀ range, clock.range = some range → clock.now ≤ range.2
  revision : clock.revision ≤ u64Max

variable {t : LogicalInstant}

theorem cut_mono (clock : VirtualClock) {u : LogicalInstant} (h : t ≤ u) : clock.cut t ≤ clock.cut u := by
  unfold cut
  cases clock.range with
  | none => exact h
  | some => exact min_le_min_right _ h

variable {clock : VirtualClock} {drift : ℤ}

theorem Reaches.instant (h : clock.Reaches drift) :
    (clock.sampleAt drift).instant = clock.cut (clock.now + drift) := by
  have hsum : (if drift = 0 then clock.now else (LogicalInstant.checkedAdd clock.now drift).getD clock.now) =
      clock.now + drift := by
    split_ifs with hzero
    · rw [hzero, Int.add_zero]
    · unfold LogicalInstant.checkedAdd
      rw [if_pos (h.sum.resolve_left hzero)]
      rfl
  unfold sampleAt cut
  rw [hsum]
  cases clock.range <;> rfl

theorem now_le_cut (h : ∀ range, clock.range = some range → clock.now ≤ range.2) (ht : clock.now ≤ t) :
    clock.now ≤ clock.cut t := by
  unfold cut
  cases hrange : clock.range with
  | none => exact ht
  | some range => exact le_min ht (h range hrange)

theorem cut_le (clock : VirtualClock) : clock.cut t ≤ t := by
  unfold cut
  cases clock.range with
  | none => exact le_rfl
  | some => exact min_le_left _ _

theorem Reaches.counted (h : clock.Reaches drift)
    (hhigh : ∀ range, clock.range = some range → clock.now ≤ range.2) :
    (clock.sampleAt drift).counted = (clock.sampleAt drift).instant - clock.now ∧
      clock.now ≤ (clock.sampleAt drift).instant := by
  have hle : clock.now ≤ (clock.sampleAt drift).instant := by
    rw [h.instant]
    exact now_le_cut hhigh (le_add_of_nonneg_right h.nonneg)
  have hsum : (clock.sampleAt drift).instant ≤ clock.now + drift := by
    rw [h.instant]
    exact clock.cut_le
  refine ⟨?_, hle⟩
  change max (LogicalInstant.saturatingSub (clock.sampleAt drift).instant clock.now) 0 = _
  unfold LogicalInstant.saturatingSub
  have hn : 0 ≤ (clock.sampleAt drift).instant - clock.now := sub_nonneg.2 hle
  have hmax : (clock.sampleAt drift).instant - clock.now ≤ i128Max := (sub_le_iff_le_add'.2 hsum).trans h.le
  have hmin : i128Min ≤ (clock.sampleAt drift).instant - clock.now := le_trans (by decide) hn
  rw [min_eq_right hmax, max_eq_right hmin, max_eq_left hn]

end VirtualClock

theorem natAbs_sub_add {t u v : ℤ} (htu : t ≤ u) (huv : u ≤ v) :
    (v - t).natAbs = (u - t).natAbs + (v - u).toNat := by
  omega

theorem natAbs_eq_toNat {t u : ℤ} (h : t < u) : (u - t).natAbs = (u - t).toNat := by
  omega

theorem saturatingAdd128_assoc {a b c : ℕ} :
    saturatingAdd128 (saturatingAdd128 a b) c = saturatingAdd128 a (b + c) := by
  unfold saturatingAdd128
  omega

namespace ClockState

variable {s : ClockState}

theorem drift_eq_of_follow {follow : Follow} (h : s.clock.follow = some follow) :
    s.drift = max (s.source.head - follow.readAt) s.clock.peak := by
  unfold drift VirtualClock.peak
  rw [h]
  rfl

theorem peak_observed : s.observed.clock.peak = s.drift := by
  obtain ⟨⟨now, follow, rewinds, elapsed, revision, range⟩, source⟩ := s
  cases follow <;> rfl

theorem held_observed : s.observed.clock.held = s.seen.instant := by
  unfold VirtualClock.held
  rw [peak_observed, sampleAt_observed]
  rfl

theorem spent_observed :
    s.observed.clock.spent = saturatingAdd128 s.clock.elapsedNanos s.seen.counted.natAbs := by
  unfold VirtualClock.spent
  rw [peak_observed, sampleAt_observed, observed_elapsedNanos]
  rfl

theorem peak_le_drift : s.clock.peak ≤ s.drift := by
  cases hf : s.clock.follow with
  | none =>
    unfold drift VirtualClock.peak
    rw [hf]
    exact le_rfl
  | some =>
    rw [drift_eq_of_follow hf]
    exact le_max_right _ _

/-- What a sample finds is the last move plus the drift. -/
theorem Fits.reaches (hfits : s.Fits) (h : s.clock.Reaches s.clock.peak) : s.clock.Reaches s.drift := by
  cases hf : s.clock.follow with
  | none =>
    have hzero : s.drift = 0 := by
      unfold drift
      rw [hf]
    rw [hzero]
    exact ⟨le_rfl, by decide, .inl rfl⟩
  | some follow =>
    obtain ⟨hread, hsum⟩ := hfits follow hf
    refine ⟨h.nonneg.trans peak_le_drift, ?_, .inr hsum⟩
    rw [drift_eq_of_follow hf]
    exact max_le hread.2 h.le

/-- A reading that follows another one: it is not earlier, and the time between is counted. -/
structure Reads (c c' : VirtualClock) : Prop where
  le : c.held ≤ c'.held
  spent : c'.spent = saturatingAdd128 c.spent (c'.held - c.held).toNat
  revision : c'.revision = c.revision
  range : c'.range = c.range

theorem observed_wellFormed (hfits : s.Fits) (h : s.clock.WellFormed) :
    s.observed.clock.WellFormed ∧ Reads s.clock s.observed.clock := by
  have hreaches := hfits.reaches h.reaches
  have hle : s.clock.held ≤ s.observed.clock.held := by
    rw [held_observed]
    unfold VirtualClock.held seen
    rw [h.reaches.instant, hreaches.instant]
    exact s.clock.cut_mono (Int.add_le_add_left peak_le_drift _)
  obtain ⟨hc, hnow⟩ := hreaches.counted h.high
  obtain ⟨hc', hnow'⟩ := h.reaches.counted h.high
  refine ⟨⟨?_, fun range hrange => ?_, fun range hrange => ?_, (observed_revision s).symm ▸ h.revision⟩,
    hle, ?_, observed_revision s, observed_range s⟩
  · rw [peak_observed]
    exact ⟨hreaches.nonneg, hreaches.le, (observed_now s).symm ▸ hreaches.sum⟩
  · rw [observed_range] at hrange
    exact (h.low range hrange).trans hle
  · rw [observed_range] at hrange
    rw [observed_now]
    exact h.high range hrange
  · rw [held_observed] at hle
    rw [spent_observed, held_observed]
    unfold VirtualClock.spent
    rw [saturatingAdd128_assoc, hc']
    exact congrArg (saturatingAdd128 _) ((congrArg Int.natAbs hc).trans (natAbs_sub_add hnow' hle))

variable {target : LogicalInstant}

/-- What `check` lets through. -/
theorem check_eq_ok {clock : VirtualClock} {sample : Sample} (h : clock.check target sample = .ok ()) :
    clock.revision ≠ u64Max ∧ ∀ range, clock.range = some range → range.1 ≤ target ∧ target ≤ range.2 := by
  unfold VirtualClock.check at h
  split_ifs at h with ho hrange
  refine ⟨fun hmax => ho (.inl hmax), fun range hget => ?_⟩
  rw [hget] at hrange
  simpa using hrange

/-- A clock that has been moved. -/
structure Moved (c : VirtualClock) (target : LogicalInstant) (c' : VirtualClock) : Prop where
  held : c'.held = target
  spent : c'.spent = saturatingAdd128 c.spent (target - c.held).toNat
  revision : c'.revision = c.revision + 1
  range : c'.range = c.range

theorem peak_movedTo {rewinds : ℕ} : (s.movedTo target rewinds).clock.peak = 0 := by
  obtain ⟨⟨now, follow, rewinds, elapsed, revision, range⟩, source⟩ := s
  cases follow <;> rfl

theorem movedTo_wellFormed (rewinds : ℕ) (h : s.observed.clock.WellFormed)
    (hcheck : s.observed.clock.check target s.seen = .ok ()) :
    (s.movedTo target rewinds).clock.WellFormed ∧
      Moved s.observed.clock target (s.movedTo target rewinds).clock := by
  obtain ⟨hrevision, hrange⟩ := check_eq_ok hcheck
  have hreaches : (s.movedTo target rewinds).clock.Reaches (s.movedTo target rewinds).clock.peak := by
    rw [peak_movedTo]
    exact ⟨le_rfl, by decide, .inl rfl⟩
  have hhigh : ∀ range, (s.movedTo target rewinds).clock.range = some range →
      (s.movedTo target rewinds).clock.now ≤ range.2 := fun range hget => (hrange range hget).2
  have hheld : (s.movedTo target rewinds).clock.held = target := by
    refine le_antisymm ?_ (hreaches.counted hhigh).2
    unfold VirtualClock.held
    rw [hreaches.instant, peak_movedTo, Int.add_zero]
    exact VirtualClock.cut_le _
  have hsucc : (s.movedTo target rewinds).clock.revision = s.observed.clock.revision + 1 := by
    change min (s.observed.clock.revision + 1) u64Max = _
    have := h.revision
    omega
  refine ⟨⟨hreaches, fun range hget => ?_, hhigh, ?_⟩, hheld, ?_, hsucc, rfl⟩
  · rw [hheld]
    exact (hrange range hget).1
  · rw [hsucc]
    have := h.revision
    omega
  · have hzero : ((s.movedTo target rewinds).clock.sampleAt (s.movedTo target rewinds).clock.peak).counted = 0 := by
      rw [(hreaches.counted hhigh).1]
      exact sub_eq_zero.2 hheld
    have hs : s.observed.clock.spent = saturatingAdd128 s.observed.clock.elapsedNanos s.seen.counted.natAbs := by
      rw [spent_observed, observed_elapsedNanos]
    unfold VirtualClock.spent at hs ⊢
    rw [hzero, hs, held_observed]
    change saturatingAdd128 (if s.seen.instant < target then _ else _) _ = _
    split_ifs with hlt
    · rw [saturatingAdd128_assoc, natAbs_eq_toNat hlt]
      rfl
    · rw [Int.toNat_of_nonpos (sub_nonpos.2 (not_lt.1 hlt))]
      rfl

/-- A narrower range around the last reading. -/
theorem restricted_wellFormed {c : VirtualClock} (h : c.WellFormed) {low high : LogicalInstant}
    (hseen : low ≤ c.held ∧ c.held ≤ high)
    (hwithin : ∀ range, c.range = some range → range.1 ≤ low ∧ high ≤ range.2) :
    VirtualClock.WellFormed { c with range := some (low, high) } ∧
      VirtualClock.held { c with range := some (low, high) } = c.held ∧
      VirtualClock.spent { c with range := some (low, high) } = c.spent := by
  have hreaches : VirtualClock.Reaches { c with range := some (low, high) } c.peak :=
    ⟨h.reaches.nonneg, h.reaches.le, h.reaches.sum⟩
  obtain ⟨hc, hnow⟩ := h.reaches.counted h.high
  have hhigh : ∀ range, some (low, high) = some range → c.now ≤ range.2 := by
    rintro range ⟨⟩
    exact hnow.trans hseen.2
  have hheld : VirtualClock.held { c with range := some (low, high) } = c.held := by
    have hold : c.held = c.cut (c.now + c.peak) := h.reaches.instant
    refine hreaches.instant.trans ?_
    rw [hold] at hseen ⊢
    change min (c.now + c.peak) high = _
    unfold VirtualClock.cut at hseen ⊢
    cases hrange : c.range with
    | none =>
      rw [hrange] at hseen
      exact min_eq_left hseen.2
    | some range =>
      rw [hrange] at hseen
      have hle : high ≤ range.2 := (hwithin range hrange).2
      exact le_antisymm (min_le_min_left _ hle) (le_min (min_le_left _ _) hseen.2)
  refine ⟨⟨hreaches, ?_, hhigh, h.revision⟩, hheld, ?_⟩
  · rintro range ⟨⟩
    rw [hheld]
    exact hseen.1
  · have hc' := (hreaches.counted hhigh).1
    unfold VirtualClock.spent
    rw [hc]
    refine congrArg (saturatingAdd128 _) (congrArg Int.natAbs (hc'.trans ?_))
    exact congrArg (· - c.now) hheld

end ClockState

/-! ### Runs -/

/-- An instant that a clock reads or is moved to; whether it was set back to it. -/
structure Visit where
  instant : LogicalInstant
  rewound : Bool
  deriving DecidableEq

namespace ClockOp

/-- The operation may set the clock back. -/
def rewinds : ClockOp → Bool
  | .trySetAllowBackwards _ => true
  | _ => false

/-- The instants that a clock goes through in an operation with a result and a final state: the reading it
takes, the instant it is moved to and the reading that is then published; or only the last reading. -/
def path (op : ClockOp) (s : ClockState) (result : Except ClockError (Option LogicalInstant)) (s' : ClockState) :
    List Visit :=
  match result with
  | .ok (some target) => [⟨s.seen.instant, false⟩, ⟨target, op.rewinds && target < s.seen.instant⟩,
      ⟨s'.clock.held, false⟩]
  | _ => [⟨s'.clock.held, false⟩]

/-- The instants that a clock goes through in an operation. -/
def visits (op : ClockOp) (s : ClockState) : List Visit := op.path s (op.call s).1 (op.call s).2

/-- The number of moves that a result stands for. -/
def moved : Except ClockError (Option LogicalInstant) → ℕ
  | .ok (some _) => 1
  | _ => 0

/-- What an operation adds up is representable. -/
def Fits (op : ClockOp) (s : ClockState) : Prop :=
  s.Fits ∧ ∀ target, (op.call s).1 = .ok (some target) → (s.movedTo target s.clock.backwardsSets).Fits

end ClockOp

/-- The instants that a clock goes through in a run. -/
def visits : List ClockOp → ClockState → List Visit
  | [], _ => []
  | op :: ops, s => op.visits s ++ visits ops (op.call s).2

/-- The number of moves in a run. -/
def moves : List ClockOp → ClockState → ℕ
  | [], _ => 0
  | op :: ops, s => ClockOp.moved (op.call s).1 + moves ops (op.call s).2

/-- What a run adds up is representable. -/
def Fits : List ClockOp → ClockState → Prop
  | [], _ => True
  | op :: ops, s => op.Fits s ∧ Fits ops (op.call s).2

/-- The total of the forward movement from an instant through others. -/
def forward : LogicalInstant → List Visit → ℕ
  | _, [] => 0
  | t, v :: visits => (v.instant - t).toNat + forward v.instant visits

/-- From an instant on, no reading is earlier than the one before it, unless the clock was set back. -/
def Ordered : LogicalInstant → List Visit → Prop
  | _, [] => True
  | t, v :: visits => (v.rewound = false → t ≤ v.instant) ∧ Ordered v.instant visits

/-- The last instant of a path. -/
def lastInstant : LogicalInstant → List Visit → LogicalInstant
  | t, [] => t
  | _, v :: visits => lastInstant v.instant visits

variable {l l' : List Visit}

theorem forward_append (t : LogicalInstant) :
    forward t (l ++ l') = forward t l + forward (lastInstant t l) l' := by
  induction l generalizing t with
  | nil => simp [forward, lastInstant]
  | cons v l ih =>
    rw [cons_append, forward, forward, lastInstant, ih]
    omega

theorem lastInstant_append (t : LogicalInstant) :
    lastInstant t (l ++ l') = lastInstant (lastInstant t l) l' := by
  induction l generalizing t with
  | nil => rfl
  | cons v l ih => exact ih v.instant

theorem ordered_append {t : LogicalInstant} (hl : Ordered t l) (hl' : Ordered (lastInstant t l) l') :
    Ordered t (l ++ l') := by
  induction l generalizing t with
  | nil => exact hl'
  | cons v l ih => exact ⟨hl.1, ih hl.2 hl'⟩

theorem VirtualClock.WellFormed.held_le {c : VirtualClock} (h : c.WellFormed) {range : LogicalInstant × LogicalInstant}
    (hrange : c.range = some range) : c.held ≤ range.2 := by
  unfold held
  rw [h.reaches.instant, cut, hrange]
  exact min_le_right _ _

/-- A range within another one, if there is one. -/
def Narrows (old new : Option (LogicalInstant × LogicalInstant)) : Prop :=
  ∀ range, old = some range → ∃ range', new = some range' ∧ range.1 ≤ range'.1 ∧ range'.2 ≤ range.2

theorem Narrows.refl (range : Option (LogicalInstant × LogicalInstant)) : Narrows range range :=
  fun range hrange => ⟨range, hrange, le_rfl, le_rfl⟩

theorem Narrows.trans {r₁ r₂ r₃ : Option (LogicalInstant × LogicalInstant)} (h : Narrows r₁ r₂) (h' : Narrows r₂ r₃) :
    Narrows r₁ r₃ := fun range hrange => by
  obtain ⟨range₂, hrange₂, hlow, hhigh⟩ := h range hrange
  obtain ⟨range₃, hrange₃, hlow', hhigh'⟩ := h' range₂ hrange₂
  exact ⟨range₃, hrange₃, hlow.trans hlow', hhigh'.trans hhigh⟩

/-- What a clock does along the instants it goes through. -/
structure Stepped (s : ClockState) (path : List Visit) (moved : ℕ) (s' : ClockState) : Prop where
  wellFormed : s'.clock.WellFormed
  ordered : Ordered s.clock.held path
  last : lastInstant s.clock.held path = s'.clock.held
  spent : s'.clock.spent = saturatingAdd128 s.clock.spent (forward s.clock.held path)
  revision : s'.clock.revision = s.clock.revision + moved
  narrows : Narrows s.clock.range s'.clock.range
  range : ∀ range, s.clock.range = some range → ∀ v ∈ path, range.1 ≤ v.instant ∧ v.instant ≤ range.2

namespace Stepped

variable {s s' : ClockState}

/-- A step to one more instant. -/
theorem single {v : Visit} {moved : ℕ} (hwf : s'.clock.WellFormed) (hheld : s'.clock.held = v.instant)
    (hle : v.rewound = false → s.clock.held ≤ v.instant)
    (hs : s'.clock.spent = saturatingAdd128 s.clock.spent (v.instant - s.clock.held).toNat)
    (hrevision : s'.clock.revision = s.clock.revision + moved) (hn : Narrows s.clock.range s'.clock.range) :
    Stepped s [v] moved s' := by
  refine ⟨hwf, ⟨hle, trivial⟩, hheld.symm, hs, hrevision, hn, fun range hget u hu => ?_⟩
  obtain ⟨range', hget', hlow, hhigh⟩ := hn range hget
  rw [mem_singleton.1 hu, ← hheld]
  exact ⟨hlow.trans (hwf.low range' hget'), (hwf.held_le hget').trans hhigh⟩

theorem nil (h : s.clock.WellFormed) : Stepped s [] 0 s := by
  refine ⟨h, trivial, rfl, ?_, rfl, .refl _, fun _ _ _ hv => (not_mem_nil hv).elim⟩
  unfold VirtualClock.spent
  rw [saturatingAdd128_assoc]
  rfl

/-- The last reading, once more. -/
theorem refl (h : s.clock.WellFormed) : Stepped s [⟨s.clock.held, false⟩] 0 s := by
  refine single h rfl (fun _ => le_rfl) ?_ rfl (.refl _)
  rw [sub_self]
  exact (nil h).spent

theorem observed (h : s.clock.WellFormed) (hfits : s.Fits) :
    Stepped s [⟨s.observed.clock.held, false⟩] 0 s.observed := by
  obtain ⟨hwf, hreads⟩ := ClockState.observed_wellFormed hfits h
  exact single hwf rfl (fun _ => hreads.le) hreads.spent hreads.revision (hreads.range ▸ .refl _)

theorem trans {s₁ s₂ : ClockState} {path₁ path₂ : List Visit} {n₁ n₂ : ℕ} (h₁ : Stepped s path₁ n₁ s₁)
    (h₂ : Stepped s₁ path₂ n₂ s₂) : Stepped s (path₁ ++ path₂) (n₁ + n₂) s₂ := by
  refine ⟨h₂.wellFormed, ordered_append h₁.ordered (h₁.last ▸ h₂.ordered), ?_, ?_, ?_, h₁.narrows.trans h₂.narrows,
    fun range hget v hv => ?_⟩
  · rw [lastInstant_append, h₁.last, h₂.last]
  · rw [h₂.spent, h₁.spent, saturatingAdd128_assoc, forward_append, h₁.last]
  · rw [h₂.revision, h₁.revision, add_assoc]
  · rcases mem_append.1 hv with hv | hv
    · exact h₁.range range hget v hv
    · obtain ⟨range', hget', hlow, hhigh⟩ := h₁.narrows range hget
      obtain ⟨hge, hle⟩ := h₂.range range' hget' v hv
      exact ⟨hlow.trans hge, hle.trans hhigh⟩

end Stepped

/-- An operation moves a clock along the instants it goes through. -/
theorem Effect.stepped {s' : ClockState} {result : Except ClockError (Option LogicalInstant)}
    (he : Effect s op result s') (h : s.clock.WellFormed) (hfits : s.Fits)
    (hm : ∀ target, result = .ok (some target) → (s.movedTo target s.clock.backwardsSets).Fits) :
    Stepped s (op.path s result s') (ClockOp.moved result) s' := by
  cases he with
  | early => exact .refl h
  | refused => exact .observed h hfits
  | frozen => exact .refl h
  | sampled => exact .observed h hfits
  | @restricted low high hseen hwithin =>
    obtain ⟨hwf, hreads⟩ := ClockState.observed_wellFormed hfits h
    rw [← ClockState.held_observed] at hseen
    obtain ⟨hwf', hheld, hs⟩ := ClockState.restricted_wellFormed hwf hseen
      fun range hrange => hwithin range (hreads.range.symm.trans hrange)
    refine .single hwf' rfl (fun _ => hheld.symm ▸ hreads.le) ?_ hreads.revision fun range hrange => ?_
    · exact hs.trans (hheld.symm ▸ hreads.spent)
    · exact ⟨_, rfl, hwithin range hrange⟩
  | @moved target rewinds hcheck hforward =>
    have hseen := Stepped.observed h hfits
    obtain ⟨hwf, hmove⟩ := ClockState.movedTo_wellFormed rewinds hseen.wellFormed hcheck
    have hmove' : Stepped s.observed [⟨target, op.rewinds && target < s.seen.instant⟩] 1 (s.movedTo target rewinds) := by
      refine .single hwf hmove.held (fun hback => ?_) hmove.spent hmove.revision (hmove.range ▸ .refl _)
      rw [ClockState.held_observed]
      rcases hforward with rfl | hle
      · simpa [ClockOp.rewinds] using hback
      · exact hle
    rw [ClockState.held_observed] at hseen
    exact (hseen.trans hmove').trans (.observed hwf (hm target rfl))

/-- A run moves a clock along the instants it goes through. -/
theorem run_stepped {ops : List ClockOp} (h : s.clock.WellFormed) (hfits : Fits ops s) :
    Stepped s (visits ops s) (moves ops s) (run ops s) := by
  induction ops generalizing s with
  | nil => exact .nil h
  | cons op ops ih =>
    have hstep := (effect_call s op).stepped h hfits.1.1 hfits.1.2
    exact hstep.trans (ih hstep.wellFormed hfits.2)

theorem fits_append {ops ops' : List ClockOp} (h : Fits (ops ++ ops') s) :
    Fits ops s ∧ Fits ops' (run ops s) := by
  induction ops generalizing s with
  | nil => exact ⟨trivial, h⟩
  | cons op ops ih => exact ⟨⟨h.1, (ih h.2).1⟩, (ih h.2).2⟩

theorem visits_append (ops ops' : List ClockOp) (s : ClockState) :
    visits (ops ++ ops') s = visits ops s ++ visits ops' (run ops s) := by
  induction ops generalizing s with
  | nil => rfl
  | cons op ops ih =>
    rw [cons_append, visits, visits, ih, append_assoc]
    rfl

theorem snapshot_apply (s : ClockState) : snapshot s =
    (.ok ⟨s.observed.clock.held, s.observed.clock.spent, s.clock.revision⟩, s.observed) := by
  refine Prod.ext ?_ ?_
  all_goals
    rw [ClockState.held_observed, ClockState.spent_observed, snapshot, bind_apply, sample_apply]
    simp only [get_bind_apply, pure_apply, observed_elapsedNanos, observed_revision]

theorem visits_read : visits [.read] s = [⟨s.observed.clock.held, false⟩] := by
  have hcall : ClockOp.read.call s = (.ok none, s.observed) := by
    rw [ClockOp.call, bind_apply, snapshot_apply]
    rfl
  rw [visits, ClockOp.visits, hcall]
  rfl

/-- A new clock, frozen or following. -/
theorem wellFormed_new {start : LogicalInstant} {clock : VirtualClock}
    (h : clock = .new start ∨ ∃ reading, clock = .followingWith start reading) :
    clock.WellFormed ∧ clock.held = start ∧ clock.spent = 0 ∧ clock.revision = 0 := by
  obtain ⟨hpeak, hrange, hrevision, hheld, hnow, he⟩ : clock.peak = 0 ∧ clock.range = none ∧
      clock.revision = 0 ∧ clock.held = start ∧ clock.now = start ∧ clock.elapsedNanos = 0 := by
    rcases h with rfl | ⟨reading, rfl⟩ <;> exact ⟨rfl, rfl, rfl, rfl, rfl, rfl⟩
  have hreaches : clock.Reaches clock.peak := by
    rw [hpeak]
    exact ⟨le_rfl, by decide, .inl rfl⟩
  have hnone : ∀ {P : LogicalInstant × LogicalInstant → Prop} range, clock.range = some range → P range := by
    intro P range hget
    rw [hrange] at hget
    cases hget
  have hc := (hreaches.counted hnone).1
  refine ⟨⟨hreaches, hnone, hnone, hrevision ▸ Nat.zero_le _⟩, hheld, ?_, hrevision⟩
  unfold VirtualClock.held at hheld
  unfold VirtualClock.spent
  rw [hc, hheld, hnow, he, sub_self]
  rfl

/-- A refused operation leaves a clock as it was, or as a reading in its place does. -/
theorem refused_call {e : ClockError} (h : (op.call s).1 = .error e) :
    (op.call s).2 = s ∨ (op.call s).2 = s.observed := by
  have he := effect_call s op
  rw [h] at he
  generalize (op.call s).2 = s' at he ⊢
  cases he with
  | early => exact .inl rfl
  | refused => exact .inr rfl

/-- The virtual clock is monotone and counts time once. -/
theorem clock_counts_time_once (start : LogicalInstant) (clock : VirtualClock)
    (hclock : clock = .new start ∨ ∃ reading, clock = .followingWith start reading) (source : Stream' ℤ)
    (ops : List ClockOp) (hfits : Fits (ops ++ [.read]) ⟨clock, source⟩) :
    let s := run ops ⟨clock, source⟩
    let path := visits (ops ++ [.read]) ⟨clock, source⟩
    ∃ snap, (snapshot s).1 = .ok snap ∧ snap.instant = lastInstant start path ∧ Ordered start path ∧
      (forward start path ≤ u128Max → snap.elapsedNanos = forward start path) ∧
      snap.revision = moves ops ⟨clock, source⟩ ∧
      (∀ (op : ClockOp) range, op.Fits s → s.clock.range = some range →
        ∀ v ∈ op.visits s, range.1 ≤ v.instant ∧ v.instant ≤ range.2) ∧
      ∀ (op : ClockOp) (e : ClockError), (op.call s).1 = .error e →
        ((op.call s).2.clock.now = s.clock.now ∧ (op.call s).2.clock.elapsedNanos = s.clock.elapsedNanos ∧
          (op.call s).2.clock.revision = s.clock.revision) ∧
        ((op.call s).2 = s ∨ (op.call s).2 = (snapshot s).2) := by
  intro s path
  obtain ⟨hwf, hheld, hspent, hrevision⟩ := wellFormed_new hclock
  obtain ⟨hops, hread, -⟩ := fits_append hfits
  have hrun : Stepped ⟨clock, source⟩ (visits ops ⟨clock, source⟩) (moves ops ⟨clock, source⟩) s :=
    run_stepped hwf hops
  have hsnapshot := snapshot_apply s
  have hpath : path = visits ops ⟨clock, source⟩ ++ [⟨s.observed.clock.held, false⟩] := by
    exact (visits_append ops [.read] ⟨clock, source⟩).trans (congrArg _ (visits_read))
  have hlast := hrun.trans (Stepped.observed hrun.wellFormed hread.1)
  rw [← hpath] at hlast
  refine ⟨_, congrArg Prod.fst hsnapshot, ?_, hheld ▸ hlast.ordered, fun hle => ?_, ?_,
    fun op range hop hrange => ?_, fun op e he => ?_⟩
  · exact hlast.last.symm.trans (congrArg (lastInstant · path) hheld)
  · have htotal := hlast.spent
    simp only [hheld, hspent, saturatingAdd128, Nat.zero_add] at htotal
    exact htotal.trans (min_eq_left hle)
  · exact hrun.revision.trans (by rw [hrevision, Nat.zero_add])
  · exact ((effect_call s op).stepped hrun.wellFormed hop.1 hop.2).range range hrange
  · rw [hsnapshot]
    refine ⟨?_, refused_call he⟩
    rcases refused_call he with hsame | hread
    · rw [hsame]
      exact ⟨rfl, rfl, rfl⟩
    · rw [hread]
      exact ⟨observed_now s, observed_elapsedNanos s, observed_revision s⟩

/-- A source that reads ten and then three. -/
def steppingBack : Stream' ℤ := Stream'.cons 10 (Stream'.const 3)

/-- An operation that is refused takes a reading; when the source then steps back, the clock stays at it. -/
theorem refused_operation_holds_clock :
    let s : ClockState := ⟨.followingWith 0 0, steppingBack⟩
    ((ClockOp.advanceTo 5).call s).1 = .error (.wouldMoveBackwards 10 5) ∧
      (snapshot ((ClockOp.advanceTo 5).call s).2).1 = .ok ⟨10, 10, 0⟩ ∧
      (snapshot ⟨s.clock, s.source.tail⟩).1 = .ok ⟨3, 3, 0⟩ := by
  refine ⟨rfl, rfl, rfl⟩

/-- A following clock that is advanced and set back counts the way forward only. -/
theorem clock_counts_time_once_following :
    ∃ snap, (snapshot (run [.advance 5, .trySetAllowBackwards 2] ⟨.followingWith 0 0, steppingBack⟩)).1 = .ok snap ∧
      snap.elapsedNanos = 15 ∧ snap.revision = 2 := by
  have hfits : Fits [.advance 5, .trySetAllowBackwards 2, .read] ⟨.followingWith 0 0, steppingBack⟩ := by
    refine ⟨⟨?_, ?_⟩, ⟨?_, ?_⟩, ⟨?_, ?_⟩, trivial⟩
    · rintro _ ⟨⟩
      decide
    · rintro _ ⟨⟩ _ ⟨⟩
      decide
    · rintro _ ⟨⟩
      decide
    · rintro _ ⟨⟩ _ ⟨⟩
      decide
    · rintro _ ⟨⟩
      decide
    · rintro _ ⟨⟩
  obtain ⟨snap, hsnap, -, -, helapsed, hrevision, -⟩ := clock_counts_time_once 0 (.followingWith 0 0) (.inr ⟨0, rfl⟩)
    steppingBack [.advance 5, .trySetAllowBackwards 2] hfits
  exact ⟨snap, hsnap, helapsed (by decide), hrevision⟩

end Fireemu.Session
