import Fireemu.PubSub.SubscriptionRun

/-!
# When a subscription is due again

Two instants decide when a worker looks at a subscription: the backoff of a delivery that was given
back, and the earliest instant at which a pull finds something.  The backoff is a loop of capped
doublings; `redeliveryBackoff_eq_exponential` is its closed form.  The wake time is found by a walk of
its own over the log, with its own rule for ordering keys; `pull_finds_iff_due` says that it agrees with
the walk of a pull.
-/

namespace Fireemu.PubSub

open Library (SortedMap)
open List

/-! ### The backoff -/

def maxRetryBackoffSeconds : ℤ := 600

namespace RetryPolicy

/-- What validation asks of a retry policy. -/
structure Validated (policy : RetryPolicy) : Prop where
  minimum_nonneg : 0 ≤ policy.minimumBackoff
  minimum_le : policy.minimumBackoff ≤ policy.maximumBackoff
  maximum_le : policy.maximumBackoff ≤ LogicalDuration.fromSeconds maxRetryBackoffSeconds

/-- When a bound is zero the smaller one is. -/
theorem Validated.minimum_eq_zero {policy : RetryPolicy} (h : policy.Validated)
    (hzero : policy.minimumBackoff = 0 ∨ policy.maximumBackoff = 0) : policy.minimumBackoff = 0 :=
  hzero.elim id fun hmax => le_antisymm (hmax ▸ h.minimum_le) h.minimum_nonneg

end RetryPolicy

namespace SubscriptionConfig

variable {backoff maximum : LogicalDuration}

variable {steps : ℕ}

/-- Doubling with a cap in every step is doubling with one cap at the end. -/
theorem doubled_eq (hmax : maximum ≤ i128Max) (hpos : 0 < backoff) (hle : backoff ≤ maximum) :
    doubled maximum steps backoff = min maximum (backoff * 2 ^ steps) := by
  induction steps generalizing backoff with
  | zero => rw [doubled, pow_zero, mul_one, min_eq_right hle]
  | succ steps ih =>
    rw [doubled]
    have hpow : (0 : ℤ) < 2 ^ steps := by positivity
    by_cases hreached : backoff ≥ maximum
    · -- the cap is reached, and further doublings stay above it
      rw [if_pos hreached, min_eq_left]
      · exact le_antisymm hle hreached
      · calc maximum ≤ backoff := hreached
          _ = backoff * 1 := (mul_one _).symm
          _ ≤ backoff * 2 ^ (steps + 1) := by gcongr; exact one_le_pow₀ (by norm_num)
    rw [if_neg hreached, min_assoc, min_eq_right hmax, ih
      (lt_min (mul_pos hpos two_pos) (hpos.trans_le hle)) (min_le_right _ _), pow_succ']
    rcases le_total (backoff * 2) maximum with hu | hover
    · rw [min_eq_left hu, mul_assoc]
    · rw [min_eq_right hover, min_eq_left, min_eq_left]
      · calc maximum ≤ backoff * 2 := hover
          _ = backoff * 2 * 1 := (mul_one _).symm
          _ ≤ backoff * 2 * 2 ^ steps := by gcongr; exact one_le_pow₀ (by norm_num)
          _ = backoff * (2 * 2 ^ steps) := mul_assoc _ _ _
      · calc maximum = maximum * 1 := (mul_one _).symm
          _ ≤ maximum * 2 ^ steps := by
            have := hpos.trans_le hle
            gcongr
            exact one_le_pow₀ (by norm_num)

/-- A positive backoff is above every allowed maximum after 127 doublings. -/
theorem maximum_le_pow (hpos : 0 < backoff)
    (hmax : maximum ≤ LogicalDuration.fromSeconds maxRetryBackoffSeconds) (h : 127 ≤ steps) :
    maximum ≤ backoff * 2 ^ steps := by
  have hb : LogicalDuration.fromSeconds maxRetryBackoffSeconds ≤ 2 ^ 127 := by decide
  calc maximum ≤ 2 ^ 127 := hmax.trans hb
    _ ≤ 2 ^ steps := pow_le_pow_right₀ (by norm_num) h
    _ = 1 * 2 ^ steps := (one_mul _).symm
    _ ≤ backoff * 2 ^ steps := by gcongr; exact hpos

/-- The exponential law, for an attempt counter of any size. -/
theorem redeliveryBackoff_eq {c : SubscriptionConfig} {policy : RetryPolicy}
    (hp : c.retryPolicy = some policy) (h : policy.Validated) (n : ℕ) (pushMinimum : LogicalDuration) :
    c.redeliveryBackoff n pushMinimum = min policy.maximumBackoff (policy.minimumBackoff * 2 ^ (n - 1)) := by
  have hmax : policy.maximumBackoff ≤ i128Max := h.maximum_le.trans (by decide)
  have hmin := h.minimum_nonneg
  have hle := h.minimum_le
  unfold redeliveryBackoff
  rw [hp]
  dsimp only
  split_ifs with hzero
  · rw [h.minimum_eq_zero hzero, zero_mul, min_eq_right (hmin.trans hle)]
  · push Not at hzero
    have hpos : 0 < policy.minimumBackoff := lt_of_le_of_ne hmin (Ne.symm hzero.1)
    rw [doubled_eq hmax hpos hle]
    rcases le_total (n - 1) 127 with hfew | hmany
    · rw [min_eq_left hfew]
    · -- the loop stops after 127 steps, when the cap is reached already
      rw [min_eq_right hmany, min_eq_left (maximum_le_pow hpos h.maximum_le le_rfl),
        min_eq_left (maximum_le_pow hpos h.maximum_le hmany)]

/-- The redelivery backoff of a validated retry policy is exponential in the attempt up to its
maximum, never falls, and is zero exactly when a bound is. -/
theorem redeliveryBackoff_eq_exponential {c : SubscriptionConfig} {policy : RetryPolicy}
    (hpolicy : c.retryPolicy = some policy) (h : policy.Validated) (pushMinimum : LogicalDuration) :
    (∀ n : ℕ, 1 ≤ n → n < 2 ^ 32 → c.redeliveryBackoff n pushMinimum =
      min policy.maximumBackoff (policy.minimumBackoff * 2 ^ (n - 1))) ∧
    (∀ n m : ℕ, 1 ≤ n → n ≤ m → m < 2 ^ 32 →
      c.redeliveryBackoff n pushMinimum ≤ c.redeliveryBackoff m pushMinimum) ∧
    (∀ n : ℕ, 1 ≤ n → n < 2 ^ 32 → (c.redeliveryBackoff n pushMinimum = 0 ↔
      policy.minimumBackoff = 0 ∨ policy.maximumBackoff = 0)) := by
  refine ⟨fun n _ _ => redeliveryBackoff_eq hpolicy h n pushMinimum, fun n m _ hnm _ => ?_, fun n _ _ => ?_⟩
  · rw [redeliveryBackoff_eq hpolicy h, redeliveryBackoff_eq hpolicy h]
    have hmin := h.minimum_nonneg
    gcongr
    · norm_num
  · rw [redeliveryBackoff_eq hpolicy h]
    have hpow : (0 : ℤ) < 2 ^ (n - 1) := by positivity
    constructor
    · intro hzero
      rcases min_choice policy.maximumBackoff (policy.minimumBackoff * 2 ^ (n - 1)) with heq | heq
      · exact .inr (heq ▸ hzero)
      · exact .inl ((mul_eq_zero.1 (heq ▸ hzero)).resolve_right hpow.ne')
    · intro hzero
      rw [h.minimum_eq_zero hzero, zero_mul, min_eq_right (h.minimum_nonneg.trans h.minimum_le)]

theorem redeliveryBackoff_third_attempt :
    let c := { SubscriptionState.sampleConfig with
      retryPolicy := some ⟨LogicalDuration.fromSeconds 10, LogicalDuration.fromSeconds 600⟩ }
    c.redeliveryBackoff 3 0 = LogicalDuration.fromSeconds 40 := by
  have hlaw := redeliveryBackoff_eq_exponential
    (c := { SubscriptionState.sampleConfig with
      retryPolicy := some ⟨LogicalDuration.fromSeconds 10, LogicalDuration.fromSeconds 600⟩ })
    rfl ⟨by decide, by decide, by decide⟩ 0
  exact (hlaw.1 3 (by norm_num) (by norm_num)).trans (by decide)

end SubscriptionConfig

namespace SubscriptionState

/-! ### The wake time -/

/-- The instants the walk of a worker collects: one for each available entry, and for an ordering key
only from its first entry that is not acknowledged. -/
def availableTimes (ordered : Bool) : List Str → List Entry → List LogicalInstant
  | _, [] => []
  | blockedKeys, entry :: entries =>
      let keyed := ordered && !entry.key.isEmpty
      if entry.isAcked then availableTimes ordered blockedKeys entries
      else if keyed && blockedKeys.contains entry.key then availableTimes ordered blockedKeys entries
      else
        let blockedKeys := if keyed then entry.key :: blockedKeys else blockedKeys
        match entry.state with
        | .available availableAt => availableAt :: availableTimes ordered blockedKeys entries
        | _ => availableTimes ordered blockedKeys entries

/-- The earliest instant at which an available message can be delivered. -/
def nextAvailableAt (s : SubscriptionState) : Option LogicalInstant :=
  (availableTimes s.config.enableMessageOrdering [] (s.entries.drop s.firstUnacked)).min?

/-- A pull whose output is always admitted. -/
def pullWithForwarding (s : SubscriptionState) (max : ℕ) (now : LogicalInstant) (forwardingAuthorized : Bool)
    (batching : OrderedPullBatching) (nextAckId : ℕ → AckId) : PullOutcome × SubscriptionState :=
  s.pullWithAdmission max now forwardingAuthorized batching nextAckId fun _ => true

/-- A scan that has found something. -/
def PullScan.Found (scan : PullScan) : Prop := scan.selected ≠ [] ∨ scan.forwarded ≠ []

/-- A scan that has found nothing, and has only blocked keys. -/
def PullScan.idle (blockedKeys : List Str) : PullScan := ⟨[], [], blockedKeys, []⟩

section Walk

variable {rules : PullRules} {scan : PullScan}

theorem PullScan.Found.step (h : scan.Found) (indexed : Entry × ℕ) : (scan.step rules indexed).Found := by
  unfold PullScan.step
  simp only [PullScan.block, PullScan.forward, PullScan.take]
  split_ifs <;> first | exact h | simp_all [PullScan.Found]

theorem PullScan.Found.foldl (h : scan.Found) (log : List (Entry × ℕ)) :
    (log.foldl (PullScan.step rules) scan).Found :=
  log.foldlRecOn _ h fun _ h indexed _ => h.step indexed

/-- A deliverable message without a key is found, unless the pull is full already. -/
theorem PullScan.found_of_unkeyed (hmax : 1 ≤ rules.max) {entries : List Entry} {e : Entry}
    (hmem : e ∈ entries) (hkey : e.key = []) (hdue : e.isDeliverable rules.now = true) (n : ℕ) :
    ((entries.zipIdx n).foldl (PullScan.step rules) scan).Found := by
  induction entries generalizing scan n with
  | nil => cases hmem
  | cons e' entries ih =>
    rw [zipIdx_cons, foldl_cons]
    rcases mem_cons.1 hmem with rfl | hmem
    · refine PullScan.Found.foldl ?_ _
      have ha : e.isAcked = false := by
        cases hstate : e.state <;> simp_all [Entry.isDeliverable, Entry.isAcked]
      unfold PullScan.step
      by_cases hfull : rules.max ≤ scan.selected.length
      · simp only [hfull, if_true]
        exact .inl (ne_nil_of_length_pos (by omega))
      · by_cases he : e.isExhausted rules.maxAttempts = true
        · simp [hfull, ha, hkey, hdue, he, PullScan.Found, PullScan.forward]
        · simp [hfull, ha, hkey, hdue, he, PullScan.Found, PullScan.take]
    · exact ih hmem (n + 1)

section Idle

variable (hmax : 1 ≤ rules.max) (hall : rules.unkeyedOnly = false) {blockedKeys : List Str} {e : Entry}
  {i : ℕ}

include hmax hall

theorem PullScan.step_idle_passed
    (h : e.isAcked = true ∨ (rules.ordered && !e.key.isEmpty && blockedKeys.contains e.key) = true) :
    (PullScan.idle blockedKeys).step rules (e, i) = .idle blockedKeys := by
  have hfull : ¬ rules.max ≤ 0 := by omega
  unfold PullScan.step PullScan.idle
  simp only [length_nil, hfull, hall, if_false, Bool.false_and]
  split_ifs with ha hb <;> first | rfl | exact absurd h (by tauto)

/-- An entry that can be delivered, and whose key is not blocked, is taken or transferred. -/
theorem PullScan.step_idle_found (ha : ¬ e.isAcked = true)
    (hb : ¬ (rules.ordered && !e.key.isEmpty && blockedKeys.contains e.key) = true)
    (hdue : e.isDeliverable rules.now = true) : ((PullScan.idle blockedKeys).step rules (e, i)).Found := by
  have hfull : ¬ rules.max ≤ 0 := by omega
  unfold PullScan.step PullScan.idle
  simp only [length_nil, hfull, hall, ha, hb, hdue, if_false, Bool.false_and]
  by_cases he : e.isExhausted rules.maxAttempts = true
  · rw [if_pos he]
    refine .inr ?_
    split_ifs <;> simp_all [PullScan.forward]
  · rw [if_neg he]
    exact .inl (by simp [PullScan.take])

/-- An entry that can not be delivered blocks its key. -/
theorem PullScan.step_idle_blocked (ha : ¬ e.isAcked = true)
    (hb : ¬ (rules.ordered && !e.key.isEmpty && blockedKeys.contains e.key) = true)
    (hdue : ¬ e.isDeliverable rules.now = true) :
    (PullScan.idle blockedKeys).step rules (e, i) =
      .idle (if rules.ordered && !e.key.isEmpty then e.key :: blockedKeys else blockedKeys) := by
  have hfull : ¬ rules.max ≤ 0 := by omega
  have hw : (!e.isDeliverable rules.now) = true := by simpa using hdue
  unfold PullScan.step PullScan.idle
  simp only [length_nil, hfull, hall, ha, hb, hw, if_false, if_true, Bool.false_and, Bool.false_eq_true]
  split_ifs <;> rfl

end Idle

/-- While both walks have found nothing they have blocked the same keys, so they find something at
the same entry. -/
theorem PullScan.found_iff_due (hmax : 1 ≤ rules.max) (hall : rules.unkeyedOnly = false)
    (blockedKeys : List Str) (entries : List Entry) (n : ℕ) :
    ((entries.zipIdx n).foldl (PullScan.step rules) (.idle blockedKeys)).Found ↔
      ∃ t ∈ availableTimes rules.ordered blockedKeys entries, t ≤ rules.now := by
  induction entries generalizing blockedKeys n with
  | nil => simp [PullScan.Found, PullScan.idle, availableTimes]
  | cons e entries ih =>
    rw [zipIdx_cons, foldl_cons, availableTimes]
    dsimp only
    by_cases ha : e.isAcked = true
    · rw [if_pos ha, PullScan.step_idle_passed hmax hall (.inl ha), ih]
    by_cases hb : (rules.ordered && !e.key.isEmpty && blockedKeys.contains e.key) = true
    · rw [if_neg ha, if_pos hb, PullScan.step_idle_passed hmax hall (.inr hb), ih]
    rw [if_neg ha, if_neg hb]
    cases hstate : e.state with
    | available t =>
      have hdue : e.isDeliverable rules.now = decide (t ≤ rules.now) := by
        rw [Entry.isDeliverable, hstate]
      by_cases ht : t ≤ rules.now
      · have hf := PullScan.step_idle_found hmax hall (i := n) ha hb
          (hdue.trans (decide_eq_true ht))
        exact iff_of_true (hf.foldl _) ⟨t, mem_cons_self, ht⟩
      · rw [PullScan.step_idle_blocked hmax hall ha hb (by simp [hdue, ht]), ih]
        simp [ht]
    | _ =>
      rw [PullScan.step_idle_blocked hmax hall ha hb (by simp [Entry.isDeliverable, hstate]), ih]

end Walk

theorem mem_availableTimes_of_unkeyed {ordered : Bool} {entries : List Entry} {e : Entry}
    {t : LogicalInstant} (hmem : e ∈ entries) (hkey : e.key = []) (hstate : e.state = .available t)
    (blockedKeys : List Str) : t ∈ availableTimes ordered blockedKeys entries := by
  induction entries generalizing blockedKeys with
  | nil => cases hmem
  | cons e' entries ih =>
    rw [availableTimes]
    rcases mem_cons.1 hmem with rfl | hmem
    · simp [hkey, hstate, Entry.isAcked]
    · dsimp only
      split_ifs
      · exact ih hmem _
      · exact ih hmem _
      all_goals split <;> first | exact mem_cons_of_mem _ (ih hmem _) | exact ih hmem _

/-- A pull finds something exactly when an instant a worker would collect has come. -/
theorem found_scan_iff_due (s : SubscriptionState) {max : ℕ} (hmax : 1 ≤ max) (now : LogicalInstant)
    (forwardingAuthorized : Bool) (batching : OrderedPullBatching) :
    (s.scan (s.pullRules max now forwardingAuthorized batching)).Found ↔
      ∃ t ∈ availableTimes s.config.enableMessageOrdering [] (s.entries.drop s.firstUnacked), t ≤ now := by
  by_cases hall : (s.pullRules max now forwardingAuthorized batching).unkeyedOnly = true
  · -- a pull is restricted to unkeyed messages only when one of them can be delivered
    have hu := hall
    simp only [pullRules, Bool.and_eq_true, any_eq_true] at hu
    obtain ⟨-, e, hmem, ⟨hkey, hdue⟩, -⟩ := hu
    have hkey : e.key = [] := isEmpty_iff.1 hkey
    refine iff_of_true (PullScan.found_of_unkeyed hmax hmem hkey hdue _) ?_
    cases hstate : e.state with
    | available t =>
      refine ⟨t, mem_availableTimes_of_unkeyed hmem hkey hstate [], ?_⟩
      simpa [Entry.isDeliverable, hstate] using hdue
    | _ => simp [Entry.isDeliverable, hstate] at hdue
  · exact PullScan.found_iff_due hmax (Bool.eq_false_iff.2 hall) [] _ _

/-- What a scan found is what the pull returns. -/
theorem PullEffect.found_iff {s : SubscriptionState} {rules : PullRules} {n : ℕ} {scan : PullScan}
    {deadline : LogicalInstant} {nextAckId : ℕ → AckId} {r : PullOutcome × SubscriptionState}
    (heff : PullEffect s scan deadline nextAckId r) (hs : PullScan.Sound rules s.entries n scan) :
    (r.1.received ≠ [] ∨ r.1.deadLettered ≠ []) ↔ scan.Found := by
  refine or_congr (not_congr ?_) (not_congr ?_)
  · have hl := congrArg List.length heff.ids
    simp only [length_map, length_range'] at hl
    rw [← length_eq_zero_iff, ← length_eq_zero_iff, hl]
  · rw [heff.deadLettered, filterMap_eq_nil_iff, eq_nil_iff_forall_not_mem]
    refine forall_congr' fun i => ⟨fun hnone hmem => ?_, fun hnot hmem => absurd hmem hnot⟩
    obtain ⟨-, e, hget, -⟩ := hs.forwarded i hmem
    have hget' := hnone hmem
    rw [hget] at hget'
    cases hget'

/-- A pull in a state without pending transfers delivers or transfers a message exactly when the
wake time has come.  Every state a subscription can reach is valid. -/
theorem pull_finds_iff_due {s : SubscriptionState} (h : s.Valid)
    (hpending : ∀ e ∈ s.entries, e.isForwardPending = false) {max : ℕ} (hmax : 1 ≤ max) (now : LogicalInstant)
    (forwardingAuthorized : Bool) (batching : OrderedPullBatching) (nextAckId : ℕ → AckId) :
    let outcome := (s.pullWithForwarding max now forwardingAuthorized batching nextAckId).1
    (outcome.received ≠ [] ∨ outcome.deadLettered ≠ []) ↔ ∃ t, s.nextAvailableAt = some t ∧ t ≤ now := by
  have hbefore : s.beforePull now forwardingAuthorized = s := by
    unfold beforePull
    split_ifs
    · rfl
    · have hmap : s.entries.map (fun e =>
          if e.isForwardPending then { e with state := .available now } else e) = s.entries := by
        refine (List.map_congr_left fun e hmem => ?_).trans (List.map_id s.entries)
        rw [hpending e hmem]
        rfl
      rw [withdrawForwards, hmap]
  have heq : s.pullWithForwarding max now forwardingAuthorized batching nextAckId =
      s.delivered (s.scan (s.pullRules max now forwardingAuthorized batching)) (s.pullDeadline now)
        nextAckId := by
    unfold pullWithForwarding pullWithAdmission
    rw [← beforePull.eq_1, hbefore, if_neg (by omega)]
    dsimp only
    rw [if_neg (by simp)]
    rfl
  have hsound := sound_scan h.lagging.ackedPrefix (s.pullRules max now forwardingAuthorized batching)
  have heff := pullEffect_delivered (s.pullDeadline now) nextAckId
    (hsound.selected_sorted.imp ne_of_lt) fun i hi => by
      obtain ⟨-, e, hget, -⟩ := hsound.selected i hi
      exact (List.getElem?_eq_some_iff.1 hget).1
  intro outcome
  have hfound := heff.found_iff hsound
  rw [← heq] at hfound
  rw [hfound, found_scan_iff_due s hmax, nextAvailableAt]
  constructor
  · rintro ⟨t, hmem, ht⟩
    obtain ⟨m, hm⟩ := Option.isSome_iff_exists.1 (List.isSome_min?_of_mem hmem)
    exact ⟨m, hm, ((List.min?_eq_some_iff.1 hm).2 t hmem).trans ht⟩
  · rintro ⟨t, hmin, ht⟩
    exact ⟨t, (List.min?_eq_some_iff.1 hmin).1, ht⟩

/-- The first message of a key is leased, so that the second one is blocked; a message of another key
comes later. -/
def blockedKeyOps : List Operation :=
  [.enqueue ⟨0, ['0'], 0, ⟨[], SortedMap.empty, ['k']⟩⟩ 5,
    .pull 1 5 false .mixed (fun _ => ['a']) fun _ => true,
    .enqueue ⟨1, ['1'], 0, ⟨[], SortedMap.empty, ['k']⟩⟩ 5,
    .enqueue ⟨2, ['2'], 0, ⟨[], SortedMap.empty, ['j']⟩⟩ 9]

theorem pull_finds_iff_due_of_blocked_key :
    let s := (new sampleConfig).run blockedKeyOps
    let found (now : LogicalInstant) :=
      let outcome := (s.pullWithForwarding 1 now true .mixed fun _ => ['b']).1
      outcome.received ≠ [] ∨ outcome.deadLettered ≠ []
    s.nextAvailableAt = some 9 ∧ ¬ found 8 ∧ found 9 := by
  have hiff := fun now => pull_finds_iff_due (s := (new sampleConfig).run blockedKeyOps)
    (leased_run (by decide)).valid (by decide) le_rfl now true .mixed fun _ => ['b']
  have hdue : ((new sampleConfig).run blockedKeyOps).nextAvailableAt = some 9 := by decide
  rw [hdue] at hiff
  refine ⟨hdue, fun hfound => ?_, (hiff 9).2 ⟨9, rfl, le_rfl⟩⟩
  obtain ⟨t, ⟨⟩, hle⟩ := (hiff 8).1 hfound
  exact absurd hle (by decide)

end SubscriptionState

end Fireemu.PubSub
