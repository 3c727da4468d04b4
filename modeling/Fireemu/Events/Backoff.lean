import Fireemu.Events.Event

/-!
# The backoff law of event retries

The documented backoff doubles the base for the first steps, adds two seconds per step after them, and
stops at the cap (`RetryPolicy.law`).  The code computes it with checked operations and answers with the
cap when one of them fails, which is right because the cap is an `i128` too; but it also answers with
the cap from 120 doublings on, whatever the base (`backoffForAttempt_eq`).  So it follows the law up to
there, and from there exactly where the law has reached the cap.
-/

namespace Fireemu.Events

open Option

namespace RetryPolicy

variable (policy : RetryPolicy)

/-- The doublings before the failure of an attempt. -/
def doublings (attempt : ℕ) : ℕ := policy.maxDoublings.elim (attempt - 1) (min (attempt - 1))

/-- The documented backoff, before the cap. -/
def uncapped (attempt : ℕ) : ℤ :=
  policy.baseBackoff * 2 ^ policy.doublings attempt +
    linearStepNanos * ((attempt - 1 - policy.doublings attempt : ℕ) : ℤ)

/-- The documented backoff. -/
def law (attempt : ℕ) : LogicalDuration := min policy.maxBackoff (policy.uncapped attempt)

variable {policy}

theorem exponential_nonneg {n : ℕ} : 0 ≤ policy.baseBackoff * 2 ^ n :=
  mul_nonneg policy.baseBackoff_nonneg (by positivity)

theorem linear_nonneg {n : ℕ} : 0 ≤ linearStepNanos * (n : ℤ) :=
  mul_nonneg (by decide) n.cast_nonneg

theorem checkedI128_of_nonneg {n : ℤ} (h : 0 ≤ n) : checkedI128 n = if n ≤ i128Max then some n else none := by
  have hmin : i128Min ≤ n := le_trans (by decide) h
  simp only [checkedI128, hmin, true_and]

/-- The checked sum under the cap is the sum under the cap. -/
theorem capped_eq {unit linear cap : ℤ} (hunit : 0 ≤ unit) (hlinear : 0 ≤ linear) (hcap : cap ≤ i128Max) :
    ((checkedI128 unit).bind fun unit => checkedI128 (unit + min linear i128Max)).elim cap
      (fun v => min v cap) = min cap (unit + linear) := by
  have hmax : 0 ≤ i128Max := by decide
  rw [checkedI128_of_nonneg hunit]
  split_ifs
  · rw [bind_some, checkedI128_of_nonneg (by omega)]
    split_ifs <;> simp only [Option.elim] <;> omega
  · simp only [bind_none, Option.elim]
    omega

/-- The code follows the law up to 120 doublings, and answers with the cap from there. -/
theorem backoffForAttempt_eq (hcap : policy.maxBackoff ≤ i128Max) (attempt : ℕ) :
    policy.backoffForAttempt attempt =
      if policy.doublings attempt < 120 then policy.law attempt else policy.maxBackoff := by
  unfold backoffForAttempt
  dsimp only
  rw [← doublings]
  split_ifs
  · exact capped_eq (exponential_nonneg) (linear_nonneg) hcap
  · rfl

variable {a b : ℕ}

theorem doublings_mono (h : a ≤ b) : policy.doublings a ≤ policy.doublings b := by
  unfold doublings
  cases policy.maxDoublings with
  | none => exact Nat.sub_le_sub_right h 1
  | some limit => exact min_le_min_right limit (Nat.sub_le_sub_right h 1)

theorem uncapped_mono (h : a ≤ b) : policy.uncapped a ≤ policy.uncapped b := by
  have hsteps : a - 1 - policy.doublings a ≤ b - 1 - policy.doublings b := by
    unfold doublings
    cases policy.maxDoublings <;> simp only [Option.elim] <;> omega
  refine add_le_add (mul_le_mul_of_nonneg_left ?_ policy.baseBackoff_nonneg)
    (mul_le_mul_of_nonneg_left (by exact_mod_cast hsteps) (by decide))
  exact pow_le_pow_right₀ (by norm_num) (doublings_mono h)

theorem backoffForAttempt_mono (hcap : policy.maxBackoff ≤ i128Max) (h : a ≤ b) :
    policy.backoffForAttempt a ≤ policy.backoffForAttempt b := by
  have hd : policy.doublings a ≤ policy.doublings b := doublings_mono h
  rw [backoffForAttempt_eq hcap, backoffForAttempt_eq hcap]
  split_ifs with ha hb hb
  · exact min_le_min_left _ (uncapped_mono h)
  · exact min_le_left _ _
  · exact absurd (hd.trans_lt hb) ha
  · exact le_rfl

theorem backoffForAttempt_mem (hcap : policy.maxBackoff ≤ i128Max) (attempt : ℕ) :
    policy.backoffForAttempt attempt ∈ Set.Icc 0 policy.maxBackoff := by
  have hmax := policy.baseBackoff_nonneg.trans policy.baseBackoff_le
  rw [backoffForAttempt_eq hcap]
  split_ifs
  · exact ⟨le_min hmax (add_nonneg (exponential_nonneg) (linear_nonneg)), min_le_left _ _⟩
  · exact ⟨hmax, le_rfl⟩

theorem allowsRetryAfterElapsed_mono (hcap : policy.maxBackoff ≤ i128Max) {elapsed earlier : LogicalDuration}
    (hb : b ≤ a) (hmin : i128Min ≤ earlier) (he : earlier ≤ elapsed)
    (h : policy.allowsRetryAfterElapsed a elapsed = true) :
    policy.allowsRetryAfterElapsed b earlier = true := by
  unfold allowsRetryAfterElapsed allowsRetryAfter at h ⊢
  rw [Bool.or_eq_true, decide_eq_true_eq] at h ⊢
  refine h.imp hb.trans_lt fun hwindow => ?_
  cases hlimit : policy.maxRetryDuration with
  | none =>
    rw [hlimit] at hwindow
    cases hwindow
  | some =>
    have hmono := backoffForAttempt_mono hcap hb
    have hnonneg := (backoffForAttempt_mem hcap b).1
    simp only [hlimit, any_some, checkedI128] at hwindow ⊢
    split_ifs at hwindow with hrange
    · simp only [any_some, decide_eq_true_eq] at hwindow
      have hsum := add_le_add he hmono
      rw [if_pos ⟨hmin.trans (le_add_of_nonneg_right hnonneg), hsum.trans hrange.2⟩]
      simpa using hsum.trans hwindow
    · cases hwindow

/-- The code follows the law before 120 doublings, and from there exactly where the law has reached the
cap. -/
theorem backoffForAttempt_eq_law_iff (hcap : policy.maxBackoff ≤ i128Max) (attempt : ℕ) :
    policy.backoffForAttempt attempt = policy.law attempt ↔
      policy.doublings attempt < 120 ∨ policy.maxBackoff ≤ policy.uncapped attempt := by
  rw [backoffForAttempt_eq hcap]
  split_ifs with hd
  · simp [hd]
  · simp [hd, law]

/-- The backoff of an attempt follows its law exactly if there are fewer than 120 doublings or the law is
at the cap; it never decreases or overflows, and a retry that is allowed is allowed earlier. -/
theorem backoff_follows_law (policy : RetryPolicy) (hcap : policy.maxBackoff ≤ i128Max) :
    (∀ attempt, 1 ≤ attempt → (policy.backoffForAttempt attempt = policy.law attempt ↔
      policy.doublings attempt < 120 ∨ policy.maxBackoff ≤ policy.uncapped attempt)) ∧
    (∀ a b, 1 ≤ a → a ≤ b → policy.backoffForAttempt a ≤ policy.backoffForAttempt b) ∧
    (∀ attempt, policy.backoffForAttempt attempt ∈ Set.Icc 0 policy.maxBackoff) ∧
    ∀ a b elapsed earlier, 1 ≤ b → b ≤ a → i128Min ≤ earlier → earlier ≤ elapsed →
      policy.allowsRetryAfterElapsed a elapsed = true → policy.allowsRetryAfterElapsed b earlier = true := by
  refine ⟨fun attempt _ => backoffForAttempt_eq_law_iff hcap attempt, fun a b _ hab => ?_,
    backoffForAttempt_mem hcap, fun a b _ _ _ hb hmin he => ?_⟩
  · exact backoffForAttempt_mono hcap hab
  · exact allowsRetryAfterElapsed_mono hcap hb hmin he

/-- Three doublings from two seconds, and two seconds more for the fifth attempt; and a base of one
nanosecond whose 121 doublings are just the cap. -/
theorem backoff_follows_law_samples :
    (∃ policy, tryWithLimits 9 2000000000 3600000000000 3 none = .ok policy ∧
      policy.backoffForAttempt 5 = 18000000000) ∧
    ∃ policy, tryNew 200 1 (2 ^ 121) = .ok policy ∧ policy.doublings 122 = 121 ∧
      policy.backoffForAttempt 122 = policy.law 122 := by
  refine ⟨⟨_, rfl, ?_⟩, _, rfl, rfl, ?_⟩
  · exact (((backoff_follows_law _ (by decide)).1 5 (by decide)).2 (.inl (by decide))).trans (by decide)
  · exact ((backoff_follows_law _ (by decide)).1 122 (by decide)).2 (.inr (by decide))

/-- A policy without backoff waits for the cap after 121 attempts. -/
theorem zero_base_backs_off : ∃ policy, tryNew 200 0 1000000000 = .ok policy ∧
    policy.law 121 = 0 ∧ policy.backoffForAttempt 121 = 1000000000 :=
  ⟨_, rfl, by decide, by decide⟩

end RetryPolicy

end Fireemu.Events
