import Sepp.Config.Registry
import Mathlib.Algebra.Order.Group.Nat
import Mathlib.Data.Nat.Basic

/-!
# Retry back-off

`policy_retry_delay_ms` of `src/storage.rs`: the delay of a nacked job that asks for none itself.
The delay of the policy, doubled with every attempt when the back-off is exponential, is capped
twice, and a hash of the job and the attempt takes off at most a quarter. The source computes in
`u64` with saturation; the delay without a bound on the integers is `RetryPolicy.exactDelay`.

The hash is `DefaultHasher` of the standard library. Nothing depends on its values, so it is a
parameter.

## Main definitions

* `RetryPolicy.grown`, `RetryPolicy.capped`, `policyRetryDelayMs` — the computation of the source.
* `RetryPolicy.exactDelay` — the delay before the jitter, in unbounded integers.

## Main results

* `policyRetryDelayMs_bounds`.
-/

namespace Sepp

/-! ### Saturating arithmetic on `u64` -/

/-- `u64::saturating_mul`. -/
def saturatingMulU64 (a b : UInt64) : UInt64 := UInt64.ofNat (min (a.toNat * b.toNat) (2 ^ 64 - 1))

/-- `u64::saturating_pow`. -/
def saturatingPowU64 (b : UInt64) : ℕ → UInt64
  | 0 => 1
  | n + 1 => saturatingMulU64 (saturatingPowU64 b n) b

theorem toNat_saturatingMulU64 (a b : UInt64) :
    (saturatingMulU64 a b).toNat = min (a.toNat * b.toNat) (2 ^ 64 - 1) := by
  rw [saturatingMulU64, UInt64.toNat_ofNat_of_lt']
  exact (min_le_right _ _).trans_lt (by decide)

/-- A power that saturates on the way stays saturated. -/
theorem toNat_saturatingPowU64 {b : UInt64} (hb : 1 ≤ b.toNat) (n : ℕ) :
    (saturatingPowU64 b n).toNat = min (b.toNat ^ n) (2 ^ 64 - 1) := by
  induction n with
  | zero => rfl
  | succ n ih =>
    rw [saturatingPowU64, toNat_saturatingMulU64, ih, pow_succ b.toNat]
    rcases le_total (b.toNat ^ n) (2 ^ 64 - 1) with hle | hle
    · rw [min_eq_left hle]
    · have hgrows : 2 ^ 64 - 1 ≤ (2 ^ 64 - 1) * b.toNat := Nat.le_mul_of_pos_right _ hb
      rw [min_eq_right hle, min_eq_right hgrows, min_eq_right]
      exact hle.trans (Nat.le_mul_of_pos_right _ hb)

/-! ### The delay -/

/-- `u32::saturating_sub(1)`. -/
def pastAttempts (attempt : UInt32) : ℕ := attempt.toNat - 1

namespace RetryPolicy

variable (policy : RetryPolicy) (attempt : UInt32)

/-- The delay of the policy for the attempt. -/
def grown : UInt64 :=
  match policy.retryBackoff with
  | .none => policy.retryDelayMs
  | .exponential =>
    saturatingMulU64 policy.retryDelayMs (saturatingPowU64 2 (pastAttempts attempt))

/-- The delay, capped. -/
def capped : UInt64 :=
  min (policy.grown attempt) (min policy.retryDelayMaxMs policy.maxScheduleHorizonMs)

/-- The delay before the jitter, in unbounded integers. -/
def exactDelay : ℕ :=
  min (match policy.retryBackoff with
    | .none => policy.retryDelayMs.toNat
    | .exponential => policy.retryDelayMs.toNat * 2 ^ (max attempt.toNat 1 - 1))
  (min policy.retryDelayMaxMs.toNat policy.maxScheduleHorizonMs.toNat)

end RetryPolicy

/-- `policy_retry_delay_ms`, for a hash of job id and attempt. -/
def policyRetryDelayMs (retryJitterHash : String → UInt32 → UInt64) (policy : RetryPolicy)
    (attempt : UInt32) (jobId : String) : UInt64 :=
  if policy.retryDelayMs = 0 then 0
  else
    let capped := policy.capped attempt
    capped - retryJitterHash jobId attempt % (capped / 4 + 1)

namespace RetryPolicy

variable {policy : RetryPolicy} {attempt : UInt32}

theorem toNat_min (a b : UInt64) : (min a b).toNat = min a.toNat b.toNat := by
  by_cases h : a ≤ b
  · rw [show min a b = a from if_pos h, min_eq_left (UInt64.le_iff_toNat_le.mp h)]
  · have hle := UInt64.le_iff_toNat_le.mp ((UInt64.le_total a b).resolve_left h)
    rw [show min a b = b from if_neg h, min_eq_right hle]

/-- Before the cap, saturation loses nothing that the cap would keep. -/
theorem toNat_grown : ∀ cap < 2 ^ 64, min (policy.grown attempt).toNat cap =
    min (match policy.retryBackoff with
      | .none => policy.retryDelayMs.toNat
      | .exponential => policy.retryDelayMs.toNat * 2 ^ (max attempt.toNat 1 - 1)) cap := by
  intro cap hcap
  rw [grown]
  cases policy.retryBackoff with
  | none => rfl
  | exponential =>
    have hexp : pastAttempts attempt = max attempt.toNat 1 - 1 := by
      rw [pastAttempts]
      omega
    simp only
    rw [toNat_saturatingMulU64, toNat_saturatingPowU64 (by decide), ← hexp,
      show UInt64.toNat 2 = 2 from rfl]
    rcases le_total (2 ^ pastAttempts attempt) (2 ^ 64 - 1) with hle | hle
    · rw [min_eq_left hle, min_assoc, min_eq_right (show cap ≤ 2 ^ 64 - 1 by omega)]
    · rw [min_eq_right hle, min_assoc, min_eq_right (show cap ≤ 2 ^ 64 - 1 by omega)]
      rcases Nat.eq_zero_or_pos policy.retryDelayMs.toNat with hzero | hpos
      · rw [hzero, Nat.zero_mul, Nat.zero_mul]
      · have hbig : cap ≤ policy.retryDelayMs.toNat * (2 ^ 64 - 1) := by
          have := Nat.le_mul_of_pos_left (2 ^ 64 - 1) hpos
          omega
        rw [min_eq_right hbig, min_eq_right]
        exact hbig.trans (Nat.mul_le_mul_left _ hle)

/-- The capped delay of the source is the exact one. -/
theorem toNat_capped : (policy.capped attempt).toNat = policy.exactDelay attempt := by
  rw [capped, toNat_min, toNat_min, exactDelay, toNat_grown]
  exact (min_le_left _ _).trans_lt policy.retryDelayMaxMs.toNat_lt

/-- The delay before the jitter never decreases with the attempt. -/
theorem exactDelay_mono {attempt' : UInt32} (h : attempt ≤ attempt') :
    policy.exactDelay attempt ≤ policy.exactDelay attempt' := by
  rw [exactDelay, exactDelay]
  refine min_le_min_right _ ?_
  cases policy.retryBackoff with
  | none => exact le_refl _
  | exponential =>
    have hle := UInt32.le_iff_toNat_le.mp h
    exact Nat.mul_le_mul_left _ (Nat.pow_le_pow_right (by decide) (by omega))

/-- A delay that is not zero stays so under the caps. -/
theorem one_le_exactDelay (hmax : 1 ≤ policy.retryDelayMaxMs)
    (hhorizon : 1 ≤ policy.maxScheduleHorizonMs) (hbase : 0 < policy.retryDelayMs) :
    1 ≤ policy.exactDelay attempt := by
  have hbase' : 1 ≤ policy.retryDelayMs.toNat := UInt64.lt_iff_toNat_lt.mp hbase
  rw [exactDelay]
  refine le_min ?_ (le_min (UInt64.le_iff_toNat_le.mp hmax) (UInt64.le_iff_toNat_le.mp hhorizon))
  cases policy.retryBackoff with
  | none => exact hbase'
  | exponential => exact hbase'.trans (Nat.le_mul_of_pos_right _ (Nat.two_pow_pos _))

end RetryPolicy

/-- The bounds of the retry delay. -/
theorem policyRetryDelayMs_bounds (retryJitterHash : String → UInt32 → UInt64)
    (policy : RetryPolicy) (hmax : 1 ≤ policy.retryDelayMaxMs)
    (hhorizon : 1 ≤ policy.maxScheduleHorizonMs) (attempt : UInt32) (jobId : String) :
    (policy.retryDelayMs = 0 → policyRetryDelayMs retryJitterHash policy attempt jobId = 0) ∧
    (0 < policy.retryDelayMs →
      policy.exactDelay attempt - policy.exactDelay attempt / 4 ≤
        (policyRetryDelayMs retryJitterHash policy attempt jobId).toNat ∧
      (policyRetryDelayMs retryJitterHash policy attempt jobId).toNat ≤
        policy.exactDelay attempt ∧
      1 ≤ policyRetryDelayMs retryJitterHash policy attempt jobId) ∧
    -- the divisor of the jitter does not overflow, so it is not zero, and the jitter is no larger
    -- than the delay it is taken off
    ((policy.capped attempt).toNat / 4 + 1 < 2 ^ 64 ∧ policy.capped attempt / 4 + 1 ≠ 0 ∧
      retryJitterHash jobId attempt % (policy.capped attempt / 4 + 1) ≤ policy.capped attempt) ∧
    ∀ attempt', attempt ≤ attempt' → policy.exactDelay attempt ≤ policy.exactDelay attempt' := by
  have hlt := (policy.capped attempt).toNat_lt
  have hdivisor : (policy.capped attempt / 4 + 1).toNat = (policy.capped attempt).toNat / 4 + 1 := by
    rw [UInt64.toNat_add, UInt64.toNat_div]
    exact Nat.mod_eq_of_lt (by simp only [UInt64.reduceToNat]; omega)
  have hjitter : (retryJitterHash jobId attempt % (policy.capped attempt / 4 + 1)).toNat ≤
      (policy.capped attempt).toNat / 4 := by
    rw [UInt64.toNat_mod, hdivisor]
    exact Nat.le_of_lt_succ (Nat.mod_lt _ (Nat.succ_pos _))
  have hle : retryJitterHash jobId attempt % (policy.capped attempt / 4 + 1) ≤
      policy.capped attempt := by
    rw [UInt64.le_iff_toNat_le]
    omega
  refine ⟨fun hzero => by rw [policyRetryDelayMs, if_pos hzero], fun hbase => ?_,
    ⟨by omega, fun hzero => ?_, hle⟩, fun attempt' => RetryPolicy.exactDelay_mono⟩
  · have hne : policy.retryDelayMs ≠ 0 := fun hzero => by
      rw [hzero] at hbase
      exact absurd hbase (by decide)
    have hone : 1 ≤ policy.exactDelay attempt :=
      RetryPolicy.one_le_exactDelay hmax hhorizon hbase
    have hresult : (policyRetryDelayMs retryJitterHash policy attempt jobId).toNat =
        policy.exactDelay attempt -
          (retryJitterHash jobId attempt % (policy.capped attempt / 4 + 1)).toNat := by
      rw [policyRetryDelayMs, if_neg hne, UInt64.toNat_sub_of_le _ _ hle,
        RetryPolicy.toNat_capped]
    rw [RetryPolicy.toNat_capped] at hjitter
    refine ⟨by omega, by omega, ?_⟩
    rw [UInt64.le_iff_toNat_le, hresult]
    exact (show 1 ≤ _ by omega)
  · rw [hzero] at hdivisor
    exact absurd hdivisor (by simp)

/-- A policy whose delay is capped at the fourth attempt. -/
def doublingPolicy : RetryPolicy where
  retryDelayMs := 1000
  retryBackoff := .exponential
  retryDelayMaxMs := 5000
  maxScheduleHorizonMs := 60000

/-- Between three quarters of the cap and the cap. -/
theorem policyRetryDelayMs_bounds_doublingPolicy :
    doublingPolicy.exactDelay 4 = 5000 ∧
      5000 - 5000 / 4 ≤ (policyRetryDelayMs (fun _ _ => 7777) doublingPolicy 4 "a").toNat := by
  obtain ⟨-, hpositive, -⟩ := policyRetryDelayMs_bounds (fun _ _ => 7777) doublingPolicy
    (by decide) (by decide) 4 "a"
  exact ⟨by decide, (hpositive (by decide)).1⟩

end Sepp
