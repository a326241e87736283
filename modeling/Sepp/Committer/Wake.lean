import Mathlib.Data.List.ReduceOption
import Sepp.Committer.Cycle

/-!
# When the committer wakes up

`next_deadline` of `src/storage.rs`, and the choice between a sweep and a wait in `run_committer`.
The clock is a parameter.

The due test adds the retention to the time of a dead letter, and the sweep subtracts it from the
clock; both saturate.

## Main definitions

* `nextDeadline`, `SweepDue`, `waitMs`.

## Main results

* `sweepDue_iff` — a sweep is due when the first entry of some index is.
-/

open Std

namespace Sepp

/-- `next_deadline`. -/
def nextDeadline (idx : Indexes) (retentionMs : UInt64) : Option Int64 :=
  let deadLetter :=
    if 0 < retentionMs then
      idx.deadLetter.earliest.map fun failedAt => saturatingAdd failedAt (i64OfU64 retentionMs)
    else none
  [idx.scheduled.earliest, idx.leases.earliest, idx.dedupTimers.earliest,
    (idx.closing.toList.map Prod.snd).min?, deadLetter].reduceOption.min?

/-- `sweep_due` of `run_committer`. -/
def SweepDue (idx : Indexes) (retentionMs : UInt64) (now : Int64) : Prop :=
  ∃ deadline, nextDeadline idx retentionMs = some deadline ∧ deadline ≤ now

/-- The wait of `run_committer` for the next command when no sweep is due, in milliseconds. -/
def waitMs (idx : Indexes) (retentionMs : UInt64) (now : Int64) (maxSweepIntervalMs : ℕ) : ℕ :=
  match nextDeadline idx retentionMs with
  | some deadline => min (deadline.toInt - now.toInt).toNat maxSweepIntervalMs
  | none => maxSweepIntervalMs

/-- The cutoff of the retention that `run_sweep_cycle` computes. -/
def retentionCutoff (retentionMs : UInt64) (now : Int64) : Option Int64 :=
  if 0 < retentionMs then some (saturatingSub now (i64OfU64 retentionMs)) else none

/-! ### The due test -/

/-- The first entry of the index is due. -/
def TimerIndex.FirstDueAt (idx : TimerIndex) (now : Int64) : Prop :=
  ∃ deadline, idx.earliest = some deadline ∧ deadline ≤ now

/-- A minimum is low when some element is. -/
theorem min?_le_iff {values : List Int64} {now : Int64} :
    (∃ v, values.min? = some v ∧ v ≤ now) ↔ ∃ v ∈ values, v ≤ now := by
  constructor
  · rintro ⟨v, hmin, hle⟩
    exact ⟨v, (List.min?_eq_some_iff.mp hmin).1, hle⟩
  · rintro ⟨v, hmem, hle⟩
    obtain ⟨least, hleast⟩ := Option.isSome_iff_exists.mp (List.isSome_min?_of_mem hmem)
    exact ⟨least, hleast, Int64.le_trans ((List.min?_eq_some_iff.mp hleast).2 v hmem) hle⟩

/-- Adding the retention to the failure compares as subtracting it from the clock does, before the
clock ends. -/
theorem retention_le_iff {failedAt now : Int64} {retentionMs : UInt64} (hnow : 0 ≤ now.toInt)
    (hlt : now.toInt < 2 ^ 63 - 1) :
    saturatingAdd failedAt (i64OfU64 retentionMs) ≤ now ↔
      failedAt ≤ saturatingSub now (i64OfU64 retentionMs) := by
  have hlower := failedAt.le_toInt
  have hupper := failedAt.toInt_lt
  rw [Int64.le_iff_toInt_le, Int64.le_iff_toInt_le, saturatingAdd, saturatingSub, toInt_saturate,
    toInt_saturate, i64OfU64, toInt_saturate]
  omega

/-- A sweep is due when the first scheduled job, lease, dedup timer or dead letter is, or when a
tombstone has lapsed. -/
theorem sweepDue_iff {idx : Indexes} {retentionMs : UInt64} {now : Int64} (hnow : 0 ≤ now.toInt)
    (hlt : now.toInt < 2 ^ 63 - 1) :
    SweepDue idx retentionMs now ↔
      idx.scheduled.FirstDueAt now ∨ idx.leases.FirstDueAt now ∨ idx.dedupTimers.FirstDueAt now ∨
      (∃ (queue : String) (deadline : Int64), idx.closing[queue]? = some deadline ∧ deadline ≤ now) ∨
      ∃ cutoff, retentionCutoff retentionMs now = some cutoff ∧ idx.deadLetter.FirstDueAt cutoff := by
  have hclosing : (∃ v, (idx.closing.toList.map Prod.snd).min? = some v ∧ v ≤ now) ↔
      ∃ (queue : String) (deadline : Int64),
        idx.closing[queue]? = some deadline ∧ deadline ≤ now := by
    simp only [min?_le_iff, List.mem_map, Prod.exists, exists_eq_right,
      ExtTreeMap.mem_toList_iff_getElem?_eq_some]
    constructor
    · rintro ⟨v, ⟨queue, hqueue⟩, hle⟩
      exact ⟨queue, v, hqueue, hle⟩
    · rintro ⟨queue, v, hqueue, hle⟩
      exact ⟨v, ⟨queue, hqueue⟩, hle⟩
  have hdead : (∃ v, (if 0 < retentionMs then idx.deadLetter.earliest.map fun failedAt =>
      saturatingAdd failedAt (i64OfU64 retentionMs) else none) = some v ∧ v ≤ now) ↔
      ∃ cutoff, retentionCutoff retentionMs now = some cutoff ∧
        idx.deadLetter.FirstDueAt cutoff := by
    rw [retentionCutoff]
    split_ifs with hkept
    · constructor
      · rintro ⟨v, hv, hle⟩
        obtain ⟨failedAt, hfirst, rfl⟩ := Option.map_eq_some_iff.mp hv
        exact ⟨_, rfl, failedAt, hfirst, (retention_le_iff hnow hlt).mp hle⟩
      · rintro ⟨cutoff, hcutoff, failedAt, hfirst, hle⟩
        obtain rfl := Option.some.inj hcutoff
        exact ⟨_, Option.map_eq_some_iff.mpr ⟨failedAt, hfirst, rfl⟩,
          (retention_le_iff hnow hlt).mpr hle⟩
    · simp
  rw [SweepDue, nextDeadline, min?_le_iff, ← hclosing, ← hdead]
  simp only [List.reduceOption_mem_iff, List.mem_cons, List.not_mem_nil, or_false, or_and_right,
    exists_or, TimerIndex.FirstDueAt, eq_comm]

end Sepp
