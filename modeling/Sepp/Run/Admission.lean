import Sepp.Run.Calls
import Sepp.Spec.Lifecycle
import Sepp.Wire.Order

/-!
# What the clock and the admission checks promise

The clock is never before the epoch (`now_ms` of `src/storage.rs`), an effective dedup window is
at least a millisecond, and a job is admitted with a priority of at most nine (`src/config.rs`,
`src/validate.rs`). So no time that the store keeps is negative, and the byte order of its keys is
the order of their times.

## Main definitions

* `Call.Admitted` — the promises about a call.
* `Image.Orderly` — what they make true of the abstract state.

## Main results

* `Run.exists_orderly`.
-/

open Std

namespace Sepp

/-- The clock is not before the epoch, dedup windows are at least a millisecond, and priorities are
at most nine. -/
def Call.Admitted (call : Call) : Prop :=
  (∀ now ∈ call.stamp?, 0 ≤ now.toInt) ∧
    ∀ job ∈ call.jobs, 1 ≤ job.limits.dedupWindowMs.toInt ∧ job.limits.priority ≤ 9

instance : DecidablePred Call.Admitted := fun call =>
  have : Decidable (∀ now ∈ call.stamp?, 0 ≤ now.toInt) :=
    Option.decidableForallMem _
  inferInstanceAs (Decidable (_ ∧ ∀ job ∈ call.jobs, _))

/-- The time that a place keeps. -/
def Place.time? : Place → Option Int64
  | scheduled _ deadline => some deadline
  | leased _ expires => some expires
  | dead _ failedAt _ _ => some failedAt
  | limbo | ready _ => none

/-- A job whose time is not negative and whose priority is at most nine. -/
def JobState.Orderly (js : JobState) : Prop :=
  (∀ t, js.place.time? = some t → 0 ≤ t.toInt) ∧ js.content.priority ≤ 9

/-- No time of the store is negative, and no priority is above nine. -/
structure Image.Orderly (a : Image) : Prop where
  jobs : ∀ id js, a.jobs id = some js → js.Orderly
  dedup : ∀ name d, a.dedup name = some d → 0 ≤ d.deadline.toInt

/-- An event that brings no negative time and no priority above nine. -/
def Event.Orderly : Event → Prop
  | insert job now =>
    0 ≤ now.toInt ∧ 0 ≤ job.limits.dedupWindowMs.toInt ∧ job.limits.priority ≤ 9
  | lease _ expires | extend _ _ expires => 0 ≤ expires.toInt
  | retry _ _ _ delayed => ∀ deadline, delayed = some deadline → 0 ≤ deadline.toInt
  | bury _ _ _ failedAt _ _ _ => 0 ≤ failedAt.toInt
  | _ => True

theorem toInt_saturatingAdd_nonneg {t u : Int64} (ht : 0 ≤ t.toInt) (hu : 0 ≤ u.toInt) :
    0 ≤ (saturatingAdd t u).toInt := by
  rw [toInt_saturatingAdd]
  omega

theorem toInt_i64OfU64_nonneg (x : UInt64) : 0 ≤ (i64OfU64 x).toInt := by
  rw [i64OfU64, toInt_saturate]
  omega

/-! ### Calls make orderly events -/

/-- An operation with a non-negative stamp makes orderly events. -/
theorem Call.Explained.orderly {call : Call} {evs : List Event} (h : call.Explained evs)
    (hadm : call.Admitted) : ∀ e ∈ evs, e.Orderly := by
  intro e he
  obtain ⟨op, r, rfl, hmakes⟩ := h.exists_op he
  have hstamp : ∀ now, op.nowMs? = some now → 0 ≤ now.toInt := fun now hnow => hadm.1 now hnow
  have hdelay : ∀ now x, op.nowMs? = some now → 0 ≤ (saturatingAdd now (i64OfU64 x)).toInt :=
    fun now x hnow => toInt_saturatingAdd_nonneg (hstamp now hnow) (toInt_i64OfU64_nonneg x)
  cases e with
  | insert job now =>
    obtain ⟨hwindow, hpriority⟩ := hadm.2 job hmakes.mem_jobs
    obtain ⟨jobs, rfl | rfl, -⟩ := hmakes.of_insert <;>
      exact ⟨hstamp _ rfl, by omega, hpriority⟩
  | lease job expires =>
    obtain ⟨queues, leaseMs, maxJobs, now, rfl, rfl⟩ := hmakes.of_lease
    exact hdelay _ _ rfl
  | extend id attempt expires =>
    obtain ⟨req, leaseMs, now, rfl, -, -, rfl⟩ := hmakes.of_extend
    exact hdelay _ _ rfl
  | retry id queue attempt delayed =>
    obtain ⟨req, retryDelayMs, kept, now, rfl, -, -, rfl⟩ := hmakes.of_retry
    intro deadline hdeadline
    rw [nackDelay] at hdeadline
    split_ifs at hdeadline
    rw [← Option.some.inj hdeadline]
    exact hdelay _ _ rfl
  | bury id queue attempt failedAt cause reason kept =>
    rcases hmakes.of_bury with ⟨req, retryDelayMs, rfl, -⟩ | ⟨state, keys, rfl, -⟩ |
      ⟨budget, cutoff, rfl, -⟩ <;> exact hstamp _ rfl
  | _ => trivial

/-! ### Orderly events keep the state orderly -/

section Runs

variable [Prost]

omit [Prost] in
/-- A job in a place with a time that is not negative. -/
theorem JobState.Orderly.withPlace {js : JobState} (h : js.Orderly) {place : Place}
    (hplace : ∀ t, place.time? = some t → 0 ≤ t.toInt) :
    ({ js with place := place } : JobState).Orderly :=
  ⟨hplace, h.2⟩

theorem JobStep.orderly {id : String} {x x' : Option JobState} {e : Event} (h : JobStep id x e x')
    (he : e.Orderly) (hx : ∀ js, x = some js → js.Orderly) : ∀ js, x' = some js → js.Orderly := by
  rintro js rfl
  cases h with
  | other => exact hx js rfl
  | @insert job now hq hid =>
    refine ⟨fun t ht => ?_, he.2.2⟩
    change (job.firstPlace now).time? = some t at ht
    rw [PreparedJob.firstPlace] at ht
    split at ht
    · split_ifs at ht with hlt
      · obtain rfl := Option.some.inj ht
        have hle := Int64.lt_iff_toInt_lt.mp hlt
        have hnow := he.1
        omega
      · cases ht
    · cases ht
  | lease | extend =>
    refine (hx _ rfl).withPlace fun t ht => ?_
    rw [← Option.some.inj ht]
    exact he
  | retry hplace hleft delayed =>
    refine (hx _ rfl).withPlace fun t ht => ?_
    cases delayed with
    | none => cases ht
    | some deadline => exact he t ht
  | promote | redeliver => exact (hx _ rfl).withPlace fun t ht => by cases ht
  | keep hgiven reason =>
    refine (hx _ rfl).withPlace fun t ht => ?_
    rw [← Option.some.inj ht]
    exact he
  | requeue =>
    refine ⟨fun t ht => ?_, (hx _ rfl).2⟩
    cases ht

theorem Step.orderly {a a' : Image} {e : Event} (h : Step a e a') (he : e.Orderly)
    (ha : a.Orderly) : a'.Orderly where
  jobs id := (h.job id).orderly he (ha.jobs id)
  dedup name d hd := by
    cases h with
    | @insert job now hq hnew hunseen hopen =>
      unfold Image.rememberJob at hd
      split at hd
      · rename_i key _
        rw [Image.setDedup_dedup] at hd
        by_cases hname : name = (⟨job.req.queue, hq⟩, key)
        · rw [hname, Function.update_self] at hd
          rw [← Option.some.inj hd]
          exact toInt_saturatingAdd_nonneg he.1 he.2.1
        · rw [Function.update_of_ne hname] at hd
          exact ha.dedup name d hd
      · exact ha.dedup name d hd
    | @forget name' _ _ _ _ | @purgeDedup name' _ _ =>
      rw [Image.setDedup_dedup] at hd
      by_cases hname : name = name'
      · rw [hname, Function.update_self] at hd
        cases hd
      · rw [Function.update_of_ne hname] at hd
        exact ha.dedup name d hd
    | hit | full | closed | lease | ack | retry | extend | promote | redeliver | bury | requeue
    | discard | purge | close | reopen | lapse | append => exact ha.dedup name d hd

omit [Prost] in
theorem Image.orderly_empty : Image.empty.Orderly where
  jobs id js hjob := by cases hjob
  dedup name d hd := by cases hd

/-- After an admitted run the store is orderly. -/
theorem Run.exists_orderly {calls : List Call} {server : Server} (h : Run calls server)
    (hadm : ∀ call ∈ calls, call.Admitted) : ∃ a, server.Shows a ∧ a.Orderly := by
  obtain ⟨turns, a, rfl, hturns, hshows, -⟩ := h.exists_turns
  refine ⟨a, hshows, (events_of_turns hturns).preserves (P := Image.Orderly) ?_
    Image.orderly_empty⟩
  intro b e b' he hstep hb
  obtain ⟨turn, hturn, het⟩ := List.mem_flatMap.mp he
  refine hstep.orderly ?_ hb
  exact (explained_of_turns hturns turn hturn).orderly
    (hadm turn.call (List.mem_map_of_mem hturn)) e het

/-! ### The keys of an orderly state -/

variable {a : Image} {rows : Rows} {idx : Indexes}

theorem Represents.scheduled_startsWithTime (h : Represents a rows idx) (ha : a.Orderly) :
    ∀ key ∈ idx.scheduled.keys, StartsWithTime key := by
  intro key hkey
  obtain ⟨queue, hqueue⟩ := ExtTreeMap.mem_iff_exists.mp hkey
  obtain ⟨id, js, attempt, deadline, hJ, hp, rfl, -⟩ := h.jobs.of_scheduled_entry hqueue
  exact ⟨deadline, _, (ha.jobs id js hJ).1 deadline (by rw [hp]; rfl), rfl⟩

theorem Represents.leases_startsWithTime (h : Represents a rows idx) (ha : a.Orderly) :
    ∀ key ∈ idx.leases.keys, StartsWithTime key := by
  intro key hkey
  obtain ⟨queue, hqueue⟩ := ExtTreeMap.mem_iff_exists.mp hkey
  obtain ⟨id, js, attempt, expires, hJ, hp, rfl, -⟩ := h.jobs.of_lease_entry hqueue
  exact ⟨expires, _, (ha.jobs id js hJ).1 expires (by rw [hp]; rfl), rfl⟩

theorem Represents.deadLetter_startsWithTime (h : Represents a rows idx) (ha : a.Orderly) :
    ∀ key ∈ idx.deadLetter.keys, StartsWithTime key := by
  intro key hkey
  obtain ⟨queue, hqueue⟩ := ExtTreeMap.mem_iff_exists.mp hkey
  obtain ⟨id, js, attempt, failedAt, cause, reason, hJ, hp, rfl, -⟩ := h.jobs.of_dead_entry hqueue
  exact ⟨failedAt, _, (ha.jobs id js hJ).1 failedAt (by rw [hp]; rfl), rfl⟩

theorem Represents.dedupTimers_startsWithTime (h : Represents a rows idx) (ha : a.Orderly) :
    ∀ key ∈ idx.dedupTimers.keys, StartsWithTime key := by
  intro key hkey
  obtain ⟨queue, hqueue⟩ := ExtTreeMap.mem_iff_exists.mp hkey
  obtain ⟨name, d, hd, rfl, -⟩ := h.dedup.of_entry hqueue
  exact ⟨d.deadline, _, ha.dedup name d hd, rfl⟩

end Runs

end Sepp
