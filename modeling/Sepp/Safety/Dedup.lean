import Sepp.Run.Admission
import Sepp.Run.Outcomes
import Sepp.Spec.Queues
import Sepp.Wire.Codec

/-!
# Dedup records and their timers

A dedup record and its timer are written and removed together, so after every run each record has
exactly one timer, with its own deadline, and no timer is without its record. Hence a sweep
forgets a record only by its own timer and comes by every record in the end, and a purge of a
queue takes its records along with their timers.

## Main definitions

* `DedupPaired` — records and timers are in bijection.

## Main results

* `Represents.dedupPaired`.
* `Run.dedup_paired`.
-/

open Std

namespace Sepp

/-- Each record has exactly one timer, at its own deadline, and each timer has its record. -/
structure DedupPaired (rows : Rows) : Prop where
  timer_of_record : ∀ key value, rows.dedup[key]? = some value →
    ∃ record, DedupValue.decode value = some record ∧
      ∀ timer, timer ∈ rows.dedupTimers ∧ DedupTimerKey.dedupKeyOf timer = some key ↔
        timer = DedupTimerKey.encode { deadline := record.deadline, dedupKey := key }
  record_of_timer : ∀ timer ∈ rows.dedupTimers,
    ∃ key value record, timer = DedupTimerKey.encode { deadline := record.deadline, dedupKey := key } ∧
      rows.dedup[key]? = some value ∧ DedupValue.decode value = some record

/-- The row is a record whose window has ended at `now`. -/
def Outdated (now : Int64) (value : Bytes) : Prop :=
  ∃ record, DedupValue.decode value = some record ∧ ¬ now < record.deadline

section Paired

variable [Prost] {a : Image} {rows : Rows} {idx : Indexes} {key value : Bytes}

/-- A row of `dedup` is the record of its idempotency key. -/
theorem Represents.of_dedup_row (h : Represents a rows idx) (hrow : rows.dedup[key]? = some value) :
    ∃ name d, a.dedup name = some d ∧
      key = DedupKey.encode { queue := name.1, idempotencyKey := name.2 } ∧
      value = DedupValue.encode
        { enqueuedAt := d.enqueuedAt, deadline := d.deadline, jobId := d.jobId } := by
  obtain ⟨name, -, hname⟩ := h.dedup.dedup.row_of_get hrow
  obtain ⟨d, hd, heq⟩ := (rowsOf_eq_some_iff _).mp hname
  obtain ⟨rfl, rfl⟩ := Prod.mk.inj (Option.some.inj heq)
  exact ⟨name, d, hd, rfl, rfl⟩

theorem Represents.dedupPaired (h : Represents a rows idx) : DedupPaired rows where
  timer_of_record key value hrow := by
    obtain ⟨name, d, hd, rfl, rfl⟩ := h.of_dedup_row hrow
    refine ⟨_, DedupValue.decode_encode _, fun timer => ?_⟩
    have hone := h.dedup.timers.oneRow (i := name) (k := dedupTimer name d.deadline) (v := [])
      ((rowsOf_eq_some_iff _).mpr ⟨d, hd, rfl⟩)
    constructor
    · rintro ⟨hmem, hkey⟩
      obtain ⟨value, hvalue⟩ := ExtTreeMap.mem_iff_exists.mp hmem
      have hown : dedupTimerName timer = some name := by
        rw [dedupTimerName, hkey, Option.bind_some, dedupNameOf_encode]
      exact ((hone timer value).mp ⟨hvalue, hown⟩).1
    · rintro rfl
      exact ⟨ExtTreeMap.mem_iff_exists.mpr ⟨[], ((hone _ _).mpr ⟨rfl, rfl⟩).1⟩,
        DedupTimerKey.dedupKeyOf_encode _⟩
  record_of_timer timer hmem := by
    obtain ⟨queue, hqueue⟩ := ExtTreeMap.mem_iff_exists.mp (h.mem_dedupTimers_iff.mp hmem)
    obtain ⟨name, d, hd, rfl, -⟩ := h.dedup.of_entry hqueue
    exact ⟨_, _, { enqueuedAt := d.enqueuedAt, deadline := d.deadline, jobId := d.jobId }, rfl,
      h.dedup.get_dedup hd, DedupValue.decode_encode _⟩

end Paired

section Run

variable [Prost] {calls : List Call} {server server' : Server} {a a' : Image} {key value : Bytes}

/-- Records that are only removed. -/
theorem Server.Shows.dedup_of_subset (h : server.Shows a) (h' : server'.Shows a')
    (hsub : ∀ name d, a'.dedup name = some d → a.dedup name = some d)
    (hrow : server'.rows.dedup[key]? = some value) : server.rows.dedup[key]? = some value := by
  obtain ⟨name, d, hd, rfl, rfl⟩ := h'.of_dedup_row hrow
  exact h.dedup.get_dedup (hsub name d hd)

/-- A record that is only removed, if at all, goes with its timer. -/
theorem Server.Shows.removed_iff (h : server.Shows a) (h' : server'.Shows a')
    (hsub : ∀ name d, a'.dedup name = some d → a.dedup name = some d)
    (hrow : server.rows.dedup[key]? = some value) {record : DedupValue}
    (hrecord : DedupValue.decode value = some record) :
    server'.rows.dedup[key]? = none ↔
      DedupTimerKey.encode { deadline := record.deadline, dedupKey := key } ∉
        server'.rows.dedupTimers := by
  constructor
  · intro hnone hmem
    obtain ⟨key', value', record', heq, hrow', -⟩ := h'.dedupPaired.record_of_timer _ hmem
    have hkey := congrArg DedupTimerKey.dedupKeyOf heq
    rw [DedupTimerKey.dedupKeyOf_encode, DedupTimerKey.dedupKeyOf_encode] at hkey
    obtain rfl : key = key' := Option.some.inj hkey
    cases hnone.symm.trans hrow'
  · intro hnot
    cases hrow' : server'.rows.dedup[key]? with
    | none => rfl
    | some value' =>
      obtain rfl := Option.some.inj ((h.dedup_of_subset h' hsub hrow').symm.trans hrow)
      obtain ⟨record', hrecord', htimer⟩ := h'.dedupPaired.timer_of_record key _ hrow'
      obtain rfl := Option.some.inj (hrecord'.symm.trans hrecord)
      exact absurd ((htimer _).mpr rfl).1 hnot

/-! ### Sweeps -/

/-- The record of an idempotency key after a sweep. -/
theorem Swept.dedup_eq {now : Int64} {budget n : ℕ} {cutoff : Option Int64} {kept : Bool}
    {rows : Rows} {idx : Indexes} (h : Swept now budget cutoff kept a n a')
    (hrep : Represents a rows idx) (name : DedupName) :
    a'.dedup name = (a.dedup name).filter fun d =>
      dedupTimer name d.deadline ∉ idx.dedupTimers.popAll now budget := by
  obtain ⟨due, expired, stale, old, -, rfl, hkeys, -⟩ := h
  rw [← (hkeys rows idx hrep).2.2]
  rfl

variable {now : Int64} {budget : UInt64} {cutoff : Option Int64} {kept : Bool} {n : ℕ}

/-- A sweep keeps a record or forgets it, and forgets it only when its window has ended. -/
theorem Run.sweep_dedup (h : Run calls server)
    (hstep : CallStep server (.answered (.sweep now budget cutoff kept) (.ok (.sweep n))) server')
    (hrow : server.rows.dedup[key]? = some value) :
    server'.rows.dedup[key]? = some value ∨
      server'.rows.dedup[key]? = none ∧ Outdated now value := by
  obtain ⟨a, hshows⟩ := h.exists_shows
  obtain ⟨a', hshows', hswept⟩ := hshows.swept hstep
  obtain ⟨name, d, hd, rfl, rfl⟩ := hshows.of_dedup_row hrow
  have hafter := hswept.dedup_eq hshows name
  rw [hd] at hafter
  by_cases hmem : dedupTimer name d.deadline ∈ server.indexes.dedupTimers.popAll now budget.toNat
  · rw [Option.filter_some_neg (by simpa using hmem)] at hafter
    have hdue := (TimerIndex.mem_dueKeys_of_mem_popAll hmem).2
    rw [dedupTimer, DedupTimerKey.deadlineOf_encode] at hdue
    exact .inr ⟨hshows'.dedup.get_dedup_eq_none hafter, _, DedupValue.decode_encode _, hdue⟩
  · rw [Option.filter_some_pos (by simpa using hmem)] at hafter
    exact .inl (hshows'.dedup.get_dedup hafter)

/-- A sweep whose budget is enough for the timers that are due forgets every record whose window
has ended. -/
theorem Run.sweep_forgets (h : Run calls server) (hadm : ∀ call ∈ calls, call.Admitted)
    (hbudget :
      (TimerIndex.dueKeys (· ∈ server.rows.dedupTimers) now).ncard ≤ budget.toNat)
    (hstep : CallStep server (.answered (.sweep now budget cutoff kept) (.ok (.sweep n))) server')
    (hrow : server.rows.dedup[key]? = some value) (hold : Outdated now value) :
    server'.rows.dedup[key]? = none := by
  obtain ⟨a, hshows, horderly⟩ := h.exists_orderly hadm
  obtain ⟨a', hshows', hswept⟩ := hshows.swept hstep
  obtain ⟨name, d, hd, rfl, rfl⟩ := hshows.of_dedup_row hrow
  obtain ⟨record, hrecord, hdue⟩ := hold
  rw [DedupValue.decode_encode] at hrecord
  obtain rfl := Option.some.inj hrecord
  have hkeys : (· ∈ server.rows.dedupTimers) = (· ∈ server.indexes.dedupTimers.keys) :=
    funext fun timer => propext hshows.mem_dedupTimers_iff
  rw [hkeys] at hbudget
  have hfirst := TimerIndex.firstBy_popAll now budget.toNat server.indexes.dedupTimers
    (hshows.dedupTimers_startsWithTime horderly)
  have hmem : dedupTimer name d.deadline ∈
      server.indexes.dedupTimers.popAll now budget.toNat := by
    refine hfirst.mem_of_ncard_le (TimerIndex.finite_dueKeys _ _) hbudget ⟨?_, ?_⟩
    · exact ExtTreeMap.mem_iff_exists.mpr ⟨_, hshows.dedup.get_entry hd⟩
    · rwa [dedupTimer, DedupTimerKey.deadlineOf_encode]
  refine hshows'.dedup.get_dedup_eq_none ?_
  rw [hswept.dedup_eq hshows, hd, Option.filter_some_neg (by simpa using hmem)]

/-! ### Purges -/

/-- Only records of its own queue are gone after a purge. -/
theorem dedup_of_purges {evs : List Event} {queue : String} (h : Trace Step a evs a')
    (hevs : ∀ e ∈ evs, PurgesQueue queue e) {name : DedupName} (hname : name.1 ≠ queue) :
    a'.dedup name = a.dedup name := by
  refine h.preserves (P := fun b => b.dedup name = a.dedup name) (fun b e b' he hstep hb => ?_) rfl
  rcases hevs e he with ⟨id, rfl⟩ | ⟨id, key, record, rfl⟩ | ⟨name', hname', rfl⟩
  · cases hstep
    exact hb
  · cases hstep
    exact hb
  · cases hstep
    have hne : name ≠ name' := by
      rintro rfl
      exact hname hname'
    rw [Image.setDedup_dedup, Function.update_of_ne hne, hb]

/-- After every run the records and the timers are in bijection. A sweep keeps a record unless its
own window has ended, and forgets it then if the budget allows; a purge removes a record of its
queue with its timer, and no other record. -/
theorem Run.dedup_paired (h : Run calls server) :
    DedupPaired server.rows ∧
    (∀ (now : Int64) (budget : UInt64) (cutoff : Option Int64) (kept : Bool) (n : ℕ)
      (server' : Server),
      CallStep server (.answered (.sweep now budget cutoff kept) (.ok (.sweep n))) server' →
      ∀ key value : Bytes, server.rows.dedup[key]? = some value →
        (server'.rows.dedup[key]? = some value ∨
          server'.rows.dedup[key]? = none ∧ Outdated now value) ∧
        ((∀ call ∈ calls, call.Admitted) →
          (TimerIndex.dueKeys (· ∈ server.rows.dedupTimers) now).ncard ≤ budget.toNat →
            Outdated now value → server'.rows.dedup[key]? = none)) ∧
    ∀ (queue : String) (limit : UInt64) (r : PurgeOutcome) (server' : Server),
      CallStep server (.answered (.purgeQueueChunk queue limit) (.ok (.purgeQueueChunk r)))
        server' →
      Admissible (calls ++ [.answered (.purgeQueueChunk queue limit) (.ok (.purgeQueueChunk r))]) →
      (∀ key : Bytes, readQueue key ≠ some queue →
        server'.rows.dedup[key]? = server.rows.dedup[key]?) ∧
      (∀ (key value : Bytes) (record : DedupValue), server.rows.dedup[key]? = some value →
        DedupValue.decode value = some record → (server'.rows.dedup[key]? = none ↔
          DedupTimerKey.encode { deadline := record.deadline, dedupKey := key } ∉
            server'.rows.dedupTimers)) ∧
      (r.remaining = false → ∀ key ∈ server'.rows.dedup, readQueue key ≠ some queue) := by
  obtain ⟨a, hshows⟩ := h.exists_shows
  refine ⟨hshows.dedupPaired, ?_, ?_⟩
  · intro now budget cutoff kept n server' hstep key value hrow
    exact ⟨h.sweep_dedup hstep hrow, fun hadm hbudget hold =>
      h.sweep_forgets hadm hbudget hstep hrow hold⟩
  · intro queue limit r server' hstep hadm
    have hq : FitsPrefix queue :=
      hadm.wellFormed _ (List.mem_append_right calls (List.mem_singleton_self _))
    obtain ⟨evs, a', htrace, hshows', hevs, -, -, -, hremaining⟩ := hshows.purged hq hstep
    have hsub := (within_of_purges htrace hevs).dedup
    refine ⟨fun key hkey => ?_, fun key value record hrow hrecord =>
      hshows.removed_iff hshows' hsub hrow hrecord, fun hnone key hkey hqueue => ?_⟩
    · refine Option.ext fun value => ?_
      constructor
      · exact fun hrow => hshows.dedup_of_subset hshows' hsub hrow
      · intro hrow
        obtain ⟨name, d, hd, rfl, rfl⟩ := hshows.of_dedup_row hrow
        have hname : name.1.1 ≠ queue := by
          rintro rfl
          exact hkey (readQueue_append _ name.1.2)
        rw [← dedup_of_purges htrace hevs hname] at hd
        exact hshows'.dedup.get_dedup hd
    · obtain ⟨value, hrow⟩ := ExtTreeMap.mem_iff_exists.mp hkey
      obtain ⟨name, d, hd, rfl, rfl⟩ := hshows'.of_dedup_row hrow
      rw [DedupKey.encode, readQueue_append _ name.1.2] at hqueue
      have howns := hremaining.mpr (.inr ⟨name, d, hd, Option.some.inj hqueue⟩)
      cases howns.symm.trans hnone

end Run

/-- A record that is written anew after its window, with a clock that stepped back in between. -/
def rewrittenRecord : List Op :=
  let job (id : String) (window : Int64) : PreparedJob :=
    { id
      req := { queue := "emails", jobType := "send", idempotencyKey := some "k" }
      limits := { priority := 5, maxAttempts := 3, dedupWindowMs := window } }
  [.enqueue [job "a" 1] 1000, .enqueue [job "b" 5000] 1001, .enqueue [job "c" 1] 900]

open WireFormat Server in
/-- The key has one record and one timer. -/
theorem dedup_paired_rewrittenRecord :
    DedupPaired (performAll rewrittenRecord {}).2.rows ∧
      (performAll rewrittenRecord {}).2.rows.dedup.size = 1 ∧
      (performAll rewrittenRecord {}).2.rows.dedupTimers.size = 1 :=
  ⟨(Run.dedup_paired (Run.of_performAll (by decide) (by decide))).1, by decide +kernel,
    by decide +kernel⟩

end Sepp
