import Sepp.Run.Calls
import Sepp.Spec.Standing
import Sepp.Wire.Codec

/-!
# The rows of every job

In every state of a run a job of the `jobs` keyspace is in one place, and the rows of that place
agree with the job record: a ready job has one `ready` row, whose key is the place in line that
the record says; a scheduled job has one `scheduled` row; a leased job has one inflight record and
one lease row with its deadline. Every row of these keyspaces, and every payload, belongs to such
a job.

## Main definitions

* `JobLocation`, `JobLocation.Holds` — the places of a job and their rows.
* `WellFormedRows`.

## Main results

* `Run.rows_wellFormed`.
-/

namespace Sepp

/-- Where a job of the `jobs` keyspace is. -/
inductive JobLocation where
  | ready (attempt : UInt32)
  | scheduled (attempt : UInt32) (deadline : Int64)
  | leased (record : Inflight)

section WellFormed

variable [Prost]

/-- The `enqueued_at` of a job record, in milliseconds. -/
def Job.enqueuedAtMs (job : Job) : Int64 := (job.enqueuedAt.map timestampToMillis).getD 0

open Tracks in
/-- The rows that a job has at a location, and no others: `id` is the id of the job, `queue` and
`job` are its stored record. -/
def JobLocation.Holds (rows : Rows) (id queue : String) (job : Job) : JobLocation → Prop
  | ready attempt =>
    OneRow readyJob rows.ready id
        (ReadyKey.encode
          { queue, priority := job.priority, enqueuedAt := job.enqueuedAtMs, jobId := id })
        (KeyWriter.u32 attempt) ∧
      NoRow timerJob rows.scheduled id ∧ NoRow fromUtf8 rows.inflight id ∧
      NoRow timerJob rows.leases id
  | scheduled attempt deadline =>
    NoRow readyJob rows.ready id ∧
      OneRow timerJob rows.scheduled id (TimerKey.encode { deadline, jobId := id })
        (KeyWriter.u32 attempt) ∧
      NoRow fromUtf8 rows.inflight id ∧ NoRow timerJob rows.leases id
  | leased record =>
    NoRow readyJob rows.ready id ∧ NoRow timerJob rows.scheduled id ∧
      OneRow fromUtf8 rows.inflight id (asBytes id) record.encode ∧
      OneRow timerJob rows.leases id
        (TimerKey.encode { deadline := record.leaseExpiresAt, jobId := id }) [] ∧
      record.queue = queue ∧ record.priority = job.priority ∧
      record.enqueuedAt = job.enqueuedAtMs ∧ record.maxAttempts = job.maxAttempts ∧
      record.traceContext = job.traceContext

/-- Every job is in one place, and every row belongs to a job. -/
structure WellFormedRows (rows : Rows) : Prop where
  located : ∀ key value, rows.jobs[key]? = some value → ∃ id queue job,
    key = asBytes id ∧ FitsPrefix queue ∧ value = JobValue.encode { queue, job } ∧ job.id = id ∧
      ∃ location : JobLocation, location.Holds rows id queue job
  ready : ∀ key value, rows.ready[key]? = some value →
    ∃ id, readyJob key = some id ∧ asBytes id ∈ rows.jobs
  scheduled : ∀ key value, rows.scheduled[key]? = some value →
    ∃ id, timerJob key = some id ∧ asBytes id ∈ rows.jobs
  leases : ∀ key value, rows.leases[key]? = some value →
    ∃ id, timerJob key = some id ∧ asBytes id ∈ rows.jobs
  inflight : ∀ key value, rows.inflight[key]? = some value →
    ∃ id, key = asBytes id ∧ asBytes id ∈ rows.jobs
  payloads : ∀ key value, rows.payloads[key]? = some value →
    ∃ id, key = asBytes id ∧ asBytes id ∈ rows.jobs
  deadLetter : ∀ key value, rows.deadLetter[key]? = some value →
    ∃ id, asBytes id ∉ rows.jobs ∧ Tracks.OneRow DeadLetterKey.jobIdOf rows.deadLetter id key value
  dedup : ∀ key value, rows.dedup[key]? = some value → ∃ name record, dedupNameOf key = some name ∧
    value = DedupValue.encode record ∧
    Tracks.OneRow dedupTimerName rows.dedupTimers name
      (DedupTimerKey.encode { deadline := record.deadline, dedupKey := key }) []
  dedupTimers : ∀ key value, rows.dedupTimers[key]? = some value →
    ∃ dedupKey, DedupTimerKey.dedupKeyOf key = some dedupKey ∧ dedupKey ∈ rows.dedup

/-! ### The rows of an abstract state are well formed -/

section Represents

variable {J : String → Option JobState} {rows : Rows} {idx : Indexes} {id : String} {js : JobState}

/-- The location of a job that is in a place with rows. -/
theorem JobsRepr.exists_location (h : JobsRepr J rows idx) (hJ : J id = some js)
    (hlimbo : js.place ≠ .limbo) (hdead : ¬ js.place.IsDead) :
    ∃ location : JobLocation, location.Holds rows id js.content.queue (js.storedJob id) := by
  have hready := rowsOf_of_eq_some JobState.readyRow hJ
  have hscheduled := rowsOf_of_eq_some JobState.scheduledRow hJ
  have hinflight := rowsOf_of_eq_some JobState.inflightRow hJ
  have hlease := rowsOf_of_eq_some JobState.leaseRow hJ
  have hms : (js.storedJob id).enqueuedAtMs = js.enqueuedAt := js.storedJob_enqueuedAt id
  cases hp : js.place with
  | limbo => exact absurd hp hlimbo
  | dead => simp [hp, Place.IsDead] at hdead
  | ready attempt =>
    refine ⟨.ready attempt, h.ready.rows.oneRow ?_,
      h.scheduled.rows.noRow (by simp [hscheduled, JobState.scheduledRow, hp]),
      h.lease.inflight.noRow (by simp [hinflight, JobState.inflightRow, hp]),
      h.lease.rows.noRow (by simp [hlease, JobState.leaseRow, hp])⟩
    simp only [hready, JobState.readyRow, hp, JobState.readyKey, hms]
    rfl
  | scheduled attempt deadline =>
    exact ⟨.scheduled attempt deadline,
      h.ready.rows.noRow (by simp [hready, JobState.readyRow, hp]),
      h.scheduled.rows.oneRow (by simp [hscheduled, JobState.scheduledRow, hp]),
      h.lease.inflight.noRow (by simp [hinflight, JobState.inflightRow, hp]),
      h.lease.rows.noRow (by simp [hlease, JobState.leaseRow, hp])⟩
  | leased attempt expires =>
    exact ⟨.leased (js.inflight attempt expires),
      h.ready.rows.noRow (by simp [hready, JobState.readyRow, hp]),
      h.scheduled.rows.noRow (by simp [hscheduled, JobState.scheduledRow, hp]),
      h.lease.inflight.oneRow (by simp [hinflight, JobState.inflightRow, hp]),
      h.lease.rows.oneRow (by simp [hlease, JobState.leaseRow, hp, JobState.inflight]),
      rfl, rfl, hms.symm, rfl, rfl⟩

/-- A row of a keyspace whose layout has no rows for dead jobs belongs to a job with a record. -/
theorem JobsRepr.mem_jobs_of_row (h : JobsRepr J rows idx) {own : Bytes → Option String}
    {g : String → JobState → Option (Bytes × Bytes)} {keyspace : Keyspace}
    (htracks : Tracks own keyspace (rowsOf g J))
    (hg : ∀ id js row, g id js = some row → ¬ js.place.IsDead) {key value : Bytes}
    (hrow : keyspace[key]? = some value) : ∃ id, own key = some id ∧ asBytes id ∈ rows.jobs := by
  obtain ⟨id, hown, hid⟩ := htracks.row_of_get hrow
  obtain ⟨js, hJ, hjs⟩ := (rowsOf_eq_some_iff g).mp hid
  exact ⟨id, hown, h.mem_jobs hJ (hg id js _ hjs)⟩

/-- The rows of an abstract state are well formed. -/
theorem Represents.wellFormedRows {a : Image} (h : Represents a rows idx) :
    WellFormedRows rows where
  located key value hrow := by
    obtain ⟨id, js, hJ, hdead, rfl, rfl⟩ := h.jobs.of_job_row hrow
    exact ⟨id, js.content.queue, js.storedJob id, rfl, js.content.queue.2, rfl, rfl,
      h.jobs.exists_location hJ (h.settled id js hJ) hdead⟩
  ready key value hrow := by
    refine h.jobs.mem_jobs_of_row h.jobs.ready.rows (fun id js row hg => ?_) hrow
    unfold JobState.readyRow at hg
    split at hg <;> simp_all [Place.IsDead]
  scheduled key value hrow := by
    refine h.jobs.mem_jobs_of_row h.jobs.scheduled.rows (fun id js row hg => ?_) hrow
    unfold JobState.scheduledRow at hg
    split at hg <;> simp_all [Place.IsDead]
  leases key value hrow := by
    refine h.jobs.mem_jobs_of_row h.jobs.lease.rows (fun id js row hg => ?_) hrow
    unfold JobState.leaseRow at hg
    split at hg <;> simp_all [Place.IsDead]
  inflight key value hrow := by
    obtain ⟨id, hkey, hmem⟩ :=
      h.jobs.mem_jobs_of_row h.jobs.lease.inflight (fun id js row hg => by
        unfold JobState.inflightRow at hg
        split at hg <;> simp_all [Place.IsDead]) hrow
    exact ⟨id, fromUtf8_eq_some_iff.mp hkey, hmem⟩
  payloads key value hrow := by
    obtain ⟨id, hkey, hmem⟩ :=
      h.jobs.mem_jobs_of_row h.jobs.body.payloads (fun id js row hg => by
        unfold JobState.payloadRow at hg
        split_ifs at hg with hdead
        exact hdead) hrow
    exact ⟨id, fromUtf8_eq_some_iff.mp hkey, hmem⟩
  deadLetter key value hrow := by
    obtain ⟨id, -, hid⟩ := h.jobs.dead.rows.row_of_get hrow
    obtain ⟨js, hJ, hjs⟩ := (rowsOf_eq_some_iff _).mp hid
    refine ⟨id, fun hmem => ?_, h.jobs.dead.rows.oneRow hid⟩
    rw [Std.ExtTreeMap.mem_iff_isSome_getElem?, Option.isSome_iff_exists] at hmem
    obtain ⟨v, hv⟩ := hmem
    obtain ⟨id', js', hJ', hlive, hkey, -⟩ := h.jobs.of_job_row hv
    obtain rfl := asBytes_injective hkey
    obtain rfl := Option.some.inj (hJ.symm.trans hJ')
    unfold JobState.deadRow at hjs
    split at hjs <;> simp_all [Place.IsDead]
  dedup key value hrow := by
    obtain ⟨name, hname, hid⟩ := h.dedup.dedup.row_of_get hrow
    obtain ⟨d, hD, hd⟩ := (rowsOf_eq_some_iff _).mp hid
    obtain ⟨rfl, rfl⟩ := Prod.mk.inj (Option.some.inj hd)
    exact ⟨name, _, hname, rfl, h.dedup.timers.oneRow (by
      rw [rowsOf_of_eq_some dedupTimerRow hD]
      rfl)⟩
  dedupTimers key value hrow := by
    obtain ⟨name, -, hid⟩ := h.dedup.timers.row_of_get hrow
    obtain ⟨d, hD, hd⟩ := (rowsOf_eq_some_iff _).mp hid
    obtain ⟨rfl, rfl⟩ := Prod.mk.inj (Option.some.inj hd)
    refine ⟨_, DedupTimerKey.dedupKeyOf_encode _, ?_⟩
    rw [Std.ExtTreeMap.mem_iff_isSome_getElem?, h.dedup.get_dedup hD]
    rfl

end Represents

/-- The rows are well formed after every run. -/
theorem Run.rows_wellFormed {calls : List Call} {server : Server} (h : Run calls server) :
    WellFormedRows server.rows := by
  obtain ⟨a, hshows⟩ := h.exists_shows
  exact hshows.wellFormedRows

end WellFormed

/-- Three jobs of one queue: one that waits for its retry, one that is leased and one that is still
scheduled. -/
def threeJobs : List Op :=
  let job (id : String) (scheduledAt : Option Timestamp) : PreparedJob :=
    { id
      req := { queue := "emails", jobType := "send", scheduledAt }
      limits := { priority := 5, maxAttempts := 3, dedupWindowMs := 60000 } }
  [.enqueue [job "a" none, job "b" none, job "c" (some ⟨9, 0⟩)] 1000,
    .reserve ["emails"] 30000 2 2000,
    .nack { jobId := "a", attempt := 1 } 5000 true 3000]

open WireFormat in
theorem rows_wellFormed_threeJobs : WellFormedRows (Server.performAll threeJobs {}).2.rows :=
  (Run.of_performAll (by decide) (by decide)).rows_wellFormed

end Sepp
