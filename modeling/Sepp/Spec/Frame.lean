import Sepp.Spec.Lookup

/-!
# Whose a row is

The key of a row tells the job or the idempotency key that it belongs to. When a job is in the
same abstract state before and after, all its rows are the same, whatever has happened to others.

## Main definitions

* `KeyspaceName.jobOf`, `KeyspaceName.nameOf` — the owner of a row.
* `JobState.row`, `DedupState.row` — the row of an owner in a keyspace.
* `Rows.SameJob`, `Rows.SameName` — the rows of one owner are the same.
* `Rows.Lacks` — a job has no rows.

## Main results

* `Represents.sameJob`, `Represents.sameName`.
-/

open Std

namespace Sepp

namespace KeyspaceName

/-- The job that a row belongs to. -/
def jobOf : KeyspaceName → Bytes → Option String
  | jobs | payloads | inflight => fromUtf8
  | ready => readyJob
  | scheduled | leases => timerJob
  | deadLetter => DeadLetterKey.jobIdOf
  | dedup | dedupTimers | metadata | audit => fun _ => none

/-- The idempotency key that a row belongs to. -/
def nameOf : KeyspaceName → Bytes → Option DedupName
  | dedup => dedupNameOf
  | dedupTimers => dedupTimerName
  | jobs | payloads | inflight | ready | scheduled | leases | deadLetter | metadata | audit =>
    fun _ => none

/-- The keyspaces whose rows belong to jobs. -/
def ofJobs : KeyspaceName → Bool
  | jobs | payloads | inflight | ready | scheduled | leases | deadLetter => true
  | dedup | dedupTimers | metadata | audit => false

/-- The keyspaces whose rows belong to idempotency keys. -/
def ofDedup : KeyspaceName → Bool
  | dedup | dedupTimers => true
  | jobs | payloads | inflight | ready | scheduled | leases | deadLetter | metadata | audit => false

end KeyspaceName

/-- The row that a job has in a keyspace. -/
def JobState.row [Prost] : KeyspaceName → String → JobState → Option (Bytes × Bytes)
  | .jobs => jobRow
  | .payloads => payloadRow
  | .inflight => inflightRow
  | .ready => readyRow
  | .scheduled => scheduledRow
  | .leases => leaseRow
  | .deadLetter => deadRow
  | .dedup | .dedupTimers | .metadata | .audit => fun _ _ => none

/-- The row that an idempotency key has in a keyspace. -/
def DedupState.row : KeyspaceName → DedupName → DedupState → Option (Bytes × Bytes)
  | .dedup => dedupRow
  | .dedupTimers => dedupTimerRow
  | .jobs | .payloads | .inflight | .ready | .scheduled | .leases | .deadLetter | .metadata
  | .audit => fun _ _ => none

namespace Rows

/-- All rows of the job are the same. -/
def SameJob (rows rows' : Rows) (id : String) : Prop :=
  ∀ ks key, KeyspaceName.jobOf ks key = some id → (rows'.get ks)[key]? = (rows.get ks)[key]?

/-- No row belongs to the job. -/
def Lacks (rows : Rows) (id : String) : Prop :=
  ∀ ks key, KeyspaceName.jobOf ks key = some id → (rows.get ks)[key]? = none

/-- All rows of the idempotency key are the same. -/
def SameName (rows rows' : Rows) (name : DedupName) : Prop :=
  ∀ ks key, KeyspaceName.nameOf ks key = some name → (rows'.get ks)[key]? = (rows.get ks)[key]?

end Rows

section Represents

variable [Prost] {a a' : Image} {rows rows' : Rows} {idx idx' : Indexes}

variable {ks : KeyspaceName}

/-- A keyspace of jobs holds the rows that the jobs have in it. -/
theorem Represents.tracksJobs (h : Represents a rows idx) (hks : ks.ofJobs = true) :
    Tracks ks.jobOf (rows.get ks) (rowsOf (JobState.row ks) a.jobs) := by
  cases ks with
  | jobs => exact h.jobs.body.jobs
  | payloads => exact h.jobs.body.payloads
  | inflight => exact h.jobs.lease.inflight
  | ready => exact h.jobs.ready.rows
  | scheduled => exact h.jobs.scheduled.rows
  | leases => exact h.jobs.lease.rows
  | deadLetter => exact h.jobs.dead.rows
  | dedup | dedupTimers | metadata | audit => cases hks

/-- A keyspace of idempotency keys holds the rows that the keys have in it. -/
theorem Represents.tracksDedup (h : Represents a rows idx) (hks : ks.ofDedup = true) :
    Tracks ks.nameOf (rows.get ks) (rowsOf (DedupState.row ks) a.dedup) := by
  cases ks with
  | dedup => exact h.dedup.dedup
  | dedupTimers => exact h.dedup.timers
  | jobs | payloads | inflight | ready | scheduled | leases | deadLetter | metadata | audit =>
    cases hks

omit [Prost] in
theorem KeyspaceName.ofJobs_of_jobOf {key : Bytes} {id : String} (h : ks.jobOf key = some id) :
    ks.ofJobs = true := by
  cases ks with
  | dedup | dedupTimers | metadata | audit => cases h
  | jobs | payloads | inflight | ready | scheduled | leases | deadLetter => rfl

omit [Prost] in
theorem KeyspaceName.ofDedup_of_nameOf {key : Bytes} {name : DedupName}
    (h : ks.nameOf key = some name) : ks.ofDedup = true := by
  cases ks with
  | dedup | dedupTimers => rfl
  | jobs | payloads | inflight | ready | scheduled | leases | deadLetter | metadata | audit =>
    cases h

/-- The key of a row tells the job that has the row. -/
theorem JobState.jobOf_row {id : String} {js : JobState} {key value : Bytes}
    (h : JobState.row ks id js = some (key, value)) : ks.jobOf key = some id := by
  cases ks with
  | dedup | dedupTimers | metadata | audit => cases h
  | jobs =>
    simp only [JobState.row, JobState.jobRow] at h
    split_ifs at h
    obtain ⟨rfl, -⟩ := Prod.mk.inj (Option.some.inj h)
    exact fromUtf8_asBytes id
  | payloads =>
    simp only [JobState.row, JobState.payloadRow] at h
    split_ifs at h
    obtain ⟨payload, -, heq⟩ := Option.map_eq_some_iff.mp h
    obtain ⟨rfl, -⟩ := Prod.mk.inj heq
    exact fromUtf8_asBytes id
  | inflight =>
    simp only [JobState.row, JobState.inflightRow] at h
    split at h <;> cases h
    exact fromUtf8_asBytes id
  | ready =>
    simp only [JobState.row, JobState.readyRow] at h
    split at h <;> cases h
    exact readyJob_readyKey id js
  | scheduled =>
    simp only [JobState.row, JobState.scheduledRow] at h
    split at h <;> cases h
    exact timerJob_encode _ id
  | leases =>
    simp only [JobState.row, JobState.leaseRow] at h
    split at h <;> cases h
    exact timerJob_encode _ id
  | deadLetter =>
    simp only [JobState.row, JobState.deadRow] at h
    split at h <;> cases h
    exact jobIdOf_deadKey id js _

/-! ### The row that holds the place -/

section Place

variable {id : String} {js : JobState} {attempt : UInt32} {key value : Bytes}

theorem JobState.row_ready (hp : js.place = .ready attempt) :
    JobState.row .ready id js = some (js.readyKey id, KeyWriter.u32 attempt) := by
  simp only [JobState.row, JobState.readyRow, hp]

theorem JobState.row_scheduled {deadline : Int64} (hp : js.place = .scheduled attempt deadline) :
    JobState.row .scheduled id js =
      some (TimerKey.encode { deadline, jobId := id }, KeyWriter.u32 attempt) := by
  simp only [JobState.row, JobState.scheduledRow, hp]

theorem JobState.row_deadLetter {failedAt : Int64} {cause : DeadLetterCause}
    {reason : Option String} (hp : js.place = .dead attempt failedAt cause reason) :
    JobState.row .deadLetter id js = some (js.deadKey id failedAt,
      Message.encodeToVec (js.deadLetter id attempt failedAt cause reason)) := by
  simp only [JobState.row, JobState.deadRow, hp]

theorem JobState.of_row_ready (h : JobState.row .ready id js = some (key, value)) :
    ∃ attempt, js.place = .ready attempt ∧ key = js.readyKey id := by
  simp only [JobState.row, JobState.readyRow] at h
  split at h <;> cases h
  exact ⟨_, by assumption, rfl⟩

theorem JobState.of_row_scheduled (h : JobState.row .scheduled id js = some (key, value)) :
    ∃ attempt deadline, js.place = .scheduled attempt deadline ∧
      key = TimerKey.encode { deadline, jobId := id } := by
  simp only [JobState.row, JobState.scheduledRow] at h
  split at h <;> cases h
  exact ⟨_, _, by assumption, rfl⟩

theorem JobState.of_row_deadLetter (h : JobState.row .deadLetter id js = some (key, value)) :
    ∃ attempt failedAt cause reason, js.place = .dead attempt failedAt cause reason ∧
      key = js.deadKey id failedAt := by
  simp only [JobState.row, JobState.deadRow] at h
  split at h <;> cases h
  exact ⟨_, _, _, _, by assumption, rfl⟩

end Place

theorem Represents.sameJob (h : Represents a rows idx) (h' : Represents a' rows' idx')
    {id : String} (hsame : a'.jobs id = a.jobs id) : rows.SameJob rows' id := by
  intro ks key hown
  have hks := KeyspaceName.ofJobs_of_jobOf hown
  refine (h'.tracksJobs hks).get_eq_of_own (h.tracksJobs hks) hown ?_
  rw [rowsOf, rowsOf, hsame]

theorem Represents.lacks (h : Represents a rows idx) {id : String} (hid : a.jobs id = none) :
    rows.Lacks id := by
  intro ks key hown
  refine (h.tracksJobs (KeyspaceName.ofJobs_of_jobOf hown)).get_eq_none hown fun value hrow => ?_
  obtain ⟨js, hjs, -⟩ := (rowsOf_eq_some_iff _).mp hrow
  cases hid.symm.trans hjs

theorem Represents.sameName (h : Represents a rows idx) (h' : Represents a' rows' idx')
    {name : DedupName} (hsame : a'.dedup name = a.dedup name) : rows.SameName rows' name := by
  intro ks key hown
  have hks := KeyspaceName.ofDedup_of_nameOf hown
  refine (h'.tracksDedup hks).get_eq_of_own (h.tracksDedup hks) hown ?_
  rw [rowsOf, rowsOf, hsame]

/-- When only jobs change, so do only the rows that belong to them. -/
theorem Represents.get_eq_of_jobOf (h : Represents a rows idx) (h' : Represents a' rows' idx')
    (hdedup : a'.dedup = a.dedup) (hclosing : a'.closing = a.closing) (haudit : a'.audit = a.audit)
    {key : Bytes} (hjobs : ∀ id, ks.jobOf key = some id → a'.jobs id = a.jobs id) :
    (rows'.get ks)[key]? = (rows.get ks)[key]? := by
  have hd := hdedup ▸ h'.dedup
  have hm := haudit ▸ hclosing ▸ h'.metadata
  cases hks : ks.ofJobs with
  | true =>
    cases hown : ks.jobOf key with
    | some id => exact h.sameJob h' (hjobs id hown) ks key hown
    | none =>
      have hno : ∀ {b : Image} {r : Rows} {i : Indexes}, Represents b r i →
          (r.get ks)[key]? = none := by
        intro b r i hr
        by_contra hsome
        obtain ⟨value, hvalue⟩ := Option.ne_none_iff_exists'.mp hsome
        obtain ⟨id, hid, -⟩ := (hr.tracksJobs hks).row_of_get hvalue
        cases hown.symm.trans hid
      rw [hno h, hno h']
  | false =>
    cases ks with
    | dedup => exact congrArg (·[key]?) (hd.dedup.ext h.dedup.dedup)
    | dedupTimers => exact congrArg (·[key]?) (hd.timers.ext h.dedup.timers)
    | metadata => exact congrArg (·[key]?) (hm.metadata.ext h.metadata.metadata)
    | audit => exact congrArg (·[key]?) (hm.audit.ext h.metadata.audit)
    | jobs | payloads | inflight | ready | scheduled | leases | deadLetter => cases hks

/-! ### The keyspaces and the indexes have the same keys -/

variable {key : Bytes}

theorem Represents.mem_scheduled_iff (h : Represents a rows idx) :
    key ∈ rows.scheduled ↔ key ∈ idx.scheduled.keys := by
  refine h.jobs.scheduled.rows.mem_iff_of_keys h.jobs.scheduled.entries fun id js => ?_
  cases hp : js.place <;> simp [JobState.scheduledRow, JobState.scheduledEntry, hp]

theorem Represents.mem_leases_iff (h : Represents a rows idx) :
    key ∈ rows.leases ↔ key ∈ idx.leases.keys := by
  refine h.jobs.lease.rows.mem_iff_of_keys h.jobs.lease.entries fun id js => ?_
  cases hp : js.place <;> simp [JobState.leaseRow, JobState.leaseEntry, hp]

theorem Represents.mem_deadLetter_iff (h : Represents a rows idx) :
    key ∈ rows.deadLetter ↔ key ∈ idx.deadLetter.keys := by
  refine h.jobs.dead.rows.mem_iff_of_keys h.jobs.dead.entries fun id js => ?_
  cases hp : js.place <;> simp [JobState.deadRow, JobState.deadEntry, hp]

theorem Represents.mem_dedupTimers_iff (h : Represents a rows idx) :
    key ∈ rows.dedupTimers ↔ key ∈ idx.dedupTimers.keys :=
  h.dedup.timers.mem_iff_of_keys h.dedup.entries fun _ _ => rfl

end Represents

end Sepp
