import Sepp.Spec.Lookup

/-!
# Where a job stands, read off the rows

A job waits for an attempt when it has a ready or a scheduled row with that attempt; it is leased
on an attempt when its inflight record says so; it is buried on an attempt when its dead letter
says so. In a store that stands for an abstract state these are the places of the job.

## Main definitions

* `Rows.Waits`, `Rows.Leased`, `Rows.Buried`.

## Main results

* `Represents.waits_iff`, `Represents.leased_iff`, `Represents.buried_iff`.
-/

namespace Sepp

/-- The place is a wait for the attempt. -/
def Place.Waits (attempt : UInt32) (p : Place) : Prop :=
  p = .ready attempt ∨ ∃ deadline, p = .scheduled attempt deadline

namespace Rows

/-- The job has a ready or a scheduled row with the attempt. -/
def Waits (rows : Rows) (id : String) (attempt : UInt32) : Prop :=
  (∃ key, readyJob key = some id ∧ rows.ready[key]? = some (KeyWriter.u32 attempt)) ∨
    ∃ key, timerJob key = some id ∧ rows.scheduled[key]? = some (KeyWriter.u32 attempt)

variable [Prost]

/-- The inflight record of the job is on the attempt, and its lease ends at `expires`. -/
def LeasedUntil (rows : Rows) (id : String) (attempt : UInt32) (expires : Int64) : Prop :=
  ∃ bytes record, rows.inflight[asBytes id]? = some bytes ∧ Inflight.decode bytes = .ok record ∧
    record.attempt = attempt ∧ record.leaseExpiresAt = expires

/-- The inflight record of the job is on the attempt. -/
def Leased (rows : Rows) (id : String) (attempt : UInt32) : Prop :=
  ∃ expires, rows.LeasedUntil id attempt expires

/-- The dead letter of the job. -/
def Buried (rows : Rows) (id : String) (record : DeadLetterRecord) : Prop :=
  ∃ key bytes, DeadLetterKey.jobIdOf key = some id ∧ rows.deadLetter[key]? = some bytes ∧
    Message.decode bytes = some record

end Rows

theorem KeyWriter.u32_injective {m n : UInt32} (h : KeyWriter.u32 m = KeyWriter.u32 n) : m = n :=
  Option.some.inj (by rw [← attemptOfRow_u32 m, h, attemptOfRow_u32])

section Represents

variable [Prost] {J : String → Option JobState} {js : JobState} {a : Image} {rows : Rows}
  {idx : Indexes} {id : String} {attempt : UInt32}

/-- A job that is not dead has a record. -/
theorem JobsRepr.mem_jobs (h : JobsRepr J rows idx) (hJ : J id = some js)
    (hdead : ¬ js.place.IsDead) : asBytes id ∈ rows.jobs := by
  rw [Std.ExtTreeMap.mem_iff_isSome_getElem?, h.get_jobs hJ hdead]
  rfl

theorem JobsRepr.of_job_row (h : JobsRepr J rows idx) {key value : Bytes}
    (hrow : rows.jobs[key]? = some value) :
    ∃ id js, J id = some js ∧ ¬ js.place.IsDead ∧ key = asBytes id ∧
      value = JobValue.encode { queue := js.content.queue, job := js.storedJob id } := by
  obtain ⟨id, -, hid⟩ := h.body.jobs.row_of_get hrow
  obtain ⟨js, hJ, hjs⟩ := (rowsOf_eq_some_iff _).mp hid
  unfold JobState.jobRow at hjs
  split_ifs at hjs with hdead
  obtain ⟨rfl, rfl⟩ := Prod.mk.inj (Option.some.inj hjs)
  exact ⟨id, js, hJ, hdead, rfl, rfl⟩

/-- The job has a record exactly when it is there and not dead. -/
theorem Represents.mem_jobs_iff (h : Represents a rows idx) :
    asBytes id ∈ rows.jobs ↔ ∃ js, a.jobs id = some js ∧ ¬ js.place.IsDead := by
  constructor
  · intro hmem
    rw [Std.ExtTreeMap.mem_iff_isSome_getElem?, Option.isSome_iff_exists] at hmem
    obtain ⟨value, hrow⟩ := hmem
    obtain ⟨id', js, hJ, hdead, hid, -⟩ := h.jobs.of_job_row hrow
    exact ⟨js, asBytes_injective hid ▸ hJ, hdead⟩
  · rintro ⟨js, hJ, hdead⟩
    exact h.jobs.mem_jobs hJ hdead

theorem Represents.waits_iff (h : Represents a rows idx) :
    rows.Waits id attempt ↔ ∃ js, a.jobs id = some js ∧ js.place.Waits attempt := by
  constructor
  · rintro (⟨key, hown, hrow⟩ | ⟨key, hown, hrow⟩)
    · obtain ⟨id', js, n, hJ, hp, rfl⟩ := h.jobs.of_ready_row hrow
      rw [readyJob_readyKey, Option.some.injEq] at hown
      have hvalue := (h.jobs.get_ready hJ hp).symm.trans hrow
      obtain rfl := KeyWriter.u32_injective (Option.some.inj hvalue)
      exact ⟨js, hown ▸ hJ, .inl hp⟩
    · obtain ⟨id', js, n, deadline, hJ, hp, rfl⟩ := h.jobs.of_scheduled_row hrow
      rw [timerJob_encode, Option.some.injEq] at hown
      have hvalue := (h.jobs.get_scheduled hJ hp).symm.trans hrow
      obtain rfl := KeyWriter.u32_injective (Option.some.inj hvalue)
      exact ⟨js, hown ▸ hJ, .inr ⟨deadline, hp⟩⟩
  · rintro ⟨js, hJ, hp | ⟨deadline, hp⟩⟩
    · exact .inl ⟨_, readyJob_readyKey id js, h.jobs.get_ready hJ hp⟩
    · exact .inr ⟨_, timerJob_encode deadline id, h.jobs.get_scheduled hJ hp⟩

theorem Represents.leasedUntil_iff (h : Represents a rows idx) {expires : Int64} :
    rows.LeasedUntil id attempt expires ↔
      ∃ js, a.jobs id = some js ∧ js.place = .leased attempt expires := by
  constructor
  · rintro ⟨bytes, record, hrow, hdecode, rfl, rfl⟩
    obtain ⟨id', hid', hget⟩ := h.jobs.lease.inflight.row_of_get hrow
    obtain ⟨js, hJ, hjs⟩ := (rowsOf_eq_some_iff _).mp hget
    obtain rfl : id = id' := Option.some.inj ((fromUtf8_asBytes id).symm.trans hid')
    unfold JobState.inflightRow at hjs
    split at hjs
    · rename_i n e hp
      obtain ⟨-, rfl⟩ := Prod.mk.inj (Option.some.inj hjs)
      rw [js.decode_inflight] at hdecode
      obtain rfl := Except.ok.inj hdecode
      exact ⟨js, hJ, hp⟩
    · cases hjs
  · rintro ⟨js, hJ, hp⟩
    exact ⟨_, _, h.jobs.get_inflight hJ hp, js.decode_inflight attempt expires, rfl, rfl⟩

theorem Represents.leased_iff (h : Represents a rows idx) :
    rows.Leased id attempt ↔
      ∃ js expires, a.jobs id = some js ∧ js.place = .leased attempt expires := by
  simp only [Rows.Leased, h.leasedUntil_iff]
  exact exists_comm

theorem Represents.buried_iff (h : Represents a rows idx) {record : DeadLetterRecord} :
    rows.Buried id record ↔ ∃ js attempt failedAt cause reason, a.jobs id = some js ∧
      js.place = .dead attempt failedAt cause reason ∧
      record = js.deadLetter id attempt failedAt cause reason := by
  constructor
  · rintro ⟨key, bytes, hid, hrow, hdecode⟩
    obtain ⟨id', js, n, failedAt, cause, reason, hJ, hp, rfl, rfl⟩ := h.jobs.of_dead_row hrow
    rw [jobIdOf_deadKey, Option.some.injEq] at hid
    rw [Message.decode_encodeToVec, Option.some.injEq] at hdecode
    exact ⟨js, n, failedAt, cause, reason, hid ▸ hJ, hp, by rw [← hdecode, hid]⟩
  · rintro ⟨js, n, failedAt, cause, reason, hJ, hp, rfl⟩
    exact ⟨_, _, jobIdOf_deadKey id js failedAt, h.jobs.get_deadLetter hJ hp,
      Message.decode_encodeToVec _⟩

end Represents

end Sepp
