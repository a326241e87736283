import Sepp.Spec.Layout

/-!
# Reading the rows of an abstract state

What a read of a keyspace or of an index returns when the rows and indexes represent an abstract
state. A read by job id finds the row of that job, if its place has one; a read by an arbitrary
key that finds something finds the row of exactly one job, in the place the keyspace stands for.
-/

open Std

namespace Sepp

section Lookup

variable [Prost] {J : String → Option JobState} {rows : Rows} {idx : Indexes} {id : String}
  {js : JobState}

/-! ### Reading back what was written -/

omit [Prost] in
theorem JobState.decode_readyKey (js : JobState) (id : String) :
    ReadyKey.decode (js.readyKey id) = some
      { queue := js.content.queue
        priority := ReadyKey.clampPriority js.content.priority
        enqueuedAt := js.enqueuedAt
        jobId := id } :=
  ReadyKey.decode_encode js.content.queue.2

theorem JobState.decode_jobValue (js : JobState) (id : String) :
    JobValue.decode (JobValue.encode { queue := js.content.queue, job := js.storedJob id }) =
      .ok (js.content.queue.1, js.storedJob id) :=
  JobValue.decode_encode js.content.queue.2

/-- The inflight record as it is read back. -/
def JobState.readInflight (js : JobState) (attempt : UInt32) (expires : Int64) : Inflight :=
  { js.inflight attempt expires with
    traceContext := Inflight.storedTrace js.content.traceContext }

theorem JobState.decode_inflight (js : JobState) (attempt : UInt32) (expires : Int64) :
    Inflight.decode (js.inflight attempt expires).encode = .ok (js.readInflight attempt expires) :=
  Inflight.decode_encode js.content.queue.2

@[simp]
theorem JobState.readInflight_attempt (js : JobState) (attempt : UInt32) (expires : Int64) :
    (js.readInflight attempt expires).attempt = attempt := rfl

@[simp]
theorem JobState.readInflight_maxAttempts (js : JobState) (attempt : UInt32) (expires : Int64) :
    (js.readInflight attempt expires).maxAttempts = js.content.maxAttempts := rfl

theorem JobState.storedJob_enqueuedAt (js : JobState) (id : String) :
    ((js.storedJob id).enqueuedAt.map timestampToMillis).getD 0 = js.enqueuedAt := by
  simp [JobState.storedJob, timestampToMillis_millisToTimestamp js.enqueuedAt.2]

namespace JobsRepr

/-! ### By job id -/

theorem get_jobs (h : JobsRepr J rows idx) (hJ : J id = some js) (hp : ¬ js.place.IsDead) :
    rows.jobs[asBytes id]? =
      some (JobValue.encode { queue := js.content.queue, job := js.storedJob id }) :=
  h.body.jobs.get_of (i := id) (by simp [rowsOf, hJ, JobState.jobRow, hp])

theorem get_payloads (h : JobsRepr J rows idx) (hJ : J id = some js) (hp : ¬ js.place.IsDead) :
    rows.payloads[asBytes id]? = js.content.payload.map Message.encodeToVec := by
  cases hpayload : js.content.payload with
  | none =>
    exact h.body.payloads.get_eq_none (fromUtf8_asBytes id)
      (by simp [rowsOf, hJ, JobState.payloadRow, hpayload])
  | some p =>
    exact h.body.payloads.get_of (i := id) (by simp [rowsOf, hJ, JobState.payloadRow, hp, hpayload])

theorem get_inflight (h : JobsRepr J rows idx) (hJ : J id = some js) {attempt : UInt32}
    {expires : Int64} (hp : js.place = .leased attempt expires) :
    rows.inflight[asBytes id]? = some (js.inflight attempt expires).encode :=
  h.lease.inflight.get_of (i := id) (by simp [rowsOf, hJ, JobState.inflightRow, hp])

theorem get_inflight_eq_none (h : JobsRepr J rows idx)
    (hp : ∀ js attempt expires, J id = some js → js.place ≠ .leased attempt expires) :
    rows.inflight[asBytes id]? = none := by
  refine h.lease.inflight.get_eq_none (fromUtf8_asBytes id) fun v hrow => ?_
  obtain ⟨js, hJ, hjs⟩ := (rowsOf_eq_some_iff _).mp hrow
  unfold JobState.inflightRow at hjs
  split at hjs
  · exact hp js _ _ hJ (by assumption)
  · cases hjs

theorem get_scheduled (h : JobsRepr J rows idx) (hJ : J id = some js) {attempt : UInt32}
    {deadline : Int64} (hp : js.place = .scheduled attempt deadline) :
    rows.scheduled[TimerKey.encode { deadline, jobId := id }]? = some (KeyWriter.u32 attempt) :=
  h.scheduled.rows.get_of (i := id) (by simp [rowsOf, hJ, JobState.scheduledRow, hp])

theorem get_ready (h : JobsRepr J rows idx) (hJ : J id = some js) {attempt : UInt32}
    (hp : js.place = .ready attempt) :
    rows.ready[js.readyKey id]? = some (KeyWriter.u32 attempt) :=
  h.ready.rows.get_of (i := id) (by simp [rowsOf, hJ, JobState.readyRow, hp])

theorem get_deadLetter (h : JobsRepr J rows idx) (hJ : J id = some js) {attempt : UInt32}
    {failedAt : Int64} {cause : DeadLetterCause} {reason : Option String}
    (hp : js.place = .dead attempt failedAt cause reason) :
    rows.deadLetter[js.deadKey id failedAt]? =
      some (Message.encodeToVec (js.deadLetter id attempt failedAt cause reason)) :=
  h.dead.rows.get_of (i := id) (by simp [rowsOf, hJ, JobState.deadRow, hp])

theorem get_ready_entry (h : JobsRepr J rows idx) (hJ : J id = some js) {attempt : UInt32}
    (hp : js.place = .ready attempt) : idx.ready.keys[js.readyKey id]? = some attempt :=
  h.ready.entries.get_of (i := id) (by simp [rowsOf, hJ, JobState.readyEntry, hp])

theorem get_scheduled_entry (h : JobsRepr J rows idx) (hJ : J id = some js) {attempt : UInt32}
    {deadline : Int64} (hp : js.place = .scheduled attempt deadline) :
    idx.scheduled.keys[TimerKey.encode { deadline, jobId := id }]? = some js.content.queue.1 :=
  h.scheduled.entries.get_of (i := id) (by simp [rowsOf, hJ, JobState.scheduledEntry, hp])

theorem get_lease_entry (h : JobsRepr J rows idx) (hJ : J id = some js) {attempt : UInt32}
    {expires : Int64} (hp : js.place = .leased attempt expires) :
    idx.leases.keys[TimerKey.encode { deadline := expires, jobId := id }]? =
      some js.content.queue.1 :=
  h.lease.entries.get_of (i := id) (by simp [rowsOf, hJ, JobState.leaseEntry, hp])

theorem get_dead_entry (h : JobsRepr J rows idx) (hJ : J id = some js) {attempt : UInt32}
    {failedAt : Int64} {cause : DeadLetterCause} {reason : Option String}
    (hp : js.place = .dead attempt failedAt cause reason) :
    idx.deadLetter.keys[js.deadKey id failedAt]? = some js.content.queue.1 :=
  h.dead.entries.get_of (i := id) (by simp [rowsOf, hJ, JobState.deadEntry, hp])

/-! ### By an arbitrary key -/

variable {key : Bytes}

theorem of_ready_entry (h : JobsRepr J rows idx) {attempt : UInt32}
    (hk : idx.ready.keys[key]? = some attempt) :
    ∃ id js, J id = some js ∧ js.place = .ready attempt ∧ key = js.readyKey id := by
  obtain ⟨id, -, hrow⟩ := h.ready.entries.row_of_get hk
  obtain ⟨js, hJ, hjs⟩ := (rowsOf_eq_some_iff _).mp hrow
  unfold JobState.readyEntry at hjs
  split at hjs
  · rename_i a hp
    obtain ⟨rfl, rfl⟩ := Prod.mk.inj (Option.some.inj hjs)
    exact ⟨id, js, hJ, hp, rfl⟩
  · cases hjs

theorem of_scheduled_entry (h : JobsRepr J rows idx) {queue : String}
    (hk : idx.scheduled.keys[key]? = some queue) :
    ∃ id js attempt deadline, J id = some js ∧ js.place = .scheduled attempt deadline ∧
      key = TimerKey.encode { deadline, jobId := id } ∧ queue = js.content.queue := by
  obtain ⟨id, -, hrow⟩ := h.scheduled.entries.row_of_get hk
  obtain ⟨js, hJ, hjs⟩ := (rowsOf_eq_some_iff _).mp hrow
  unfold JobState.scheduledEntry at hjs
  split at hjs
  · rename_i a d hp
    obtain ⟨rfl, rfl⟩ := Prod.mk.inj (Option.some.inj hjs)
    exact ⟨id, js, a, d, hJ, hp, rfl, rfl⟩
  · cases hjs

theorem of_lease_entry (h : JobsRepr J rows idx) {queue : String}
    (hk : idx.leases.keys[key]? = some queue) :
    ∃ id js attempt expires, J id = some js ∧ js.place = .leased attempt expires ∧
      key = TimerKey.encode { deadline := expires, jobId := id } ∧ queue = js.content.queue := by
  obtain ⟨id, -, hrow⟩ := h.lease.entries.row_of_get hk
  obtain ⟨js, hJ, hjs⟩ := (rowsOf_eq_some_iff _).mp hrow
  unfold JobState.leaseEntry at hjs
  split at hjs
  · rename_i a e hp
    obtain ⟨rfl, rfl⟩ := Prod.mk.inj (Option.some.inj hjs)
    exact ⟨id, js, a, e, hJ, hp, rfl, rfl⟩
  · cases hjs

theorem of_dead_entry (h : JobsRepr J rows idx) {queue : String}
    (hk : idx.deadLetter.keys[key]? = some queue) :
    ∃ id js attempt failedAt cause reason, J id = some js ∧
      js.place = .dead attempt failedAt cause reason ∧ key = js.deadKey id failedAt ∧
      queue = js.content.queue := by
  obtain ⟨id, -, hrow⟩ := h.dead.entries.row_of_get hk
  obtain ⟨js, hJ, hjs⟩ := (rowsOf_eq_some_iff _).mp hrow
  unfold JobState.deadEntry at hjs
  split at hjs
  · rename_i a f c r hp
    obtain ⟨rfl, rfl⟩ := Prod.mk.inj (Option.some.inj hjs)
    exact ⟨id, js, a, f, c, r, hJ, hp, rfl, rfl⟩
  · cases hjs

theorem of_ready_row (h : JobsRepr J rows idx) {value : Bytes} (hk : rows.ready[key]? = some value) :
    ∃ id js attempt, J id = some js ∧ js.place = .ready attempt ∧ key = js.readyKey id := by
  obtain ⟨id, -, hrow⟩ := h.ready.rows.row_of_get hk
  obtain ⟨js, hJ, hjs⟩ := (rowsOf_eq_some_iff _).mp hrow
  unfold JobState.readyRow at hjs
  split at hjs
  · rename_i a hp
    obtain ⟨rfl, rfl⟩ := Prod.mk.inj (Option.some.inj hjs)
    exact ⟨id, js, a, hJ, hp, rfl⟩
  · cases hjs

theorem of_scheduled_row (h : JobsRepr J rows idx) {value : Bytes}
    (hk : rows.scheduled[key]? = some value) :
    ∃ id js attempt deadline, J id = some js ∧ js.place = .scheduled attempt deadline ∧
      key = TimerKey.encode { deadline, jobId := id } := by
  obtain ⟨id, -, hrow⟩ := h.scheduled.rows.row_of_get hk
  obtain ⟨js, hJ, hjs⟩ := (rowsOf_eq_some_iff _).mp hrow
  unfold JobState.scheduledRow at hjs
  split at hjs
  · rename_i a d hp
    obtain ⟨rfl, rfl⟩ := Prod.mk.inj (Option.some.inj hjs)
    exact ⟨id, js, a, d, hJ, hp, rfl⟩
  · cases hjs

theorem of_dead_row (h : JobsRepr J rows idx) {value : Bytes}
    (hk : rows.deadLetter[key]? = some value) :
    ∃ id js attempt failedAt cause reason, J id = some js ∧
      js.place = .dead attempt failedAt cause reason ∧ key = js.deadKey id failedAt ∧
      value = Message.encodeToVec (js.deadLetter id attempt failedAt cause reason) := by
  obtain ⟨id, -, hrow⟩ := h.dead.rows.row_of_get hk
  obtain ⟨js, hJ, hjs⟩ := (rowsOf_eq_some_iff _).mp hrow
  unfold JobState.deadRow at hjs
  split at hjs
  · rename_i a f c r hp
    obtain ⟨rfl, rfl⟩ := Prod.mk.inj (Option.some.inj hjs)
    exact ⟨id, js, a, f, c, r, hJ, hp, rfl, rfl⟩
  · cases hjs

/-! ### A key without a row has no entry -/

theorem ready_entry_eq_none (h : JobsRepr J rows idx) (hk : rows.ready[key]? = none) :
    idx.ready.keys[key]? = none := by
  rw [Option.eq_none_iff_forall_ne_some]
  intro attempt hentry
  obtain ⟨id, js, hJ, hp, rfl⟩ := h.of_ready_entry hentry
  rw [h.get_ready hJ hp] at hk
  cases hk

theorem scheduled_entry_eq_none (h : JobsRepr J rows idx) (hk : rows.scheduled[key]? = none) :
    idx.scheduled.keys[key]? = none := by
  rw [Option.eq_none_iff_forall_ne_some]
  intro queue hentry
  obtain ⟨id, js, attempt, deadline, hJ, hp, rfl, -⟩ := h.of_scheduled_entry hentry
  rw [h.get_scheduled hJ hp] at hk
  cases hk

theorem dead_entry_eq_none (h : JobsRepr J rows idx) (hk : rows.deadLetter[key]? = none) :
    idx.deadLetter.keys[key]? = none := by
  rw [Option.eq_none_iff_forall_ne_some]
  intro queue hentry
  obtain ⟨id, js, attempt, failedAt, cause, reason, hJ, hp, rfl, -⟩ := h.of_dead_entry hentry
  rw [h.get_deadLetter hJ hp] at hk
  cases hk

end JobsRepr

namespace DedupRepr

omit [Prost]

variable {D : DedupName → Option DedupState} {dedup timers : Keyspace} {index : TimerIndex}
  {name : DedupName} {d : DedupState}

theorem get_dedup (h : DedupRepr D dedup timers index) (hD : D name = some d) :
    dedup[DedupKey.encode { queue := name.1, idempotencyKey := name.2 }]? =
      some (DedupValue.encode
        { enqueuedAt := d.enqueuedAt, deadline := d.deadline, jobId := d.jobId }) :=
  h.dedup.get_of (i := name) (by simp [rowsOf, hD, dedupRow])

theorem get_dedup_eq_none (h : DedupRepr D dedup timers index) (hD : D name = none) :
    dedup[DedupKey.encode { queue := name.1, idempotencyKey := name.2 }]? = none :=
  h.dedup.get_eq_none (dedupNameOf_encode name) (by simp [rowsOf, hD])

theorem get_entry (h : DedupRepr D dedup timers index) (hD : D name = some d) :
    index.keys[dedupTimer name d.deadline]? = some name.1.1 :=
  h.entries.get_of (i := name) (by simp [rowsOf, hD, dedupTimerEntry])

theorem of_entry (h : DedupRepr D dedup timers index) {key : Bytes} {queue : String}
    (hk : index.keys[key]? = some queue) :
    ∃ name d, D name = some d ∧ key = dedupTimer name d.deadline ∧ queue = name.1 := by
  obtain ⟨name, -, hrow⟩ := h.entries.row_of_get hk
  obtain ⟨d, hD, hd⟩ := (rowsOf_eq_some_iff _).mp hrow
  obtain ⟨rfl, rfl⟩ := Prod.mk.inj (Option.some.inj hd)
  exact ⟨name, d, hD, rfl, rfl⟩

end DedupRepr

namespace MetaRepr

variable {closing : String → Option Int64} {log : List (Int64 × AuditRecord)}
  {metadata audit : Keyspace} {index : ExtTreeMap String Int64 compare}

theorem get_auditSeq (h : MetaRepr closing log metadata audit index) :
    metadata[auditSeqKey]? =
      if log.length = 0 then none else some (seqBytes (UInt64.ofNat log.length)) := by
  split_ifs with hlen
  · exact h.metadata.get_eq_none metaOwner_auditSeqKey (by simp [metaRow, hlen])
  · exact h.metadata.get_of (i := none) (by simp [metaRow, hlen])

end MetaRepr

end Lookup

end Sepp
