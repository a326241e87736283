import Sepp.Library.Tracks
import Sepp.Spec.Image

/-!
# The rows and indexes of an abstract state

`Represents a rows idx`: the keyspaces hold exactly the rows of the abstract state `a`, and the
indexes hold exactly the entries they should, with true counts. Each keyspace tracks one layout
function of the abstract state, and the owner of a row is read off its key.

A job changes place in two moves, out of the old place and into the new one. Each move is one
lemma here, whatever the operation that makes it; an operation's effect on the rows is the moves
it is made of.

## Main definitions

* `JobsRepr`, `DedupRepr`, `MetaRepr`, `Represents`.

## Main results

* `JobsRepr.place_ready`, `JobsRepr.unplace_ready` and their scheduled and leased counterparts.
* `JobsRepr.add_job`, `JobsRepr.remove_job`, `JobsRepr.bury`, `JobsRepr.unbury`.
* `DedupRepr.remember`, `DedupRepr.forget`.
-/

open Std

namespace Sepp

/-! ### Owners -/

/-- The job of a key of `ready`. -/
def readyJob (key : Bytes) : Option String := (ReadyKey.decode key).map ReadyKey.jobId

/-- The job of a key of `scheduled` or `leases`. -/
def timerJob (key : Bytes) : Option String := (TimerKey.jobIdOf key).bind fromUtf8

/-- The idempotency key of a key of `dedup`. -/
def dedupNameOf (key : Bytes) : Option DedupName :=
  KeyReader.parse (do
    let queue ← KeyReader.prefixedStr
    let name ← KeyReader.tailStr
    if h : FitsPrefix queue then return (⟨queue, h⟩, name) else StateT.lift none) key

/-- The idempotency key of a key of `dedup_timers`. -/
def dedupTimerName (key : Bytes) : Option DedupName :=
  (DedupTimerKey.dedupKeyOf key).bind dedupNameOf

/-- The queue of a tombstone, or `none` for the audit sequence. -/
def metaOwner (key : Bytes) : Option (Option String) :=
  match closingQueue key with
  | some queue => some (some queue)
  | none => if key = auditSeqKey then some none else none

/-- The position of an audit row in the log. -/
def auditIndex (key : Bytes) : Option ℕ := some (BigEndian.ofBytes key - 1)

@[simp]
theorem readyJob_readyKey (id : String) (js : JobState) : readyJob (js.readyKey id) = some id := by
  rw [readyJob, JobState.readyKey, ReadyKey.decode_encode js.content.queue.2]
  rfl

@[simp]
theorem timerJob_encode (deadline : Int64) (id : String) :
    timerJob (TimerKey.encode { deadline, jobId := id }) = some id := by
  simp [timerJob, TimerKey.jobIdOf_encode]

@[simp]
theorem jobIdOf_deadKey (id : String) (js : JobState) (failedAt : Int64) :
    DeadLetterKey.jobIdOf (js.deadKey id failedAt) = some id := by
  rw [JobState.deadKey, DeadLetterKey.jobIdOf_encode js.content.queue.2, fromUtf8_asBytes]

@[simp]
theorem dedupNameOf_encode (name : DedupName) :
    dedupNameOf (DedupKey.encode { queue := name.1, idempotencyKey := name.2 }) = some name := by
  simp [dedupNameOf, DedupKey.encode, KeyReader.parse, KeyReader.bind_apply,
    KeyReader.prefixedStr_append _ name.1.2, KeyReader.tailStr, KeyReader.tail_apply,
    KeyReader.lift_apply,
    KeyReader.pure_apply, name.1.2]

@[simp]
theorem dedupTimerName_dedupTimer (name : DedupName) (deadline : Int64) :
    dedupTimerName (dedupTimer name deadline) = some name := by
  simp [dedupTimerName, dedupTimer]

@[simp]
theorem metaOwner_closingKey (queue : String) : metaOwner (closingKey queue) = some (some queue) := by
  simp [metaOwner]

@[simp]
theorem metaOwner_auditSeqKey : metaOwner auditSeqKey = some none := by
  decide +kernel

/-! ### Representation -/

section Represents

variable [Prost]

/-- The job records and payloads of the states `J`. -/
structure BodyRepr (J : String → Option JobState) (jobs payloads : Keyspace) : Prop where
  jobs : Tracks fromUtf8 jobs (rowsOf JobState.jobRow J)
  payloads : Tracks fromUtf8 payloads (rowsOf JobState.payloadRow J)

omit [Prost] in
/-- The ready rows and index of the states `J`. -/
structure ReadyRepr (J : String → Option JobState) (rows : Keyspace) (index : ReadyIndex) :
    Prop where
  rows : Tracks readyJob rows (rowsOf JobState.readyRow J)
  entries : Tracks readyJob index.keys (rowsOf JobState.readyEntry J)
  counted : index.Counted

omit [Prost] in
/-- The scheduled rows and index of the states `J`. -/
structure ScheduledRepr (J : String → Option JobState) (rows : Keyspace) (index : TimerIndex) :
    Prop where
  rows : Tracks timerJob rows (rowsOf JobState.scheduledRow J)
  entries : Tracks timerJob index.keys (rowsOf JobState.scheduledEntry J)
  counted : index.Counted

/-- The inflight records, the lease rows and the lease index of the states `J`. -/
structure LeaseRepr (J : String → Option JobState) (inflight rows : Keyspace)
    (index : TimerIndex) : Prop where
  inflight : Tracks fromUtf8 inflight (rowsOf JobState.inflightRow J)
  rows : Tracks timerJob rows (rowsOf JobState.leaseRow J)
  entries : Tracks timerJob index.keys (rowsOf JobState.leaseEntry J)
  counted : index.Counted

/-- The dead letters and their index of the states `J`. -/
structure DeadRepr (J : String → Option JobState) (rows : Keyspace) (index : TimerIndex) :
    Prop where
  rows : Tracks DeadLetterKey.jobIdOf rows (rowsOf JobState.deadRow J)
  entries : Tracks DeadLetterKey.jobIdOf index.keys (rowsOf JobState.deadEntry J)
  counted : index.Counted

/-- The keyspaces and indexes of jobs hold exactly what the states `J` say. -/
structure JobsRepr (J : String → Option JobState) (rows : Rows) (idx : Indexes) : Prop where
  body : BodyRepr J rows.jobs rows.payloads
  ready : ReadyRepr J rows.ready idx.ready
  scheduled : ScheduledRepr J rows.scheduled idx.scheduled
  lease : LeaseRepr J rows.inflight rows.leases idx.leases
  dead : DeadRepr J rows.deadLetter idx.deadLetter

omit [Prost] in
/-- The dedup keyspaces and index hold exactly the records `D`. -/
structure DedupRepr (D : DedupName → Option DedupState) (dedup timers : Keyspace)
    (index : TimerIndex) : Prop where
  dedup : Tracks dedupNameOf dedup (rowsOf dedupRow D)
  timers : Tracks dedupTimerName timers (rowsOf dedupTimerRow D)
  entries : Tracks dedupTimerName index.keys (rowsOf dedupTimerEntry D)
  counted : index.Counted

/-- `meta`, `audit` and the closing index hold exactly the tombstones and the log. -/
structure MetaRepr (closing : String → Option Int64) (log : List (Int64 × AuditRecord))
    (metadata audit : Keyspace) (index : ExtTreeMap String Int64 compare) : Prop where
  metadata : Tracks metaOwner metadata (metaRow closing log.length)
  closing : ∀ queue, index[queue]? = closing queue
  audit : Tracks auditIndex audit (auditRow log)
  length_lt : log.length < 2 ^ 64

/-- The rows and indexes hold exactly the abstract state, and no job is between two places. -/
structure Represents (a : Image) (rows : Rows) (idx : Indexes) : Prop where
  settled : a.Settled
  jobs : JobsRepr a.jobs rows idx
  dedup : DedupRepr a.dedup rows.dedup rows.dedupTimers idx.dedupTimers
  metadata : MetaRepr a.closing a.audit rows.metadata rows.audit idx.closing

/-! ### Moves of a job, one group of rows at a time -/

section Groups

variable {J : String → Option JobState} {id : String} {x y : Option JobState}
variable {rows rows' : Keyspace} {index : TimerIndex}

theorem BodyRepr.keep (h : BodyRepr J rows rows') (hJ : J id = x)
    (hjob : y.bind (JobState.jobRow id) = x.bind (JobState.jobRow id))
    (hpayload : y.bind (JobState.payloadRow id) = x.bind (JobState.payloadRow id)) :
    BodyRepr (Function.update J id y) rows rows' :=
  ⟨h.jobs.keep hJ hjob, h.payloads.keep hJ hpayload⟩

/-- The body of a job goes, with whatever payload it had. -/
theorem BodyRepr.clear (h : BodyRepr J rows rows') (hJ : J id = x)
    (hjob : y.bind (JobState.jobRow id) = none)
    (hpayload : y.bind (JobState.payloadRow id) = none) :
    BodyRepr (Function.update J id y) (rows.erase (asBytes id)) (rows'.erase (asBytes id)) where
  jobs := by
    refine h.jobs.clear hJ (fromUtf8_asBytes id) (fun k v hk => ?_) hjob
    obtain ⟨js, -, hrow⟩ := Option.bind_eq_some_iff.mp hk
    unfold JobState.jobRow at hrow
    split_ifs at hrow
    exact (congrArg Prod.fst (Option.some.inj hrow)).symm
  payloads := by
    refine h.payloads.clear hJ (fromUtf8_asBytes id) (fun k v hk => ?_) hpayload
    obtain ⟨js, -, hrow⟩ := Option.bind_eq_some_iff.mp hk
    unfold JobState.payloadRow at hrow
    split_ifs at hrow
    obtain ⟨p, -, hp⟩ := Option.map_eq_some_iff.mp hrow
    exact (congrArg Prod.fst hp).symm

omit [Prost] in
theorem ReadyRepr.keep {index : ReadyIndex} (h : ReadyRepr J rows index) (hJ : J id = x)
    (hrow : y.bind (JobState.readyRow id) = x.bind (JobState.readyRow id))
    (hentry : y.bind (JobState.readyEntry id) = x.bind (JobState.readyEntry id)) :
    ReadyRepr (Function.update J id y) rows index :=
  ⟨h.rows.keep hJ hrow, h.entries.keep hJ hentry, h.counted⟩

omit [Prost] in
theorem ScheduledRepr.keep (h : ScheduledRepr J rows index) (hJ : J id = x)
    (hrow : y.bind (JobState.scheduledRow id) = x.bind (JobState.scheduledRow id))
    (hentry : y.bind (JobState.scheduledEntry id) = x.bind (JobState.scheduledEntry id)) :
    ScheduledRepr (Function.update J id y) rows index :=
  ⟨h.rows.keep hJ hrow, h.entries.keep hJ hentry, h.counted⟩

theorem LeaseRepr.keep (h : LeaseRepr J rows rows' index) (hJ : J id = x)
    (hinflight : y.bind (JobState.inflightRow id) = x.bind (JobState.inflightRow id))
    (hrow : y.bind (JobState.leaseRow id) = x.bind (JobState.leaseRow id))
    (hentry : y.bind (JobState.leaseEntry id) = x.bind (JobState.leaseEntry id)) :
    LeaseRepr (Function.update J id y) rows rows' index :=
  ⟨h.inflight.keep hJ hinflight, h.rows.keep hJ hrow, h.entries.keep hJ hentry, h.counted⟩

theorem DeadRepr.keep (h : DeadRepr J rows index) (hJ : J id = x)
    (hrow : y.bind (JobState.deadRow id) = x.bind (JobState.deadRow id))
    (hentry : y.bind (JobState.deadEntry id) = x.bind (JobState.deadEntry id)) :
    DeadRepr (Function.update J id y) rows index :=
  ⟨h.rows.keep hJ hrow, h.entries.keep hJ hentry, h.counted⟩

end Groups

/-! ### Moves of a job -/

namespace JobsRepr

variable {J : String → Option JobState} {rows : Rows} {idx : Indexes} {id : String} {js : JobState}

/-- Of two moves of one job the last one counts. -/
theorem of_two_moves {x y : Option JobState}
    (h : JobsRepr (Function.update (Function.update J id x) id y) rows idx) :
    JobsRepr (Function.update J id y) rows idx := by
  rwa [Function.update_idem] at h

/-- A job in limbo becomes ready. -/
theorem place_ready (h : JobsRepr J rows idx) (hJ : J id = some js) (hp : js.place = .limbo)
    (attempt : UInt32) :
    JobsRepr (Function.update J id (some { js with place := .ready attempt }))
      { rows with ready := rows.ready.insert (js.readyKey id) (KeyWriter.u32 attempt) }
      { idx with ready := idx.ready.insert (js.readyKey id) attempt } where
  body := h.body.keep hJ
    (by simp [JobState.jobRow, hp, Place.IsDead, JobState.storedJob])
    (by simp [JobState.payloadRow, hp, Place.IsDead])
  ready :=
    { rows := h.ready.rows.put hJ (by simp [JobState.readyRow, hp])
        (by simp [JobState.readyRow, JobState.readyKey]) (readyJob_readyKey id js)
      entries := h.ready.entries.put hJ (by simp [JobState.readyEntry, hp])
        (by simp [JobState.readyEntry, JobState.readyKey]) (readyJob_readyKey id js)
      counted := h.ready.counted.insert _ _ }
  scheduled := h.scheduled.keep hJ (by simp [JobState.scheduledRow, hp])
    (by simp [JobState.scheduledEntry, hp])
  lease := h.lease.keep hJ (by simp [JobState.inflightRow, hp]) (by simp [JobState.leaseRow, hp])
    (by simp [JobState.leaseEntry, hp])
  dead := h.dead.keep hJ (by simp [JobState.deadRow, hp]) (by simp [JobState.deadEntry, hp])

/-- A ready job is taken out of its place in line. -/
theorem unplace_ready (h : JobsRepr J rows idx) (hJ : J id = some js) {attempt : UInt32}
    (hp : js.place = .ready attempt) :
    JobsRepr (Function.update J id (some { js with place := .limbo }))
      { rows with ready := rows.ready.erase (js.readyKey id) }
      { idx with ready := (idx.ready.remove (js.readyKey id)).2 } where
  body := h.body.keep hJ
    (by simp [JobState.jobRow, hp, Place.IsDead, JobState.storedJob])
    (by simp [JobState.payloadRow, hp, Place.IsDead])
  ready :=
    { rows := h.ready.rows.take (v := KeyWriter.u32 attempt) hJ (by simp [JobState.readyRow, hp])
        (by simp [JobState.readyRow])
      entries := by
        rw [ReadyIndex.keys_remove]
        exact h.ready.entries.take (v := attempt) hJ (by simp [JobState.readyEntry, hp])
          (by simp [JobState.readyEntry])
      counted := h.ready.counted.remove _ }
  scheduled := h.scheduled.keep hJ (by simp [JobState.scheduledRow, hp])
    (by simp [JobState.scheduledEntry, hp])
  lease := h.lease.keep hJ (by simp [JobState.inflightRow, hp]) (by simp [JobState.leaseRow, hp])
    (by simp [JobState.leaseEntry, hp])
  dead := h.dead.keep hJ (by simp [JobState.deadRow, hp]) (by simp [JobState.deadEntry, hp])

/-- A job in limbo is scheduled. -/
theorem place_scheduled (h : JobsRepr J rows idx) (hJ : J id = some js) (hp : js.place = .limbo)
    (attempt : UInt32) (deadline : Int64) :
    JobsRepr (Function.update J id (some { js with place := .scheduled attempt deadline }))
      { rows with
        scheduled := rows.scheduled.insert (TimerKey.encode { deadline, jobId := id })
          (KeyWriter.u32 attempt) }
      { idx with
        scheduled := idx.scheduled.insert (TimerKey.encode { deadline, jobId := id })
          js.content.queue.1 } where
  body := h.body.keep hJ
    (by simp [JobState.jobRow, hp, Place.IsDead, JobState.storedJob])
    (by simp [JobState.payloadRow, hp, Place.IsDead])
  ready := h.ready.keep hJ (by simp [JobState.readyRow, hp]) (by simp [JobState.readyEntry, hp])
  scheduled :=
    { rows := h.scheduled.rows.put hJ (by simp [JobState.scheduledRow, hp])
        (by simp [JobState.scheduledRow]) (timerJob_encode deadline id)
      entries := h.scheduled.entries.put hJ (by simp [JobState.scheduledEntry, hp])
        (by simp [JobState.scheduledEntry]) (timerJob_encode deadline id)
      counted := by
        refine h.scheduled.counted.insert fun owner howner => ?_
        have habsent := h.scheduled.entries.get_eq_none (timerJob_encode deadline id)
          (by simp [rowsOf, hJ, JobState.scheduledEntry, hp])
        rw [habsent] at howner
        cases howner }
  lease := h.lease.keep hJ (by simp [JobState.inflightRow, hp]) (by simp [JobState.leaseRow, hp])
    (by simp [JobState.leaseEntry, hp])
  dead := h.dead.keep hJ (by simp [JobState.deadRow, hp]) (by simp [JobState.deadEntry, hp])

/-- A scheduled job is taken off its timer. -/
theorem unplace_scheduled (h : JobsRepr J rows idx) (hJ : J id = some js) {attempt : UInt32}
    {deadline : Int64} (hp : js.place = .scheduled attempt deadline) :
    JobsRepr (Function.update J id (some { js with place := .limbo }))
      { rows with scheduled := rows.scheduled.erase (TimerKey.encode { deadline, jobId := id }) }
      { idx with
        scheduled := (idx.scheduled.remove (TimerKey.encode { deadline, jobId := id })).2 } where
  body := h.body.keep hJ
    (by simp [JobState.jobRow, hp, Place.IsDead, JobState.storedJob])
    (by simp [JobState.payloadRow, hp, Place.IsDead])
  ready := h.ready.keep hJ (by simp [JobState.readyRow, hp]) (by simp [JobState.readyEntry, hp])
  scheduled :=
    { rows := h.scheduled.rows.take (v := KeyWriter.u32 attempt) hJ
        (by simp [JobState.scheduledRow, hp]) (by simp [JobState.scheduledRow])
      entries := by
        rw [TimerIndex.keys_remove]
        exact h.scheduled.entries.take (v := js.content.queue.1) hJ
          (by simp [JobState.scheduledEntry, hp]) (by simp [JobState.scheduledEntry])
      counted := h.scheduled.counted.remove _ }
  lease := h.lease.keep hJ (by simp [JobState.inflightRow, hp]) (by simp [JobState.leaseRow, hp])
    (by simp [JobState.leaseEntry, hp])
  dead := h.dead.keep hJ (by simp [JobState.deadRow, hp]) (by simp [JobState.deadEntry, hp])

/-- A job in limbo is leased. -/
theorem place_leased (h : JobsRepr J rows idx) (hJ : J id = some js) (hp : js.place = .limbo)
    (attempt : UInt32) (expires : Int64) :
    JobsRepr (Function.update J id (some { js with place := .leased attempt expires }))
      { rows with
        inflight := rows.inflight.insert (asBytes id) (js.inflight attempt expires).encode
        leases := rows.leases.insert (TimerKey.encode { deadline := expires, jobId := id }) [] }
      { idx with
        leases := idx.leases.insert (TimerKey.encode { deadline := expires, jobId := id })
          js.content.queue.1 } where
  body := h.body.keep hJ
    (by simp [JobState.jobRow, hp, Place.IsDead, JobState.storedJob])
    (by simp [JobState.payloadRow, hp, Place.IsDead])
  ready := h.ready.keep hJ (by simp [JobState.readyRow, hp]) (by simp [JobState.readyEntry, hp])
  scheduled := h.scheduled.keep hJ (by simp [JobState.scheduledRow, hp])
    (by simp [JobState.scheduledEntry, hp])
  lease :=
    { inflight := h.lease.inflight.put hJ (by simp [JobState.inflightRow, hp])
        (by simp [JobState.inflightRow, JobState.inflight]) (fromUtf8_asBytes id)
      rows := h.lease.rows.put hJ (by simp [JobState.leaseRow, hp])
        (by simp [JobState.leaseRow]) (timerJob_encode expires id)
      entries := h.lease.entries.put hJ (by simp [JobState.leaseEntry, hp])
        (by simp [JobState.leaseEntry]) (timerJob_encode expires id)
      counted := by
        refine h.lease.counted.insert fun owner howner => ?_
        have habsent := h.lease.entries.get_eq_none (timerJob_encode expires id)
          (by simp [rowsOf, hJ, JobState.leaseEntry, hp])
        rw [habsent] at howner
        cases howner }
  dead := h.dead.keep hJ (by simp [JobState.deadRow, hp]) (by simp [JobState.deadEntry, hp])

/-- A lease ends. -/
theorem unplace_leased (h : JobsRepr J rows idx) (hJ : J id = some js) {attempt : UInt32}
    {expires : Int64} (hp : js.place = .leased attempt expires) :
    JobsRepr (Function.update J id (some { js with place := .limbo }))
      { rows with
        inflight := rows.inflight.erase (asBytes id)
        leases := rows.leases.erase (TimerKey.encode { deadline := expires, jobId := id }) }
      { idx with
        leases := (idx.leases.remove (TimerKey.encode { deadline := expires, jobId := id })).2 }
    where
  body := h.body.keep hJ
    (by simp [JobState.jobRow, hp, Place.IsDead, JobState.storedJob])
    (by simp [JobState.payloadRow, hp, Place.IsDead])
  ready := h.ready.keep hJ (by simp [JobState.readyRow, hp]) (by simp [JobState.readyEntry, hp])
  scheduled := h.scheduled.keep hJ (by simp [JobState.scheduledRow, hp])
    (by simp [JobState.scheduledEntry, hp])
  lease :=
    { inflight := h.lease.inflight.take (v := (js.inflight attempt expires).encode) hJ
        (by simp [JobState.inflightRow, hp]) (by simp [JobState.inflightRow])
      rows := h.lease.rows.take (v := []) hJ (by simp [JobState.leaseRow, hp])
        (by simp [JobState.leaseRow])
      entries := by
        rw [TimerIndex.keys_remove]
        exact h.lease.entries.take (v := js.content.queue.1) hJ
          (by simp [JobState.leaseEntry, hp]) (by simp [JobState.leaseEntry])
      counted := h.lease.counted.remove _ }
  dead := h.dead.keep hJ (by simp [JobState.deadRow, hp]) (by simp [JobState.deadEntry, hp])

/-- A lease gets a new deadline. -/
theorem extend (h : JobsRepr J rows idx) (hJ : J id = some js) {attempt : UInt32}
    {expires : Int64} (hp : js.place = .leased attempt expires) (expires' : Int64) :
    JobsRepr (Function.update J id (some { js with place := .leased attempt expires' }))
      { rows with
        inflight := rows.inflight.insert (asBytes id) (js.inflight attempt expires').encode
        leases := (rows.leases.erase (TimerKey.encode { deadline := expires, jobId := id })).insert
          (TimerKey.encode { deadline := expires', jobId := id }) [] }
      { idx with
        leases := (idx.leases.remove (TimerKey.encode { deadline := expires, jobId := id })).2.insert
          (TimerKey.encode { deadline := expires', jobId := id }) js.content.queue.1 } := by
  have hmoved := (h.unplace_leased hJ hp).place_leased (Function.update_self ..) rfl attempt expires'
  rw [Function.update_idem] at hmoved
  rw [← ExtTreeMap.insert_erase]
  exact hmoved

/-- A new job arrives, into limbo. -/
theorem add_job (h : JobsRepr J rows idx) (js : JobState) (hJ : J id = none)
    (hp : js.place = .limbo) :
    JobsRepr (Function.update J id (some js))
      { rows with
        jobs := rows.jobs.insert (asBytes id)
          (JobValue.encode { queue := js.content.queue, job := js.storedJob id })
        payloads := match js.content.payload with
          | some p => rows.payloads.insert (asBytes id) (Message.encodeToVec p)
          | none => rows.payloads } idx where
  body :=
    { jobs := h.body.jobs.put hJ rfl (by simp [JobState.jobRow, hp, Place.IsDead])
        (fromUtf8_asBytes id)
      payloads := by
        cases hpayload : js.content.payload with
        | some p =>
          exact h.body.payloads.put hJ rfl
            (by simp [JobState.payloadRow, hp, Place.IsDead, hpayload]) (fromUtf8_asBytes id)
        | none =>
          exact h.body.payloads.keep hJ (by simp [JobState.payloadRow, hpayload]) }
  ready := h.ready.keep hJ (by simp [JobState.readyRow, hp]) (by simp [JobState.readyEntry, hp])
  scheduled := h.scheduled.keep hJ (by simp [JobState.scheduledRow, hp])
    (by simp [JobState.scheduledEntry, hp])
  lease := h.lease.keep hJ (by simp [JobState.inflightRow, hp]) (by simp [JobState.leaseRow, hp])
    (by simp [JobState.leaseEntry, hp])
  dead := h.dead.keep hJ (by simp [JobState.deadRow, hp]) (by simp [JobState.deadEntry, hp])

/-- A job in limbo is gone. -/
theorem remove_job (h : JobsRepr J rows idx) (hJ : J id = some js) (hp : js.place = .limbo) :
    JobsRepr (Function.update J id none)
      { rows with
        jobs := rows.jobs.erase (asBytes id)
        payloads := rows.payloads.erase (asBytes id) } idx where
  body := h.body.clear hJ rfl rfl
  ready := h.ready.keep hJ (by simp [JobState.readyRow, hp]) (by simp [JobState.readyEntry, hp])
  scheduled := h.scheduled.keep hJ (by simp [JobState.scheduledRow, hp])
    (by simp [JobState.scheduledEntry, hp])
  lease := h.lease.keep hJ (by simp [JobState.inflightRow, hp]) (by simp [JobState.leaseRow, hp])
    (by simp [JobState.leaseEntry, hp])
  dead := h.dead.keep hJ (by simp [JobState.deadRow, hp]) (by simp [JobState.deadEntry, hp])

/-- A job in limbo becomes a dead letter. -/
theorem bury (h : JobsRepr J rows idx) (hJ : J id = some js) (hp : js.place = .limbo)
    (attempt : UInt32) (failedAt : Int64) (cause : DeadLetterCause) (reason : Option String) :
    JobsRepr (Function.update J id (some { js with place := .dead attempt failedAt cause reason }))
      { rows with
        jobs := rows.jobs.erase (asBytes id)
        payloads := rows.payloads.erase (asBytes id)
        deadLetter := rows.deadLetter.insert (js.deadKey id failedAt)
          (Message.encodeToVec (js.deadLetter id attempt failedAt cause reason)) }
      { idx with
        deadLetter := idx.deadLetter.insert (js.deadKey id failedAt) js.content.queue.1 } where
  body := h.body.clear hJ (by simp [JobState.jobRow, Place.IsDead])
    (by simp [JobState.payloadRow, Place.IsDead])
  ready := h.ready.keep hJ (by simp [JobState.readyRow, hp]) (by simp [JobState.readyEntry, hp])
  scheduled := h.scheduled.keep hJ (by simp [JobState.scheduledRow, hp])
    (by simp [JobState.scheduledEntry, hp])
  lease := h.lease.keep hJ (by simp [JobState.inflightRow, hp]) (by simp [JobState.leaseRow, hp])
    (by simp [JobState.leaseEntry, hp])
  dead :=
    { rows := h.dead.rows.put hJ (by simp [JobState.deadRow, hp])
        (by simp [JobState.deadRow, JobState.deadKey, JobState.deadLetter, JobState.fullJob,
          JobState.storedJob]) (jobIdOf_deadKey id js failedAt)
      entries := h.dead.entries.put hJ (by simp [JobState.deadEntry, hp])
        (by simp [JobState.deadEntry, JobState.deadKey]) (jobIdOf_deadKey id js failedAt)
      counted := by
        refine h.dead.counted.insert fun owner howner => ?_
        have habsent := h.dead.entries.get_eq_none (jobIdOf_deadKey id js failedAt)
          (by simp [rowsOf, hJ, JobState.deadEntry, hp])
        rw [habsent] at howner
        cases howner }

/-- A job in limbo is given up: it becomes a dead letter, or it is gone. -/
theorem giveUp (h : JobsRepr J rows idx) (hJ : J id = some js) (hp : js.place = .limbo)
    (attempt : UInt32) (failedAt : Int64) (cause : DeadLetterCause) (reason : Option String)
    (kept : Bool) :
    JobsRepr (Function.update J id
        (if kept then some { js with place := .dead attempt failedAt cause reason } else none))
      { rows with
        jobs := rows.jobs.erase (asBytes id)
        payloads := rows.payloads.erase (asBytes id)
        deadLetter :=
          if kept then rows.deadLetter.insert (js.deadKey id failedAt)
            (Message.encodeToVec (js.deadLetter id attempt failedAt cause reason))
          else rows.deadLetter }
      { idx with
        deadLetter :=
          if kept then idx.deadLetter.insert (js.deadKey id failedAt) js.content.queue.1
          else idx.deadLetter } := by
  cases kept with
  | false => exact h.remove_job hJ hp
  | true => exact h.bury hJ hp attempt failedAt cause reason

/-- A dead letter is removed. -/
theorem unbury (h : JobsRepr J rows idx) (hJ : J id = some js) {attempt : UInt32}
    {failedAt : Int64} {cause : DeadLetterCause} {reason : Option String}
    (hp : js.place = .dead attempt failedAt cause reason) :
    JobsRepr (Function.update J id none)
      { rows with deadLetter := rows.deadLetter.erase (js.deadKey id failedAt) }
      { idx with deadLetter := (idx.deadLetter.remove (js.deadKey id failedAt)).2 } where
  body := h.body.keep hJ (by simp [JobState.jobRow, hp, Place.IsDead])
    (by simp [JobState.payloadRow, hp, Place.IsDead])
  ready := h.ready.keep hJ (by simp [JobState.readyRow, hp]) (by simp [JobState.readyEntry, hp])
  scheduled := h.scheduled.keep hJ (by simp [JobState.scheduledRow, hp])
    (by simp [JobState.scheduledEntry, hp])
  lease := h.lease.keep hJ (by simp [JobState.inflightRow, hp]) (by simp [JobState.leaseRow, hp])
    (by simp [JobState.leaseEntry, hp])
  dead :=
    { rows := h.dead.rows.take hJ (by simp only [Option.bind_some, JobState.deadRow, hp]; rfl) rfl
      entries := by
        rw [TimerIndex.keys_remove]
        exact h.dead.entries.take hJ (by simp only [Option.bind_some, JobState.deadEntry, hp]; rfl)
          rfl
      counted := h.dead.counted.remove _ }

end JobsRepr

/-! ### Idempotency keys -/

namespace DedupRepr

variable {D : DedupName → Option DedupState} {dedup timers : Keyspace} {index : TimerIndex}
  {name : DedupName}

omit [Prost] in
/-- A key without a record gets one. -/
theorem remember (h : DedupRepr D dedup timers index) (hD : D name = none) (d : DedupState) :
    DedupRepr (Function.update D name (some d))
      (dedup.insert (DedupKey.encode { queue := name.1, idempotencyKey := name.2 })
        (DedupValue.encode { enqueuedAt := d.enqueuedAt, deadline := d.deadline, jobId := d.jobId }))
      (timers.insert (dedupTimer name d.deadline) [])
      (index.insert (dedupTimer name d.deadline) name.1.1) where
  dedup := h.dedup.put hD rfl rfl (dedupNameOf_encode name)
  timers := h.timers.put hD rfl rfl (dedupTimerName_dedupTimer name d.deadline)
  entries := h.entries.put hD rfl rfl (dedupTimerName_dedupTimer name d.deadline)
  counted := by
    refine h.counted.insert fun owner howner => ?_
    have habsent := h.entries.get_eq_none (dedupTimerName_dedupTimer name d.deadline)
      (by simp [rowsOf, hD])
    rw [habsent] at howner
    cases howner

omit [Prost] in
/-- A record goes, with its timer. -/
theorem forget (h : DedupRepr D dedup timers index) {d : DedupState} (hD : D name = some d) :
    DedupRepr (Function.update D name none)
      (dedup.erase (DedupKey.encode { queue := name.1, idempotencyKey := name.2 }))
      (timers.erase (dedupTimer name d.deadline))
      (index.remove (dedupTimer name d.deadline)).2 where
  dedup := h.dedup.take hD rfl rfl
  timers := h.timers.take hD rfl rfl
  entries := by
    rw [TimerIndex.keys_remove]
    exact h.entries.take hD rfl rfl
  counted := h.counted.remove _

omit [Prost] in
/-- A record is replaced, and its timer with it. -/
theorem replace (h : DedupRepr D dedup timers index) {d₀ : DedupState} (hD : D name = some d₀)
    (d : DedupState) :
    DedupRepr (Function.update D name (some d))
      (dedup.insert (DedupKey.encode { queue := name.1, idempotencyKey := name.2 })
        (DedupValue.encode { enqueuedAt := d.enqueuedAt, deadline := d.deadline, jobId := d.jobId }))
      ((timers.erase (dedupTimer name d₀.deadline)).insert (dedupTimer name d.deadline) [])
      ((index.remove (dedupTimer name d₀.deadline)).2.insert (dedupTimer name d.deadline)
        name.1.1) := by
  have hmoved := (h.forget hD).remember (Function.update_self ..) d
  rw [Function.update_idem, ExtTreeMap.insert_erase] at hmoved
  exact hmoved

end DedupRepr

/-! ### Tombstones and the audit log -/

omit [Prost] in
theorem metaRow_update_closing (closing : String → Option Int64) (n : ℕ) (queue : String)
    (x : Option Int64) :
    metaRow (Function.update closing queue x) n = Function.update (metaRow closing n) (some queue)
      (x.map fun deadline => (closingKey queue, KeyWriter.i64 deadline)) := by
  funext owner
  cases owner with
  | none => rw [Function.update_of_ne (by simp)]; rfl
  | some q =>
    by_cases hq : q = queue
    · subst hq
      simp [metaRow]
    · rw [Function.update_of_ne (by simpa using hq)]
      simp [metaRow, Function.update_of_ne hq]

omit [Prost] in
theorem metaRow_succ (closing : String → Option Int64) (n : ℕ) :
    metaRow closing (n + 1) = Function.update (metaRow closing n) none
      (some (auditSeqKey, seqBytes (UInt64.ofNat (n + 1)))) := by
  funext owner
  cases owner with
  | none => simp [metaRow]
  | some q => rw [Function.update_of_ne (by simp)]; rfl

theorem auditRow_concat (log : List (Int64 × AuditRecord)) (entry : Int64 × AuditRecord) :
    auditRow (log ++ [entry]) = Function.update (auditRow log) log.length
      (some (seqBytes (UInt64.ofNat (log.length + 1)),
        AuditValue.encode { tsMs := entry.1, record := entry.2 })) := by
  funext i
  by_cases hi : i = log.length
  · subst hi
    simp [auditRow]
  · rw [Function.update_of_ne hi]
    by_cases hlt : i < log.length
    · rw [auditRow, auditRow, List.getElem?_append_left hlt]
    · rw [auditRow, auditRow, List.getElem?_eq_none (by simp; omega), List.getElem?_eq_none (by omega)]

omit [Prost] in
theorem ofBytes_seqBytes {n : ℕ} (h : n < 2 ^ 64) :
    BigEndian.ofBytes (seqBytes (UInt64.ofNat n)) = n := by
  rw [seqBytes, UInt64.toNat_ofNat_of_lt' h]
  exact BigEndian.ofBytes_toBytes_of_lt (by simpa using h)

namespace MetaRepr

variable {closing : String → Option Int64} {log : List (Int64 × AuditRecord)}
  {metadata audit : Keyspace} {index : ExtTreeMap String Int64 compare}

/-- A queue is marked as closing. -/
theorem close (h : MetaRepr closing log metadata audit index) (queue : String) (deadline : Int64) :
    MetaRepr (Function.update closing queue (some deadline)) log
      (metadata.insert (closingKey queue) (KeyWriter.i64 deadline)) audit
      (index.insert queue deadline) where
  metadata := by
    rw [metaRow_update_closing]
    refine h.metadata.insert (metaOwner_closingKey queue) fun k₀ v hk₀ => ?_
    obtain ⟨d, -, hd⟩ := Option.map_eq_some_iff.mp hk₀
    exact (congrArg Prod.fst hd).symm
  closing q := by
    rw [ExtTreeMap.getElem?_insert_eq]
    by_cases hq : queue = q
    · subst hq
      simp
    · rw [if_neg hq, Function.update_of_ne (Ne.symm hq), h.closing q]
  audit := h.audit
  length_lt := h.length_lt

omit [Prost] in
/-- The tombstone row of a queue goes. -/
theorem tracks_erase_closingKey {n : ℕ} (h : Tracks metaOwner metadata (metaRow closing n))
    (queue : String) :
    Tracks metaOwner (metadata.erase (closingKey queue))
      (metaRow (Function.update closing queue none) n) := by
  rw [metaRow_update_closing]
  refine h.erase (metaOwner_closingKey queue) fun k₀ v hk₀ => ?_
  obtain ⟨d, -, hd⟩ := Option.map_eq_some_iff.mp hk₀
  exact (congrArg Prod.fst hd).symm

/-- A queue is no longer closing. -/
theorem reopen (h : MetaRepr closing log metadata audit index) (queue : String) :
    MetaRepr (Function.update closing queue none) log
      (metadata.erase (closingKey queue)) audit (index.erase queue) where
  metadata := tracks_erase_closingKey h.metadata queue
  closing q := by
    rw [ExtTreeMap.getElem?_erase_eq]
    by_cases hq : queue = q
    · subst hq
      simp
    · rw [if_neg hq, Function.update_of_ne (Ne.symm hq), h.closing q]
  audit := h.audit
  length_lt := h.length_lt

/-- The log gets an entry. -/
theorem append (h : MetaRepr closing log metadata audit index) (entry : Int64 × AuditRecord)
    (hlen : log.length + 1 < 2 ^ 64) :
    MetaRepr closing (log ++ [entry])
      (metadata.insert auditSeqKey (seqBytes (UInt64.ofNat (log.length + 1))))
      (audit.insert (seqBytes (UInt64.ofNat (log.length + 1)))
        (AuditValue.encode { tsMs := entry.1, record := entry.2 })) index where
  metadata := by
    rw [List.length_append, List.length_singleton, metaRow_succ]
    refine h.metadata.insert metaOwner_auditSeqKey fun k₀ v hk₀ => ?_
    unfold metaRow at hk₀
    split_ifs at hk₀
    exact (congrArg Prod.fst (Option.some.inj hk₀)).symm
  closing := h.closing
  audit := by
    rw [auditRow_concat]
    refine h.audit.insert ?_ fun k₀ v hk₀ => ?_
    · rw [auditIndex, ofBytes_seqBytes hlen, Nat.add_sub_cancel]
    · rw [auditRow, List.getElem?_eq_none le_rfl] at hk₀
      cases hk₀
  length_lt := by simpa using hlen

end MetaRepr

/-! ### Uniqueness -/

namespace Represents

variable {a : Image} {rows rows' : Rows} {idx idx' : Indexes}

/-- A job changes, and the rows that are not of jobs stay. -/
theorem setJob (h : Represents a rows idx) {id : String} {x : Option JobState}
    (hjobs : JobsRepr (Function.update a.jobs id x) rows' idx')
    (hx : ∀ js, x = some js → js.place ≠ .limbo)
    (hrows : (rows'.dedup, rows'.dedupTimers, rows'.metadata, rows'.audit) =
      (rows.dedup, rows.dedupTimers, rows.metadata, rows.audit))
    (hidx : (idx'.dedupTimers, idx'.closing) = (idx.dedupTimers, idx.closing)) :
    Represents (a.setJob id x) rows' idx' := by
  simp only [Prod.mk.injEq] at hrows hidx
  refine ⟨h.settled.setJob id hx, hjobs, ?_, ?_⟩
  · rw [hrows.1, hrows.2.1, hidx.1]
    exact h.dedup
  · rw [hrows.2.2.1, hrows.2.2.2, hidx.2]
    exact h.metadata

/-- The dedup records change, and the other rows stay. -/
theorem withDedup (h : Represents a rows idx) {D : DedupName → Option DedupState}
    {dedup timers : Keyspace} {index : TimerIndex} (hD : DedupRepr D dedup timers index) :
    Represents { a with dedup := D } { rows with dedup, dedupTimers := timers }
      { idx with dedupTimers := index } where
  settled := h.settled
  jobs := ⟨h.jobs.body, h.jobs.ready, h.jobs.scheduled, h.jobs.lease, h.jobs.dead⟩
  dedup := hD
  metadata := h.metadata

/-- The tombstones or the log change, and the other rows stay. -/
theorem withMeta (h : Represents a rows idx) {closing : String → Option Int64}
    {log : List (Int64 × AuditRecord)} {metadata audit : Keyspace}
    {index : ExtTreeMap String Int64 compare} (hmeta : MetaRepr closing log metadata audit index) :
    Represents { a with closing, audit := log } { rows with metadata, audit }
      { idx with closing := index } where
  settled := h.settled
  jobs := ⟨h.jobs.body, h.jobs.ready, h.jobs.scheduled, h.jobs.lease, h.jobs.dead⟩
  dedup := h.dedup
  metadata := hmeta

/-- An abstract state determines its rows. -/
theorem rows_eq (h : Represents a rows idx) (h' : Represents a rows' idx') : rows = rows' := by
  cases rows
  cases rows'
  rw [Rows.mk.injEq]
  exact ⟨h.jobs.body.jobs.ext h'.jobs.body.jobs, h.jobs.body.payloads.ext h'.jobs.body.payloads,
    h.jobs.lease.inflight.ext h'.jobs.lease.inflight, h.jobs.ready.rows.ext h'.jobs.ready.rows,
    h.dedup.dedup.ext h'.dedup.dedup, h.dedup.timers.ext h'.dedup.timers,
    h.jobs.scheduled.rows.ext h'.jobs.scheduled.rows, h.jobs.lease.rows.ext h'.jobs.lease.rows,
    h.jobs.dead.rows.ext h'.jobs.dead.rows, h.metadata.metadata.ext h'.metadata.metadata,
    h.metadata.audit.ext h'.metadata.audit⟩

/-- An abstract state determines its indexes. -/
theorem idx_eq (h : Represents a rows idx) (h' : Represents a rows' idx') : idx = idx' := by
  cases idx
  cases idx'
  rw [Indexes.mk.injEq]
  exact ⟨h.jobs.ready.counted.ext h'.jobs.ready.counted
      (h.jobs.ready.entries.ext h'.jobs.ready.entries),
    h.jobs.scheduled.counted.ext h'.jobs.scheduled.counted
      (h.jobs.scheduled.entries.ext h'.jobs.scheduled.entries),
    h.jobs.lease.counted.ext h'.jobs.lease.counted
      (h.jobs.lease.entries.ext h'.jobs.lease.entries),
    h.dedup.counted.ext h'.dedup.counted (h.dedup.entries.ext h'.dedup.entries),
    h.jobs.dead.counted.ext h'.jobs.dead.counted
      (h.jobs.dead.entries.ext h'.jobs.dead.entries),
    ExtTreeMap.ext_getElem? fun q => by rw [h.metadata.closing q, h'.metadata.closing q]⟩

/-- The empty store. -/
theorem empty : Represents Image.empty {} {} where
  settled := by
    intro id js h
    cases h
  jobs :=
    { body := ⟨Tracks.empty, Tracks.empty⟩
      ready := ⟨Tracks.empty, Tracks.empty, ReadyIndex.counted_empty⟩
      scheduled := ⟨Tracks.empty, Tracks.empty, TimerIndex.counted_empty⟩
      lease := ⟨Tracks.empty, Tracks.empty, Tracks.empty, TimerIndex.counted_empty⟩
      dead := ⟨Tracks.empty, Tracks.empty, TimerIndex.counted_empty⟩ }
  dedup := ⟨Tracks.empty, Tracks.empty, Tracks.empty, TimerIndex.counted_empty⟩
  metadata :=
    { metadata := by
        have hrow : metaRow Image.empty.closing Image.empty.audit.length = fun _ => none := by
          funext owner
          cases owner <;> rfl
        rw [hrow]
        exact Tracks.empty
      closing := fun queue => by simp [Image.empty]
      audit := Tracks.empty
      length_lt := by simp [Image.empty] }

end Represents

end Represents

end Sepp
