import Sepp.Run.Contents
import Sepp.Safety.Isolation
import Sepp.Spec.Standing
import Sepp.Wire.Codec

/-!
# No job is lost

A job that was inserted is live or retained as a dead letter, with the content that it was enqueued
with, until a call ends it: an ack, a purge of its queue, a dead-lettering while dead letters are
not kept, or, when it is a dead letter, a drain, a deletion or its retention. The content is taken
apart and put together on the way, over three keyspaces.

## Main definitions

* `PreparedJob.SameContent` — a job as it was enqueued.
* `Rows.Alive`, `Rows.Retained` — the two ways in which the store holds a job.
* `Call.Ends`, `KeepingStep` — the calls that may end a job, and those that do not.

## Main results

* `Run.no_job_lost`.
-/

open Std

namespace Sepp

/-! ### What the store holds of a job -/

/-- The job is the one that was enqueued. -/
structure PreparedJob.SameContent (job : PreparedJob) (held : Job) : Prop where
  id : held.id = job.id
  queue : held.queue = job.req.queue
  jobType : held.jobType = job.req.jobType
  payload : held.payload = job.req.payload
  priority : held.priority = job.limits.priority
  maxAttempts : held.maxAttempts = job.limits.maxAttempts
  custom : held.custom = job.req.custom
  traceContext : held.traceContext = job.req.traceContext

section Held

variable [Prost]

/-- The job is in `jobs` and `payloads` as it was enqueued, it waits or is leased, and it has no dead
letter. -/
structure Rows.Alive (rows : Rows) (job : PreparedJob) : Prop where
  stored : ∃ held, rows.fullJob job.id = some held ∧ job.SameContent held
  placed : ∃ attempt, rows.Waits job.id attempt ∨ rows.Leased job.id attempt
  unburied : ∀ record, ¬ rows.Buried job.id record

/-- The job has exactly one dead letter, with the job as it was enqueued, and is not in `jobs`. -/
structure Rows.Retained (rows : Rows) (job : PreparedJob) : Prop where
  record : ∃ key bytes record held, (∀ key', key' ∈ rows.deadLetter ∧
      DeadLetterKey.jobIdOf key' = some job.id ↔ key' = key) ∧
    rows.deadLetter[key]? = some bytes ∧ Message.decode bytes = some (record : DeadLetterRecord) ∧
    record.job = some held ∧ job.SameContent held
  gone : asBytes job.id ∉ rows.jobs

variable {a : Image} {rows : Rows} {idx : Indexes} {job : PreparedJob}

/-- The abstract state holds the job with its content. -/
def Image.Keeps (a : Image) (job : PreparedJob) : Prop :=
  ∃ js hq, a.jobs job.id = some js ∧ js.content = job.content hq

theorem JobState.sameContent {js : JobState} {hq : FitsPrefix job.req.queue}
    (h : js.content = job.content hq) (attempt : UInt32) :
    job.SameContent (js.fullJob job.id attempt) := by
  constructor <;> simp [JobState.fullJob, JobState.storedJob, h, PreparedJob.content]

/-- A job that is not dead is live. -/
theorem Represents.alive (h : Represents a rows idx) {js : JobState} {hq : FitsPrefix job.req.queue}
    (hJ : a.jobs job.id = some js) (hcontent : js.content = job.content hq)
    (hdead : ¬ js.place.IsDead) : rows.Alive job := by
  refine ⟨⟨_, h.jobs.fullJob_eq hJ hdead, JobState.sameContent hcontent 1⟩, ?_, ?_⟩
  · cases hp : js.place with
    | limbo => exact absurd hp (h.settled job.id js hJ)
    | ready attempt => exact ⟨attempt, .inl (h.waits_iff.mpr ⟨js, hJ, .inl hp⟩)⟩
    | scheduled attempt deadline =>
      exact ⟨attempt, .inl (h.waits_iff.mpr ⟨js, hJ, .inr ⟨deadline, hp⟩⟩)⟩
    | leased attempt expires =>
      exact ⟨attempt, .inr (h.leased_iff.mpr ⟨js, expires, hJ, hp⟩)⟩
    | dead => exact absurd (by simp [hp, Place.IsDead]) hdead
  · rintro record hburied
    obtain ⟨js', n, failedAt, cause, reason, hJ', hp, -⟩ := h.buried_iff.mp hburied
    obtain rfl := Option.some.inj (hJ.symm.trans hJ')
    exact hdead (by simp [hp, Place.IsDead])

/-- A dead job is retained. -/
theorem Represents.retained (h : Represents a rows idx) {js : JobState}
    {hq : FitsPrefix job.req.queue} (hJ : a.jobs job.id = some js)
    (hcontent : js.content = job.content hq) (hdead : js.place.IsDead) : rows.Retained job := by
  cases hp : js.place with
  | limbo | ready | scheduled | leased => simp [hp, Place.IsDead] at hdead
  | dead attempt failedAt cause reason =>
    refine ⟨⟨js.deadKey job.id failedAt, _, _, _, fun key => ?_, h.jobs.get_deadLetter hJ hp,
      Message.decode_encodeToVec _, rfl, JobState.sameContent hcontent attempt⟩, fun hmem => ?_⟩
    · have hrow : rowsOf JobState.deadRow a.jobs job.id = some (js.deadKey job.id failedAt,
          Message.encodeToVec (js.deadLetter job.id attempt failedAt cause reason)) :=
        (rowsOf_eq_some_iff _).mpr ⟨js, hJ, by simp [JobState.deadRow, hp]⟩
      have hone := h.jobs.dead.rows.oneRow hrow
      rw [ExtTreeMap.mem_iff_exists]
      constructor
      · rintro ⟨⟨value, hvalue⟩, hown⟩
        exact ((hone key value).mp ⟨hvalue, hown⟩).1
      · rintro rfl
        obtain ⟨hget, hown⟩ := (hone _ _).mpr ⟨rfl, rfl⟩
        exact ⟨⟨_, hget⟩, hown⟩
    · obtain ⟨js', hJ', hlive⟩ := h.mem_jobs_iff.mp hmem
      obtain rfl := Option.some.inj (hJ.symm.trans hJ')
      exact hlive hdead

/-- What the abstract state holds, the store holds. -/
theorem Represents.alive_or_retained (h : Represents a rows idx) (hkeeps : a.Keeps job) :
    rows.Alive job ∨ rows.Retained job := by
  obtain ⟨js, hq, hJ, hcontent⟩ := hkeeps
  by_cases hdead : js.place.IsDead
  · exact .inr (h.retained hJ hcontent hdead)
  · exact .inl (h.alive hJ hcontent hdead)

end Held

/-! ### What ends a job -/

section Ends

variable [Prost]

/-- The job is leased on its last attempt, and the lease is over at `now`. -/
def Rows.LeaseSpent (rows : Rows) (job : PreparedJob) (now : Int64) : Prop :=
  ∃ attempt expires, rows.LeasedUntil job.id attempt expires ∧ ¬ now < expires ∧
    job.limits.maxAttempts ≤ attempt

/-- The call ends the job, from some rows to others: it acks the job, purges its queue or gives it
up without a dead letter, or it takes or discards the job's dead letter. A sweep or a purge whose
budget is used up before it gets to the job does not end it. -/
def Call.Ends (job : PreparedJob) (rows rows' : Rows) : Call → Prop
  | answered (.ack id _) (.ok _) => id = job.id
  | answered (.purgeQueueChunk queue _) (.ok _) => queue = job.req.queue ∧ rows'.Lacks job.id
  | answered (.nack req _ kept _) (.ok (.nack r)) =>
    req.jobId = job.id ∧ r.deadLettered = true ∧ kept = false
  | answered (.deadLetterJobs _ _ _ _ kept _) (.ok (.deadLetterJobs r)) =>
    job.id ∈ r.jobIds ∧ kept = false
  | answered (.drainDeadLetters ..) (.ok (.drainDeadLetters records)) =>
    ∃ record ∈ records, record.job.map Job.id = some job.id
  | answered (.deleteDeadLetters queue keys) (.ok _) =>
    queue = job.req.queue ∧
      ∃ key ∈ keys, key ∈ rows.deadLetter ∧ DeadLetterKey.jobIdOf key = some job.id
  | answered (.sweep now _ cutoff kept) (.ok _) =>
    ((kept = false ∧ rows.LeaseSpent job now) ∨
      ∃ limit failedAt, cutoff = some limit ∧ ¬ limit < failedAt ∧
        ((∃ record, rows.Buried job.id record ∧
          record.failedAt = some (millisToTimestamp failedAt)) ∨
        -- a dead letter that the same sweep has just made
        kept = true ∧ failedAt = now ∧ rows.LeaseSpent job now)) ∧ rows'.Lacks job.id
  | _ => False

/-- A call that does not end the job. -/
structure KeepingStep (job : PreparedJob) (server : Server) (call : Call) (server' : Server) :
    Prop where
  step : CallStep server call server'
  keeps : ¬ call.Ends job server.rows server'.rows

/-- A step of a job keeps its content, or the job is gone. -/
theorem JobStep.content_eq {id : String} {js : JobState} {e : Event} {x' : Option JobState}
    (h : JobStep id (some js) e x') : x' = none ∨ ∃ js', x' = some js' ∧ js'.content = js.content := by
  cases h with
  | other | lease | retry | extend | promote | redeliver | keep | requeue => exact .inr ⟨_, rfl, rfl⟩
  | ack | drop | discard | purge => exact .inl rfl

/-- A job is gone after a run because of one of its steps. -/
theorem kept_or_removed {id : String} {js : JobState} {evs : List Event} {x' : Option JobState}
    (h : Trace (JobStep id) (some js) evs x') :
    (∃ js', x' = some js' ∧ js'.content = js.content) ∨
      ∃ before e after js', evs = before ++ e :: after ∧
        Trace (JobStep id) (some js) before (some js') ∧ js'.content = js.content ∧
        JobStep id (some js') e none ∧ Trace (JobStep id) none after x' := by
  refine Trace.history (P := fun evs x' => (∃ js', x' = some js' ∧ js'.content = js.content) ∨
    ∃ before e after js', evs = before ++ e :: after ∧
      Trace (JobStep id) (some js) before (some js') ∧ js'.content = js.content ∧
      JobStep id (some js') e none ∧ Trace (JobStep id) none after x') (.inl ⟨js, rfl, rfl⟩)
    (fun evs e x x' htrace ih hstep => ?_) h
  rcases ih with ⟨js', rfl, hcontent⟩ | ⟨before, e', after, js', rfl, hbefore, hjs', hend, hafter⟩
  · rcases hstep.content_eq with rfl | ⟨js'', rfl, hcontent'⟩
    · exact .inr ⟨evs, e, [], js', rfl, htrace, hcontent, hstep, .nil _⟩
    · exact .inl ⟨js'', rfl, hcontent'.trans hcontent⟩
  · exact .inr ⟨before, e', after ++ [e], js', by simp, hbefore, hjs', hend,
      hafter.append (.single hstep)⟩

/-- An operation that enqueues nothing brings no job back. -/
theorem eq_none_of_trace {id : String} {x' : Option JobState} {evs : List Event} {op : Op}
    (h : Trace (JobStep id) none evs x') (hevs : ∀ e ∈ evs, op.Makes e) (hjobs : op.jobs = []) :
    x' = none := by
  refine h.preserves (P := fun y => y = none) (fun y e y' he hstep hy => ?_) rfl
  subst hy
  cases hstep with
  | other => rfl
  | insert =>
    have hmem := (hevs _ he).mem_jobs
    rw [hjobs] at hmem
    cases hmem

/-- The job is leased on its last attempt, and the lease is over at `now`. -/
def LeaseOver (now : Int64) (x : Option JobState) : Prop :=
  ∃ js attempt expires, x = some js ∧ js.place = .leased attempt expires ∧ ¬ now < expires ∧
    js.content.maxAttempts ≤ attempt

/-- In the course of a sweep a job is as it was, or ready, or given up with its last lease over. -/
theorem place_of_sweep {id : String} {x x' : Option JobState} {evs : List Event} {now : Int64}
    {cutoff : Option Int64} {kept : Bool} (h : Trace (JobStep id) x evs x')
    (hevs : ∀ e ∈ evs, SweepEvent now cutoff kept e) :
    x' = x ∨ ∀ js, x' = some js → (∃ attempt, js.place = .ready attempt) ∨
      (kept = true ∧ LeaseOver now x) ∧
        ∃ attempt cause reason, js.place = .dead attempt now cause reason := by
  refine h.preserves (P := fun y => y = x ∨ ∀ js, y = some js → (∃ attempt, js.place =
    .ready attempt) ∨ (kept = true ∧ LeaseOver now x) ∧ ∃ attempt cause reason, js.place =
      .dead attempt now cause reason) (fun y e y' he hstep hy => ?_) (.inl rfl)
  have hevent := hevs e he
  cases hstep with
  | other => exact hy
  | insert | lease | ack | retry | extend | requeue | purge => cases hevent
  | promote | redeliver =>
    refine .inr fun js hjs => .inl ?_
    obtain rfl := Option.some.inj hjs
    exact ⟨_, rfl⟩
  | drop | discard => exact .inr fun js hjs => by cases hjs
  | keep hgiven =>
    cases hevent
    refine .inr fun js hjs => .inr ?_
    obtain rfl := Option.some.inj hjs
    obtain ⟨hlast, expires, hplace, hdue⟩ := hgiven
    rcases hy with rfl | hy
    · exact ⟨⟨rfl, _, _, expires, rfl, hplace, hdue, hlast⟩, _, _, _, rfl⟩
    · rcases hy _ rfl with ⟨n, hready⟩ | ⟨-, n, cause, reason, hplace'⟩
      · cases hplace.symm.trans hready
      · cases hplace.symm.trans hplace'

/-- In the course of a deletion of dead letters a job is as it was, or gone. -/
theorem eq_or_none_of_delete {id queue : String} {keys : List Bytes} {x x' : Option JobState}
    {evs : List Event} (h : Trace (JobStep id) x evs x')
    (hevs : ∀ e ∈ evs, (Op.deleteDeadLetters queue keys).Makes e) : x' = x ∨ x' = none := by
  refine h.preserves (P := fun y => y = x ∨ y = none) (fun y e y' he hstep hy => ?_) (.inl rfl)
  obtain ⟨id', record, key, -, rfl⟩ := hevs e he
  cases hstep with
  | other => exact hy
  | discard => exact .inr rfl

variable {job : PreparedJob}

variable {server : Server} {rows' : Rows} {a : Image} {js y : JobState} {op : Op} {r : OpOutcome}
  {evs before after : List Event} {attempt : UInt32} {failedAt : Int64} {cause : DeadLetterCause}
  {reason : Option String}

/-- A job whose last lease is over, with the rows that show it. -/
theorem Server.Shows.leaseSpent (hshows : server.Shows a) (hJ : a.jobs job.id = some js)
    {hq : FitsPrefix job.req.queue} (hcontent : js.content = job.content hq) {now : Int64}
    (hover : LeaseOver now (some js)) : server.rows.LeaseSpent job now := by
  obtain ⟨js', attempt, expires, hjs, hp, hdue, hlast⟩ := hover
  obtain rfl := Option.some.inj hjs
  rw [hcontent] at hlast
  exact ⟨attempt, expires, hshows.leasedUntil_iff.mpr ⟨js, hJ, hp⟩, hdue, hlast⟩

/-- A job that is given up without a dead letter is ended by its call. -/
theorem Server.Shows.ends_of_drop (hshows : server.Shows a) (hJ : a.jobs job.id = some js)
    {hq : FitsPrefix job.req.queue} (hcontent : js.content = job.content hq)
    (hexp : (Call.answered op (.ok r)).Explained evs)
    (hbefore : Trace (JobStep job.id) (some js) before (some y)) (hsub : ∀ e ∈ before, e ∈ evs)
    (he : .bury job.id y.content.queue attempt failedAt cause reason false ∈ evs)
    (hgiven : y.GivenUp attempt failedAt cause) (hlacks : op.jobs = [] → rows'.Lacks job.id) :
    (Call.answered op (.ok r)).Ends job server.rows rows' := by
  have hmakes : ∀ e ∈ evs, op.Makes e := fun e he => Explains.makes hexp he
  rcases (hmakes _ he).of_bury with ⟨req, retryDelayMs, rfl, hid, -⟩ | ⟨state, keys, rfl, -⟩ |
    ⟨budget, cutoff, rfl, rfl, -⟩
  · cases r with
    | nack r =>
      change ExplainsNack req retryDelayMs false failedAt r evs at hexp
      unfold ExplainsNack at hexp
      split_ifs at hexp with hdead
      · exact ⟨hid, hdead, rfl⟩
      · obtain ⟨-, queue, rfl⟩ := hexp
        cases List.mem_singleton.mp he
    | _ => exact hexp.elim
  · cases r with
    | deadLetterJobs r =>
      refine ⟨?_, rfl⟩
      have hmem : some job.id ∈ evs.map Event.jobId? := List.mem_map_of_mem (f := Event.jobId?) he
      rw [hexp.1] at hmem
      exact (List.mem_map_of_injective (Option.some_injective _)).mp hmem
    | _ => exact hexp.elim
  · obtain ⟨hlast, expires, hplace, hdue⟩ := hgiven
    refine ⟨.inl ⟨rfl, hshows.leaseSpent hJ hcontent ?_⟩, hlacks rfl⟩
    rcases place_of_sweep hbefore (fun e he => hmakes e (hsub e he)) with heq | hother
    · obtain rfl := Option.some.inj heq
      exact ⟨y, _, expires, rfl, hplace, hdue, hlast⟩
    · rcases hother y rfl with ⟨n, hready⟩ | ⟨-, n, cause, reason, hplace'⟩
      · cases hplace.symm.trans hready
      · cases hplace.symm.trans hplace'

/-- A dead letter that is discarded is ended by its call. -/
theorem Server.Shows.ends_of_discard (hshows : server.Shows a) (hJ : a.jobs job.id = some js)
    {hq : FitsPrefix job.req.queue} (hcontent : js.content = job.content hq)
    (hexp : (Call.answered op (.ok r)).Explained evs) (hqueue : y.content.queue.1 = job.req.queue)
    (hbefore : Trace (JobStep job.id) (some js) before (some y)) (hsub : ∀ e ∈ before, e ∈ evs)
    (he : .discard job.id y.content.queue (y.deadKey job.id failedAt)
      (y.deadLetter job.id attempt failedAt cause reason) ∈ evs)
    (hplace : y.place = .dead attempt failedAt cause reason)
    (hlacks : op.jobs = [] → rows'.Lacks job.id) :
    (Call.answered op (.ok r)).Ends job server.rows rows' := by
  have hmakes : ∀ e ∈ evs, op.Makes e := fun e he => Explains.makes hexp he
  rcases (hmakes _ he).of_discard with ⟨filter, max, scanCap, rfl⟩ | ⟨keys, rfl, hkey⟩ |
    ⟨max, rfl⟩ | ⟨now, budget, limit, kept, rfl, hlimit⟩
  · cases r with
    | drainDeadLetters records =>
      have hmem := List.mem_map_of_mem (f := Event.record?) he
      rw [show evs.map Event.record? = records.map some from hexp] at hmem
      refine ⟨_, (List.mem_map_of_injective (Option.some_injective _)).mp hmem, rfl⟩
    | _ => exact hexp.elim
  · rcases eq_or_none_of_delete hbefore (fun e he => hmakes e (hsub e he)) with heq | hnone
    · obtain rfl := Option.some.inj heq
      have hrow := hshows.jobs.get_deadLetter hJ hplace
      exact ⟨hqueue, _, hkey, ExtTreeMap.mem_iff_exists.mpr ⟨_, hrow⟩,
        jobIdOf_deadKey job.id y failedAt⟩
    · cases hnone
  · exact ⟨hqueue, hlacks rfl⟩
  · rw [JobState.deadKey, DeadLetterKey.deadlineOf_encode] at hlimit
    refine ⟨.inr ⟨limit, failedAt, rfl, hlimit, ?_⟩, hlacks rfl⟩
    rcases place_of_sweep hbefore (fun e he => hmakes e (hsub e he)) with heq | hother
    · obtain rfl := Option.some.inj heq
      refine .inl ⟨_, hshows.buried_iff.mpr ⟨y, _, _, _, _, hJ, hplace, rfl⟩, rfl⟩
    · rcases hother y rfl with ⟨n, hready⟩ | ⟨⟨hkept, hover⟩, n, cause, reason, hplace'⟩
      · cases hplace.symm.trans hready
      · obtain ⟨-, rfl, -, -⟩ := Place.dead.inj (hplace.symm.trans hplace')
        exact .inr ⟨hkept, rfl, hshows.leaseSpent hJ hcontent hover⟩

/-- A call that does not end a job keeps it. -/
theorem TurnStep.keeps {t : Turn} {s s' : Server × Image} (h : TurnStep s t s')
    (hshows : s.1.Shows s.2) (hkeeps : s.2.Keeps job) (hends : ¬ t.call.Ends job s.1.rows s'.1.rows) :
    s'.2.Keeps job := by
  obtain ⟨call, evs⟩ := t
  have hexp : call.Explained evs := h.explained
  have hevents : Trace Step s.2 evs s'.2 := h.events
  change ¬ call.Ends job s.1.rows s'.1.rows at hends
  obtain ⟨js, hq, hJ, hcontent⟩ := hkeeps
  have htrace := jobs_of_trace hevents job.id
  rw [hJ] at htrace
  rcases kept_or_removed htrace with
    ⟨js', hJ', heq⟩ | ⟨before, e, after, y, rfl, hbefore, hy, hstep, hafter⟩
  · exact ⟨js', hq, hJ', heq.trans hcontent⟩
  refine absurd ?_ hends
  have he : e ∈ before ++ e :: after := by simp
  have hsub : ∀ e' ∈ before, e' ∈ before ++ e :: after := fun e' he' =>
    List.mem_append_left _ he'
  obtain ⟨op, r, rfl, hmakes⟩ := hexp.exists_op he
  have hqueue : y.content.queue.1 = job.req.queue := by
    rw [hy, hcontent]
    rfl
  have hlacks : op.jobs = [] → s'.1.rows.Lacks job.id := fun hjobs =>
    h.shows.lacks (eq_none_of_trace hafter (fun e' he' =>
      Explains.makes hexp (List.mem_append_right _ (List.mem_cons_of_mem _ he'))) hjobs)
  cases hstep with
  | ack hplace =>
    obtain rfl := hmakes.of_ack
    rfl
  | purge hplace =>
    obtain ⟨max, rfl⟩ := hmakes.of_purge
    exact ⟨hqueue, hlacks rfl⟩
  | drop hgiven reason =>
    exact hshows.ends_of_drop hJ hcontent hexp hbefore hsub he hgiven hlacks
  | discard hplace =>
    exact hshows.ends_of_discard hJ hcontent hexp hqueue hbefore hsub he hplace hlacks

end Ends

/-! ### Runs -/

section Runs

variable [Prost] {job : PreparedJob}

/-- A job that is inserted is kept. -/
theorem TurnStep.keeps_inserted {t : Turn} {s s' : Server × Image} (h : TurnStep s t s')
    (hinserts : t.call.Inserts job.id)
    (hown : ∀ job' ∈ t.call.jobs, job'.id = job.id → job' = job) : s'.2.Keeps job := by
  obtain ⟨call, evs⟩ := t
  have hexp : call.Explained evs := h.explained
  have hevents : Trace Step s.2 evs s'.2 := h.events
  obtain ⟨job', now, hmem, hid⟩ := hexp.inserts_iff.mp hinserts
  obtain ⟨op, r, rfl, hmakes⟩ := hexp.exists_op hmem
  obtain rfl := hown job' hmakes.mem_jobs hid
  obtain ⟨before, after, rfl⟩ := List.append_of_mem hmem
  obtain ⟨b, -, hrest⟩ := hevents.split
  obtain ⟨c, hinsert, hafter⟩ := hrest.split_first
  obtain ⟨hq, hJ⟩ : ∃ hq js, c.jobs job'.id = some js ∧ js.content = job'.content hq := by
    cases hinsert with
    | @insert _ now hq =>
      refine ⟨hq, job'.fresh hq now, ?_, rfl⟩
      rw [Image.rememberJob_jobs, Image.setJob_jobs, Function.update_self]
  obtain ⟨js, hJ, hcontent⟩ := hJ
  have htrace := jobs_of_trace hafter job'.id
  rw [hJ] at htrace
  rcases kept_or_removed htrace with ⟨js', hJ', heq⟩ | ⟨before', e, after', y, rfl, -, -, hstep, -⟩
  · exact ⟨js', hq, hJ', heq.trans hcontent⟩
  · -- an enqueue removes no job
    have hanswers : ∃ job₁ now, e.AnswersJob now job₁ := by
      have he := Explains.makes hexp (show e ∈ before ++ .insert job' now :: (before' ++ e :: after')
        by simp)
      obtain ⟨jobs, rfl | rfl, -⟩ := hmakes.of_insert
      all_goals
        obtain ⟨job₁, -, hanswers⟩ := he
        exact ⟨job₁, now, hanswers⟩
    obtain ⟨job₁, now₁, hanswers⟩ := hanswers
    cases hstep <;> exact hanswers.elim

/-- A run of calls that do not end the job keeps it, and delivers it as it was enqueued. -/
theorem keeps_of_turns {calls : List Call} {server server' : Server} {a : Image}
    {ids : List String} (h : Trace (KeepingStep job) server calls server') (hshows : server.Shows a)
    (hknows : a.Knows ids) (hwf : ∀ call ∈ calls, call.WellFormed)
    (hfresh : (ids ++ enqueuedIds calls).Nodup) (hkeeps : a.Keeps job) :
    (∃ a', server'.Shows a' ∧ a'.Keeps job) ∧
      ∀ call ∈ calls, ∀ held ∈ call.delivered, held.id = job.id → job.SameContent held := by
  induction h generalizing a ids with
  | nil => exact ⟨⟨a, hshows, hkeeps⟩, fun call hcall => by cases hcall⟩
  | @cons server mid server' call calls hstep _ ih =>
    have hids : ids ++ enqueuedIds (call :: calls) =
        (ids ++ call.jobs.map PreparedJob.id) ++ enqueuedIds calls := by
      simp [enqueuedIds]
    rw [hids] at hfresh
    have hnew : a.Fresh call.jobs := hknows.fresh (List.nodup_append.mp hfresh).1
    obtain ⟨evs, b, hturn, -⟩ := hstep.step.exists_turn hshows (hwf call List.mem_cons_self) hnew
    obtain ⟨hend, hdelivered⟩ := ih hturn.shows (hturn.knows hknows)
      (fun call' hcall' => hwf call' (List.mem_cons_of_mem _ hcall')) hfresh
      (hturn.keeps hshows hkeeps hstep.keeps)
    refine ⟨hend, List.forall_mem_cons.mpr ⟨fun held hheld hid => ?_, hdelivered⟩⟩
    obtain ⟨js, n, _, _, _, _, _, -, hJ, -, heq⟩ := hturn.exists_ready hheld
    obtain ⟨js', hq, hJ', hcontent⟩ := hkeeps
    rw [hid] at hJ heq
    obtain rfl := Option.some.inj (hJ.symm.trans hJ')
    rw [heq]
    obtain ⟨h₁, h₂, h₃, h₄, h₅, h₆, h₇, h₈⟩ := JobState.sameContent hcontent n
    exact ⟨h₁, h₂, h₃, h₄, h₅, h₆, h₇, h₈⟩

/-- A dead letter that a requeue names is put back in line as it was enqueued, on its first
attempt. -/
theorem Server.Shows.requeue_restores {server server' : Server} {a : Image} (hshows : server.Shows a)
    (hkeeps : a.Keeps job) {keys : List Bytes} {now : Int64} (hnow : 0 ≤ now.toInt)
    {r : RequeueOutcome} (hstep : CallStep server (.answered
      (.requeueDeadLetters job.req.queue keys now) (.ok (.requeueDeadLetters r))) server')
    {key : Bytes} (hkey : key ∈ keys) (hrow : key ∈ server.rows.deadLetter)
    (hid : DeadLetterKey.jobIdOf key = some job.id) :
    job.id ∈ r.jobIds ∧ server'.rows.Alive job ∧ server'.rows.Waits job.id 1 := by
  obtain ⟨a', hshows', hpicks⟩ := hshows.requeued hnow hstep
  obtain ⟨js, hq, hJ, hcontent⟩ := hkeeps
  obtain ⟨value, hvalue⟩ := ExtTreeMap.mem_iff_exists.mp hrow
  obtain ⟨id, hown, hrowOf⟩ := hshows.jobs.dead.rows.row_of_get hvalue
  obtain rfl := Option.some.inj (hid.symm.trans hown)
  obtain ⟨js', hJ', hrow'⟩ := (rowsOf_eq_some_iff _).mp hrowOf
  obtain rfl := Option.some.inj (hJ.symm.trans hJ')
  have hpicked : key ∈ a.picked .deadLetter job.req.queue keys := by
    refine Image.mem_picked_iff.mpr ⟨hkey, job.id, js, value, hJ, ?_, hrow'⟩
    rw [hcontent]
    rfl
  have hids := map_jobOf_of_hits hpicks.hits
  have hmem : job.id ∈ r.jobIds := by
    have hsome : some job.id ∈ r.jobIds.map some := by
      rw [hids, ← hid]
      exact List.mem_map_of_mem hpicked
    exact (List.mem_map_of_injective (Option.some_injective _)).mp hsome
  have hleaves : ∀ (js js' : JobState) (id : String), some (js.requeued ⟨now, hnow⟩) = some js' →
      JobState.row .deadLetter id js' = none := by
    intro js js' id hjs
    rw [← Option.some.inj hjs]
    rfl
  obtain ⟨js', hJ', hafter⟩ := job_of_hits hleaves hpicks.hits hmem
  obtain rfl := Option.some.inj (hJ.symm.trans hJ')
  refine ⟨hmem, hshows'.alive hafter hcontent fun hdead => hdead, ?_⟩
  exact hshows'.waits_iff.mpr ⟨_, hafter, .inl rfl⟩

/-- A job that was inserted is live or retained as it was enqueued, and is delivered as it was
enqueued, until a call ends it. A dead letter that is requeued is live again, on its first
attempt. -/
theorem Run.no_job_lost {calls later : List Call} {inserting : Call} {inserted server : Server}
    (h : Run (calls ++ [inserting]) inserted) (hjob : job ∈ inserting.jobs)
    (hinserts : inserting.Inserts job.id) (hlater : Trace (KeepingStep job) inserted later server)
    (hadm : Admissible (calls ++ [inserting] ++ later)) :
    (server.rows.Alive job ∨ server.rows.Retained job) ∧
    (∀ call ∈ later, ∀ held ∈ call.delivered, held.id = job.id → job.SameContent held) ∧
    ∀ (keys : List Bytes) (now : Int64) (r : RequeueOutcome) (server' : Server), 0 ≤ now.toInt →
      CallStep server (.answered (.requeueDeadLetters job.req.queue keys now)
        (.ok (.requeueDeadLetters r))) server' →
      ∀ key ∈ keys, key ∈ server.rows.deadLetter → DeadLetterKey.jobIdOf key = some job.id →
        job.id ∈ r.jobIds ∧ server'.rows.Alive job ∧ server'.rows.Waits job.id 1 := by
  obtain ⟨turns, a, hcalls, hturns, hshows, hknows⟩ := h.exists_turns
  have hkeeps : a.Keeps job := by
    obtain ⟨earlier, last, rfl, -, hlast⟩ := List.map_eq_append_iff.mp hcalls
    obtain ⟨turn, rfl, rfl⟩ := List.map_eq_singleton_iff.mp hlast
    obtain ⟨s, -, hturn⟩ := hturns.split_last
    refine hturn.keeps_inserted hinserts fun job' hjob' hid => ?_
    have hmem : ∀ job ∈ turn.call.jobs, job ∈ (calls ++ [turn.call]).flatMap Call.jobs :=
      fun job hjob => List.mem_flatMap.mpr ⟨turn.call, by simp, hjob⟩
    exact h.admissible.eq_of_id_eq (hmem job hjob) (hmem job' hjob') hid
  have hfresh := hadm.fresh
  rw [enqueuedIds, List.flatMap_append, List.map_append] at hfresh
  obtain ⟨⟨a', hshows', hkeeps'⟩, hdelivered⟩ := keeps_of_turns hlater hshows hknows
    (fun call hcall => hadm.wellFormed call (List.mem_append_right _ hcall)) hfresh hkeeps
  exact ⟨hshows'.alive_or_retained hkeeps', hdelivered,
    fun keys now r server' hnow hstep key hkey hrow hid =>
      hshows'.requeue_restores hkeeps' hnow hstep hkey hrow hid⟩

end Runs

/-- A job with a payload. -/
def keptJob : PreparedJob where
  id := "a"
  req := { queue := "emails", jobType := "send", payload := some { data := [1, 2, 3], encoding := "" } }
  limits := { priority := 5, maxAttempts := 3, dedupWindowMs := 60000 }

/-- An operator gives the job up. -/
def giveUpKept : Op :=
  .deadLetterJobs "emails" .ready
    [ReadyKey.encode { queue := "emails", priority := 5, enqueuedAt := 1000, jobId := "a" }] none
    true 2000

/-- The key of its dead letter. -/
def keptKey : Bytes :=
  DeadLetterKey.encode { failedAt := 2000, queue := "emails", jobId := asBytes "a" }

open WireFormat Server in
/-- The job is put back in line as it was enqueued. -/
theorem no_job_lost_giveUpKept :
    ∃ r server', CallStep (performAll [.enqueue [keptJob] 1000, giveUpKept] {}).2
        (.answered (.requeueDeadLetters "emails" [keptKey] 3000) (.ok (.requeueDeadLetters r)))
          server' ∧
      server'.rows.Alive keptJob ∧ server'.rows.Waits "a" 1 := by
  have hinsert : (performAll [.enqueue [keptJob] 1000] {}).1 =
      [] ++ [.answered (.enqueue [keptJob] 1000)
        (.ok (.enqueue [.ok { jobId := "a", deduplicated := false }]))] := by
    decide +kernel
  have hgiveUp : ((performAll [.enqueue [keptJob] 1000] {}).2.perform giveUpKept).1 =
      .answered giveUpKept (.ok (.deadLetterJobs ⟨1, 0, ["a"]⟩)) := by
    decide +kernel
  have hrun : Run (performAll [.enqueue [keptJob] 1000] {}).1
      (performAll [.enqueue [keptJob] 1000] {}).2 := Run.of_performAll (by decide) (by decide)
  rw [hinsert] at hrun
  have hstep := callStep_perform (performAll [.enqueue [keptJob] 1000] {}).2 giveUpKept
  rw [hgiveUp] at hstep
  obtain ⟨-, -, hrequeue⟩ := hrun.no_job_lost (List.mem_singleton_self keptJob)
    (List.mem_singleton_self _) (.single ⟨hstep, fun hends => by cases hends.2⟩)
    ⟨by decide, by decide⟩
  have hanswer : ((performAll [.enqueue [keptJob] 1000, giveUpKept] {}).2.perform
      (.requeueDeadLetters "emails" [keptKey] 3000)).1 = .answered
        (.requeueDeadLetters "emails" [keptKey] 3000) (.ok (.requeueDeadLetters ⟨1, 0, ["a"]⟩)) := by
    decide +kernel
  have hstep' := callStep_perform (performAll [.enqueue [keptJob] 1000, giveUpKept] {}).2
    (.requeueDeadLetters "emails" [keptKey] 3000)
  rw [hanswer] at hstep'
  refine ⟨_, _, hstep', (hrequeue [keptKey] 3000 _ _ (by decide) hstep' keptKey
    (List.mem_singleton_self _) ?_ ?_).2⟩
  · change keptKey ∈ (performAll [.enqueue [keptJob] 1000, giveUpKept] {}).2.rows.deadLetter
    decide +kernel
  · decide +kernel

end Sepp
